import Mathlib.Algebra.Order.Ring.Int

/-! Comparison of binary64 numbers. A number is given by its bits; the order of the
numbers that are not NaN is the order of the magnitudes with the sign, where the two
zeros are equal. -/

namespace Cplusplus

structure Binary64 where
  bits : UInt64
deriving DecidableEq

namespace Binary64

def magnitude (d : Binary64) : Nat := d.bits.toNat % 2 ^ 63

def negative (d : Binary64) : Bool := 2 ^ 63 ≤ d.bits.toNat

def isNaN (d : Binary64) : Bool := 0x7ff0000000000000 < d.magnitude

def key (d : Binary64) : Int := if d.negative then -(d.magnitude : Int) else d.magnitude

def lt (a b : Binary64) : Bool := !a.isNaN && !b.isNaN && a.key < b.key

def le (a b : Binary64) : Bool := !a.isNaN && !b.isNaN && a.key ≤ b.key

def eq (a b : Binary64) : Bool := !a.isNaN && !b.isNaN && a.key = b.key

def zero : Binary64 := ⟨0⟩

variable {a b : Binary64}

theorem lt_iff (left : a.isNaN = false) (right : b.isNaN = false) : a.lt b = true ↔ a.key < b.key := by
  simp [lt, left, right]

theorem le_iff (left : a.isNaN = false) (right : b.isNaN = false) : a.le b = true ↔ a.key ≤ b.key := by
  simp [le, left, right]

theorem eq_iff (left : a.isNaN = false) (right : b.isNaN = false) : a.eq b = true ↔ a.key = b.key := by
  simp [eq, left, right]

theorem compare_nan (nan : b.isNaN = true) : a.lt b = false ∧ a.le b = false ∧ a.eq b = false := by
  simp [lt, le, eq, nan]

/-- The natural numbers below 2^53 as doubles. -/
def ofNat (n : Nat) : Binary64 :=
  if n = 0 then zero else ⟨UInt64.ofNat ((1023 + n.log2) * 2 ^ 52 + (n - 2 ^ n.log2) * 2 ^ (52 - n.log2))⟩

theorem ofNat_bits {n : Nat} (positive : n ≠ 0) (small : n < 2 ^ 53) :
    ∃ fraction < 2 ^ 52, (ofNat n).bits.toNat = (1023 + n.log2) * 2 ^ 52 + fraction ∧ n.log2 ≤ 52 ∧
      n * 2 ^ (52 - n.log2) = 2 ^ 52 + fraction := by
  have low : 2 ^ n.log2 ≤ n := Nat.log2_self_le positive
  have high : n < 2 ^ (n.log2 + 1) := Nat.lt_log2_self
  have exponent : n.log2 ≤ 52 := by
    have := (Nat.log2_lt positive).mpr small
    omega
  have whole : 2 ^ n.log2 * 2 ^ (52 - n.log2) = 2 ^ 52 := by rw [← Nat.pow_add, Nat.add_sub_cancel' exponent]
  have fraction : (n - 2 ^ n.log2) * 2 ^ (52 - n.log2) < 2 ^ 52 := by
    rw [← whole]
    exact Nat.mul_lt_mul_of_pos_right (by rw [Nat.pow_succ] at high; omega) (Nat.pow_pos (by decide))
  refine ⟨_, fraction, ?_, exponent, ?_⟩
  · rw [ofNat, if_neg positive]
    refine (UInt64.toNat_ofNat' ..).trans (Nat.mod_eq_of_lt ?_)
    omega
  · rw [Nat.sub_mul, whole]
    have : 2 ^ 52 ≤ n * 2 ^ (52 - n.log2) := whole ▸ Nat.mul_le_mul_right _ low
    omega

theorem ofNat_number {n : Nat} (small : n < 2 ^ 53) : (ofNat n).isNaN = false := by
  rcases Nat.eq_zero_or_pos n with rfl | positive
  · decide
  · obtain ⟨fraction, below, bits, exponent, _⟩ := ofNat_bits (by omega) small
    rw [isNaN, magnitude, bits]
    apply decide_eq_false
    omega

theorem ofNat_key {n : Nat} (small : n < 2 ^ 53) : (ofNat n).key = (ofNat n).bits.toNat := by
  rcases Nat.eq_zero_or_pos n with rfl | positive
  · decide
  · obtain ⟨fraction, below, bits, exponent, _⟩ := ofNat_bits (by omega) small
    rw [key, negative, decide_eq_false (by omega), if_neg (by decide), magnitude, Nat.mod_eq_of_lt (by omega)]

theorem ofNat_inj {m n : Nat} (small : m < 2 ^ 53) (small' : n < 2 ^ 53) (same : (ofNat m).key = (ofNat n).key) : m = n := by
  rw [ofNat_key small, ofNat_key small', Int.natCast_inj] at same
  rcases Nat.eq_zero_or_pos m with rfl | positive <;> rcases Nat.eq_zero_or_pos n with rfl | positive'
  · rfl
  · obtain ⟨fraction, below, bits, exponent, _⟩ := ofNat_bits (n := n) (by omega) small'
    rw [bits] at same
    have : (ofNat 0).bits.toNat = 0 := by decide
    omega
  · obtain ⟨fraction, below, bits, exponent, _⟩ := ofNat_bits (n := m) (by omega) small
    rw [bits] at same
    have : (ofNat 0).bits.toNat = 0 := by decide
    omega
  · obtain ⟨fraction, below, bits, exponent, value⟩ := ofNat_bits (n := m) (by omega) small
    obtain ⟨fraction', below', bits', exponent', value'⟩ := ofNat_bits (n := n) (by omega) small'
    rw [bits, bits'] at same
    have logs : m.log2 = n.log2 := by omega
    obtain rfl : fraction = fraction' := by omega
    rw [logs, ← value'] at value
    exact Nat.eq_of_mul_eq_mul_right (Nat.pow_pos (by decide)) value

end Binary64

end Cplusplus
