import Mathlib.Data.Nat.Bitwise
import Mathlib.Tactic.Linarith

/-! Words ordered by their reversed bits. The low `j` bits of a word are the
leading `j` digits of its reversal, so the words that agree on them form one
interval of the reversed order, whatever `j` is. -/

namespace Cplusplus.BitReversal

open BitVec (getLsbD getLsbD_and getLsbD_not getLsbD_ofNat getLsbD_zero ofNat toNat_add toNat_ofNat toNat_or)

variable {w : Nat}

def position (x : BitVec w) : Nat := x.reverse.toNat

section
variable (x : BitVec w)

theorem position_lt : position x < 2 ^ w := x.reverse.isLt

theorem position_zero : position (0#w) = 0 := by
  rw [position, BitVec.reverse_eq_zero_iff.mpr rfl, toNat_ofNat, Nat.zero_mod]

theorem testBit_position (i : Nat) (inside : i < w) : (position x).testBit i = x.toNat.testBit (w - 1 - i) := by
  rw [position, ← getLsbD, BitVec.getLsbD_reverse, BitVec.getMsbD_eq_getLsbD]
  simp [inside, getLsbD]

theorem testBit_position_of_le (i : Nat) (outside : w ≤ i) : (position x).testBit i = false := by
  apply Nat.testBit_lt_two_pow
  exact Nat.lt_of_lt_of_le (position_lt x) (Nat.pow_le_pow_right (by decide) outside)

theorem toNat_and_mask {j : Nat} (bound : j ≤ w) : (x &&& ofNat w (2 ^ j - 1)).toNat = x.toNat % 2 ^ j := by
  have small : 2 ^ j - 1 < 2 ^ w := Nat.lt_of_lt_of_le (Nat.sub_lt (Nat.two_pow_pos j) Nat.one_pos) (Nat.pow_le_pow_right (by decide) bound)
  rw [BitVec.toNat_and, toNat_ofNat, Nat.mod_eq_of_lt small, Nat.and_two_pow_sub_one_eq_mod]

theorem testBit_fill {j i : Nat} (inside : i < w) : (x ||| ~~~ofNat w (2 ^ j - 1)).toNat.testBit i = (x.toNat.testBit i || decide (j ≤ i)) := by
  rw [← getLsbD, BitVec.getLsbD_or, getLsbD_not, getLsbD_ofNat, Nat.testBit_two_pow_sub_one, getLsbD]
  by_cases low : i < j
  · simp [low, inside, show ¬ j ≤ i by omega]
  · simp [low, inside, show j ≤ i by omega]

theorem toNat_clear_mask (j : Nat) : (x &&& ~~~ofNat w (2 ^ j - 1)).toNat = x.toNat / 2 ^ j * 2 ^ j := by
  apply Nat.eq_of_testBit_eq
  intro i
  rw [Nat.testBit_mul_two_pow, Nat.testBit_div_two_pow, ← getLsbD, getLsbD_and,
    getLsbD_not, getLsbD_ofNat, Nat.testBit_two_pow_sub_one, getLsbD]
  by_cases inside : i < w
  · by_cases low : i < j
    · simp [low, inside, show ¬ j ≤ i by omega]
    · simp [low, inside, show j ≤ i by omega]
  · have outside : x.toNat.testBit i = false :=
      Nat.testBit_lt_two_pow (Nat.lt_of_lt_of_le x.isLt (Nat.pow_le_pow_right (by decide) (by omega)))
    by_cases high : j ≤ i <;> simp [outside, high]

theorem toNat_fill_low {j : Nat} (bound : j ≤ w) : (x ||| ofNat w (2 ^ j - 1)).toNat = x.toNat / 2 ^ j * 2 ^ j + (2 ^ j - 1) := by
  have below := Nat.sub_lt (Nat.two_pow_pos j) Nat.one_pos
  have small : 2 ^ j - 1 < 2 ^ w := Nat.lt_of_lt_of_le below (Nat.pow_le_pow_right (by decide) bound)
  rw [toNat_or, toNat_ofNat, Nat.mod_eq_of_lt small, Nat.mul_comm, Nat.two_pow_add_eq_or_of_lt below]
  apply Nat.eq_of_testBit_eq
  intro i
  rw [Nat.testBit_or, Nat.testBit_or, Nat.testBit_two_pow_sub_one, Nat.mul_comm, Nat.testBit_mul_two_pow, Nat.testBit_div_two_pow]
  by_cases low : i < j
  · simp [low]
  · simp [low, show j ≤ i by omega]

theorem toNat_count_high {j : Nat} (bound : j < w) : ((((x ||| ofNat w (2 ^ j - 1)) + 1#w) &&& ~~~ofNat w (2 ^ j - 1)) |||
      (x &&& ofNat w (2 ^ j - 1))).toNat = (x.toNat / 2 ^ j + 1) % 2 ^ (w - j) * 2 ^ j + x.toNat % 2 ^ j := by
  have one : (1#w).toNat = 1 := by simp [Nat.mod_eq_of_lt (Nat.one_lt_two_pow (show w ≠ 0 by omega))]
  have positive := Nat.two_pow_pos j
  have whole : 2 ^ w = 2 ^ j * 2 ^ (w - j) := by rw [← Nat.pow_add]; congr 1; omega
  have next : (x.toNat / 2 ^ j * 2 ^ j + (2 ^ j - 1) + 1) % 2 ^ w = (x.toNat / 2 ^ j + 1) % 2 ^ (w - j) * 2 ^ j := by
    rw [whole, Nat.mul_comm _ (2 ^ j), Nat.mul_comm _ (2 ^ j), ← Nat.mul_mod_mul_left, Nat.mul_add_one]
    congr 1
    omega
  rw [toNat_or, toNat_clear_mask, toNat_add, toNat_fill_low x (by omega), one, next,
    Nat.mul_div_cancel _ positive, toNat_and_mask x (by omega), Nat.mul_comm,
    Nat.two_pow_add_eq_or_of_lt (Nat.mod_lt _ positive)]

/-- Between two masks a word is zero when the count of its bits above the lower one
is a multiple of their quotient. -/
theorem and_masks_eq_zero_iff {j k : Nat} (bound : j + k ≤ w) :
    x &&& (ofNat w (2 ^ j - 1) ^^^ ofNat w (2 ^ (j + k) - 1)) = 0#w ↔ x.toNat / 2 ^ j % 2 ^ k = 0 := by
  have bit : ∀ i < w, (x &&& (ofNat w (2 ^ j - 1) ^^^ ofNat w (2 ^ (j + k) - 1))).getLsbD i =
      (x.toNat.testBit i && (decide (i < j) ^^ decide (i < j + k))) := by
    intro i inside
    rw [getLsbD_and, BitVec.getLsbD_xor, getLsbD_ofNat, getLsbD_ofNat, Nat.testBit_two_pow_sub_one, Nat.testBit_two_pow_sub_one, getLsbD]
    simp [inside]
  constructor
  · intro zero
    apply Nat.eq_of_testBit_eq
    intro i
    rw [Nat.testBit_mod_two_pow, Nat.testBit_div_two_pow, Nat.zero_testBit]
    by_cases inside : i < k
    · have clear := bit (i + j) (by omega)
      rw [zero, getLsbD_zero] at clear
      simpa [inside, show i + j < j + k by omega] using clear.symm
    · simp [inside]
  · intro zero
    apply BitVec.eq_of_getLsbD_eq
    intro i inside
    rw [bit i inside, getLsbD_zero]
    by_cases between : j ≤ i ∧ i < j + k
    · have clear := congrArg (fun n => n.testBit (i - j)) zero
      simp only [Nat.testBit_mod_two_pow, Nat.testBit_div_two_pow, Nat.zero_testBit, Nat.sub_add_cancel between.1] at clear
      simp only [show i - j < k by omega, decide_true, Bool.true_and] at clear
      rw [clear, Bool.false_and]
    · by_cases low : i < j
      · simp [low, show i < j + k by omega]
      · simp [low, show ¬ i < j + k by omega]

end

/-- Agreeing on the low `j` bits is agreeing on the leading digits of the position. -/
theorem position_div_eq_iff (x y : BitVec w) {j : Nat} (bound : j ≤ w) :
    position x / 2 ^ (w - j) = position y / 2 ^ (w - j) ↔ x.toNat % 2 ^ j = y.toNat % 2 ^ j := by
  constructor
  · intro same
    apply Nat.eq_of_testBit_eq
    intro i
    rw [Nat.testBit_mod_two_pow, Nat.testBit_mod_two_pow]
    by_cases low : i < j
    · have digit := congrArg (fun n => n.testBit (j - 1 - i)) same
      simp only [Nat.testBit_div_two_pow] at digit
      rw [testBit_position _ _ (by omega), testBit_position _ _ (by omega)] at digit
      have place : w - 1 - (j - 1 - i + (w - j)) = i := by omega
      simpa [low, place] using digit
    · simp [low]
  · intro same
    apply Nat.eq_of_testBit_eq
    intro i
    rw [Nat.testBit_div_two_pow, Nat.testBit_div_two_pow]
    by_cases inside : i + (w - j) < w
    · rw [testBit_position _ _ inside, testBit_position _ _ inside]
      have bit := congrArg (fun n => n.testBit (w - 1 - (i + (w - j)))) same
      simp only [Nat.testBit_mod_two_pow] at bit
      simpa [show w - 1 - (i + (w - j)) < j by omega] using bit
    · rw [testBit_position_of_le _ _ (by omega), testBit_position_of_le _ _ (by omega)]

/-- Filling the bits above the low `j` moves a word to the last position of its interval. -/
theorem position_fill (x : BitVec w) {j : Nat} (bound : j ≤ w) : position (x ||| ~~~ofNat w (2 ^ j - 1)) =
      position x / 2 ^ (w - j) * 2 ^ (w - j) + (2 ^ (w - j) - 1) := by
  rw [Nat.mul_comm, Nat.two_pow_add_eq_or_of_lt (Nat.sub_lt (Nat.two_pow_pos _) Nat.one_pos)]
  apply Nat.eq_of_testBit_eq
  intro i
  rw [Nat.testBit_or, Nat.testBit_two_pow_sub_one, Nat.mul_comm, Nat.testBit_mul_two_pow]
  by_cases inside : i < w
  · rw [testBit_position _ _ inside]
    rw [testBit_fill x (by omega), Nat.testBit_div_two_pow]
    by_cases high : w - j ≤ i
    · rw [Nat.sub_add_cancel high, testBit_position _ _ inside]
      simp [high, show ¬ j ≤ w - 1 - i by omega, show ¬ i < w - j by omega]
    · simp [high, show j ≤ w - 1 - i by omega, show i < w - j by omega]
  · rw [testBit_position_of_le _ _ (by omega), Nat.testBit_div_two_pow]
    simp only [show w - j ≤ i by omega, decide_true, Bool.true_and, Nat.sub_add_cancel, show ¬ i < w - j by omega, decide_false, Bool.or_false]
    rw [testBit_position_of_le _ _ (by omega)]

/-- Adding one in the reversed order, after filling the bits above the low `j`,
goes to the start of the next interval, or to zero after the last one. -/
theorem position_next (x : BitVec w) {j : Nat} (bound : j ≤ w) : position ((x ||| ~~~ofNat w (2 ^ j - 1)).reverse + 1#w).reverse =
      (position x / 2 ^ (w - j) + 1) * 2 ^ (w - j) % 2 ^ w := by
  have positive := Nat.two_pow_pos (w - j)
  rw [position, BitVec.reverse_reverse_eq, toNat_add, ← position, position_fill x bound]
  by_cases wide : w = 0
  · subst wide
    simp [Nat.mod_one]
  · have one : (1#w).toNat = 1 := by
      simp [Nat.mod_eq_of_lt (Nat.one_lt_two_pow wide)]
    rw [one, Nat.add_one_mul]
    congr 1
    omega

end Cplusplus.BitReversal
