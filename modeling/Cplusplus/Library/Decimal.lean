import Mathlib.Algebra.Ring.Nat
import Mathlib.Data.Nat.Log

/-! Decimal numerals as byte strings, and their length. -/

namespace Cplusplus.Decimal

open List

def digit (d : Nat) : UInt8 := UInt8.ofNat (48 + d)

def decimal (n : Nat) : List UInt8 := (Nat.toDigits 10 n).map fun c => UInt8.ofNat c.toNat

theorem digit_toNat {d : Nat} (small : d < 10) : (digit d).toNat = 48 + d := by
  simp only [digit, UInt8.toNat_ofNat']
  omega

theorem decimal_of_lt {n : Nat} (small : n < 10) : decimal n = [digit n] := by
  simp only [decimal, Nat.toDigits_of_lt_base small, map_cons, map_nil, Nat.toNat_digitChar_of_lt_ten small, digit]

theorem decimal_snoc {n d : Nat} (positive : 0 < n) (small : d < 10) : decimal (10 * n + d) = decimal n ++ [digit d] := by
  rw [decimal, ← Nat.toDigits_append_toDigits (by decide) positive small, map_append, ← decimal, ← decimal, decimal_of_lt small]

theorem decimal_split {n : Nat} (large : 10 ≤ n) : decimal n = decimal (n / 10) ++ [digit (n % 10)] := by
  rw [← decimal_snoc (by omega) (Nat.mod_lt _ (by decide)), Nat.div_add_mod]

theorem decimal_split_hundred {n : Nat} (large : 100 ≤ n) : decimal n = decimal (n / 100) ++ [digit (n % 100 / 10), digit (n % 100 % 10)] := by
  have upper : n / 10 / 10 = n / 100 := by omega
  have middle : n / 10 % 10 = n % 100 / 10 := by omega
  have lower : n % 10 = n % 100 % 10 := by omega
  rw [decimal_split (show 10 ≤ n by omega), decimal_split (show 10 ≤ n / 10 by omega), upper, middle, lower,
    append_assoc, cons_append, nil_append]

theorem decimal_ne_nil (n : Nat) : decimal n ≠ [] := by
  rcases Nat.lt_or_ge n 10 with small | large
  · simp [decimal_of_lt small]
  · simp [decimal_split large]

theorem decimal_between (n : Nat) : ∀ c ∈ decimal n, 48 ≤ c.toNat ∧ c.toNat ≤ 57 := by
  induction n using Nat.strongRecOn with
  | _ n ih =>
    have last : ∀ d, d < 10 → 48 ≤ (digit d).toNat ∧ (digit d).toNat ≤ 57 := by
      intro d small
      rw [digit_toNat small]
      omega
    rcases Nat.lt_or_ge n 10 with small | large
    · rw [decimal_of_lt small]
      intro c member
      exact mem_singleton.1 member ▸ last n small
    · rw [decimal_split large]
      intro c member
      obtain member | member := mem_append.1 member
      · exact ih (n / 10) (by omega) c member
      · exact mem_singleton.1 member ▸ last _ (Nat.mod_lt _ (by decide))

theorem decimal_length {n k : Nat} (low : k = 0 ∨ 10 ^ k ≤ n) (high : n < 10 ^ (k + 1)) : (decimal n).length = k + 1 := by
  induction k generalizing n with
  | zero => simp [decimal_of_lt (show n < 10 by omega)]
  | succ k ih =>
    have lower : 10 ^ k * 10 ≤ n := by simpa [Nat.pow_succ] using low
    have positive := Nat.pow_pos (n := k) (show 0 < 10 by decide)
    rw [decimal_split (by omega), length_append, ih (.inr ?_) ?_, length_singleton]
    · omega
    · rw [Nat.pow_succ] at high
      omega

theorem decimal_length_div {n : Nat} (k : Nat) (large : 10 ^ k ≤ n) : (decimal n).length = k + (decimal (n / 10 ^ k)).length := by
  induction k generalizing n with
  | zero => simp
  | succ k ih =>
    have positive := Nat.pow_pos (n := k) (show 0 < 10 by decide)
    rw [Nat.pow_succ] at large
    rw [decimal_split (by omega), length_append, ih (by omega), Nat.div_div_eq_div_mul, Nat.pow_succ, Nat.mul_comm]
    simp only [length_singleton]
    omega

end Cplusplus.Decimal
