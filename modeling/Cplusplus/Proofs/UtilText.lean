import Cplusplus.Library.Decimal
import Cplusplus.Util

/-! What `string2ll` accepts, `ll2string` prints again. -/

namespace Cplusplus.Redis
open Decimal List

private theorem digits10_small {v : Nat} (bound : v < 1000000000000) (fuel : Nat) : digits10Fuel (fuel + 1) v = (decimal v).length := by
  have length : ∀ k, k = 0 ∨ 10 ^ k ≤ v → v < 10 ^ (k + 1) → k + 1 = (decimal v).length := fun k low high =>
    (decimal_length low high).symm
  unfold digits10Fuel
  split
  next below => exact length 0 (by omega) (by omega)
  next =>
    split
    next below => exact length 1 (by omega) (by omega)
    next =>
      split
      next below => exact length 2 (by omega) (by omega)
      next =>
        split
        next =>
          split
          next =>
            split
            next => exact length 3 (by omega) (by omega)
            next =>
              split
              next => exact length 5 (by omega) (by omega)
              next => exact length 4 (by omega) (by omega)
          next =>
            split
            next => exact length 7 (by omega) (by omega)
            next => exact length 6 (by omega) (by omega)
        next =>
          split
          next =>
            split
            next => exact length 9 (by omega) (by omega)
            next => exact length 8 (by omega) (by omega)
          next =>
            split
            next => exact length 11 (by omega) (by omega)
            next => exact length 10 (by omega) (by omega)

theorem digits10_spec {v : Nat} (bound : v < 2 ^ 64) : digits10 v = (decimal v).length := by
  rcases Nat.lt_or_ge v 1000000000000 with small | large
  · exact digits10_small small 2
  · rw [decimal_length_div 12 (by omega), show (10 : Nat) ^ 12 = 1000000000000 from rfl,
      ← digits10_small (show v / 1000000000000 < 1000000000000 by omega) 1, digits10, digits10Fuel]
    simp only [show ¬ v < 10 by omega, show ¬ v < 100 by omega, show ¬ v < 1000 by omega, show ¬ v < 1000000000000 by omega, if_false]

private theorem digitPairs_spec : ∀ r < 100, digitPairs.getD (r * 2) 0 = digit (r / 10) ∧ digitPairs.getD (r * 2 + 1) 0 = digit (r % 10) := by
  decide +kernel

private theorem ll2stringLoop_spec (fuel value : Nat) (out : List UInt8) (bound : value < 100 ^ fuel) (positive : 0 < fuel) :
    ll2stringLoop fuel value out = decimal value ++ out := by
  induction fuel generalizing value out with
  | zero => omega
  | succ fuel ih =>
    simp only [ll2stringLoop]
    split
    next large =>
      obtain ⟨tens, ones⟩ := digitPairs_spec (value % 100) (Nat.mod_lt _ (by decide))
      have more : 0 < fuel := by
        rcases Nat.eq_zero_or_pos fuel with rfl | positive
        · omega
        · exact positive
      rw [ih _ _ (by rw [Nat.pow_succ] at bound; omega) more, tens, ones, decimal_split_hundred large]
      simp
    next small =>
      split
      next single => rw [decimal_of_lt single]; rfl
      next =>
        obtain ⟨tens, ones⟩ := digitPairs_spec value (by omega)
        rw [decimal_split (show 10 ≤ value by omega), decimal_of_lt (show value / 10 < 10 by omega), tens, ones]
        rfl

def numeral (v : Int) : List UInt8 := (if v < 0 then [45] else []) ++ decimal v.natAbs

variable {v : Int}

theorem ll2string_spec (bound : v.natAbs < 2 ^ 64) {dstlen : Nat} (fits : (numeral v).length < dstlen) : ll2string dstlen v = numeral v := by
  have out : ll2stringLoop 10 v.natAbs [] = decimal v.natAbs := by
    rw [ll2stringLoop_spec 10 _ _ (by omega) (by decide), append_nil]
  unfold numeral at fits ⊢
  simp only [ll2string, out, digits10_spec bound]
  by_cases negative : v < 0
  · simp only [negative, if_true, length_append, length_singleton] at fits ⊢
    rw [if_neg (by omega), Nat.add_sub_cancel_left]
    rfl
  · simp only [negative, if_false, nil_append, Nat.add_zero] at fits ⊢
    rw [if_neg (by omega), Nat.sub_self]
    rfl

theorem ll2string_roomy (bound : v.natAbs < 2 ^ 64) {dstlen : Nat} (room : 22 ≤ dstlen) : ll2string dstlen v = numeral v := by
  apply ll2string_spec bound
  have digits : (decimal v.natAbs).length ≤ 20 := by
    rw [decimal, length_map, Nat.length_toDigits_le_iff (by decide) (by decide)]
    omega
  rw [numeral, length_append]
  split
  · rw [length_singleton]
    omega
  · rw [length_nil]
    omega

theorem numeral_length (low : -2 ^ 63 ≤ v) (high : v < 2 ^ 63) : (numeral v).length ≤ 20 := by
  have digits : (decimal v.natAbs).length ≤ 19 := by
    rw [decimal, length_map, Nat.length_toDigits_le_iff (by decide) (by decide)]
    omega
  rw [numeral, length_append]
  split <;> simp only [length_singleton, length_nil] <;> omega

private theorem digit_of_isDigit {c : UInt8} (isDigit : isDigit c = true) : c.toNat - 48 < 10 ∧ digit (c.toNat - 48) = c := by
  simp only [Redis.isDigit, Bool.and_eq_true, decide_eq_true_eq] at isDigit
  refine ⟨by omega, ?_⟩
  apply UInt8.toNat_inj.mp
  rw [digit_toNat (by omega)]
  omega

private theorem string2llLoop_spec {p : List UInt8} {v w : Nat} (positive : 0 < v)
    (read : string2llLoop v p = some (w, [])) : decimal w = decimal v ++ p := by
  induction p generalizing v with
  | nil =>
    simp only [string2llLoop, Option.some.injEq, Prod.mk.injEq, and_true] at read
    simp [read]
  | cons c p ih =>
    simp only [string2llLoop] at read
    split at read
    next isDigit =>
      obtain ⟨small, same⟩ := digit_of_isDigit isDigit
      split at read
      next => cases read
      next =>
        split at read
        next => cases read
        next =>
          rw [ih (by omega) read, Nat.mul_comm v 10, decimal_snoc positive small, same]
          simp
    next => cases read

theorem string2ll_numeral {s : List UInt8} (read : string2ll s = some v) : numeral v = s ∧ -2 ^ 63 ≤ v ∧ v < 2 ^ 63 := by
  have digits : ∀ (c : UInt8) (p : List UInt8) (w : Nat), 49 ≤ c.toNat ∧ c.toNat ≤ 57 →
      string2llLoop (c.toNat - 48) p = some (w, []) → decimal w = c :: p := by
    intro c p w range read
    obtain ⟨small, same⟩ := digit_of_isDigit (c := c) (by simp [isDigit]; omega)
    rw [string2llLoop_spec (by omega) read, decimal_of_lt small, same]
    rfl
  unfold string2ll at read
  split at read
  next => cases read
  next nonempty =>
    split at read
    next zero =>
      cases read
      exact ⟨zero.symm, by decide, by decide⟩
    next =>
      simp only at read
      split at read
      next => cases read
      next c p text =>
        split at read
        next range =>
          split at read
          next w loop =>
            have printed := digits c p w range loop
            have positive : 0 < w := by
              rcases Nat.eq_zero_or_pos w with rfl | positive
              · rw [decimal_of_lt (by decide)] at printed
                cases printed
                exact absurd range.1 (by decide)
              · exact positive
            by_cases negative : s.head? = some 45
            · obtain ⟨rest, rfl⟩ := head?_eq_some_iff.mp negative
              simp only [head?_cons, if_true, tail_cons] at text read
              subst text
              split at read
              next => cases read
              next bound =>
                cases read
                simp only [llongMax] at bound
                refine ⟨?_, by omega, by omega⟩
                rw [numeral, if_pos (by omega), Int.natAbs_neg, Int.natAbs_natCast, printed]
                rfl
            · simp only [negative, if_false] at text read
              subst text
              split at read
              next => cases read
              next bound =>
                cases read
                simp only [llongMax] at bound
                refine ⟨?_, by omega, by omega⟩
                rw [numeral, if_neg (by omega), Int.natAbs_natCast, printed]
                rfl
          next => cases read
        next =>
          split at read
          next single =>
            -- the second test for a lone 0 repeats the first one
            cases s with
            | nil => simp at nonempty
            | cons a rest =>
              simp only [length_cons, Nat.add_eq_right, length_eq_zero_iff] at single
              obtain ⟨rfl, rfl⟩ := single
              by_cases negative : a = 45
              · simp [negative] at text
              · simp_all
          next => cases read

private theorem string2llLoop_append {p : List UInt8} {v w : Nat} (read : string2llLoop v p = some (w, [])) (q : List UInt8) :
    string2llLoop v (p ++ q) = string2llLoop w q := by
  induction p generalizing v with
  | nil =>
    simp only [string2llLoop, Option.some.injEq, Prod.mk.injEq, and_true] at read
    rw [read, nil_append]
  | cons c p ih =>
    simp only [string2llLoop, cons_append] at read ⊢
    split at read
    next isDigit =>
      split at read
      next => cases read
      next first =>
        split at read
        next => cases read
        next second =>
          rw [if_pos isDigit, if_neg first, if_neg second]
          exact ih read
    next => cases read

theorem isDigit_digit {d : Nat} (small : d < 10) : isDigit (digit d) = true := by
  simp only [isDigit, digit_toNat small, Bool.and_eq_true, decide_eq_true_eq]
  omega

/-- A positive number that fits an unsigned long long is read back digit by digit. -/
private theorem string2llLoop_decimal (n : Nat) (positive : 0 < n) (bound : n < 2 ^ 64) :
    ∃ d p, 0 < d ∧ d < 10 ∧ decimal n = digit d :: p ∧ string2llLoop d p = some (n, []) := by
  induction n using Nat.strong_induction_on with
  | _ n ih =>
    by_cases small : n < 10
    · exact ⟨n, [], positive, small, decimal_of_lt small, rfl⟩
    · obtain ⟨d, p, low, high, text, read⟩ := ih (n / 10) (by omega) (by omega) (by omega)
      refine ⟨d, p ++ [digit (n % 10)], low, high, ?_, ?_⟩
      · rw [decimal_split (by omega), text, cons_append]
      · have last : n % 10 < 10 := Nat.mod_lt _ (by decide)
        rw [string2llLoop_append read]
        simp only [string2llLoop, isDigit_digit last, digit_toNat last, ullongMax, if_true]
        rw [if_neg (by omega), if_neg (by omega), Nat.add_sub_cancel_left, Nat.div_add_mod']

theorem string2ll_complete (low : -2 ^ 63 ≤ v) (high : v < 2 ^ 63) : string2ll (numeral v) = some v := by
  by_cases zero : v = 0
  · subst zero
    decide
  · obtain ⟨d, p, positive, small, text, read⟩ := string2llLoop_decimal v.natAbs (by omega) (by omega)
    have value := digit_toNat small
    have first : 49 ≤ (digit d).toNat ∧ (digit d).toNat ≤ 57 := by omega
    have digits : string2llLoop ((digit d).toNat - 48) p = some (v.natAbs, []) := by
      rw [value, Nat.add_sub_cancel_left]
      exact read
    by_cases negative : v < 0
    · have fits : ¬ llongMax + 1 < v.natAbs := by
        simp only [llongMax]
        omega
      simp only [numeral, text, negative, if_true, string2ll, cons_append, nil_append, length_cons,
        head?_cons, tail_cons, first, and_self, digits, fits, if_false]
      rw [if_neg (by omega), if_neg (by simp)]
      congr 1
      omega
    · have fits : ¬ llongMax < v.natAbs := by
        simp only [llongMax]
        omega
      have unsigned : digit d ≠ 45 := fun same => by
        rw [same] at first
        exact absurd first.1 (by decide)
      have nonzero : digit d ≠ 48 := fun same => by
        rw [same] at first
        exact absurd first.1 (by decide)
      simp only [numeral, text, negative, if_false, string2ll, nil_append, length_cons, head?_cons,
        Option.some.injEq, unsigned, first, and_self, if_true, digits, fits, cons.injEq, nonzero, false_and]
      rw [if_neg (by omega)]
      congr 1
      omega

theorem numeral_injective {v w : Int} (left : -2 ^ 63 ≤ v ∧ v < 2 ^ 63) (right : -2 ^ 63 ≤ w ∧ w < 2 ^ 63)
    (same : numeral v = numeral w) : v = w := by
  have read := string2ll_complete left.1 left.2
  rw [same, string2ll_complete right.1 right.2] at read
  exact (Option.some.inj read).symm

end Cplusplus.Redis
