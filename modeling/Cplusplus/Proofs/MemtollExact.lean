import Cplusplus.Memtoll
import Cplusplus.Proofs.IntegerText
import Mathlib.Tactic.Linarith

/-! `memtoll` gives the number times its unit exactly when this fits in a long long. -/

namespace Cplusplus.Redis.Memtoll

open List
open CheckAof (strtol digitsValue digitsValue_append strtol_clamped)

variable {einval : Bool} {p s : List UInt8} {mul : Int}

def textValue (s : List UInt8) : Int := if s.headD 0 = 45 then -(digitsValue s.tail : Int) else digitsValue s

def amount (p : List UInt8) : Int := textValue (splitAmount p).1 * (unitMultiplier (splitAmount p).2).getD 0

def FitsLongLong (x : Int) : Prop := -2 ^ 63 ≤ x ∧ x < 2 ^ 63

structure Accepted (einval : Bool) (p : List UInt8) : Prop where
  unit : (unitMultiplier (splitAmount p).2).isSome
  short : (splitAmount p).1.length % 2 ^ 32 < 128
  number : copied p ≠ [45]
  some_ : einval = true → copied p ≠ []

def clamp (x : Int) : Int := max (min x (2 ^ 63 - 1)) (-2 ^ 63)

def SignedDigits (s : List UInt8) : Prop := ∃ digits, (∀ c ∈ digits, isDigit c = true) ∧ (s = digits ∨ s = 45 :: digits)

theorem splitAmount_signed (p : List UInt8) : SignedDigits (splitAmount p).1 := by
  unfold splitAmount
  split
  · exact ⟨_, fun c member => mem_takeWhile_imp member, .inr rfl⟩
  · exact ⟨_, fun c member => mem_takeWhile_imp member, .inl rfl⟩

theorem SignedDigits.take (signed : SignedDigits s) (n : Nat) : SignedDigits (s.take n) := by
  obtain ⟨digits, all, same | rfl⟩ := signed
  · rw [same]
    exact ⟨digits.take n, fun c member => all c (mem_of_mem_take member), .inl rfl⟩
  · cases n with
    | zero => exact ⟨[], by simp, .inl rfl⟩
    | succ n => exact ⟨digits.take n, fun c member => all c (mem_of_mem_take member), .inr rfl⟩

theorem head_digits {digits : List UInt8} (all : ∀ c ∈ digits, isDigit c = true) : digits.headD 0 ≠ 45 := by
  cases digits with
  | nil => decide
  | cons c digits =>
    rintro rfl
    exact absurd (all 45 mem_cons_self) (by decide)

theorem SignedDigits.strtol_eq (signed : SignedDigits s) (number : s ≠ [45]) : strtol s = (clamp (textValue s), []) := by
  have natural : ∀ n : Nat, clamp n = min (n : Int) (2 ^ 63 - 1) ∧ clamp (-(n : Int)) = max (-(n : Int)) (-2 ^ 63) := by
    intro n
    unfold clamp
    omega
  obtain ⟨digits, all, same⟩ := signed
  by_cases none_ : digits = []
  · subst none_
    rcases same with rfl | rfl
    · rfl
    · exact absurd rfl number
  · have ended : ∀ c ∈ ([] : List UInt8).head?, isDigit c = false := by simp
    have read := strtol_clamped all none_ ended
    rw [append_nil] at read
    rcases same with rfl | rfl
    · rw [read.1, textValue, if_neg (head_digits all), (natural _).1]
    · rw [read.2, textValue, headD_cons, if_pos rfl, tail_cons, (natural _).2]

theorem digitsValue_eq (s : List UInt8) : digitsValue s = (textValue s).natAbs := by
  unfold textValue
  split
  next minus =>
    cases s with
    | nil => rfl
    | cons c s =>
      obtain rfl : c = 45 := minus
      rw [Int.natAbs_neg, Int.natAbs_natCast]
      rfl
  next => rw [Int.natAbs_natCast]

theorem SignedDigits.empty (signed : SignedDigits s) (number : s ≠ [45]) : s.all (· == 45) = true ↔ s = [] := by
  obtain ⟨digits, all, same⟩ := signed
  constructor
  · intro minus
    cases digits with
    | nil => exact same.resolve_right number
    | cons c digits =>
      have digit := all c mem_cons_self
      have sign : c = 45 := by
        rcases same with rfl | rfl <;> simp_all
      subst sign
      exact absurd digit (by decide)
  · rintro rfl
    rfl

theorem unit_pos (unit : unitMultiplier s = some mul) : 1 ≤ mul := by
  unfold unitMultiplier at unit
  split_ifs at unit <;> obtain rfl := Option.some.inj unit <;> decide

theorem memtoll_accepted (accepted : Accepted einval p) (unit : unitMultiplier (splitAmount p).2 = some mul) :
    memtoll einval p = some (wrap (clamp (textValue (copied p)) * mul)) := by
  have signed := (splitAmount_signed p).take ((splitAmount p).1.length % 2 ^ 32)
  have read : strtol (copied p) = (clamp (textValue (copied p)), []) := signed.strtol_eq accepted.number
  have valid : ¬ ((clamp (textValue (copied p)) = 0 ∧ einval = true ∧ (copied p).all (· == 45) = true) ∨ ([] : List UInt8) ≠ []) := by
    rintro (⟨-, wanted, all⟩ | left)
    · exact accepted.some_ wanted ((signed.empty accepted.number).mp all)
    · exact left rfl
  have short := accepted.short
  unfold memtoll
  rw [unit]
  simp only [read]
  rw [if_neg (by omega), if_neg valid]

theorem memtoll_refused (refused : ¬ Accepted einval p) : memtoll einval p = none := by
  unfold memtoll
  split
  next => rfl
  next mul unit =>
    split
    next => rfl
    next short =>
      simp only
      rw [if_pos]
      by_cases number : copied p = [45]
      · rw [number]
        exact .inr (by decide)
      · have signed := (splitAmount_signed p).take ((splitAmount p).1.length % 2 ^ 32)
        have read : strtol (copied p) = _ := signed.strtol_eq number
        have empty : einval = true ∧ copied p = [] := by
          by_contra other
          exact refused ⟨by rw [unit]; rfl, by omega, number, fun wanted none_ => other ⟨wanted, none_⟩⟩
        rw [empty.2]
        exact .inl ⟨rfl, empty.1, rfl⟩

theorem wrap_fits (x : Int) : FitsLongLong (wrap x) := by
  have low := Int.le_bmod (x := x) (m := 2 ^ 64) (by decide)
  have high := Int.bmod_lt (x := x) (m := 2 ^ 64) (by decide)
  unfold FitsLongLong wrap
  omega

theorem wrap_same {x : Int} (fits : FitsLongLong x) : wrap x = x := by
  obtain ⟨low, high⟩ := fits
  exact Int.bmod_eq_of_le (by omega) (by omega)

section
variable (unit : unitMultiplier (splitAmount p).2 = some mul)
include unit

theorem amount_eq : amount p = textValue (splitAmount p).1 * mul := by
  rw [amount, unit, Option.getD_some]

theorem number_fits (fits : FitsLongLong (amount p)) : FitsLongLong (textValue (splitAmount p).1) := by
  have positive := unit_pos unit
  rw [amount_eq unit] at fits
  obtain ⟨low, high⟩ := fits
  constructor
  · by_contra below
    have more := mul_le_mul_of_nonneg_right (show textValue (splitAmount p).1 ≤ -2 ^ 63 - 1 by omega) (show (0 : Int) ≤ mul by omega)
    have least := mul_le_mul_of_nonneg_left positive (show (0 : Int) ≤ 2 ^ 63 + 1 by decide)
    linarith
  · by_contra above
    have more := mul_le_mul_of_nonneg_right (show 2 ^ 63 ≤ textValue (splitAmount p).1 by omega) (show (0 : Int) ≤ mul by omega)
    have least := mul_le_mul_of_nonneg_left positive (show (0 : Int) ≤ 2 ^ 63 by decide)
    linarith

end

/-- With 2^32 digits or more, a part of the number that is not zero makes it too large. -/
theorem copied_zero (long : 2 ^ 32 ≤ (splitAmount p).1.length) (short : (splitAmount p).1.length % 2 ^ 32 < 128)
    (fits : FitsLongLong (textValue (splitAmount p).1)) : textValue (copied p) = 0 := by
  by_contra nonzero
  have first : 1 ≤ digitsValue (copied p) := by
    rw [digitsValue_eq]
    omega
  have split : (splitAmount p).1 = copied p ++ (splitAmount p).1.drop ((splitAmount p).1.length % 2 ^ 32) := (take_append_drop _ _).symm
  have left : 64 ≤ ((splitAmount p).1.drop ((splitAmount p).1.length % 2 ^ 32)).length := by
    rw [length_drop]
    omega
  have value := congrArg digitsValue split
  rw [digitsValue_append, digitsValue_eq] at value
  have power : 10 ^ 64 ≤ 10 ^ ((splitAmount p).1.drop ((splitAmount p).1.length % 2 ^ 32)).length := Nat.pow_le_pow_right (by decide) left
  have product := Nat.mul_le_mul first power
  obtain ⟨low, high⟩ := fits
  omega

/-- The result of `memtoll`, if there is one, is the exact product if and only if the product fits in a
long long and, where it is not zero, its digits can be counted in an unsigned int. -/
theorem memtoll_exact_iff (einval : Bool) (p : List UInt8) : (∀ r, memtoll einval p = some r → r = amount p) ↔
    (Accepted einval p → FitsLongLong (amount p) ∧ ((splitAmount p).1.length < 2 ^ 32 ∨ amount p = 0)) := by
  by_cases accepted : Accepted einval p
  · obtain ⟨mul, unit⟩ := Option.isSome_iff_exists.mp accepted.unit
    have result := memtoll_accepted accepted unit
    constructor
    · intro exact_ _
      have same := exact_ _ result
      have fits : FitsLongLong (amount p) := by
        rw [← same]
        exact wrap_fits _
      refine ⟨fits, ?_⟩
      rcases Nat.lt_or_ge (splitAmount p).1.length (2 ^ 32) with short | long
      · exact .inl short
      · rw [copied_zero long accepted.short (number_fits unit fits), show clamp 0 = 0 from rfl, Int.zero_mul] at same
        exact .inr same.symm
    · intro condition r read
      obtain ⟨fits, counted⟩ := condition accepted
      obtain rfl := Option.some.inj (result.symm.trans read)
      have number := number_fits unit fits
      rcases Nat.lt_or_ge (splitAmount p).1.length (2 ^ 32) with short | long
      · have whole : copied p = (splitAmount p).1 := by
          rw [copied, Nat.mod_eq_of_lt short, take_length]
        have inside : clamp (textValue (splitAmount p).1) = textValue (splitAmount p).1 := by
          obtain ⟨low, high⟩ := number
          unfold clamp
          omega
        rw [whole, inside, ← amount_eq unit, wrap_same fits]
      · rw [copied_zero long accepted.short number, counted.resolve_left (by omega)]
        rw [show clamp 0 = 0 from rfl, Int.zero_mul]
        rfl
  · refine iff_of_true (fun r read => ?_) fun other => absurd other accepted
    rw [memtoll_refused accepted] at read
    cases read

/-- 2^63 becomes LLONG_MAX. -/
theorem memtoll_saturates : ¬ ∀ (einval : Bool) (p : List UInt8) (r : Int), memtoll einval p = some r → r = amount p := by
  intro all
  have result := all false [57, 50, 50, 51, 51, 55, 50, 48, 51, 54, 56, 53, 52, 55, 55, 53, 56, 48, 56] (2 ^ 63 - 1) (by decide +kernel)
  exact absurd result (by decide +kernel)

end Cplusplus.Redis.Memtoll
