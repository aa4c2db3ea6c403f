import Cplusplus.Proofs.UtilText
import Cplusplus.Sds
import Mathlib.Data.List.Induction
import Mathlib.Data.List.TakeWhile
import Mathlib.Tactic.Ring

/-! What `strtol` reads of a text that begins with digits, and of a decimal numeral. -/

namespace Cplusplus.Redis.CheckAof
open Cplusplus.Decimal List

theorem decimal_digits (n : Nat) : ∀ c ∈ decimal n, isDigit c = true := by
  induction n using Nat.strongRecOn with
  | _ n ih =>
    rcases Nat.lt_or_ge n 10 with small | large
    · rw [decimal_of_lt small]
      intro c member
      rw [mem_singleton.mp member]
      exact isDigit_digit small
    · rw [decimal_split large]
      intro c member
      rcases mem_append.mp member with earlier | last
      · exact ih (n / 10) (by omega) c earlier
      · rw [mem_singleton.mp last]
        exact isDigit_digit (Nat.mod_lt _ (by decide))

theorem digitsValue_snoc (digits : List UInt8) (c : UInt8) : digitsValue (digits ++ [c]) = 10 * digitsValue digits + (c.toNat - 48) := by
  simp [digitsValue]

theorem digitsValue_decimal (n : Nat) : digitsValue (decimal n) = n := by
  induction n using Nat.strongRecOn with
  | _ n ih =>
    rcases Nat.lt_or_ge n 10 with small | large
    · simp [decimal_of_lt small, digitsValue, digit_toNat small]
    · rw [decimal_split large, digitsValue_snoc, ih (n / 10) (by omega), digit_toNat (Nat.mod_lt _ (by decide))]
      omega

theorem digitsValue_append (front back : List UInt8) :
    digitsValue (front ++ back) = digitsValue front * 10 ^ back.length + digitsValue back := by
  induction back using List.reverseRecOn with
  | nil => simp [digitsValue]
  | append_singleton back c ih =>
    rw [← append_assoc, digitsValue_snoc, digitsValue_snoc, ih, length_append, length_singleton, Nat.pow_succ]
    ring

variable {front rest : List UInt8}

section
variable (digits : ∀ c ∈ front, isDigit c = true) (some_ : front ≠ [])
include digits some_

theorem strtolSign_digits :
    strtolSign ((front ++ rest).dropWhile isspace) = (false, front ++ rest) ∧ isspace ((front ++ rest).headD 0) = false := by
  obtain ⟨c, more, rfl⟩ := exists_cons_of_ne_nil some_
  have first : isDigit c = true := digits c mem_cons_self
  have range : 48 ≤ c.toNat ∧ c.toNat ≤ 57 := by simpa [isDigit] using first
  have solid : isspace c = false := by
    have above : ¬ c.toNat ≤ 13 := by omega
    have other : c ≠ 32 := by
      rintro rfl
      exact absurd range.1 (by decide)
    simp only [isspace, other, decide_false, Bool.false_or, Bool.and_eq_false_iff, decide_eq_false_iff_not]
    exact .inr fun low => above (by simpa using UInt8.le_iff_toNat_le.mp low)
  have unsigned : c ≠ 45 ∧ c ≠ 43 := by
    constructor <;> rintro rfl <;> exact absurd range.1 (by decide)
  refine ⟨?_, solid⟩
  rw [cons_append, dropWhile_cons, solid]
  simp only [Bool.false_eq_true, if_false, strtolSign, unsigned.1, unsigned.2]

theorem strtol_clamped (ended : ∀ c ∈ rest.head?, isDigit c = false) :
    strtol (front ++ rest) = (min (digitsValue front : Int) (2 ^ 63 - 1), rest) ∧
      strtol (45 :: (front ++ rest)) = (max (-(digitsValue front : Int)) (-2 ^ 63), rest) := by
  have after : rest.takeWhile isDigit = [] ∧ rest.dropWhile isDigit = rest := by
    cases rest with
    | nil => exact ⟨rfl, rfl⟩
    | cons other rest => simp [ended other rfl]
  have taken : (front ++ rest).takeWhile isDigit = front := by
    rw [takeWhile_append_of_pos digits, after.1, append_nil]
  have dropped : (front ++ rest).dropWhile isDigit = rest := by
    rw [dropWhile_append_of_pos digits, after.2]
  have minus : strtolSign ((45 :: (front ++ rest)).dropWhile isspace) = (true, front ++ rest) := rfl
  constructor
  · simp only [strtol, (strtolSign_digits digits some_).1, taken, dropped]
    rw [if_neg (by simp [some_])]
    simp only [Bool.false_eq_true, if_false]
  · simp only [strtol, minus, taken, dropped]
    rw [if_neg (by simp [some_])]
    simp only [if_true]

theorem strtol_digits (ended : ∀ c ∈ rest.head?, isDigit c = false)
    (bound : digitsValue front < 2 ^ 63) : strtol (front ++ rest) = ((digitsValue front : Int), rest) := by
  rw [(strtol_clamped digits some_ ended).1, Int.min_eq_left (by omega)]

end

theorem strtol_decimal {n : Nat} (bound : n < 2 ^ 63) : strtol (decimal n ++ [13, 10]) = ((n : Int), [13, 10]) := by
  have value := digitsValue_decimal n
  have ended : ∀ c ∈ ([13, 10] : List UInt8).head?, isDigit c = false := by
    rintro c ⟨⟩
    rfl
  rw [strtol_digits (decimal_digits n) (decimal_ne_nil n) ended (Nat.lt_of_le_of_lt (Nat.le_of_eq value) bound), value]

end Cplusplus.Redis.CheckAof

/-! The canonical decimal text of a 64-bit integer: both printers write it, and `string2ll` accepts
nothing else. -/

namespace Cplusplus.Redis.Sds
open CheckAof (digitsValue digitsValue_snoc digitsValue_decimal)
open Decimal

structure CanonicalDigits (digits : Bytes) : Prop where
  nonempty : digits ≠ []
  all : ∀ c ∈ digits, isDigit c = true
  leading : digits.head? = some 48 → digits = [48]

structure CanonicalDecimal (s : Bytes) (v : Int) : Prop where
  low : -2 ^ 63 ≤ v
  high : v < 2 ^ 63
  text : CanonicalDigits s ∧ v = digitsValue s ∨ ∃ digits, s = 45 :: digits ∧ digits ≠ [48] ∧ CanonicalDigits digits ∧ v = -(digitsValue digits : Int)

theorem canonicalDigits_decimal (n : Nat) : CanonicalDigits (decimal n) := by
  refine ⟨decimal_ne_nil n, fun c member => ?_, ?_⟩
  · have between := decimal_between n c member
    simp only [isDigit, Bool.and_eq_true, decide_eq_true_eq]
    exact between
  · induction n using Nat.strong_induction_on with
    | _ n ih =>
      intro leading
      rcases Nat.lt_or_ge n 10 with small | large
      · rw [decimal_of_lt small] at leading ⊢
        rw [Option.some.inj leading]
      · rw [decimal_split large, List.head?_append, Option.or_of_isSome (by simp [decimal_ne_nil])] at leading
        have zero := congrArg digitsValue (ih (n / 10) (by omega) leading)
        rw [digitsValue_decimal] at zero
        have : digitsValue [48] = 0 := rfl
        omega

theorem CanonicalDigits.eq_decimal {digits : Bytes} (canonical : CanonicalDigits digits) : digits = decimal (digitsValue digits) := by
  induction digits using List.reverseRecOn with
  | nil => exact absurd rfl canonical.nonempty
  | append_singleton digits c ih =>
    have last := canonical.all c (by simp)
    simp only [isDigit, Bool.and_eq_true, decide_eq_true_eq] at last
    have small : c.toNat - 48 < 10 := by omega
    have written : digit (c.toNat - 48) = c := by
      apply UInt8.toNat_inj.mp
      rw [digit_toNat small]
      omega
    by_cases first : digits = []
    · subst first
      simp [digitsValue, decimal_of_lt small, written]
    · have leading : digits.head? ≠ some 48 := fun zero => by
        have whole := canonical.leading (by rw [List.head?_append, zero]; rfl)
        have length := congrArg List.length whole
        simp at length
        exact first length
      have before : CanonicalDigits digits :=
        ⟨first, fun c member => canonical.all c (List.mem_append_left _ member), fun zero => absurd zero leading⟩
      have positive : 0 < digitsValue digits := by
        rcases Nat.eq_zero_or_pos (digitsValue digits) with zero | positive
        · have text := ih before
          rw [zero, decimal_of_lt (by decide)] at text
          rw [text] at leading
          exact absurd rfl leading
        · exact positive
      rw [digitsValue_snoc, decimal_snoc positive small, written, ← ih before]

theorem canonicalDecimal_iff {s : Bytes} {v : Int} : CanonicalDecimal s v ↔ numeral v = s ∧ -2 ^ 63 ≤ v ∧ v < 2 ^ 63 := by
  constructor
  · rintro ⟨low, high, ⟨canonical, rfl⟩ | ⟨digits, rfl, nonzero, canonical, rfl⟩⟩
    · refine ⟨?_, low, high⟩
      rw [numeral, if_neg (by omega), Int.natAbs_natCast, ← canonical.eq_decimal]
      rfl
    · refine ⟨?_, low, high⟩
      have positive : digitsValue digits ≠ 0 := fun zero => nonzero <| by
        rw [canonical.eq_decimal, zero, decimal_of_lt (by decide)]
        rfl
      rw [numeral, if_pos (by omega), Int.natAbs_neg, Int.natAbs_natCast, ← canonical.eq_decimal]
      rfl
  · rintro ⟨rfl, low, high⟩
    refine ⟨low, high, ?_⟩
    by_cases negative : v < 0
    · refine .inr ⟨decimal v.natAbs, by rw [numeral, if_pos negative]; rfl, fun zero => ?_, canonicalDigits_decimal _, ?_⟩
      · have value := congrArg digitsValue zero
        rw [digitsValue_decimal] at value
        have : digitsValue [48] = 0 := rfl
        omega
      · rw [digitsValue_decimal]
        omega
    · have text : numeral v = decimal v.natAbs := by
        rw [numeral, if_neg negative]
        rfl
      refine .inl ⟨text ▸ canonicalDigits_decimal _, ?_⟩
      rw [text, digitsValue_decimal]
      omega

theorem sdsll2strLoop_spec (fuel v : Nat) (s : Bytes) (bound : v < 10 ^ fuel) (positive : 0 < fuel) :
    sdsll2strLoop fuel v s = s ++ (decimal v).reverse := by
  induction fuel generalizing v s with
  | zero => omega
  | succ fuel ih =>
    simp only [sdsll2strLoop]
    split
    next more =>
      have left : 0 < fuel := by
        rcases Nat.eq_zero_or_pos fuel with rfl | positive
        · omega
        · exact positive
      rw [ih _ _ (by rw [Nat.pow_succ] at bound; omega) left, decimal_split (show 10 ≤ v by omega)]
      simp [digit]
    next last =>
      have small : v < 10 := by omega
      rw [decimal_of_lt small, Nat.mod_eq_of_lt small]
      rfl

theorem natAbs_toNat (value : BitVec 64) : (if value.slt 0 then -value else value).toNat = value.toInt.natAbs := by
  rw [BitVec.slt_eq_decide, show (0 : BitVec 64).toInt = 0 from rfl]
  have small := value.isLt
  have signed := BitVec.toInt_eq_toNat_cond value
  split
  next negative =>
    have negative := of_decide_eq_true negative
    rw [BitVec.toNat_neg]
    split at signed <;> omega
  next positive =>
    have positive : ¬ value.toInt < 0 := by simpa using positive
    split at signed <;> omega

theorem sdsll2str_spec (value : BitVec 64) : sdsll2str value = numeral value.toInt := by
  have bound : value.toInt.natAbs < 10 ^ 20 := by
    rw [← natAbs_toNat]
    have := (if value.slt 0 then -value else value).isLt
    omega
  simp only [sdsll2str, natAbs_toNat, sdsll2strLoop_spec 20 _ [] bound (by decide), List.nil_append]
  rw [BitVec.slt_eq_decide, show (0 : BitVec 64).toInt = 0 from rfl]
  by_cases negative : value.toInt < 0
  · simp [negative, numeral]
  · simp [negative, numeral]

/-- A buffer of 21 bytes, SDS_LLSTR_SIZE, is enough for both printers. -/
theorem conversions_agree (v : BitVec 64) (s : Bytes) (dstlen : Nat) (room : 21 ≤ dstlen) :
    string2ll (ll2string dstlen v.toInt) = some v.toInt ∧ ll2string dstlen v.toInt = sdsll2str v ∧
      ∀ w, string2ll s = some w ↔ CanonicalDecimal s w := by
  have low : -2 ^ 63 ≤ v.toInt := BitVec.le_toInt v
  have high : v.toInt < 2 ^ 63 := BitVec.toInt_lt
  have printed : ll2string dstlen v.toInt = numeral v.toInt :=
    ll2string_spec (by omega) (by have := numeral_length low high; omega)
  refine ⟨by rw [printed, string2ll_complete low high], by rw [printed, sdsll2str_spec], fun w => ?_⟩
  rw [canonicalDecimal_iff]
  constructor
  · exact string2ll_numeral
  · rintro ⟨rfl, low, high⟩
    exact string2ll_complete low high

theorem conversions_agree_min :
    string2ll (ll2string 21 (-2 ^ 63)) = some (-2 ^ 63) ∧ ll2string 21 (-2 ^ 63) = sdsll2str (BitVec.intMin 64) ∧
      (string2ll [45, 48] = some 0 ↔ CanonicalDecimal [45, 48] 0) :=
  ⟨(conversions_agree (BitVec.intMin 64) [45, 48] 21 (by decide)).1, (conversions_agree (BitVec.intMin 64) [45, 48] 21 (by decide)).2.1,
    (conversions_agree (BitVec.intMin 64) [45, 48] 21 (by decide)).2.2 0⟩

end Cplusplus.Redis.Sds
