import Mathlib.Data.Nat.Digits.Lemmas
import Cplusplus.Minicrt

/-! `itoa` gives the numerals of positive numbers that have no digit 33. `vfprintf` prints a format
as it should if and only if its characters are below 128, its strings shorter than 256 bytes and its
integers not negative. -/

namespace Cplusplus.Minicrt

open List

variable {radix : Nat} {n : Int}

theorem getD_length (front back : List UInt8) (c : UInt8) : (front ++ c :: back).getD front.length 0 = c := by
  simp [getD_eq_getElem?_getD]

theorem set_length (front back : List UInt8) (c d : UInt8) : (front ++ c :: back).set front.length d = front ++ d :: back := by
  simp

theorem reverseLoop_spec (mid front back : List UInt8) {fuel : Nat} (enough : mid.length ≤ fuel) :
    reverseLoop fuel (front ++ mid ++ back) front.length (front.length + mid.length - 1) = front ++ mid.reverse ++ back := by
  induction mid using List.bidirectionalRec generalizing front back fuel with
  | nil =>
    cases fuel with
    | zero => rfl
    | succ fuel => exact if_neg (by rw [length_nil]; omega)
  | singleton c =>
    cases fuel with
    | zero => cases enough
    | succ fuel => exact if_neg (by rw [length_singleton]; omega)
  | cons_append c mid d ih =>
    simp only [length_cons, length_append, length_nil] at enough
    obtain ⟨fuel, rfl⟩ : ∃ less, fuel = less + 1 := ⟨fuel - 1, by omega⟩
    have last : front.length + (c :: (mid ++ [d])).length - 1 = (front ++ c :: mid).length := by simp
    have whole : front ++ c :: (mid ++ [d]) ++ back = front ++ c :: mid ++ d :: back := by simp
    have swapped : ((front ++ c :: mid ++ d :: back).set front.length d).set (front ++ c :: mid).length c =
        front ++ [d] ++ mid ++ c :: back := by
      rw [append_assoc, cons_append, set_length, show (front ++ c :: mid).length = (front ++ d :: mid).length by simp,
        ← cons_append, ← append_assoc, set_length]
      simp
    have inner := ih (front ++ [d]) (c :: back) (by omega : mid.length ≤ fuel)
    rw [reverseLoop, last, whole, getD_length, if_pos (by simp), append_assoc, cons_append, getD_length, ← cons_append, ← append_assoc, swapped]
    simp only [length_append, length_cons, length_nil, Nat.zero_add] at inner ⊢
    rw [show front.length + (mid.length + 1) - 1 = front.length + 1 + mid.length - 1 by omega, inner]
    simp

def tableChar (d : Nat) : UInt8 := digitTable.getD d 0

theorem tableChar_spec : ∀ d < 36, digitTable[d]? = some (tableChar d) ∧ (tableChar d = digitChar d ↔ d ≠ 33) ∧ tableChar d ≠ 0 ∧
    tableChar d ≠ 45 ∧ digitChar d ≠ 45 ∧ digitValue (digitChar d) = d := by decide

theorem digitLoop_spec (low : 2 ≤ radix) (high : radix ≤ 36) (fuel m : Nat) (small : m < 2 ^ fuel) (str : List UInt8) :
    digitLoop radix (fuel + 1) m str = some (str ++ (radix.digits m).map tableChar) := by
  induction fuel generalizing m str with
  | zero =>
    obtain rfl : m = 0 := by omega
    simp [digitLoop]
  | succ fuel ih =>
    rw [digitLoop]
    split
    next zero => simp [zero]
    next some =>
      have digit := Nat.mod_lt m (by omega : 0 < radix)
      have less : m / radix < 2 ^ fuel := by
        apply Nat.div_lt_of_lt_mul
        calc m < 2 * 2 ^ fuel := by rwa [Nat.pow_succ, Nat.mul_comm] at small
          _ ≤ radix * 2 ^ fuel := Nat.mul_le_mul_right _ low
      rw [(tableChar_spec _ (by omega)).1, Option.bind_some, ih _ less, Nat.digits_def' low (Nat.pos_of_ne_zero some)]
      simp

def signOf (n : Int) : List UInt8 := if n < 0 then [45] else []

section
variable (low : 2 ≤ radix) (high : radix ≤ 36)
include low high

/-- The sign is reversed with the digits. -/
theorem itoa_eq (decimal : radix ≠ 10 → 0 ≤ n) (some : n ≠ 0) (least : -2147483648 < n)
    (most : n < 2147483648) : itoa n radix = .some ((signOf n ++ (radix.digits n.natAbs).map tableChar).reverse ++ [0], 0) := by
  have sign : (if radix = 10 ∧ n < 0 then [45] else []) = signOf n := by
    by_cases negative : n < 0
    · have ten : radix = 10 := by
        by_contra other
        exact absurd (decimal other) (by omega)
      simp [signOf, negative, ten]
    · simp [signOf, negative]
  rw [itoa, if_neg (by omega), if_neg (by omega), if_neg some, if_neg (by omega), sign, digitLoop_spec low high 31 _ (by omega),
    Option.map_some]
  have reversed := reverseLoop_spec (signOf n ++ (radix.digits n.natAbs).map tableChar) [] [] le_rfl
  simp only [nil_append, append_nil, length_nil, Nat.zero_add] at reversed
  rw [reversed]

theorem digit_lt {m d : Nat} (member : d ∈ radix.digits m) : d < 36 := (Nat.digits_lt_base low member).trans_le high

theorem decode_natural {m : Nat} (some : m ≠ 0) : decode radix (natural radix m) = m := by
  have digits : (radix.digits m).map (fun d => digitValue (digitChar d)) = radix.digits m :=
    (map_congr_left fun d member => (tableChar_spec d (digit_lt low high member)).2.2.2.2.2).trans (List.map_id _)
  have value : (Nat.ofDigits radix ((natural radix m).reverse.map digitValue) : Int) = m := by
    rw [natural, if_neg some, ← map_reverse, reverse_reverse, List.map_map, Function.comp_def, digits, ← Nat.coe_ofDigits, Nat.ofDigits_digits]
  rw [decode.eq_def]
  split
  next text start =>
    rw [natural, if_neg some] at start
    obtain ⟨d, member, same⟩ := List.mem_map.mp (start ▸ mem_cons_self : (45 : UInt8) ∈ (radix.digits m).reverse.map digitChar)
    exact absurd same (tableChar_spec d (digit_lt low high (mem_reverse.mp member))).2.2.2.2.1
  next => exact value

theorem natural_table_iff {m : Nat} (some : m ≠ 0) : ((radix.digits m).map tableChar).reverse = natural radix m ↔ 33 ∉ radix.digits m := by
  rw [natural, if_neg some, map_reverse, reverse_inj, map_inj_left]
  constructor
  · intro same member
    exact absurd rfl ((tableChar_spec 33 (by decide)).2.1.mp (same 33 member))
  · intro absent d member
    exact (tableChar_spec d (digit_lt low high member)).2.1.mpr fun same => absent (same ▸ member)

/-- A text that ends with a sign is not the numeral of a negative number. -/
theorem signLast_ne {m : Nat} (some : m ≠ 0) (more text : List UInt8) : ((radix.digits m).map tableChar).reverse ++ more ≠ 45 :: text := by
  intro same
  cases digits : ((radix.digits m).map tableChar).reverse with
  | nil =>
    rw [reverse_eq_nil_iff, map_eq_nil_iff] at digits
    exact some (Nat.digits_eq_nil_iff_eq_zero.mp digits)
  | cons c rest =>
    rw [digits] at same
    obtain ⟨rfl, -⟩ := cons.inj same
    obtain ⟨d, member, same⟩ := List.mem_map.mp (mem_reverse.mp (digits ▸ mem_cons_self))
    exact (tableChar_spec d (digit_lt low high member)).2.2.2.1 same

end

theorem itoa_right_iff (low : 2 ≤ radix) (high : radix ≤ 36) (decimal : radix ≠ 10 → 0 ≤ n) (least : -2147483648 ≤ n)
    (most : n < 2147483648) : ItoaRight radix n ↔ 0 < n ∧ 33 ∉ radix.digits n.natAbs := by
  obtain negative | rfl | positive := lt_trichotomy n 0
  · refine iff_of_false ?_ (fun both => absurd both.1 (by omega))
    rintro ⟨text, result, right, -⟩
    have some : n ≠ 0 := by omega
    by_cases overflow : n = -2147483648
    · subst overflow
      rw [itoa, if_neg (by omega), if_neg (by omega), if_neg some, if_pos rfl] at result
      cases result
    · rw [itoa_eq low high decimal some (by omega) most, right, numeral, if_pos negative, signOf, if_pos negative] at result
      have same := append_cancel_right (Prod.mk.inj (Option.some.inj result)).1
      rw [reverse_append] at same
      exact signLast_ne low high (by omega) _ _ same
  · refine iff_of_false ?_ (fun both => absurd both.1 (lt_irrefl 0))
    rintro ⟨text, result, -⟩
    rw [itoa, if_neg (by omega), if_neg (by omega), if_pos rfl] at result
    exact absurd (Prod.mk.inj (Option.some.inj result)).2 (by decide)
  · rw [and_iff_right positive, ← natural_table_iff low high (by omega)]
    unfold ItoaRight
    rw [itoa_eq low high decimal (by omega) (by omega) most, numeral, if_neg (by omega), signOf, if_neg (by omega), nil_append]
    constructor
    · rintro ⟨text, result, right, -⟩
      exact (append_cancel_right (Prod.mk.inj (Option.some.inj result)).1).trans right
    · intro same
      refine ⟨_, rfl, same, ?_⟩
      rw [same, decode_natural low high (by omega)]
      omega

theorem itoa_right_hex : ItoaRight 16 255 ↔ (0 : Int) < 255 ∧ 33 ∉ Nat.digits 16 (255 : Int).natAbs :=
  itoa_right_iff (by decide) (by decide) (by decide) (by decide) (by decide)

/-- The sign stands behind the digits, and the digits 28 and 33 are the same. -/
theorem itoa_wrong : ¬ ItoaRight 10 (-12) ∧ ¬ ItoaRight 36 33 := by
  constructor <;> rintro ⟨text, result, rfl, -⟩ <;> revert result <;> decide

def printedInt (n : Int) : List UInt8 := natural 10 n.natAbs ++ signOf n

theorem decimal_table (m : Nat) : ((Nat.digits 10 m).map tableChar).reverse = (Nat.digits 10 m).reverse.map digitChar := by
  rw [map_reverse, map_congr_left]
  intro d member
  exact (tableChar_spec d (digit_lt (by decide) (by decide) member)).2.1.mpr
    fun same => absurd (Nat.digits_lt_base (by decide) member) (by omega)

theorem printedInt_plain (least : -2147483648 < n) (most : n < 2147483648) : (∀ c ∈ printedInt n, c ≠ 0) ∧ (printedInt n).length < 256 := by
  have sign : (∀ c ∈ signOf n, c ≠ 0) ∧ (signOf n).length ≤ 1 := by
    unfold signOf
    split <;> simp
  rw [printedInt, natural, forall_mem_append, length_append]
  split
  next => exact ⟨⟨by simp, sign.1⟩, by have := sign.2; rw [length_singleton]; omega⟩
  next =>
    have short := (Nat.digits_length_le_iff (by decide : 1 < 10) n.natAbs (k := 10)).mpr (by omega)
    rw [← decimal_table, length_reverse, length_map]
    refine ⟨⟨fun c member => ?_, sign.1⟩, by have := sign.2; omega⟩
    obtain ⟨d, inside, rfl⟩ := List.mem_map.mp (mem_reverse.mp member)
    exact (tableChar_spec d (digit_lt (by decide) (by decide) inside)).2.2.1

theorem itoa_printed (least : -2147483648 < n) (most : n < 2147483648) :
    ∃ buf, itoa n 10 = some buf ∧ buf.1.takeWhile (· ≠ 0) = printedInt n := by
  have plain := (printedInt_plain least most).1
  have cut : (printedInt n ++ [0]).takeWhile (· ≠ 0) = printedInt n := by
    rw [takeWhile_append_of_pos (by simpa using plain)]
    simp
  by_cases zero : n = 0
  · subst zero
    exact ⟨_, rfl, by decide⟩
  · refine ⟨_, itoa_eq (by decide) (by decide) (fun other => absurd rfl other) zero least most, ?_⟩
    have sign : (signOf n).reverse = signOf n := by
      unfold signOf
      split <;> rfl
    rw [printedInt, natural, if_neg (by omega)] at cut ⊢
    rw [reverse_append, decimal_table, sign]
    exact cut

def printLoop (pieces : List Piece) (ret : Int) (out : List UInt8) : Option Output :=
  vfprintfLoop (pieces.flatMap Piece.format) (pieces.flatMap Piece.args) false ret out

/-- The loop adds the expansion of the pieces if and only if they are printable. -/
def Prints (pieces : List Piece) (ret : Int) (out : List UInt8) : Prop :=
  (printLoop pieces ret out = none ∧ ¬ ∀ piece ∈ pieces, piece.Printable) ∨
  ∃ r more, printLoop pieces ret out = some (r, out ++ more) ∧
    ((r = ret + (pieces.flatMap Piece.expansion).length ∧ more = pieces.flatMap Piece.expansion) ↔ ∀ piece ∈ pieces, piece.Printable)

variable {piece : Piece} {pieces : List Piece} {ret : Int} {out : List UInt8}

theorem not_printable (wrong : ¬ piece.Printable) : ¬ ∀ other ∈ piece :: pieces, other.Printable :=
  fun all => wrong (all piece mem_cons_self)

theorem Prints.cons (printable : piece.Printable) (onward : Prints pieces (ret + piece.expansion.length) (out ++ piece.expansion))
    (step : printLoop (piece :: pieces) ret out = printLoop pieces (ret + piece.expansion.length) (out ++ piece.expansion)) :
    Prints (piece :: pieces) ret out := by
  unfold Prints at onward ⊢
  rw [step, forall_mem_cons, and_iff_right printable]
  refine onward.imp_right ?_
  rintro ⟨r, more, result, right⟩
  refine ⟨r, piece.expansion ++ more, by rw [result, append_assoc], ?_⟩
  rw [← right, flatMap_cons, length_append, append_cancel_left_eq, Nat.cast_add, Int.add_assoc]

theorem Prints.eof (wrong : ¬ piece.Printable) (nonneg : 0 ≤ ret) (more : List UInt8)
    (step : printLoop (piece :: pieces) ret out = some (-1, out ++ more)) : Prints (piece :: pieces) ret out :=
  .inr ⟨-1, more, step, iff_of_false (fun both => absurd both.1 (by omega)) (not_printable wrong)⟩

theorem printLoop_prints (valid : ∀ piece ∈ pieces, piece.Valid) (nonneg : 0 ≤ ret) : Prints pieces ret out := by
  induction pieces generalizing ret out with
  | nil => exact .inr ⟨ret, [], by simp [printLoop, vfprintfLoop], by simp⟩
  | cons piece pieces ih =>
    obtain ⟨fine, others⟩ := forall_mem_cons.mp valid
    have onward := fun text : List UInt8 => @ih (ret + text.length) (out ++ text) others (by omega)
    cases piece with
    | plain c =>
      have step : printLoop (.plain c :: pieces) ret out =
          unlessEof (fputc c out) (vfprintfLoop (pieces.flatMap Piece.format) (pieces.flatMap Piece.args) false (ret + 1)) := by
        simp [printLoop, Piece.format, Piece.args, vfprintfLoop, fine.1]
      by_cases low : c < 128
      · refine .cons low (onward [c]) ?_
        rw [step, unlessEof, fputc, charValue, if_pos low, if_neg (by omega)]
        rfl
      · have bound := c.toNat_lt
        refine .eof low nonneg [c] ?_
        rw [step, unlessEof, fputc, charValue, if_neg low, if_pos (by omega)]
    | int n =>
      have step : printLoop (.int n :: pieces) ret out = (itoa n 10).bind fun buf =>
          unlessEof (fputs (buf.1.takeWhile (· ≠ 0)) out) (vfprintfLoop (pieces.flatMap Piece.format) (pieces.flatMap Piece.args) false
            (ret + (buf.1.takeWhile (· ≠ 0)).length)) := by
        simp [printLoop, Piece.format, Piece.args, vfprintfLoop]
      by_cases overflow : n = -2147483648
      · refine .inl ⟨?_, not_printable (by rw [Piece.Printable]; omega)⟩
        rw [step, overflow]
        rfl
      · obtain ⟨buf, written, text⟩ := @itoa_printed n (by have := fine.1; omega) fine.2
        have short := (@printedInt_plain n (by have := fine.1; omega) fine.2).2
        rw [written, Option.bind_some, text, fputs, if_neg (by omega), unlessEof, if_neg (by omega)] at step
        by_cases negative : n < 0
        · have wrong : ¬ (Piece.int n).Printable := by rw [Piece.Printable]; omega
          obtain ⟨result, -⟩ | ⟨r, more, result, -⟩ := onward (printedInt n)
          · exact .inl ⟨step.trans result, not_printable wrong⟩
          · refine .inr ⟨r, printedInt n ++ more, by rw [step, ← append_assoc]; exact result, iff_of_false ?_ (not_printable wrong)⟩
            rintro ⟨-, same⟩
            have some : n.natAbs ≠ 0 := by omega
            rw [printedInt, signOf, if_pos negative, natural, if_neg some, ← decimal_table, append_assoc, flatMap_cons,
              Piece.expansion, numeral, if_pos negative] at same
            exact signLast_ne (by decide) (by decide) some _ _ same
        · have same : printedInt n = (Piece.int n).expansion := by
            rw [printedInt, signOf, if_neg negative, Piece.expansion, numeral, if_neg negative, append_nil]
          rw [same] at step
          exact .cons (Int.not_lt.mp negative) (onward _) step
    | str s =>
      have step : printLoop (.str s :: pieces) ret out =
          unlessEof (fputs s out) (vfprintfLoop (pieces.flatMap Piece.format) (pieces.flatMap Piece.args) false (ret + s.length)) := by
        simp [printLoop, Piece.format, Piece.args, vfprintfLoop]
      by_cases short : s.length < 256
      · refine .cons short (onward s) ?_
        rw [step, fputs, if_neg (by omega), unlessEof, if_neg (by omega)]
        rfl
      · refine .eof short nonneg [] ?_
        rw [step, fputs, if_pos (by omega), append_nil]
        rfl
    | percent =>
      refine .cons trivial (onward [37]) ?_
      simp [printLoop, Piece.format, Piece.args, Piece.expansion, vfprintfLoop, unlessEof, fputc, charValue]

theorem vfprintf_prints_iff (pieces : List Piece) (valid : ∀ piece ∈ pieces, piece.Valid) :
    PrintsRight pieces ↔ ∀ piece ∈ pieces, piece.Printable := by
  have prints := @printLoop_prints pieces 0 [] valid le_rfl
  unfold Prints printLoop at prints
  unfold PrintsRight vfprintf
  obtain ⟨result, wrong⟩ | ⟨r, more, result, right⟩ := prints
  · rw [result]
    exact iff_of_false (fun same => by cases same) wrong
  · rw [result, ← right, Option.some_inj, Prod.mk.injEq, nil_append, Int.zero_add]

/-- The format `%d:%s%%`. -/
theorem vfprintf_prints_ok : PrintsRight [.int 5, .plain 58, .str [97, 98], .percent] ↔
    ∀ piece ∈ [Piece.int 5, .plain 58, .str [97, 98], .percent], piece.Printable :=
  vfprintf_prints_iff _ (by simp [Piece.Valid])

/-- A negative number, and a byte above 127. -/
theorem vfprintf_wrong : ¬ PrintsRight [.int (-12)] ∧ ¬ PrintsRight [.plain 200] := by
  unfold PrintsRight
  exact ⟨by decide, by decide⟩

end Cplusplus.Minicrt
