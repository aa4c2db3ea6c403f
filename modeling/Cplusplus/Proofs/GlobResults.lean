import Cplusplus.Proofs.GlobTokens
import Mathlib.Data.List.DropRight

/-! When `stringmatchlen` comes back, and when what it says is right. A string that is not empty is matched
exactly, unless it leads to a class without an end. The NUL of an empty string may be taken for a byte,
and then the length that is left is below zero. -/

namespace Cplusplus.Redis.Glob
open Wildcards List Option

section
variable {pattern string rest after v : List UInt8} {nocase b : Bool} {c : UInt8} {t : GlobToken} {ts : List GlobToken}
variable {p q s : Cursor} {fuel : Nat} {move : Move}

def answer (string : List UInt8) (nocase : Bool) (s : Cursor) : GlobToken → Option Bool
  | .star => none
  | .any => some (s.len != 0)
  | .byte a => (s.read string 0).map fun c => (GlobToken.byte a).accepts nocase c
  | .bracket _ _ true => none
  | .bracket negated [] false => some negated
  | .bracket negated (item :: items) false => (s.read string 0).map fun c => (GlobToken.bracket negated (item :: items) false).accepts nocase c

def Moves (pattern : List UInt8) (s : Cursor) (after : List UInt8) (accepted : Bool) (move : Move) : Prop :=
  if accepted then ∃ q, move = .next q (s.advance 1) ∧ At pattern (q.advance 1) after else move = .result false

theorem switch_any (current : p.read pattern 0 = some 63) :
    switchPattern pattern string nocase fuel p s = some (if s.len = 0 then .result false else .next p (s.advance 1)) := by
  have star : ¬ (63 : UInt8) = 42 := by decide
  simp only [switchPattern, current, bind_eq_bind, bind_some, star, if_false, if_true]
  split <;> rfl

theorem switch_class (current : p.read pattern 0 = some 91) (head : (p.advance 1).read pattern 0 = some c) :
    switchPattern pattern string nocase fuel p s =
      (classLoop pattern string nocase s fuel (if c == 94 then (p.advance 1).advance 1 else p.advance 1) false).map fun closed =>
        if closed.2 = (c == 94) then .result false else .next closed.1 (s.advance 1) := by
  have star : ¬ (91 : UInt8) = 42 := by decide
  have any : ¬ (91 : UInt8) = 63 := by decide
  simp only [switchPattern, current, head, bind_eq_bind, bind_some, star, any, if_false, if_true]
  rw [map_eq_bind]
  congr 1
  funext closed
  simp only [Function.comp_apply]
  split <;> rfl

/-- The pattern pointer is moved on behind a backslash that is not the last byte. -/
theorem switch_literal {a : UInt8} (current : p.read pattern 0 = some c) (plain : c ≠ 42 ∧ c ≠ 63 ∧ c ≠ 91)
    (moved : (if c = 92 ∧ 2 ≤ p.len then p.advance 1 else p) = q) (literal : q.read pattern 0 = some a) :
    switchPattern pattern string nocase fuel p s = (s.read string 0).map fun d =>
      if sameChar nocase a d = true then .next q (s.advance 1) else .result false := by
  obtain ⟨star, any, bracket⟩ := plain
  simp only [switchPattern, current, literal, moved, bind_eq_bind, bind_some, star, any, bracket, if_false]
  rw [map_eq_bind]
  congr 1
  funext d
  simp only [Function.comp_apply]
  split <;> rfl

theorem byte_move {a d : UInt8} (here : At pattern q (a :: after)) : Moves pattern s after ((GlobToken.byte a).accepts nocase d)
      (if sameChar nocase a d = true then .next q (s.advance 1) else .result false) := by
  unfold Moves
  rw [sameChar_eq, GlobToken.accepts]
  split
  next => exact ⟨q, rfl, here.step⟩
  next => rfl

theorem switch_byte {a : UInt8} (here : At pattern q (a :: after))
    (switch : switchPattern pattern string nocase fuel p s = (s.read string 0).map fun d =>
      if sameChar nocase a d = true then .next q (s.advance 1) else .result false) :
    (∀ move, switchPattern pattern string nocase fuel p s = some move →
      ∃ accepted, answer string nocase s (.byte a) = some accepted ∧ Moves pattern s after accepted move) ∧
    (∀ accepted, answer string nocase s (.byte a) = some accepted → ∃ move, switchPattern pattern string nocase fuel p s = some move) := by
  rw [switch, answer]
  cases s.read string 0 with
  | none => exact ⟨(fun _ moves => by cases moves), fun _ answers => by cases answers⟩
  | some d =>
    simp only [map_some, some.injEq]
    refine ⟨?_, fun accepted same => ⟨_, rfl⟩⟩
    rintro move rfl
    exact ⟨_, rfl, byte_move here⟩

theorem at_inside {inside : List UInt8} {negated : Bool} (here : At pattern p (91 :: rest)) (negation : negated = (rest.headD 0 == 94))
    (class_ : inside = if negated then rest.tail else rest) :
    (p.advance 1).read pattern 0 = some (rest.headD 0) ∧ At pattern (if negated then (p.advance 1).advance 1 else p.advance 1) inside ∧
      0 < (if negated then (p.advance 1).advance 1 else p.advance 1).pos := by
  have read := here.step.read 0
  cases rest with
  | nil =>
    have plain : negated = false := negation
    subst plain class_
    exact ⟨read, here.step, Nat.succ_pos _⟩
  | cons d rest =>
    refine ⟨read, ?_⟩
    cases negated with
    | true =>
      subst class_
      exact ⟨here.step.step, Nat.succ_pos _⟩
    | false =>
      subst class_
      exact ⟨here.step, Nat.succ_pos _⟩

theorem answer_bracket (string : List UInt8) (nocase : Bool) (s : Cursor) (negated : Bool) {items : List ClassItem} {found : Bool}
    (same : items = [] ∧ found = false ∨ ∃ c, s.read string 0 = some c ∧ found = (false || items.any (ClassItem.accepts nocase c))) :
    answer string nocase s (.bracket negated items false) = some (found != negated) := by
  obtain ⟨rfl, rfl⟩ | ⟨c, read, rfl⟩ := same
  · rw [answer, Bool.false_bne]
  · rw [Bool.false_or]
    cases items with
    | nil => rw [answer, any_nil, Bool.false_bne]
    | cons item items =>
      rw [answer, read]
      rfl

theorem switch_bracket {inside : List UInt8} {negated : Bool} (here : At pattern p (91 :: rest)) (negation : negated = (rest.headD 0 == 94))
    (class_ : inside = if negated then rest.tail else rest) :
    (∀ move, switchPattern pattern string nocase fuel p s = some move →
      ∃ accepted, answer string nocase s (.bracket negated (classBody inside).items (classBody inside).dangling) = some accepted ∧
        Moves pattern s (classBody inside).rest accepted move) ∧
    (∀ accepted, answer string nocase s (.bracket negated (classBody inside).items (classBody inside).dangling) = some accepted →
      inside.length < fuel → ∃ move, switchPattern pattern string nocase fuel p s = some move) := by
  obtain ⟨head, there, moved⟩ := at_inside here negation class_
  generalize pointer : (if negated then (p.advance 1).advance 1 else p.advance 1) = q at there moved
  have bracket : p.read pattern 0 = some 91 := here.read 0
  have switch : switchPattern pattern string nocase fuel p s = _ := switch_class bracket head
  rw [← negation, pointer] at switch
  constructor
  · intro move result
    rw [switch, map_eq_some_iff] at result
    obtain ⟨closed, loop, rfl⟩ := result
    obtain ⟨regular, ended, found⟩ := classLoop_returns there moved loop
    refine ⟨closed.2 != negated, ?_, ?_⟩
    · rw [regular]
      exact answer_bracket string nocase s negated found
    · unfold Moves
      by_cases same : closed.2 = negated
      · simp [same]
      · simp only [bne_iff_ne, ne_eq, same, not_false_eq_true, if_true, if_false]
        exact ⟨closed.1, rfl, ended⟩
  · intro accepted answered enough
    cases regular : (classBody inside).dangling with
    | true =>
      rw [regular] at answered
      cases answered
    | false =>
      have readable : (classBody inside).items = [] ∨ ∃ c, s.read string 0 = some c := by
        rw [regular] at answered
        cases items : (classBody inside).items with
        | nil => exact .inl rfl
        | cons item more =>
          rw [items, answer, map_eq_some_iff] at answered
          obtain ⟨c, read, -⟩ := answered
          exact .inr ⟨c, read⟩
      obtain ⟨closed, loop⟩ := classLoop_ends there regular readable enough false
      exact ⟨_, by rw [switch, loop]; rfl⟩

theorem switchPattern_spec (string : List UInt8) (nocase : Bool) (fuel : Nat) (s : Cursor) (here : At pattern p rest) (leading : LeadingToken rest t after) (single : t ≠ .star) :
    (∀ move, switchPattern pattern string nocase fuel p s = some move →
      ∃ accepted, answer string nocase s t = some accepted ∧ Moves pattern s after accepted move) ∧
    (∀ accepted, answer string nocase s t = some accepted → rest.length ≤ fuel →
      ∃ move, switchPattern pattern string nocase fuel p s = some move) := by
  cases leading with
  | star => exact absurd rfl single
  | any =>
    rw [switch_any (here.read 0), answer]
    refine ⟨?_, fun accepted _ _ => ⟨_, rfl⟩⟩
    rintro move same
    cases same
    refine ⟨_, rfl, ?_⟩
    unfold Moves
    by_cases empty : s.len = 0
    · simp [empty]
    · simp only [bne_iff_ne, ne_eq, empty, not_false_eq_true, if_true, if_false]
      exact ⟨p, rfl, here.step⟩
  | bracket rest inside negated negation class_ =>
    obtain ⟨returns, ends⟩ := switch_bracket here negation class_
    refine ⟨returns, fun accepted answered enough => ends accepted answered ?_⟩
    have shorter : inside.length ≤ rest.length := by
      rw [class_]
      split
      · rw [length_tail]
        omega
      · exact Nat.le_refl _
    rw [length_cons] at enough
    omega
  | escaped a =>
    have long : 2 ≤ p.len := by
      rw [here.len, length_cons, length_cons]
      omega
    obtain ⟨returns, ends⟩ := switch_byte here.step
      (switch_literal (here.read 0) (by decide) (if_pos ⟨rfl, long⟩) (here.step.read 0))
    exact ⟨returns, fun accepted answered _ => ends accepted answered⟩
  | last =>
    have short : ¬ 2 ≤ p.len := by
      rw [here.len, length_singleton]
      omega
    obtain ⟨returns, ends⟩ := switch_byte here
      (switch_literal (here.read 0) (by decide) (if_neg fun long => short long.2) (here.read 0))
    exact ⟨returns, fun accepted answered _ => ends accepted answered⟩
  | byte a rest plain =>
    obtain ⟨star, any, bracket, escape⟩ := plain
    obtain ⟨returns, ends⟩ := switch_byte here
      (switch_literal (here.read 0) ⟨star, any, bracket⟩ (if_neg fun both => escape both.1) (here.read 0))
    exact ⟨returns, fun accepted answered _ => ends accepted answered⟩

theorem switch_star (current : p.read pattern 0 = some 42) : switchPattern pattern string nocase fuel p s =
      (skipStars pattern fuel p).map fun q => if q.len = 1 then .result true else .star (q.advance 1) := by
  simp only [switchPattern, current, bind_eq_bind, bind_some, if_true]
  rw [map_eq_bind]
  congr 1
  funext q
  simp only [Function.comp_apply]
  split <;> rfl

theorem switch_star_returns (here : At pattern p (42 :: rest)) (result : switchPattern pattern string nocase fuel p s = some move) :
    rest.dropWhile (· == 42) = [] ∧ move = .result true ∨
      rest.dropWhile (· == 42) ≠ [] ∧ ∃ q, move = .star q ∧ At pattern q (rest.dropWhile (· == 42)) := by
  rw [switch_star (here.read 0), map_eq_some_iff] at result
  obtain ⟨q, skipped, rfl⟩ := result
  have there := skipStars_returns here skipped
  have one : q.len = 1 ↔ rest.dropWhile (· == 42) = [] := by
    rw [there.len, length_cons, ← length_eq_zero_iff]
    omega
  by_cases last : rest.dropWhile (· == 42) = []
  · exact .inl ⟨last, if_pos (one.mpr last)⟩
  · exact .inr ⟨last, q.advance 1, if_neg fun same => last (one.mp same), there.step⟩

theorem switch_star_ends (string : List UInt8) (nocase : Bool) (fuel : Nat) (s : Cursor) (here : At pattern p (42 :: rest)) (enough : rest.length < fuel) :
    ∃ move, switchPattern pattern string nocase fuel p s = some move := by
  obtain ⟨q, skipped⟩ := skipStars_ends here enough
  exact ⟨_, by rw [switch_star (here.read 0), skipped]; rfl⟩

theorem dropWhile_length (rest : List UInt8) : (rest.dropWhile (· == 42)).length ≤ rest.length := (dropWhile_sublist _).length_le

theorem not_matches_dropWhile (some_ : rest.dropWhile (· == 42) ≠ []) : ¬ Matches (language nocase (tokens (rest.dropWhile (· == 42)))) [] := by
  rw [matches_nil_iff, dropWhile_idempotent]
  exact some_

theorem answer_inside (nocase : Bool) (there : At string s (c :: v)) (single : t ≠ .star) :
    answer string nocase s t = if t.dangling then none else some (t.accepts nocase c) := by
  have read : s.read string 0 = some c := there.read 0
  cases t with
  | star => exact absurd rfl single
  | any =>
    have left : s.len ≠ 0 := by simp [there.len_zero]
    simp [answer, GlobToken.dangling, GlobToken.accepts, left]
  | byte a => simp [answer, GlobToken.dangling, read]
  | bracket negated items dangling =>
    cases dangling with
    | true => rfl
    | false =>
      cases items with
      | nil => simp [answer, GlobToken.dangling, GlobToken.accepts]
      | cons item items => simp [answer, GlobToken.dangling, read]

def Exact (nocase : Bool) (ts : List GlobToken) (string : List UInt8) (b : Bool) : Prop :=
  ¬ Stuck nocase ts string ∧ (b = true ↔ Matches (language nocase ts) string)

theorem starLoop_returns {rest : Cursor → Option Bool} (exact_ : ∀ s v b, At string s v → v ≠ [] → rest s = some b → Exact nocase ts v b)
    (nonempty : ¬ Matches (language nocase ts) []) (there : At string s v) (result : starLoop rest fuel s = some b) :
    Exact nocase (.star :: ts) v b := by
  induction fuel generalizing s v with
  | zero => cases result
  | succ fuel ih =>
    rw [starLoop] at result
    cases v with
    | nil =>
      rw [if_pos (there.len_zero.mpr rfl)] at result
      cases result
      exact ⟨not_stuck_nil, iff_of_false Bool.false_ne_true fun matched => nonempty (matches_star_nil.mp matched)⟩
    | cons c v =>
      have left : s.len ≠ 0 := by simp [there.len_zero]
      rw [if_neg left, bind_eq_bind, bind_eq_some_iff] at result
      obtain ⟨found, here, result⟩ := result
      obtain ⟨free, right⟩ := exact_ s _ found there (cons_ne_nil _ _) here
      cases found with
      | true =>
        cases result
        have matched := right.mp rfl
        refine ⟨not_stuck_regular fun t member => ?_, iff_of_true rfl (matches_star_cons.mpr (.inl matched))⟩
        rcases mem_cons.mp member with rfl | member
        · rfl
        · exact regular_of_matches matched free t member
      | false =>
        obtain ⟨free', right'⟩ := ih there.step result
        refine ⟨fun stuck => (stuck_star_cons.mp stuck).elim free free', right'.trans ⟨fun matched => matches_star_cons.mpr (.inr matched), fun matched => ?_⟩⟩
        rcases matches_star_cons.mp matched with matched | matched
        · exact absurd (right.mpr matched) Bool.false_ne_true
        · exact matched

theorem starLoop_ends {rest : Cursor → Option Bool}
    (ends : ∀ s v', At string s v' → v' ≠ [] → v'.length ≤ v.length → ¬ Stuck nocase ts v' → ∃ b, rest s = some b) (there : At string s v)
    (free : ¬ Stuck nocase (.star :: ts) v) (enough : v.length < fuel) : ∃ b, starLoop rest fuel s = some b := by
  induction fuel generalizing s v with
  | zero => exact absurd enough (Nat.not_lt_zero _)
  | succ fuel ih =>
    rw [starLoop]
    cases v with
    | nil => exact ⟨false, if_pos (there.len_zero.mpr rfl)⟩
    | cons c v =>
      have left : s.len ≠ 0 := by simp [there.len_zero]
      rw [stuck_star_cons, not_or] at free
      obtain ⟨found, result⟩ := ends s _ there (cons_ne_nil _ _) (Nat.le_refl _) free.1
      rw [if_neg left, result]
      cases found with
      | true => exact ⟨true, rfl⟩
      | false =>
        refine ih (fun s v' at_ some_ short => ends s v' at_ some_ ?_) there.step free.2 ?_
        · rw [length_cons]
          omega
        · rw [length_cons] at enough
          omega

theorem matches_after (rest : List UInt8) (last : At pattern q (rest.dropWhile (· == 42))) :
    (q.len == 0) = true ↔ Matches (language nocase (tokens rest)) [] := by
  rw [beq_iff_eq, last.len_zero, matches_nil_iff]

theorem exact_cons (single : t ≠ .star) (regular : t.dangling = false) :
    Exact nocase (t :: ts) (c :: v) b ↔ if t.accepts nocase c = true then Exact nocase ts v b else b = false := by
  rw [Exact, stuck_cons single, language_one single, matches_one]
  split
  next accepted => simp [accepted, regular, Exact]
  next other => simp [other, regular]

theorem exact_stars (rest : List UInt8) (v : List UInt8) (b : Bool) :
    Exact nocase (tokens (42 :: rest)) v b ↔ Exact nocase (.star :: tokens (rest.dropWhile (· == 42))) v b := by
  rw [tokens_star, Exact, Exact, stuck_stars, matches_stars]

theorem stringmatchlen_exact (here : At pattern p rest) (there : At string s v) (some_ : v ≠ [])
    (result : stringmatchlen pattern string nocase fuel p s = some b) : Exact nocase (tokens rest) v b := by
  induction fuel generalizing p s rest v b with
  | zero => cases result
  | succ fuel ih =>
    rw [stringmatchlen] at result
    obtain ⟨c, v, rfl⟩ := exists_cons_of_ne_nil some_
    cases rest with
    | nil =>
      have left : s.len ≠ 0 := by simp [there.len_zero]
      rw [if_pos (here.len_zero.mpr rfl), some.injEq, beq_eq_false_iff_ne.mpr left] at result
      subst result
      rw [tokens_nil]
      exact ⟨not_stuck_regular (fun _ member => by cases member), iff_of_false Bool.false_ne_true fun same => by cases same⟩
    | cons first rest =>
      have more : ¬ p.len = 0 := by simp [here.len_zero]
      rw [if_neg more, bind_eq_bind, bind_eq_some_iff] at result
      obtain ⟨move, switch, result⟩ := result
      by_cases star : first = 42
      · subst star
        rw [exact_stars]
        obtain ⟨last, rfl⟩ | ⟨onward, q, rfl, after⟩ := switch_star_returns here switch
        · cases result
          rw [last, tokens_nil]
          refine ⟨not_stuck_regular fun t member => ?_, iff_of_true rfl (matches_star_end _)⟩
          obtain rfl := mem_singleton.mp member
          rfl
        · exact starLoop_returns (fun s v b there some_ => ih after there some_) (not_matches_dropWhile onward) there result
      · obtain ⟨t, after, leading, same⟩ := tokens_cons first rest
        have single := leading.single star
        obtain ⟨accepted, answered, moves⟩ := (switchPattern_spec string nocase fuel s here leading single).1 move switch
        rw [answer_inside nocase there single] at answered
        cases regular : t.dangling with
        | true => simp [regular] at answered
        | false =>
          simp only [regular, Bool.false_eq_true, if_false, some.injEq] at answered
          rw [same, exact_cons single regular, answered]
          unfold Moves at moves
          split at moves
          next yes =>
            obtain ⟨q, rfl, here'⟩ := moves
            rw [if_pos yes]
            simp only at result
            split at result
            next finished =>
              obtain rfl := there.step.len_zero.mp finished
              obtain ⟨q', skipped, result⟩ := bind_eq_some_iff.mp result
              cases result
              exact ⟨not_stuck_nil, matches_after after (skipLast_returns here' skipped)⟩
            next left => exact ih here' there.step (fun empty => left (there.step.len_zero.mpr empty)) result
          next no =>
            subst moves
            rw [if_neg no]
            exact (some.inj result).symm

theorem stringmatchlen_ends (here : At pattern p rest) (there : At string s v) (some_ : v ≠ []) (free : ¬ Stuck nocase (tokens rest) v)
    (enough : rest.length + v.length < fuel) : ∃ b, stringmatchlen pattern string nocase fuel p s = some b := by
  induction fuel generalizing p s rest v with
  | zero => exact absurd enough (Nat.not_lt_zero _)
  | succ fuel ih =>
    rw [stringmatchlen]
    obtain ⟨c, v, rfl⟩ := exists_cons_of_ne_nil some_
    cases rest with
    | nil => exact ⟨_, if_pos (here.len_zero.mpr rfl)⟩
    | cons first rest =>
      have more : ¬ p.len = 0 := by simp [here.len_zero]
      simp only [length_cons] at enough
      rw [if_neg more]
      by_cases star : first = 42
      · subst star
        obtain ⟨move, switch⟩ := switch_star_ends string nocase fuel s here (by omega)
        simp only [switch, bind_eq_bind, bind_some]
        obtain ⟨last, rfl⟩ | ⟨onward, q, rfl, after⟩ := switch_star_returns here switch
        · exact ⟨true, rfl⟩
        · have short := dropWhile_length rest
          rw [tokens_star, stuck_stars] at free
          refine starLoop_ends (fun s v' there' some_ short' free' => ih after there' some_ free' ?_) there free ?_
          · rw [length_cons] at short'
            omega
          · rw [length_cons]
            omega
      · obtain ⟨t, after, leading, same⟩ := tokens_cons first rest
        have single := leading.single star
        have short := leading.length
        rw [length_cons] at short
        rw [same, stuck_cons single, not_or, Bool.not_eq_true] at free
        have answered := answer_inside nocase there single
        rw [free.1, if_neg Bool.false_ne_true] at answered
        obtain ⟨returns, ends⟩ := switchPattern_spec string nocase fuel s here leading single
        obtain ⟨move, switch⟩ := ends _ answered (by rw [length_cons]; omega)
        obtain ⟨accepted, answered', moves⟩ := returns move switch
        obtain rfl := some.inj (answered.symm.trans answered')
        simp only [switch, bind_eq_bind, bind_some]
        unfold Moves at moves
        split at moves
        next accepted =>
          obtain ⟨q, rfl, here'⟩ := moves
          simp only
          split
          next finished =>
            obtain ⟨q', skipped⟩ := skipLast_ends here' (show after.length < fuel by omega)
            rw [skipped]
            exact ⟨_, rfl⟩
          next left =>
            exact ih here' there.step (fun empty => left (there.step.len_zero.mpr empty)) (fun stuck => free.2 ⟨accepted, stuck⟩) (by omega)
        next =>
          subst moves
          exact ⟨false, rfl⟩

end

/-! What `stringmatchlen` does with an empty string, and both exact conditions: when its result is right,
and when it has one at all. -/

section
variable {pattern string rest after v : List UInt8} {nocase b : Bool} {c : UInt8} {t : GlobToken} {ts : List GlobToken}
variable {p q s : Cursor} {fuel : Nat} {move : Move}

theorem Past.len_ne (past : Past string s) : s.len ≠ 0 := by
  have below := past.len
  omega

theorem answer_past (nocase : Bool) (past : Past string s) (single : t ≠ .star) :
    answer string nocase s t = if t.blind then some true else if t.hopeless then some false else none := by
  cases t with
  | star => exact absurd rfl single
  | any => simp [answer, GlobToken.blind, past.len_ne]
  | byte a => simp [answer, GlobToken.blind, GlobToken.hopeless, past.read]
  | bracket negated items dangling =>
    cases dangling <;> cases items <;> cases negated <;> simp [answer, GlobToken.blind, GlobToken.hopeless, past.read]

def Blind (ts : List GlobToken) (b : Bool) : Prop := if b then passes ts = true else fails ts = true

theorem starLoop_past {rest : Cursor → Option Bool} (blind : ∀ s b, Past string s → rest s = some b → Blind ts b) (past : Past string s)
    (result : starLoop rest fuel s = some b) : b = true ∧ passes ts = true := by
  induction fuel generalizing s with
  | zero => cases result
  | succ fuel ih =>
    rw [starLoop, if_neg past.len_ne, bind_eq_bind, bind_eq_some_iff] at result
    obtain ⟨found, here, result⟩ := result
    cases found with
    | true => exact ⟨(some.inj result).symm, blind s true past here⟩
    | false => exact ih past.advance result

theorem stringmatchlen_past (here : At pattern p rest) (past : Past string s) (result : stringmatchlen pattern string nocase fuel p s = some b) :
    Blind (tokens rest) b := by
  induction fuel generalizing p s rest b with
  | zero => cases result
  | succ fuel ih =>
    rw [stringmatchlen] at result
    cases rest with
    | nil =>
      rw [if_pos (here.len_zero.mpr rfl), some.injEq, beq_eq_false_iff_ne.mpr past.len_ne] at result
      subst result
      rw [tokens_nil]
      rfl
    | cons first rest =>
      have more : ¬ p.len = 0 := by simp [here.len_zero]
      rw [if_neg more, bind_eq_bind, bind_eq_some_iff] at result
      obtain ⟨move, switch, result⟩ := result
      by_cases star : first = 42
      · subst star
        obtain ⟨last, rfl⟩ | ⟨onward, q, rfl, after⟩ := switch_star_returns here switch
        · cases result
          rw [Blind, if_pos rfl, tokens_star, passes_stars, last, tokens_nil]
          rfl
        · obtain ⟨rfl, passed⟩ := starLoop_past (fun s b past => ih after past) past result
          rw [Blind, if_pos rfl, tokens_star, passes_stars, passes_star (tokens_ne_nil onward)]
          exact passed
      · obtain ⟨t, after, leading, same⟩ := tokens_cons first rest
        have single := leading.single star
        obtain ⟨accepted, answered, moves⟩ := (switchPattern_spec string nocase fuel s here leading single).1 move switch
        rw [answer_past nocase past single] at answered
        rw [same, Blind]
        split at answered
        next blind =>
          cases answered
          obtain ⟨q, rfl, here'⟩ := moves
          simp only [if_neg past.advance.len_ne] at result
          rw [passes_cons blind, fails_cons blind]
          exact ih here' past.advance result
        next =>
          split at answered
          next hopeless =>
            cases answered
            obtain rfl : move = .result false := moves
            cases result
            rw [if_neg Bool.false_ne_true, fails, hopeless, Bool.true_or]
          next => cases answered

theorem stringmatchlen_past_ends (here : At pattern p rest) (past : Past string s) (known : fails (tokens rest) = true ∨ passes (tokens rest) = true)
    (enough : rest.length + 1 < fuel) : ∃ b, stringmatchlen pattern string nocase fuel p s = some b := by
  induction fuel generalizing p s rest with
  | zero => exact absurd enough (Nat.not_lt_zero _)
  | succ fuel ih =>
    rw [stringmatchlen]
    cases rest with
    | nil => exact ⟨_, if_pos (here.len_zero.mpr rfl)⟩
    | cons first rest =>
      have more : ¬ p.len = 0 := by simp [here.len_zero]
      rw [length_cons] at enough
      rw [if_neg more]
      by_cases star : first = 42
      · subst star
        obtain ⟨move, switch⟩ := switch_star_ends string nocase fuel s here (by omega)
        simp only [switch, bind_eq_bind, bind_some]
        obtain ⟨last, rfl⟩ | ⟨onward, q, rfl, after⟩ := switch_star_returns here switch
        · exact ⟨true, rfl⟩
        · have short := dropWhile_length rest
          have passed : passes (tokens (rest.dropWhile (· == 42))) = true := by
            rw [tokens_star] at known
            rcases known with failed | passed
            · cases failed
            · rwa [passes_stars, passes_star (tokens_ne_nil onward)] at passed
          obtain ⟨found, result⟩ := ih after past (.inr passed) (by omega)
          have blind := stringmatchlen_past after past result
          cases found with
          | true =>
            obtain ⟨fuel, rfl⟩ : ∃ less, fuel = less + 1 := ⟨fuel - 1, by omega⟩
            exact ⟨true, by simp only [starLoop, if_neg past.len_ne, result, bind_eq_bind, bind_some, if_true]⟩
          | false =>
            rw [not_passes_of_fails blind] at passed
            cases passed
      · obtain ⟨t, after, leading, same⟩ := tokens_cons first rest
        have single := leading.single star
        have short := leading.length
        rw [length_cons] at short
        rw [same] at known
        obtain ⟨returns, ends⟩ := switchPattern_spec string nocase fuel s here leading single
        have answered := answer_past nocase past single
        cases blind : t.blind with
        | true =>
          rw [blind, if_pos rfl] at answered
          obtain ⟨move, switch⟩ := ends _ answered (by rw [length_cons]; omega)
          obtain ⟨accepted, answered', moves⟩ := returns move switch
          obtain rfl := some.inj (answered.symm.trans answered')
          obtain ⟨q, rfl, here'⟩ := moves
          rw [passes_cons blind, fails_cons blind] at known
          simp only [switch, bind_eq_bind, bind_some, if_neg past.advance.len_ne]
          exact ih here' past.advance known (by omega)
        | false =>
          have hopeless : t.hopeless = true := by
            have notStar : t.isStar = false := by
              cases t with
              | star => exact absurd rfl single
              | _ => rfl
            simpa [fails, passes, blind, notStar] using known
          rw [blind, if_neg Bool.false_ne_true, hopeless, if_pos rfl] at answered
          obtain ⟨move, switch⟩ := ends _ answered (by rw [length_cons]; omega)
          obtain ⟨accepted, answered', moves⟩ := returns move switch
          obtain rfl := some.inj (answered.symm.trans answered')
          obtain rfl : move = .result false := moves
          exact ⟨false, by rw [switch]; rfl⟩

theorem answer_end (nocase : Bool) (there : At string s []) (single : t ≠ .star) :
    answer string nocase s t = if t.dangling then none else some (t.takesNul nocase) := by
  have read : s.read string 0 = some 0 := there.read 0
  cases t with
  | star => exact absurd rfl single
  | any =>
    have finished : s.len = 0 := there.len_zero.mpr rfl
    simp [answer, GlobToken.dangling, GlobToken.takesNul, finished]
  | byte a => simp [answer, GlobToken.dangling, GlobToken.takesNul, read]
  | bracket negated items dangling =>
    cases dangling with
    | true => rfl
    | false =>
      cases items with
      | nil => simp [answer, GlobToken.dangling, GlobToken.takesNul, GlobToken.accepts]
      | cons item items => simp [answer, GlobToken.dangling, GlobToken.takesNul, read]

theorem not_matches_single (single : t ≠ .star) : ¬ Matches (language nocase (t :: ts)) [] := by
  rw [language_one single]
  exact not_matches_one_nil

structure Ended (nocase : Bool) (ts : List GlobToken) (b : Bool) : Prop where
  begins : ∀ t after, ts = t :: after → t.dangling = false
  taken : ∀ t after, ts = t :: after → t.takesNul nocase = true → Blind after b
  right : (∀ t after, ts = t :: after → t.takesNul nocase = false) → (b = true ↔ Matches (language nocase ts) [])

theorem ended_star (right : b = true ↔ Matches (language nocase (.star :: ts)) []) : Ended nocase (.star :: ts) b := by
  refine ⟨fun t after same => ?_, fun t after same taken => ?_, fun _ => right⟩
  · obtain ⟨rfl, -⟩ := cons.inj same
    rfl
  · obtain ⟨rfl, -⟩ := cons.inj same
    cases taken

theorem stringmatchlen_ended (here : At pattern p rest) (there : At string s []) (result : stringmatchlen pattern string nocase fuel p s = some b) :
    Ended nocase (tokens rest) b := by
  cases fuel with
  | zero => cases result
  | succ fuel =>
    rw [stringmatchlen] at result
    have finished : s.len = 0 := there.len_zero.mpr rfl
    cases rest with
    | nil =>
      rw [if_pos (here.len_zero.mpr rfl), finished] at result
      cases result
      rw [tokens_nil]
      exact ⟨(fun _ _ same => by cases same), (fun _ _ same => by cases same), fun _ => iff_of_true rfl rfl⟩
    | cons first rest =>
      have more : ¬ p.len = 0 := by simp [here.len_zero]
      rw [if_neg more, bind_eq_bind, bind_eq_some_iff] at result
      obtain ⟨move, switch, result⟩ := result
      by_cases star : first = 42
      · subst star
        rw [tokens_star]
        refine ended_star ?_
        rw [matches_stars]
        obtain ⟨last, rfl⟩ | ⟨onward, q, rfl, after⟩ := switch_star_returns here switch
        · cases result
          rw [last, tokens_nil]
          exact iff_of_true rfl (matches_star_end _)
        · have nothing : b = false := by
            cases fuel with
            | zero => cases result
            | succ fuel =>
              simp only [starLoop, finished, if_true] at result
              exact (some.inj result).symm
          rw [nothing]
          exact iff_of_false Bool.false_ne_true fun matched => not_matches_dropWhile onward (matches_star_nil.mp matched)
      · obtain ⟨t, after, leading, same⟩ := tokens_cons first rest
        have single := leading.single star
        obtain ⟨accepted, answered, moves⟩ := (switchPattern_spec string nocase fuel s here leading single).1 move switch
        rw [answer_end nocase there single] at answered
        rw [same]
        cases regular : t.dangling with
        | true => simp [regular] at answered
        | false =>
          rw [regular, if_neg Bool.false_ne_true] at answered
          cases answered
          unfold Moves at moves
          split at moves
          next takes =>
            obtain ⟨q, rfl, here'⟩ := moves
            simp only [if_neg there.past.len_ne] at result
            have blind := stringmatchlen_past here' there.past result
            refine ⟨fun t' after' equal => ?_, fun t' after' equal _ => ?_, fun never => ?_⟩
            · obtain ⟨rfl, rfl⟩ := cons.inj equal
              exact regular
            · obtain ⟨rfl, rfl⟩ := cons.inj equal
              exact blind
            · rw [never t _ rfl] at takes
              cases takes
          next leaves =>
            subst moves
            cases result
            refine ⟨fun t' after' equal => ?_, fun t' after' equal taken => ?_, fun _ => iff_of_false Bool.false_ne_true (not_matches_single single)⟩
            · obtain ⟨rfl, rfl⟩ := cons.inj equal
              exact regular
            · obtain ⟨rfl, rfl⟩ := cons.inj equal
              exact absurd taken leaves

theorem stringmatchlen_ended_ends (here : At pattern p rest) (there : At string s [])
    (begins : ∀ t after, tokens rest = t :: after → t.dangling = false)
    (taken : ∀ t after, tokens rest = t :: after → t.takesNul nocase = true → fails after = true ∨ passes after = true)
    (enough : rest.length + 2 < fuel) : ∃ b, stringmatchlen pattern string nocase fuel p s = some b := by
  obtain ⟨fuel, rfl⟩ : ∃ less, fuel = less + 1 := ⟨fuel - 1, by omega⟩
  rw [stringmatchlen]
  have finished : s.len = 0 := there.len_zero.mpr rfl
  cases rest with
  | nil => exact ⟨_, if_pos (here.len_zero.mpr rfl)⟩
  | cons first rest =>
    have more : ¬ p.len = 0 := by simp [here.len_zero]
    rw [length_cons] at enough
    rw [if_neg more]
    by_cases star : first = 42
    · subst star
      obtain ⟨move, switch⟩ := switch_star_ends string nocase fuel s here (by omega)
      simp only [switch, bind_eq_bind, bind_some]
      obtain ⟨last, rfl⟩ | ⟨onward, q, rfl, after⟩ := switch_star_returns here switch
      · exact ⟨true, rfl⟩
      · obtain ⟨fuel, rfl⟩ : ∃ less, fuel = less + 1 := ⟨fuel - 1, by omega⟩
        exact ⟨false, if_pos finished⟩
    · obtain ⟨t, after, leading, same⟩ := tokens_cons first rest
      have single := leading.single star
      have short := leading.length
      rw [length_cons] at short
      obtain ⟨returns, ends⟩ := switchPattern_spec string nocase fuel s here leading single
      have answered := answer_end nocase there single
      rw [begins t _ same, if_neg Bool.false_ne_true] at answered
      obtain ⟨move, switch⟩ := ends _ answered (by rw [length_cons]; omega)
      obtain ⟨accepted, answered', moves⟩ := returns move switch
      obtain rfl := some.inj (answered.symm.trans answered')
      simp only [switch, bind_eq_bind, bind_some]
      unfold Moves at moves
      split at moves
      next takes =>
        obtain ⟨q, rfl, here'⟩ := moves
        simp only [if_neg there.past.len_ne]
        exact stringmatchlen_past_ends here' there.past (taken t _ same takes) (by omega)
      next =>
        subst moves
        exact ⟨false, rfl⟩

/-- The string leads to no class that is dangling, and when the first token accepts the NUL of an empty
string, what comes after it has a property. -/
structure Regular (nocase : Bool) (pattern string : List UInt8) (P : List GlobToken → Prop) : Prop where
  closed : ¬ Stuck nocase (tokens pattern) string
  begins : ∀ t after, tokens pattern = t :: after → t.dangling = false
  nul : string = [] → ∀ t after, tokens pattern = t :: after → t.takesNul nocase = true → P after

theorem begins_of_not_stuck (some_ : string ≠ []) (free : ¬ Stuck nocase ts string) (t : GlobToken) (after : List GlobToken)
    (same : ts = t :: after) : t.dangling = false := by
  by_contra dangling
  exact free ⟨[], t, after, same, by simpa using dangling, leaves_nil.mpr some_⟩

/-- `stringmatchlen` returns, and it reads nothing else than its texts with the NUL after them. -/
def Returns (nocase : Bool) (pattern string : List UInt8) (b : Bool) : Prop :=
  ∃ fuel, stringmatchlen pattern string nocase fuel (.start pattern) (.start string) = some b

theorem returns_spec (returns : Returns nocase pattern string b) : Regular nocase pattern string (Blind · b) ∧
      ((string = [] → ∀ t after, tokens pattern = t :: after → t.takesNul nocase = false) → (b = true ↔ InLanguage nocase pattern string)) := by
  obtain ⟨fuel, result⟩ := returns
  by_cases empty : string = []
  · subst empty
    obtain ⟨begins, taken, right⟩ := stringmatchlen_ended (at_start pattern) (at_start []) result
    exact ⟨⟨not_stuck_nil, begins, fun _ => taken⟩, fun never => right (never rfl)⟩
  · obtain ⟨free, right⟩ := stringmatchlen_exact (at_start pattern) (at_start string) empty result
    exact ⟨⟨free, begins_of_not_stuck empty free, fun same => absurd same empty⟩, fun _ => right⟩

theorem returns_of_regular (regular : Regular nocase pattern string fun after => fails after = true ∨ passes after = true) :
    ∃ b, Returns nocase pattern string b := by
  by_cases empty : string = []
  · subst empty
    obtain ⟨b, result⟩ := stringmatchlen_ended_ends (at_start pattern) (at_start []) regular.begins (regular.nul rfl) (Nat.lt_succ_self _)
    exact ⟨b, _, result⟩
  · obtain ⟨b, result⟩ := stringmatchlen_ends (at_start pattern) (at_start string) empty regular.closed (Nat.lt_succ_self _)
    exact ⟨b, _, result⟩

theorem Regular.mono {P Q : List GlobToken → Prop} (regular : Regular nocase pattern string P) (weaker : ∀ after, P after → Q after) :
    Regular nocase pattern string Q :=
  ⟨regular.closed, regular.begins, fun empty t after same taken => weaker after (regular.nul empty t after same taken)⟩

/-- For every pattern and string: there is a result, without a read outside. -/
theorem stringmatchlen_inside_iff (nocase : Bool) (pattern string : List UInt8) :
    (∃ b, Returns nocase pattern string b) ↔ Regular nocase pattern string fun after => fails after = true ∨ passes after = true := by
  refine ⟨?_, returns_of_regular⟩
  rintro ⟨b, returns⟩
  refine (returns_spec returns).1.mono fun after blind => ?_
  cases b with
  | true => exact .inr blind
  | false => exact .inl blind

/-- For every pattern and string: the result says whether the string belongs to the language. -/
theorem stringmatchlen_language_iff (nocase : Bool) (pattern string : List UInt8) :
    (∃ b, Returns nocase pattern string b ∧ (b = true ↔ InLanguage nocase pattern string)) ↔
      Regular nocase pattern string fun after => fails after = true := by
  constructor
  · rintro ⟨b, returns, right⟩
    obtain ⟨regular, -⟩ := returns_spec returns
    refine ⟨regular.closed, regular.begins, fun empty t after same taken => ?_⟩
    have blind := regular.nul empty t after same taken
    cases b with
    | false => exact blind
    | true =>
      subst empty
      have single : t ≠ .star := by
        rintro rfl
        cases taken
      have inside := right.mp rfl
      rw [InLanguage, same] at inside
      exact absurd inside (not_matches_single single)
  · intro regular
    obtain ⟨b, returns⟩ := returns_of_regular (regular.mono fun after => .inl)
    obtain ⟨onward, right⟩ := returns_spec returns
    refine ⟨b, returns, ?_⟩
    by_cases taken : string = [] ∧ ∃ t after, tokens pattern = t :: after ∧ t.takesNul nocase = true
    · obtain ⟨rfl, t, after, same, taken⟩ := taken
      have failed := regular.nul rfl t after same taken
      have blind := onward.nul rfl t after same taken
      have nothing : b = false := by
        cases b with
        | false => rfl
        | true =>
          have passed : passes after = true := blind
          rw [not_passes_of_fails failed] at passed
          cases passed
      have single : t ≠ .star := by
        rintro rfl
        cases taken
      rw [nothing, InLanguage, same]
      exact iff_of_false Bool.false_ne_true (not_matches_single single)
    · refine right fun empty t after same => ?_
      by_contra takes
      exact taken ⟨empty, t, after, same, by simpa using takes⟩

/-- `[^a]*` takes the NUL of the empty string for a byte. -/
theorem stringmatchlen_takes_nul :
    Returns false [91, 94, 97, 93, 42] [] true ∧ ¬ InLanguage false [91, 94, 97, 93, 42] [] := by
  refine ⟨⟨10, by decide⟩, ?_⟩
  have first : tokens [91, 94, 97, 93, 42] = [.bracket true [.byte 97] false, .star] := by simp [tokens, classBody, ClassBody.add]
  rw [InLanguage, first]
  exact not_matches_single fun same => by cases same

/-- The class of the pattern `[` with a backslash has no end. -/
theorem stringmatchlen_runs_on : ¬ ∃ b, Returns false [91, 92] [97] b := by
  rintro ⟨b, returns⟩
  have first : tokens [91, 92] = [.bracket false [.escaped 92] true] := by simp [tokens, classBody]
  have begins := (returns_spec returns).1.begins
  rw [first] at begins
  exact absurd (begins _ _ rfl) (by decide)

end

end Cplusplus.Redis.Glob
