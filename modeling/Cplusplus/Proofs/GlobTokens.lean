import Cplusplus.Stringmatch

/-! Where the pointers of `stringmatchlen` are, and what its small loops leave behind. Each loop has two
facts: what a result is like, and that there is one for enough fuel. -/

namespace Cplusplus.Redis.Glob

open List Option

section
variable {text pattern string rest front : List UInt8} {nocase : Bool} {cursor p q s : Cursor} {c : UInt8} {fuel : Nat}

structure At (text : List UInt8) (cursor : Cursor) (rest : List UInt8) : Prop where
  split : ∃ front, text = front ++ rest ∧ cursor.pos = front.length
  len : cursor.len = rest.length

theorem at_start (text : List UInt8) : At text (.start text) text := ⟨⟨[], rfl, rfl⟩, rfl⟩

theorem At.read (here : At text cursor rest) (i : Nat) : cursor.read text i = (rest ++ [0])[i]? := by
  obtain ⟨⟨front, rfl, pos⟩, -⟩ := here
  rw [Cursor.read, pos, length_append]
  split
  next last =>
    obtain rfl : i = rest.length := by omega
    rw [getElem?_append_right (Nat.le_refl _), Nat.sub_self]
    rfl
  next other =>
    rw [getElem?_append_right (by omega), Nat.add_sub_cancel_left]
    rcases Nat.lt_or_gt_of_ne (show i ≠ rest.length by omega) with inside | outside
    · rw [getElem?_append_left inside]
    · rw [getElem?_eq_none (Nat.le_of_lt outside), getElem?_eq_none (by rw [length_append, length_singleton]; omega)]

theorem At.advance (here : At text cursor (front ++ rest)) : At text (cursor.advance front.length) rest := by
  obtain ⟨⟨before, rfl, pos⟩, len⟩ := here
  refine ⟨⟨before ++ front, (append_assoc ..).symm, by rw [Cursor.advance, pos, length_append]⟩, ?_⟩
  simp only [Cursor.advance, len, length_append]
  omega

theorem At.step (here : At text cursor (c :: rest)) : At text (cursor.advance [c].length) rest := here.advance

theorem At.len_zero (here : At text cursor rest) : cursor.len = 0 ↔ rest = [] := by
  rw [here.len, ← length_eq_zero_iff]
  omega

theorem Cursor.back_advance (moved : 0 < cursor.pos) : cursor.back.advance 1 = cursor := by
  obtain ⟨pos, len⟩ := cursor
  simp only [Cursor.back, Cursor.advance, Cursor.mk.injEq]
  exact ⟨Nat.sub_add_cancel moved, by omega⟩

/-- The cursor is behind the NUL. -/
structure Past (text : List UInt8) (cursor : Cursor) : Prop where
  pos : text.length < cursor.pos
  len : cursor.len < 0

theorem Past.read (past : Past text cursor) (i : Nat) : cursor.read text i = none := by
  have pos := past.pos
  rw [Cursor.read, if_neg (by omega), getElem?_eq_none (by omega)]

theorem Past.advance (past : Past text cursor) : Past text (cursor.advance 1) := by
  obtain ⟨pos, len⟩ := past
  exact ⟨by simp only [Cursor.advance]; omega, by simp only [Cursor.advance]; omega⟩

theorem At.past (here : At text cursor []) : Past text (cursor.advance 1) := by
  obtain ⟨⟨front, rfl, pos⟩, len⟩ := here
  refine ⟨?_, ?_⟩
  · simp only [Cursor.advance, pos, append_nil]
    omega
  · simp only [Cursor.advance, len, length_nil]
    omega

theorem skipStars_returns (here : At pattern p (42 :: rest)) (result : skipStars pattern fuel p = some q) :
    At pattern q (42 :: rest.dropWhile (· == 42)) := by
  induction fuel generalizing p rest with
  | zero => cases result
  | succ fuel ih =>
    rw [skipStars, here.read] at result
    cases rest with
    | nil =>
      cases result
      exact here
    | cons c rest =>
      simp only [cons_append, getElem?_cons_succ, getElem?_cons_zero, bind_eq_bind, bind_some] at result
      split at result
      next star =>
        subst star
        rw [dropWhile_cons_of_pos rfl]
        exact ih here.step result
      next other =>
        cases result
        rwa [dropWhile_cons_of_neg (by simpa using other)]

theorem skipStars_ends (here : At pattern p (42 :: rest)) (enough : rest.length < fuel) : ∃ q, skipStars pattern fuel p = some q := by
  induction fuel generalizing p rest with
  | zero => exact absurd enough (Nat.not_lt_zero _)
  | succ fuel ih =>
    rw [skipStars, here.read]
    cases rest with
    | nil => exact ⟨p, rfl⟩
    | cons c rest =>
      simp only [cons_append, getElem?_cons_succ, getElem?_cons_zero, bind_eq_bind, bind_some]
      split
      next star =>
        subst star
        exact ih here.step (by rw [length_cons] at enough; omega)
      next other => exact ⟨p, rfl⟩

theorem skipLast_returns (here : At pattern p rest) (result : skipLast pattern fuel p = some q) : At pattern q (rest.dropWhile (· == 42)) := by
  induction fuel generalizing p rest with
  | zero => cases result
  | succ fuel ih =>
    rw [skipLast, here.read] at result
    cases rest with
    | nil =>
      cases result
      exact here
    | cons c rest =>
      simp only [cons_append, getElem?_cons_zero, bind_eq_bind, bind_some] at result
      split at result
      next star =>
        subst star
        rw [dropWhile_cons_of_pos rfl]
        exact ih here.step result
      next other =>
        cases result
        rwa [dropWhile_cons_of_neg (by simpa using other)]

theorem skipLast_ends (here : At pattern p rest) (enough : rest.length < fuel) : ∃ q, skipLast pattern fuel p = some q := by
  induction fuel generalizing p rest with
  | zero => exact absurd enough (Nat.not_lt_zero _)
  | succ fuel ih =>
    rw [skipLast, here.read]
    cases rest with
    | nil => exact ⟨p, rfl⟩
    | cons c rest =>
      simp only [cons_append, getElem?_cons_zero, bind_eq_bind, bind_some]
      split
      next star => exact ih here.step (by rw [length_cons] at enough; omega)
      next other => exact ⟨p, rfl⟩

theorem charValue_inj {a b : UInt8} : charValue a = charValue b ↔ a = b := by
  rw [charValue, charValue, Int8.toInt_inj]
  exact ⟨fun same => congrArg Int8.toUInt8 same, fun same => congrArg _ same⟩

theorem sameChar_eq (nocase : Bool) (a c : UInt8) : sameChar nocase a c = (ClassItem.byte a).accepts nocase c := by
  cases nocase with
  | true => rfl
  | false =>
    rw [Bool.eq_iff_iff]
    simp only [sameChar, ClassItem.accepts, fold, Bool.not_false, if_true, Bool.false_eq_true, if_false, beq_iff_eq, charValue_inj]

theorem inRange_eq (nocase : Bool) (a b c : UInt8) :
    inRange nocase (charValue a) (charValue b) (charValue c) = (ClassItem.range a b).accepts nocase c := by
  have low : (if charValue a > charValue b then charValue b else charValue a) = min (charValue a) (charValue b) := by
    split <;> omega
  have high : (if charValue a > charValue b then charValue a else charValue b) = max (charValue a) (charValue b) := by
    split <;> omega
  cases nocase <;> simp only [inRange, ClassItem.accepts, fold, low, high, Bool.false_eq_true, if_false, if_true]

inductive LeadingItem : List UInt8 → ClassItem → List UInt8 → Prop
  | escaped (a : UInt8) (after : List UInt8) : LeadingItem (92 :: a :: after) (.escaped a) after
  | range (c b : UInt8) (after : List UInt8) (unescaped : c ≠ 92) (inside : c ≠ 93) : LeadingItem (c :: 45 :: b :: after) (.range c b) after
  | byte (c : UInt8) (after : List UInt8) (unescaped : c ≠ 92) (inside : c ≠ 93) (single : ∀ b rest, after ≠ 45 :: b :: rest) :
    LeadingItem (c :: after) (.byte c) after

theorem classBody_cases (rest : List UInt8) :
    (rest = [] ∧ classBody rest = ⟨[], false, []⟩) ∨ (rest = [92] ∧ classBody rest = ⟨[.escaped 92], true, []⟩) ∨
      (∃ after, rest = 93 :: after ∧ classBody rest = ⟨[], false, after⟩) ∨
      ∃ item after, LeadingItem rest item after ∧ classBody rest = (classBody after).add item := by
  cases rest with
  | nil => exact .inl ⟨rfl, rfl⟩
  | cons c rest =>
    by_cases escape : c = 92
    · subst escape
      cases rest with
      | nil => exact .inr (.inl ⟨rfl, rfl⟩)
      | cons a after => exact .inr (.inr (.inr ⟨_, _, .escaped a after, by rw [classBody, if_pos rfl]⟩))
    by_cases closed : c = 93
    · subst closed
      exact .inr (.inr (.inl ⟨rest, rfl, by rw [classBody.eq_def]; rfl⟩))
    refine .inr (.inr (.inr ?_))
    cases rest with
    | nil => exact ⟨_, _, .byte c [] escape closed (fun _ _ same => by cases same), by simp [classBody, escape, closed]⟩
    | cons dash after =>
      cases after with
      | nil => exact ⟨_, _, .byte c [dash] escape closed (fun _ _ same => by cases same), by simp [classBody, escape, closed]⟩
      | cons b after =>
        by_cases range : dash = 45
        · subst range
          exact ⟨_, _, .range c b after escape closed, by simp [classBody, escape, closed]⟩
        · refine ⟨_, _, .byte c (dash :: b :: after) escape closed fun _ _ same => range (cons.inj same).1, ?_⟩
          rw [classBody, if_neg escape, if_neg closed]
          simp only [range, if_false]

theorem LeadingItem.length {item : ClassItem} {after : List UInt8} (leading : LeadingItem rest item after) : after.length < rest.length := by
  cases leading <;> simp only [length_cons] <;> omega

theorem classLoop_item {item : ClassItem} {after : List UInt8} (here : At pattern p rest) (leading : LeadingItem rest item after) :
    ∃ q, At pattern q after ∧ 0 < q.pos ∧ ∀ matched, classLoop pattern string nocase s (fuel + 1) p matched =
      (s.read string 0).bind fun c => classLoop pattern string nocase s fuel q (matched || item.accepts nocase c) := by
  cases leading with
  | escaped a after =>
    refine ⟨(p.advance 1).advance 1, here.step.step, Nat.succ_pos _, fun matched => ?_⟩
    have current : p.read pattern 0 = some 92 := here.read 0
    have next : (p.advance 1).read pattern 0 = some a := here.step.read 0
    simp only [classLoop, current, next, bind_eq_bind, bind_some, if_true]
    rfl
  | range c b after unescaped inside =>
    have after_ : At pattern (p.advance [c, 45, b].length) after := here.advance
    refine ⟨p.advance 3, after_, Nat.succ_pos _, fun matched => ?_⟩
    have long : 3 ≤ p.len := by
      rw [here.len]
      simp only [length_cons]
      omega
    have left : p.len ≠ 0 := by omega
    simp only [classLoop, here.read, cons_append, getElem?_cons_zero, getElem?_cons_succ, bind_eq_bind, bind_some,
      unescaped, inside, left, long, if_false, and_self, if_true, inRange_eq]
  | byte c after unescaped inside single =>
    refine ⟨p.advance 1, here.step, Nat.succ_pos _, fun matched => ?_⟩
    have left : p.len ≠ 0 := by simp [here.len_zero]
    have next : ∃ d, p.read pattern 1 = some d ∧ ¬ (d = 45 ∧ 3 ≤ p.len) := by
      rw [here.read, here.len]
      cases after with
      | nil => exact ⟨0, rfl, fun dash => absurd dash.1 (by decide)⟩
      | cons d after =>
        refine ⟨d, rfl, ?_⟩
        rintro ⟨rfl, long⟩
        cases after with
        | nil =>
          simp only [length_cons, length_nil] at long
          omega
        | cons b after => exact single b after rfl
    obtain ⟨d, read, other⟩ := next
    have current : p.read pattern 0 = some c := here.read 0
    simp only [classLoop, current, read, bind_eq_bind, bind_some, unescaped, inside, left, other, if_false, sameChar_eq]

theorem classLoop_dangling (here : At pattern p [92]) (matched : Bool) : classLoop pattern string nocase s fuel p matched = none := by
  have current : p.read pattern 0 = some 92 := here.read 0
  have next : (p.advance 1).read pattern 0 = some 0 := here.step.read 0
  have beyond : ((p.advance 1).advance 1).read pattern 0 = none := here.step.past.read 0
  rcases fuel with _ | _ | fuel
  · rfl
  · simp [classLoop, current, next]
  · simp [classLoop, current, next, beyond]

theorem classLoop_returns (here : At pattern p rest) (moved : 0 < p.pos) {matched : Bool} {result : Cursor × Bool}
    (closed : classLoop pattern string nocase s fuel p matched = some result) :
    (classBody rest).dangling = false ∧ At pattern (result.1.advance 1) (classBody rest).rest ∧
      ((classBody rest).items = [] ∧ result.2 = matched ∨ ∃ c, s.read string 0 = some c ∧
        result.2 = (matched || (classBody rest).items.any (ClassItem.accepts nocase c))) := by
  induction fuel generalizing p rest matched with
  | zero => cases closed
  | succ fuel ih =>
    obtain ⟨rfl, body⟩ | ⟨rfl, -⟩ | ⟨after, rfl, body⟩ | ⟨item, after, leading, body⟩ := classBody_cases rest
    · have current : p.read pattern 0 = some 0 := here.read 0
      have none_left : p.len = 0 := here.len_zero.mpr rfl
      simp [classLoop, current, none_left] at closed
      subst closed
      rw [body]
      exact ⟨rfl, (Cursor.back_advance moved).symm ▸ here, .inl ⟨rfl, rfl⟩⟩
    · rw [classLoop_dangling here] at closed
      cases closed
    · have current : p.read pattern 0 = some 93 := here.read 0
      simp [classLoop, current] at closed
      subst closed
      rw [body]
      exact ⟨rfl, here.step, .inl ⟨rfl, rfl⟩⟩
    · obtain ⟨q, there, moved', step⟩ := classLoop_item here leading
      rw [step, bind_eq_some_iff] at closed
      obtain ⟨c, read, onward⟩ := closed
      obtain ⟨regular, ended, found⟩ := ih there moved' onward
      rw [body]
      refine ⟨regular, ended, .inr ⟨c, read, ?_⟩⟩
      simp only [ClassBody.add, any_cons, ← Bool.or_assoc]
      obtain ⟨empty, same⟩ | ⟨c', read', same⟩ := found
      · rw [same, empty, any_nil, Bool.or_false]
      · obtain rfl := some.inj (read.symm.trans read')
        exact same

theorem classLoop_ends (here : At pattern p rest) (regular : (classBody rest).dangling = false)
    (readable : (classBody rest).items = [] ∨ ∃ c, s.read string 0 = some c) (enough : rest.length < fuel) (matched : Bool) :
    ∃ result, classLoop pattern string nocase s fuel p matched = some result := by
  induction fuel generalizing p rest matched with
  | zero => exact absurd enough (Nat.not_lt_zero _)
  | succ fuel ih =>
    obtain ⟨rfl, body⟩ | ⟨rfl, body⟩ | ⟨after, rfl, body⟩ | ⟨item, after, leading, body⟩ := classBody_cases rest
    · have current : p.read pattern 0 = some 0 := here.read 0
      have none_left : p.len = 0 := here.len_zero.mpr rfl
      simp [classLoop, current, none_left]
    · rw [body] at regular
      cases regular
    · have current : p.read pattern 0 = some 93 := here.read 0
      simp [classLoop, current]
    · obtain ⟨q, there, -, step⟩ := classLoop_item here leading
      rw [body] at regular readable
      obtain empty | ⟨c, read⟩ := readable
      · cases empty
      · rw [step, read]
        have shorter := leading.length
        exact ih there regular (.inr ⟨c, read⟩) (by omega) _

end

/-! The tokens of a pattern: how a pattern begins, which classes a string leads to, and what may follow a
NUL that was taken from an empty string. -/

section
open Wildcards

variable {nocase : Bool} {c : UInt8} {t : GlobToken} {ts : List GlobToken} {rest after string : List UInt8}

inductive LeadingToken : List UInt8 → GlobToken → List UInt8 → Prop
  | star (rest : List UInt8) : LeadingToken (42 :: rest) .star rest
  | any (rest : List UInt8) : LeadingToken (63 :: rest) .any rest
  | bracket (rest inside : List UInt8) (negated : Bool) (negation : negated = (rest.headD 0 == 94))
    (class_ : inside = if negated then rest.tail else rest) :
    LeadingToken (91 :: rest) (.bracket negated (classBody inside).items (classBody inside).dangling) (classBody inside).rest
  | escaped (a : UInt8) (rest : List UInt8) : LeadingToken (92 :: a :: rest) (.byte a) rest
  | last : LeadingToken [92] (.byte 92) []
  | byte (a : UInt8) (rest : List UInt8) (plain : a ≠ 42 ∧ a ≠ 63 ∧ a ≠ 91 ∧ a ≠ 92) : LeadingToken (a :: rest) (.byte a) rest

theorem tokens_nil : tokens [] = [] := by rw [tokens]

theorem tokens_cons (c : UInt8) (rest : List UInt8) : ∃ t after, LeadingToken (c :: rest) t after ∧ tokens (c :: rest) = t :: tokens after := by
  rw [tokens.eq_def]
  simp only
  split
  next star =>
    subst star
    exact ⟨_, _, .star rest, rfl⟩
  split
  next any =>
    subst any
    exact ⟨_, _, .any rest, rfl⟩
  split
  next bracket =>
    subst bracket
    exact ⟨_, _, .bracket rest _ _ rfl rfl, rfl⟩
  split
  next escape =>
    subst escape
    cases rest with
    | nil => exact ⟨_, _, .last, by rw [tokens_nil]⟩
    | cons a rest => exact ⟨_, _, .escaped a rest, rfl⟩
  next star any bracket escape => exact ⟨_, _, .byte c rest ⟨star, any, bracket, escape⟩, rfl⟩

theorem tokens_star (rest : List UInt8) : tokens (42 :: rest) = .star :: tokens rest := by
  rw [tokens.eq_def]
  rfl

theorem LeadingToken.length (leading : LeadingToken rest t after) : after.length < rest.length := by
  cases leading with
  | bracket rest inside negated negation class_ =>
    have short := classBody_rest_length inside
    have shorter : inside.length ≤ rest.length := by
      rw [class_]
      split
      · rw [length_tail]
        omega
      · exact Nat.le_refl _
    rw [length_cons]
    omega
  | _ => simp only [length_cons, length_nil]; omega

def GlobToken.dangling : GlobToken → Bool
  | .bracket _ _ dangling => dangling
  | _ => false

def Stuck (nocase : Bool) (ts : List GlobToken) (string : List UInt8) : Prop :=
  ∃ front t back, ts = front ++ t :: back ∧ t.dangling = true ∧ Leaves (language nocase front) string

theorem token_one (single : t ≠ .star) : t.token nocase = .one fun c => t.accepts nocase c := by
  cases t with
  | star => exact absurd rfl single
  | _ => rfl

theorem language_one (single : t ≠ .star) : language nocase (t :: ts) = .one (fun c => t.accepts nocase c) :: language nocase ts := by
  rw [language, map_cons, token_one single]
  rfl

theorem not_stuck_regular (regular : ∀ t ∈ ts, t.dangling = false) : ¬ Stuck nocase ts string := by
  rintro ⟨front, t, back, rfl, dangling, -⟩
  rw [regular t (mem_append_right _ mem_cons_self)] at dangling
  cases dangling

theorem not_stuck_nil : ¬ Stuck nocase ts [] := by
  rintro ⟨front, t, back, -, -, leaves⟩
  exact not_leaves_of_nil leaves

theorem stuck_cons (single : t ≠ .star) :
    Stuck nocase (t :: ts) (c :: string) ↔ t.dangling = true ∨ t.accepts nocase c = true ∧ Stuck nocase ts string := by
  constructor
  · rintro ⟨front, other, back, same, dangling, leaves⟩
    cases front with
    | nil =>
      obtain ⟨rfl, rfl⟩ := cons.inj same
      exact .inl dangling
    | cons first front =>
      obtain ⟨rfl, rfl⟩ := cons.inj same
      rw [language_one single, leaves_one] at leaves
      exact .inr ⟨leaves.1, front, other, back, rfl, dangling, leaves.2⟩
  · rintro (dangling | ⟨accepted, front, other, back, rfl, dangling, leaves⟩)
    · exact ⟨[], t, ts, rfl, dangling, leaves_nil.mpr (cons_ne_nil _ _)⟩
    · exact ⟨t :: front, other, back, rfl, dangling, by rw [language_one single, leaves_one]; exact ⟨accepted, leaves⟩⟩

theorem stuck_star_cons : Stuck nocase (.star :: ts) (c :: string) ↔ Stuck nocase ts (c :: string) ∨ Stuck nocase (.star :: ts) string := by
  constructor
  · rintro ⟨front, other, back, same, dangling, leaves⟩
    cases front with
    | nil =>
      obtain ⟨rfl, rfl⟩ := cons.inj same
      cases dangling
    | cons first front =>
      obtain ⟨rfl, rfl⟩ := cons.inj same
      rcases leaves_star_cons.mp leaves with leaves | leaves
      · exact .inl ⟨front, other, back, rfl, dangling, leaves⟩
      · exact .inr ⟨.star :: front, other, back, rfl, dangling, leaves⟩
  · rintro (⟨front, other, back, rfl, dangling, leaves⟩ | ⟨front, other, back, same, dangling, leaves⟩)
    · exact ⟨.star :: front, other, back, rfl, dangling, leaves_star_cons.mpr (.inl leaves)⟩
    · cases front with
      | nil =>
        obtain ⟨rfl, rfl⟩ := cons.inj same
        cases dangling
      | cons first front =>
        obtain ⟨rfl, rfl⟩ := cons.inj same
        exact ⟨.star :: front, other, back, rfl, dangling, leaves_star_cons.mpr (.inr leaves)⟩

theorem regular_of_matches (matched : Matches (language nocase ts) string) (free : ¬ Stuck nocase ts string) : ∀ t ∈ ts, t.dangling = false := by
  intro t member
  by_contra dangling
  obtain ⟨front, back, rfl⟩ := append_of_mem member
  refine free ⟨front, t, back, rfl, by simpa using dangling, ?_⟩
  have single : t ≠ .star := by
    rintro rfl
    exact dangling rfl
  rw [language, map_append, matches_append] at matched
  obtain ⟨first, last, rfl, before, onward⟩ := matched
  refine ⟨first, last, rfl, ?_, before⟩
  rintro rfl
  change Matches (language nocase (t :: back)) [] at onward
  rw [language_one single] at onward
  exact not_matches_one_nil onward

theorem stuck_star_star : Stuck nocase (.star :: .star :: ts) string ↔ Stuck nocase (.star :: ts) string := by
  induction string with
  | nil => exact iff_of_false not_stuck_nil not_stuck_nil
  | cons c string ih => rw [stuck_star_cons, ih, or_iff_left_of_imp fun stuck => stuck_star_cons.mpr (.inr stuck)]

theorem matches_stars (rest string : List UInt8) : Matches (language nocase (.star :: tokens rest)) string ↔
    Matches (language nocase (.star :: tokens (rest.dropWhile (· == 42)))) string := by
  induction rest with
  | nil => exact Iff.rfl
  | cons c rest ih =>
    by_cases star : c = 42
    · subst star
      rw [dropWhile_cons_of_pos rfl, tokens_star, ← ih]
      exact matches_star_star
    · rw [dropWhile_cons_of_neg (by simpa using star)]

theorem stuck_stars (rest string : List UInt8) : Stuck nocase (.star :: tokens rest) string ↔
    Stuck nocase (.star :: tokens (rest.dropWhile (· == 42))) string := by
  induction rest with
  | nil => exact Iff.rfl
  | cons c rest ih =>
    by_cases star : c = 42
    · subst star
      rw [dropWhile_cons_of_pos rfl, tokens_star, ← ih]
      exact stuck_star_star
    · rw [dropWhile_cons_of_neg (by simpa using star)]

theorem LeadingToken.single (leading : LeadingToken rest t after) (other : ¬ rest.headD 0 = 42) : t ≠ .star := by
  cases leading with
  | star rest => exact absurd rfl other
  | _ =>
    intro same
    cases same

theorem matches_nil_iff (rest : List UInt8) : Matches (language nocase (tokens rest)) [] ↔ rest.dropWhile (· == 42) = [] := by
  induction rest with
  | nil =>
    rw [tokens_nil]
    exact iff_of_true rfl rfl
  | cons c rest ih =>
    by_cases star : c = 42
    · subst star
      rw [dropWhile_cons_of_pos rfl, tokens_star, ← ih]
      exact matches_star_nil
    · rw [dropWhile_cons_of_neg (by simpa using star)]
      obtain ⟨t, after, leading, same⟩ := tokens_cons c rest
      rw [same, language_one (leading.single star)]
      exact iff_of_false not_matches_one_nil (cons_ne_nil _ _)

def GlobToken.blind : GlobToken → Bool
  | .any => true
  | .bracket true [] dangling => !dangling
  | _ => false

def GlobToken.hopeless : GlobToken → Bool
  | .bracket false [] dangling => !dangling
  | _ => false

def GlobToken.isStar : GlobToken → Bool
  | .star => true
  | _ => false

def fails : List GlobToken → Bool
  | [] => true
  | t :: ts => t.hopeless || t.blind && fails ts

def passes : List GlobToken → Bool
  | [] => false
  | t :: ts => if t.isStar then ts.isEmpty || passes ts else t.blind && passes ts

/-- The token accepts the NUL at the end of the string. -/
def GlobToken.takesNul (nocase : Bool) (t : GlobToken) : Bool :=
  match t with
  | .star | .any => false
  | .byte _ | .bracket .. => t.accepts nocase 0

section
variable (blind : t.blind = true)
include blind

theorem hopeless_of_blind : t.hopeless = false := by
  cases t with
  | bracket negated items dangling =>
    cases negated with
    | true => rfl
    | false => cases items <;> cases blind
  | _ => rfl

theorem isStar_of_blind : t.isStar = false := by
  cases t with
  | star => cases blind
  | _ => rfl

theorem fails_cons : fails (t :: ts) = fails ts := by
  rw [fails, hopeless_of_blind blind, blind, Bool.false_or, Bool.true_and]

theorem passes_cons : passes (t :: ts) = passes ts := by
  rw [passes, isStar_of_blind blind, blind, if_neg Bool.false_ne_true, Bool.true_and]

end

theorem passes_star (some_ : ts ≠ []) : passes (.star :: ts) = passes ts := by
  cases ts with
  | nil => exact absurd rfl some_
  | cons t ts => rfl

theorem tokens_ne_nil (some_ : rest ≠ []) : tokens rest ≠ [] := by
  obtain ⟨c, rest, rfl⟩ := exists_cons_of_ne_nil some_
  obtain ⟨t, after, -, same⟩ := tokens_cons c rest
  rw [same]
  exact cons_ne_nil _ _

theorem passes_stars (rest : List UInt8) : passes (.star :: tokens rest) = passes (.star :: tokens (rest.dropWhile (· == 42))) := by
  induction rest with
  | nil => rfl
  | cons c rest ih =>
    by_cases star : c = 42
    · subst star
      rw [dropWhile_cons_of_pos rfl, tokens_star, ← ih, passes_star (cons_ne_nil _ _)]
    · rw [dropWhile_cons_of_neg (by simpa using star)]

theorem not_passes_of_fails (ends : fails ts = true) : passes ts = false := by
  induction ts with
  | nil => rfl
  | cons t ts ih =>
    cases blind : t.blind with
    | true =>
      rw [fails_cons blind] at ends
      rw [passes_cons blind]
      exact ih ends
    | false =>
      rw [fails, blind, Bool.false_and, Bool.or_false] at ends
      cases t with
      | star => cases ends
      | _ => rw [passes, blind, Bool.false_and]; rfl

end

end Cplusplus.Redis.Glob
