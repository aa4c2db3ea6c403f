import Cplusplus.Proofs.ZslOperations
import Cplusplus.ZsetRanges

/-! What a lexicographic range means, and the ranges that the code takes for empty although
elements are in them: one bound is infinite, the other one excludes the string that the
shared object for the infinite bound happens to contain. -/

namespace Cplusplus.Redis.Lex

open List Option

section
open SortedCut Zsl

def aboveMin (range : Zlexrangespec) (x : List UInt8) : Bool :=
  match range.min with
  | .minstring => true
  | .maxstring => false
  | .string s => if range.minex then s < x else s ≤ x

def belowMax (range : Zlexrangespec) (x : List UInt8) : Bool :=
  match range.max with
  | .minstring => false
  | .maxstring => true
  | .string s => if range.maxex then x < s else x ≤ s

def inLexRange (range : Zlexrangespec) (x : List UInt8) : Bool := aboveMin range x && belowMax range x

variable {range : Zlexrangespec} {x y : List UInt8} {objs : List (List UInt8)}

theorem compareStringObjects_pos (a b : List UInt8) : 0 < compareStringObjects a b ↔ b < a := by
  rw [← Int.not_le, Int.le_iff_lt_or_eq, compareStringObjects_lt, compareStringObjects_eq, ← List.le_iff_lt_or_eq, List.not_le]

section
variable (range)

theorem zslLexValueGteMin_eq (x : List UInt8) : zslLexValueGteMin x range = aboveMin range x := by
  unfold zslLexValueGteMin aboveMin
  cases range.min with
  | minstring | maxstring => cases range.minex <;> rfl
  | string s =>
    cases range.minex with
    | true => simp [compareStringObjectsForLexRange, compareStringObjects_pos]
    | false => simp [compareStringObjectsForLexRange, ← Int.not_lt, compareStringObjects_lt, List.not_lt]

theorem zslLexValueLteMax_eq (x : List UInt8) : zslLexValueLteMax x range = belowMax range x := by
  unfold zslLexValueLteMax belowMax
  cases range.max with
  | minstring | maxstring => cases range.maxex <;> rfl
  | string s =>
    cases range.maxex with
    | true => simp [compareStringObjectsForLexRange, compareStringObjects_lt]
    | false => simp [compareStringObjectsForLexRange, ← Int.not_lt, compareStringObjects_pos, List.not_lt]

end

theorem aboveMin_up (less : x < y) : aboveMin range x = true → aboveMin range y = true := by
  unfold aboveMin
  cases range.min with
  | minstring | maxstring => exact id
  | string s =>
    cases range.minex with
    | true =>
      simp only [if_true, decide_eq_true_eq]
      exact fun above => List.lt_trans above less
    | false =>
      simp only [Bool.false_eq_true, if_false, decide_eq_true_eq]
      exact fun above => List.le_of_lt (List.lt_of_le_of_lt above less)

theorem belowMax_down (less : x < y) : belowMax range y = true → belowMax range x = true := by
  unfold belowMax
  cases range.max with
  | minstring | maxstring => exact id
  | string s =>
    cases range.maxex with
    | true =>
      simp only [if_true, decide_eq_true_eq]
      exact fun below => List.lt_trans less below
    | false =>
      simp only [Bool.false_eq_true, if_false, decide_eq_true_eq]
      intro below
      rcases List.le_iff_lt_or_eq.mp below with below | rfl
      · exact List.le_of_lt (List.lt_trans less below)
      · exact List.le_of_lt less

theorem range_cuts {α : Type} {l : List α} (obj : α → List UInt8) (sorted : l.Pairwise fun a b => obj a < obj b) (range : Zlexrangespec) :
    Suffix (fun a => aboveMin range (obj a)) l ∧ Prefix (fun a => belowMax range (obj a)) l :=
  ⟨sorted.imp aboveMin_up, sorted.imp belowMax_down⟩

theorem zslParseLexRangeItem_cases {item : List UInt8} {bound : LexBound} {ex : Bool}
    (parsed : zslParseLexRangeItem item = some (bound, ex)) :
    (ex = false ∧ (bound = .minstring ∨ bound = .maxstring)) ∨ ∃ s, bound = .string s ∧ item = (if ex then 40 else 91) :: s := by
  unfold zslParseLexRangeItem at parsed
  cases item with
  | nil => cases parsed
  | cons c s =>
    simp only [getD_cons_zero, drop_succ_cons, drop_zero] at parsed
    split at parsed
    · split at parsed
      · cases parsed
      · cases parsed
        exact .inl ⟨rfl, .inr rfl⟩
    split at parsed
    · split at parsed
      · cases parsed
      · cases parsed
        exact .inl ⟨rfl, .inl rfl⟩
    split at parsed
    next exclusive =>
      cases parsed
      exact .inr ⟨s, rfl, by rw [exclusive]; rfl⟩
    split at parsed
    next inclusive =>
      cases parsed
      exact .inr ⟨s, rfl, by rw [inclusive]; rfl⟩
    next => cases parsed

structure BoundsOk (range : Zlexrangespec) : Prop where
  min : range.minex = true → ∃ s, range.min = .string s
  max : range.maxex = true → ∃ s, range.max = .string s

theorem zslParseLexRange_ok {min max : RangeObject} (parsed : zslParseLexRange min max = some range) : BoundsOk range := by
  have excluded : ∀ {item bound ex}, zslParseLexRangeItem item = some (bound, ex) → ex = true → ∃ s, bound = .string s := by
    intro item bound ex accepted exclusive
    obtain ⟨inclusive, _⟩ | ⟨s, string, _⟩ := zslParseLexRangeItem_cases accepted
    · rw [exclusive] at inclusive
      cases inclusive
    · exact ⟨s, string⟩
  cases min with
  | int => cases parsed
  | raw min =>
    cases max with
    | int => cases parsed
    | raw max =>
      obtain ⟨⟨low, lowex⟩, first, parsed⟩ := bind_eq_some_iff.mp parsed
      obtain ⟨⟨high, highex⟩, second, parsed⟩ := bind_eq_some_iff.mp parsed
      cases parsed
      exact ⟨excluded first, excluded second⟩

/-- From `-` up to but not including the contents of `shared.minstring`, or from the
contents of `shared.maxstring`, without them, up to `+`; and there is such an element. -/
def Misjudged (range : Zlexrangespec) (objs : List (List UInt8)) : Prop :=
  (range.min = .minstring ∧ range.max = .string LexBound.minstring.content ∧ range.maxex = true ∧
    ∃ x ∈ objs, x < LexBound.minstring.content) ∨
  (range.max = .maxstring ∧ range.min = .string LexBound.maxstring.content ∧ range.minex = true ∧
    ∃ x ∈ objs, LexBound.maxstring.content < x)

theorem misjudged_spec (misjudged : Misjudged range objs) : lexRangeEmpty range = true ∧ ∃ x ∈ objs, inLexRange range x = true := by
  rcases misjudged with ⟨min, max, ex, x, member, less⟩ | ⟨max, min, ex, x, member, less⟩
  · refine ⟨by rw [lexRangeEmpty, min, max, ex, Bool.or_true]; decide +kernel, x, member, ?_⟩
    simp [inLexRange, aboveMin, belowMax, min, max, ex, less]
  · refine ⟨by rw [lexRangeEmpty, min, max, ex, Bool.true_or]; decide +kernel, x, member, ?_⟩
    simp [inLexRange, aboveMin, belowMax, min, max, ex, less]

theorem lexRangeEmpty_sound (bounds : BoundsOk range) (empty : lexRangeEmpty range = true) (member : x ∈ objs)
    (inside : inLexRange range x = true) : Misjudged range objs := by
  obtain ⟨above, below⟩ := Bool.and_eq_true_iff.mp inside
  obtain ⟨minOk, maxOk⟩ := bounds
  obtain ⟨min, max, minex, maxex⟩ := range
  simp only [lexRangeEmpty, Bool.or_eq_true, Bool.and_eq_true, decide_eq_true_eq, compareStringObjects_eq] at empty
  cases min with
  | maxstring => cases above
  | minstring =>
    have inclusive : minex = false := by
      cases minex with
      | false => rfl
      | true => obtain ⟨s, equal⟩ := minOk rfl; cases equal
    subst inclusive
    cases max with
    | minstring => cases below
    | maxstring =>
      obtain less | ⟨same, _⟩ := empty
      · cases less
      · exact absurd same (by decide)
    | string t =>
      obtain less | ⟨rfl, ex⟩ := empty
      · cases less
      · obtain rfl : maxex = true := by simpa using ex
        simp only [belowMax, if_true, decide_eq_true_eq] at below
        exact .inl ⟨rfl, rfl, rfl, x, member, below⟩
  | string s =>
    cases max with
    | minstring => cases below
    | maxstring =>
      have inclusive : maxex = false := by
        cases maxex with
        | false => rfl
        | true => obtain ⟨s, equal⟩ := maxOk rfl; cases equal
      subst inclusive
      obtain less | ⟨rfl, ex⟩ := empty
      · cases less
      · obtain rfl : minex = true := by simpa using ex
        simp only [aboveMin, if_true, decide_eq_true_eq] at above
        exact .inr ⟨rfl, rfl, rfl, x, member, above⟩
    | string t =>
      have low : s ≤ x := by
        cases minex with
        | true => exact List.le_of_lt (by simpa [aboveMin] using above)
        | false => simpa [aboveMin] using above
      have high : x ≤ t := by
        cases maxex with
        | true => exact List.le_of_lt (by simpa [belowMax] using below)
        | false => simpa [belowMax] using below
      obtain less | ⟨same, ex⟩ := empty
      · have beyond : t < s := (compareStringObjects_pos s t).mp (Int.lt_trans Int.zero_lt_one less)
        exact absurd (List.le_trans low high) (List.not_le.mpr beyond)
      · obtain rfl : s = t := same
        obtain rfl := List.le_antisymm low high
        obtain rfl | rfl := ex
        · simp [aboveMin, List.lt_irrefl] at above
        · simp [belowMax, List.lt_irrefl] at below

end

/-! Lexicographic ranges of a skiplist whose entries have one score. -/

section
open SkipLinks SortedCut Zsl

variable {zsl : Zskiplist} {entries before after : List Entry} {e : Entry} {key : Int}

def lexEntries (range : Zlexrangespec) (entries : List Entry) : List Entry := entries.filter fun e => inLexRange range e.obj

theorem obj_lt (same : ∀ e ∈ entries, e.score.key = key) {a b : Entry} (inA : a ∈ entries) (inB : b ∈ entries)
    (precedes : Precedes a b) : a.obj < b.obj := by
  rcases precedes with less | ⟨_, less⟩
  · rw [same a inA, same b inB] at less
    exact absurd less (Int.lt_irrefl key)
  · exact less

theorem sorted_by_obj (ordered : Ordered entries) (same : ∀ e ∈ entries, e.score.key = key) : entries.Pairwise fun a b => a.obj < b.obj :=
  ordered.order.imp_of_mem (obj_lt same)

theorem below_down (same : ∀ e ∈ entries, e.score.key = key) (range : Zlexrangespec) : DownClosed (fun e => !aboveMin range e.obj) entries := by
  intro a inA b inB precedes
  have up : aboveMin range a.obj = true → aboveMin range b.obj = true := aboveMin_up (obj_lt same inA inB precedes)
  cases above : aboveMin range a.obj with
  | false => simp [above]
  | true => simp [up above]

theorem notAbove_down (same : ∀ e ∈ entries, e.score.key = key) (range : Zlexrangespec) : DownClosed (fun e => belowMax range e.obj) entries :=
  fun _ inA _ inB precedes => belowMax_down (obj_lt same inA inB precedes)

section
variable (linked : Linked zsl entries)
include linked

section
variable (range : Zlexrangespec)

theorem lexBelow_reads (member : e ∈ entries) (rank span : Nat) :
    lexBelow range rank span (zsl.heap e.addr) = some (!aboveMin range e.obj) := by
  obtain ⟨node, found, element, _⟩ := linked.node member
  simp only [lexBelow, found, element, bind_eq_bind, bind_some, zslLexValueGteMin_eq]
  rfl

theorem lexNotAbove_reads (member : e ∈ entries) (rank span : Nat) :
    lexNotAbove range rank span (zsl.heap e.addr) = some (belowMax range e.obj) := by
  obtain ⟨node, found, element, _⟩ := linked.node member
  simp only [lexNotAbove, found, element, bind_eq_bind, bind_some, zslLexValueLteMax_eq]
  rfl

theorem zslObj_eq (member : e ∈ entries) : zslObj zsl e.addr = some e.obj := by
  obtain ⟨node, found, element, _⟩ := linked.node member
  rw [zslObj, found, bind_some, element]

theorem zslIsInLexRange_spec : zslIsInLexRange zsl range = some (!lexRangeEmpty range &&
      (entries.getLast?.any (fun e => aboveMin range e.obj) && entries.head?.any fun e => belowMax range e.obj)) := by
  unfold zslIsInLexRange
  cases lexRangeEmpty range with
  | true => rfl
  | false =>
    obtain ⟨rfl, tail⟩ | ⟨f, inside, g, inside', l, last, tail, first, read, forward⟩ := linked.ends
    · rw [tail]
      rfl
    · simp only [last, tail, first, read, forward, zslObj_eq linked inside, zslObj_eq linked inside', zslLexValueGteMin_eq,
        zslLexValueLteMax_eq, bind_eq_bind, bind_some, Option.pure_def, Bool.false_eq_true, if_false, any_some]
      cases aboveMin range f.obj <;> rfl

end

theorem zslFirstInLexRange_spec (ordered : Ordered entries) (same : ∀ e ∈ entries, e.score.key = key) (range : Zlexrangespec) :
    zslFirstInLexRange zsl range = some (if lexRangeEmpty range then none else (lexEntries range entries).head?.map Entry.addr) := by
  have isIn := zslIsInLexRange_spec linked range
  obtain ⟨low, high⟩ := range_cuts Entry.obj (sorted_by_obj ordered same) range
  unfold zslFirstInLexRange
  cases empty : lexRangeEmpty range with
  | true =>
    rw [empty] at isIn
    rw [isIn]
    rfl
  | false =>
    rw [empty, Bool.not_false, Bool.true_and] at isIn
    rw [isIn]
    cases within : entries.getLast?.any (fun e => aboveMin range e.obj) && entries.head?.any fun e => belowMax range e.obj with
    | false =>
      have none_ : lexEntries range entries = [] := range_eq_nil low high within
      rw [none_]
      rfl
    | true =>
      obtain ⟨path, f, inside, descended, next, head⟩ := linked.firstInRange ordered.order (below_down same range) (notAbove_down same range)
        (fun f member => lexBelow_reads linked range member) (Bool.and_eq_true_iff.mp within).1
      simp only [descended, next, zslObj_eq linked inside, zslLexValueLteMax_eq, bind_eq_bind, bind_some, Option.pure_def,
        Bool.not_true, Bool.false_eq_true, if_false]
      rw [lexEntries, show (entries.filter fun e => inLexRange range e.obj).head? = _ from head]
      split <;> rfl

theorem zslLastInLexRange_spec (ordered : Ordered entries) (same : ∀ e ∈ entries, e.score.key = key) (range : Zlexrangespec) :
    zslLastInLexRange zsl range = some (if lexRangeEmpty range then none else (lexEntries range entries).getLast?.map Entry.addr) := by
  have isIn := zslIsInLexRange_spec linked range
  obtain ⟨low, high⟩ := range_cuts Entry.obj (sorted_by_obj ordered same) range
  unfold zslLastInLexRange
  cases empty : lexRangeEmpty range with
  | true =>
    rw [empty] at isIn
    rw [isIn]
    rfl
  | false =>
    rw [empty, Bool.not_false, Bool.true_and] at isIn
    rw [isIn]
    cases within : entries.getLast?.any (fun e => aboveMin range e.obj) && entries.head?.any fun e => belowMax range e.obj with
    | false =>
      have none_ : lexEntries range entries = [] := range_eq_nil low high within
      rw [none_]
      rfl
    | true =>
      obtain ⟨path, f, inside, rank, descended, first, last⟩ := linked.lastInRange ordered.order (below_down same range)
        (notAbove_down same range) (fun f member => lexNotAbove_reads linked range member) (Bool.and_eq_true_iff.mp within).2
      simp only [descended, first, zslObj_eq linked inside, zslLexValueGteMin_eq, bind_eq_bind, bind_some, Option.pure_def,
        Bool.not_true, Bool.false_eq_true, if_false]
      rw [lexEntries, show (entries.filter fun e => inLexRange range e.obj).getLast? = _ from last]
      split <;> rfl

end

theorem zslDeleteWhile_lex (range : Zlexrangespec) {update : List Nat} {fuel : Nat} (traversed : Nat)
    (linked : Linked zsl (before ++ after)) (path : UpdateOk zsl.header before zsl.level update) (enough : after.length < fuel) :
    ∃ zsl', zslDeleteWhile (fun _ node => node.obj.any fun obj => zslLexValueLteMax obj range) update fuel zsl
        (after.head?.map Entry.addr) traversed = some (zsl', (after.takeWhile fun e => belowMax range e.obj).map Entry.obj) ∧
      zsl'.header = zsl.header ∧ Linked zsl' (before ++ after.dropWhile fun e => belowMax range e.obj) := by
  induction after generalizing zsl fuel traversed with
  | nil => exact ⟨zsl, by cases fuel <;> rfl, rfl, linked⟩
  | cons e after ih =>
    cases fuel with
    | zero => cases enough
    | succ fuel =>
      obtain ⟨node, found, element, number⟩ := linked.node (e := e) (by simp)
      cases holds : belowMax range e.obj with
      | false =>
        simp only [takeWhile_cons, dropWhile_cons, holds, Bool.false_eq_true, if_false]
        refine ⟨zsl, ?_, rfl, linked⟩
        simp only [zslDeleteWhile, head?_cons, map_some, found, element, any_some,
          zslLexValueLteMax_eq, holds, Bool.false_eq_true, if_false, bind_eq_bind, bind_some]
        rfl
      | true =>
        obtain ⟨l, zsl₁, read, next, deleted, header, path₁, linked₁⟩ := linked.deleteNext path
        obtain ⟨zsl', run, header', linked'⟩ := ih (traversed + 1) linked₁ path₁ (Nat.lt_of_succ_lt_succ enough)
        simp only [takeWhile_cons, dropWhile_cons, holds, if_true]
        refine ⟨zsl', ?_, header'.trans header, linked'⟩
        simp only [zslLexValueLteMax_eq] at run
        simp only [zslDeleteWhile, head?_cons, map_some, found, element, any_some,
          zslLexValueLteMax_eq, holds, read, deleted, next, run, if_true, bind_eq_bind, bind_some]
        rfl

theorem zslDeleteRangeByLex_spec (linked : Linked zsl entries) (ordered : Ordered entries)
    (same : ∀ e ∈ entries, e.score.key = key) (range : Zlexrangespec) :
    ∃ zsl', zslDeleteRangeByLex zsl range = some (zsl', (lexEntries range entries).map Entry.obj) ∧
      Linked zsl' (entries.filter fun e => !inLexRange range e.obj) := by
  have cut := filter_split ordered.order (below_down same range)
  obtain ⟨path, descended, update, next, _⟩ := linked.search cut
    (guards_of_pred ordered.order (below_down same range) fun f member => lexBelow_reads linked range member)
  have enough : (entries.filter fun e => !!aboveMin range e.obj).length < zsl.length + 1 := by
    rw [linked.length]
    exact Nat.lt_succ_of_le (length_filter_le _ _)
  obtain ⟨zsl', run, _, linked'⟩ := zslDeleteWhile_lex range 0 (cut ▸ linked) update enough
  have high := (range_cuts Entry.obj (sorted_by_obj ordered same) range).2.sublist
    (filter_sublist (p := fun e => !!aboveMin range e.obj))
  refine ⟨zsl', ?_, ?_⟩
  · simp only [zslDeleteRangeByLex, descended, next, bind_eq_bind, bind_some, run, high.takeWhile_eq]
    rw [List.filter_filter, lexEntries]
    simp only [inLexRange, Bool.not_not, Bool.and_comm]
  · rw [high.dropWhile_eq, ← filter_or _ ordered.order (below_down same range)] at linked'
    simpa only [inLexRange, Bool.not_and] using linked'

end

end Cplusplus.Redis.Lex
