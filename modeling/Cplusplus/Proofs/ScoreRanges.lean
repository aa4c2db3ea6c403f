import Cplusplus.Proofs.DictMap
import Cplusplus.Proofs.ZslRun
import Cplusplus.ZsetRanges

/-! Ranges of scores of a sorted set. The bounds are numbers: the parser of a range refuses the
others. -/

namespace Cplusplus.Redis.Zsl
open SkipLinks SortedCut
open Option (bind_eq_bind bind_some map_some pure_def)

variable {zsl : Zskiplist} {entries : List Entry} {e : Entry} {range : Zrangespec}

def inScoreRange (range : Zrangespec) (e : Entry) : Bool := zslValueGteMin e.score range && zslValueLteMax e.score range

def scoreEntries (range : Zrangespec) (entries : List Entry) : List Entry := entries.filter (inScoreRange range)

def NumberBounds (range : Zrangespec) : Prop := range.min.isNaN = false ∧ range.max.isNaN = false

theorem gteMin_eq (numbers : NumberBounds range) (number : e.score.isNaN = false) : zslValueGteMin e.score range = !below range e := by
  unfold zslValueGteMin below Binary64.lt Binary64.le
  simp only [numbers.1, number, Bool.not_false, Bool.true_and]
  split
  · rw [← decide_not]
    apply decide_eq_decide.mpr
    omega
  · rw [← decide_not]
    apply decide_eq_decide.mpr
    omega

theorem lteMax_eq (e : Entry) (range : Zrangespec) : zslValueLteMax e.score range = notAbove range e := rfl

theorem gteMin_down (ordered : Ordered entries) (numbers : NumberBounds range) :
    DownClosed (fun e => !zslValueGteMin e.score range) entries := by
  intro a inA b inB precedes
  simp only [gteMin_eq numbers (ordered.numbers a inA), gteMin_eq numbers (ordered.numbers b inB), Bool.not_not]
  exact below_down ordered range a inA b inB precedes

theorem lteMax_down (ordered : Ordered entries) (range : Zrangespec) : DownClosed (fun e => zslValueLteMax e.score range) entries :=
  notAbove_down ordered range

theorem scoreEntries_empty (numbers : NumberBounds range) (ordered : Ordered entries) (empty : scoreRangeEmpty range = true) :
    scoreEntries range entries = [] := by
  apply List.filter_eq_nil_iff.mpr
  intro e member inside
  have number := ordered.numbers e member
  obtain ⟨low, high⟩ := Bool.and_eq_true_iff.mp inside
  unfold scoreRangeEmpty Binary64.lt Binary64.eq at empty
  unfold zslValueGteMin Binary64.lt Binary64.le at low
  unfold zslValueLteMax Binary64.lt Binary64.le at high
  simp only [numbers.1, numbers.2, number, Bool.not_false, Bool.true_and, Bool.or_eq_true, Bool.and_eq_true, decide_eq_true_eq] at empty low high
  cases minex : range.minex <;> cases maxex : range.maxex <;>
    simp only [minex, maxex, Bool.false_eq_true, if_false, if_true, decide_eq_true_eq, or_self, or_true, and_true, and_false,
      or_false] at low high empty <;> omega

section
variable (linked : Linked zsl entries)
include linked

theorem zslScore_eq (member : e ∈ entries) : zslScore zsl e.addr = some e.score := by
  obtain ⟨node, found, _, number⟩ := linked.node member
  rw [zslScore, found, map_some, number]

theorem zslIsInRange_spec (range : Zrangespec) : zslIsInRange zsl range = some (!scoreRangeEmpty range &&
      (entries.getLast?.any (fun e => zslValueGteMin e.score range) && entries.head?.any fun e => zslValueLteMax e.score range)) := by
  unfold zslIsInRange
  cases scoreRangeEmpty range with
  | true => rfl
  | false =>
    obtain ⟨rfl, tail⟩ | ⟨f, inside, g, inside', l, last, tail, first, read, forward⟩ := linked.ends
    · rw [tail]
      rfl
    · simp only [last, tail, first, read, forward, zslScore_eq linked inside, zslScore_eq linked inside', bind_eq_bind,
        bind_some, pure_def, Bool.false_eq_true, if_false, Option.any_some]
      cases zslValueGteMin f.score range <;> rfl

theorem scoreEntries_out (ordered : Ordered entries) (numbers : NumberBounds range)
    (out : zslIsInRange zsl range = some false) : scoreEntries range entries = [] := by
  rw [zslIsInRange_spec linked range] at out
  cases empty : scoreRangeEmpty range with
  | true => exact scoreEntries_empty numbers ordered empty
  | false =>
    rw [empty, Bool.not_false, Bool.true_and] at out
    exact range_eq_nil ((gteMin_down ordered numbers).toSuffix ordered.order) ((lteMax_down ordered range).toPrefix ordered.order)
      (Option.some.inj out)

theorem zslIsInRange_within (inside : zslIsInRange zsl range = some true) :
    entries.getLast?.any (fun e => zslValueGteMin e.score range) = true ∧ entries.head?.any (fun e => zslValueLteMax e.score range) = true := by
  rw [zslIsInRange_spec linked range] at inside
  exact Bool.and_eq_true_iff.mp (Bool.and_eq_true_iff.mp (Option.some.inj inside)).2

theorem zslFirstInRange_spec (ordered : Ordered entries) (numbers : NumberBounds range) :
    zslFirstInRange zsl range = some ((scoreEntries range entries).head?.map Entry.addr) := by
  unfold zslFirstInRange
  cases isIn : zslIsInRange zsl range with
  | none =>
    rw [zslIsInRange_spec linked range] at isIn
    cases isIn
  | some inside =>
    cases inside with
    | false =>
      rw [scoreEntries_out linked ordered numbers isIn]
      rfl
    | true =>
      have reads : ∀ e ∈ entries, ∀ rank span, scoreBelow range rank span (zsl.heap e.addr) = some (!zslValueGteMin e.score range) := by
        intro f member rank span
        obtain ⟨node, found, _, number⟩ := linked.node member
        rw [scoreBelow, found, map_some, number]
      obtain ⟨path, f, member, descended, next, head⟩ := linked.firstInRange ordered.order (gteMin_down ordered numbers)
        (lteMax_down ordered range) reads (zslIsInRange_within linked isIn).1
      simp only [descended, next, zslScore_eq linked member, bind_eq_bind, bind_some, pure_def, Bool.not_true, Bool.false_eq_true, if_false]
      rw [scoreEntries, show (entries.filter (inScoreRange range)).head? = _ from head]
      split <;> rfl

theorem zslLastInRange_spec (ordered : Ordered entries) (numbers : NumberBounds range) :
    zslLastInRange zsl range = some ((scoreEntries range entries).getLast?.map Entry.addr) := by
  unfold zslLastInRange
  cases isIn : zslIsInRange zsl range with
  | none =>
    rw [zslIsInRange_spec linked range] at isIn
    cases isIn
  | some inside =>
    cases inside with
    | false =>
      rw [scoreEntries_out linked ordered numbers isIn]
      rfl
    | true =>
      have reads : ∀ e ∈ entries, ∀ rank span, scoreNotAbove range rank span (zsl.heap e.addr) = some (zslValueLteMax e.score range) := by
        intro f member rank span
        obtain ⟨node, found, _, number⟩ := linked.node member
        rw [scoreNotAbove, found, map_some, number]
      obtain ⟨path, f, member, rank, descended, first, last⟩ := linked.lastInRange ordered.order (gteMin_down ordered numbers)
        (lteMax_down ordered range) reads (zslIsInRange_within linked isIn).2
      simp only [descended, first, zslScore_eq linked member, bind_eq_bind, bind_some, pure_def, Bool.not_true, Bool.false_eq_true, if_false]
      rw [scoreEntries, show (entries.filter (inScoreRange range)).getLast? = _ from last]
      split <;> rfl

end

def withoutElements {V : Type} (m : List UInt8 → Option V) (objs : List (List UInt8)) : List UInt8 → Option V := fun obj =>
  if objs.contains obj then none else m obj

theorem dictDeleteElements_spec {V : Type} {hash : List UInt8 → BitVec 32} {dict : Dict (List UInt8) V} {m : List UInt8 → Option V}
    (rep : MapRep hash dict m) (objs : List (List UInt8)) :
    ∃ dict', dictDeleteElements hash dict objs = some dict' ∧ MapRep hash dict' (withoutElements m objs) := by
  induction objs generalizing dict m with
  | nil =>
    refine ⟨dict, rfl, ?_⟩
    have same : withoutElements m [] = m := funext fun obj => if_neg (by simp)
    rwa [same]
  | cons obj objs ih =>
    obtain ⟨dict₁, deleted, rep₁⟩ := dictStep_simulates dict m (.delete obj) rep trivial
    have erased : (mapStep m (.delete obj)).1 = Function.update m obj none := by
      cases here : m obj with
      | none =>
        have same := Function.update_eq_self obj m
        rw [here] at same
        simp [mapStep, here, same]
      | some value => simp [mapStep, here]
    rw [erased] at rep₁
    obtain ⟨⟨dict₂, status⟩, ran, same⟩ := Option.map_eq_some_iff.mp deleted
    obtain rfl : dict₂ = dict₁ := (Prod.mk.inj same).1
    obtain ⟨dict', rest, rep'⟩ := ih rep₁
    refine ⟨dict', ?_, ?_⟩
    · simp only [dictDeleteElements, ran, bind_eq_bind, bind_some, rest]
    · have both : withoutElements (Function.update m obj none) objs = withoutElements m (obj :: objs) := by
        funext other
        unfold withoutElements
        by_cases first : other = obj
        · rw [first, Function.update_self, ite_self, if_pos (by simp)]
        · rw [Function.update_of_ne first]
          simp [first]
      rwa [both] at rep'

theorem not_inScoreRange (ordered : Ordered entries) (numbers : NumberBounds range) :
    entries.filter (fun e => below range e || !notAbove range e) = entries.filter fun e => !inScoreRange range e := by
  apply List.filter_congr
  intro e member
  rw [inScoreRange, gteMin_eq numbers (ordered.numbers e member), lteMax_eq, Bool.not_and, Bool.not_not]

theorem inScoreRange_eq (ordered : Ordered entries) (numbers : NumberBounds range) :
    entries.filter (fun e => !below range e && notAbove range e) = scoreEntries range entries := by
  apply List.filter_congr
  intro e member
  rw [inScoreRange, gteMin_eq numbers (ordered.numbers e member), lteMax_eq]

end Cplusplus.Redis.Zsl
