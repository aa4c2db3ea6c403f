import Cplusplus.Library.Run
import Cplusplus.Proofs.ZslOperations
import Mathlib.Data.List.OfFn

/-! Ranks. The two functions that go between an element and its rank walk down the levels
as a search does, and stop as soon as they stand on the element. -/

namespace Cplusplus.Redis.Zsl
open SkipLinks List Option

section
variable {zsl : Zskiplist} {entries before after : List Entry} {e : Entry} {score : Binary64} {obj : List UInt8}

theorem Linked.placed (linked : Linked zsl (before ++ after)) :
    ∃ node, zsl.heap (place zsl.header before) = some node ∧ node.obj = before.getLast?.map Entry.obj := by
  cases before.eq_nil_or_concat with
  | inl empty =>
    obtain ⟨score, backward, here⟩ := linked.header
    obtain ⟨node, found, element, _⟩ := fixed_some here
    exact ⟨node, by rwa [empty, place_nil], by rw [element, empty]; rfl⟩
  | inr more =>
    obtain ⟨init, f, rfl⟩ := more
    obtain ⟨node, found, element, _⟩ := linked.node (e := f) (by simp)
    rw [concat_eq_append]
    exact ⟨node, by rwa [place_concat], by rw [element, getLast?_concat]; rfl⟩

structure Descent (zsl : Zskiplist) (entries before : List Entry) (i : Nat) (X : List Entry) (rank : Nat) : Prop where
  inside : ∃ Y, before = X ++ Y
  stops : ∀ j < i, Stops Entry.height j X
  counted : RankOk entries rank X.length

theorem Descent.start (zsl : Zskiplist) (entries before : List Entry) : Descent zsl entries before zsl.level [] 0 where
  inside := ⟨before, rfl⟩
  stops _ _ := stops_nil
  counted := ⟨rfl, fun _ => rfl⟩

variable {X : List Entry}

theorem Descent.next {guard : ZslGuard} {i rank : Nat} (linked : Linked zsl entries) (split : entries = before ++ after)
    (guards : Guards guard zsl.heap entries before) (level : i < zsl.level) (descent : Descent zsl entries before (i + 1) X rank) :
    ∃ rank', zslWalk guard ulongModulus zsl.heap i (zsl.length + 1) (place zsl.header X) rank =
        some (place zsl.header (reach Entry.height i before), rank') ∧
      Descent zsl entries before i (reach Entry.height i before) rank' := by
  obtain ⟨Y, cut⟩ := descent.inside
  have enough : Y.length < zsl.length + 1 := by
    rw [linked.length, split, cut, length_append, length_append]
    omega
  obtain ⟨rank', walked, counted⟩ := zslWalk_spec (linked.levels.levels i level) split guards (.inr rfl) (zsl.length + 1)
    X Y rank cut (descent.stops i (Nat.lt_succ_self i)) enough descent.counted
  obtain ⟨gap, cut', _, stops⟩ := reach_spec Entry.height i before
  exact ⟨rank', walked, ⟨gap, cut'⟩, fun j below => stops.mono (Nat.le_of_lt below), counted⟩

theorem guards_upTo (score : Binary64) (obj : List UInt8) (linked : Linked zsl entries) (ordered : Ordered entries) :
    Guards (sortsNotAfter score obj) zsl.heap entries (entries.filter (sortsUpTo score obj)) := by
  apply guards_of_pred ordered.order (sortsUpTo_down score obj ordered)
  intro f member rank span
  obtain ⟨node, found, element, number⟩ := linked.node member
  simp only [sortsNotAfter, found, element, number, bind_eq_bind, bind_some, sortsUpTo]
  cases f.score.lt score <;> cases f.score.eq score <;> rfl

theorem zslRankFrom_succ {i rank : Nat} (linked : Linked zsl entries) (split : entries = before ++ after)
    (guards : Guards (sortsNotAfter score obj) zsl.heap entries before) (level : i < zsl.level)
    (descent : Descent zsl entries before (i + 1) X rank) :
    ∃ rank', Descent zsl entries before i (reach Entry.height i before) rank' ∧ zslRankFrom zsl score obj (i + 1) (place zsl.header X) rank =
        if (reach Entry.height i before).getLast?.map Entry.obj = some obj then some rank'
        else zslRankFrom zsl score obj i (place zsl.header (reach Entry.height i before)) rank' := by
  obtain ⟨rank', walked, descent'⟩ := descent.next linked split guards level
  refine ⟨rank', descent', ?_⟩
  obtain ⟨gap, within⟩ := descent'.inside
  obtain ⟨node, found, element⟩ : ∃ node, zsl.heap (place zsl.header (reach Entry.height i before)) = some node ∧
      node.obj = (reach Entry.height i before).getLast?.map Entry.obj := by
    have whole : entries = reach Entry.height i before ++ (gap ++ after) := by
      rw [← append_assoc, ← within, split]
    rw [whole] at linked
    exact linked.placed
  simp only [zslRankFrom, walked, found, element, bind_eq_bind, bind_some]
  cases (reach Entry.height i before).getLast? with
  | none => simp
  | some f =>
    simp only [map_some, some.injEq, equalStringObjects_iff]
    rfl

theorem filter_upTo (ordered : Ordered (before ++ e :: after)) : (before ++ e :: after).filter (sortsUpTo e.score e.obj) = before ++ [e] := by
  have number := ordered.numbers e (by simp)
  obtain ⟨_, order, across⟩ := pairwise_append.mp ordered.order
  have front : ∀ f ∈ before, sortsUpTo e.score e.obj f = true := fun f member =>
    (sortsUpTo_iff number (ordered.numbers f (by simp [member]))).mpr (.inl ((sorts_iff number
      (ordered.numbers f (by simp [member]))).mpr (across f member e mem_cons_self)))
  have self : sortsUpTo e.score e.obj e = true := (sortsUpTo_iff number number).mpr (.inr ⟨rfl, rfl⟩)
  have back : ∀ f ∈ after, ¬ sortsUpTo e.score e.obj f = true := by
    intro f member holds
    have number' := ordered.numbers f (by simp [member])
    rw [sortsUpTo_iff number number', sorts_iff number number'] at holds
    have later := (pairwise_cons.mp order).1 f member
    rcases holds with earlier | ⟨same, equal⟩
    · have loop : Precedes e e := later.trans earlier
      rcases loop with less | ⟨_, less⟩
      · exact Int.lt_irrefl _ less
      · exact List.lt_irrefl _ less
    · have objs := ordered.objs
      rw [map_append, map_cons, nodup_append, nodup_cons] at objs
      exact objs.2.1.1 (equal ▸ List.mem_map_of_mem member)
  rw [filter_append, filter_eq_self.mpr front, filter_cons_of_pos self, filter_eq_nil_iff.mpr back]

theorem reached_element {X Y : List Entry} (ordered : Ordered (before ++ e :: after)) (cut : before ++ [e] = X ++ Y)
    (found : X.getLast?.map Entry.obj = some e.obj) : X = before ++ [e] := by
  obtain ⟨f, last, same⟩ := map_eq_some_iff.mp found
  obtain ⟨init, rfl⟩ := getLast?_eq_some_iff.mp last
  cases Y.eq_nil_or_concat with
  | inl empty => rw [cut, empty, append_nil]
  | inr more =>
    obtain ⟨Y', g, rfl⟩ := more
    rw [concat_eq_append, ← append_assoc] at cut
    obtain ⟨rfl, last⟩ := append_inj' cut rfl
    cases last
    have objs := ordered.objs
    rw [map_append, map_cons, nodup_append] at objs
    exact absurd same (objs.2.2 f.obj (by simp) e.obj (by simp))

theorem zslGetRank_counted (linked : Linked zsl (before ++ e :: after)) (ordered : Ordered (before ++ e :: after)) :
    ∃ rank, zslGetRank zsl e.score e.obj = some rank ∧ RankOk (before ++ e :: after) rank (before.length + 1) := by
  have guards := guards_upTo e.score e.obj linked ordered
  rw [filter_upTo ordered] at guards
  have split : before ++ e :: after = (before ++ [e]) ++ after := by simp
  have height := (linked.heights e (by simp)).1
  have walk : ∀ i, i < zsl.level → ∀ X rank, Descent zsl (before ++ e :: after) (before ++ [e]) (i + 1) X rank →
      ∃ rank', zslRankFrom zsl e.score e.obj (i + 1) (place zsl.header X) rank = some rank' ∧
        RankOk (before ++ e :: after) rank' (before ++ [e]).length := by
    intro i
    induction i with
    | zero =>
      intro level X rank descent
      obtain ⟨rank', descent', unfolded⟩ := zslRankFrom_succ linked split guards level descent
      have arrived : reach Entry.height 0 (before ++ [e]) = before ++ [e] := by
        rw [reach_concat, if_neg (Nat.not_le.mpr height)]
      rw [arrived] at unfolded descent'
      rw [getLast?_concat, map_some, if_pos rfl] at unfolded
      exact ⟨rank', unfolded, descent'.counted⟩
    | succ i ih =>
      intro level X rank descent
      obtain ⟨rank', descent', unfolded⟩ := zslRankFrom_succ linked split guards level descent
      rw [unfolded]
      split
      next found =>
        obtain ⟨Y, cut⟩ := descent'.inside
        have counted := descent'.counted
        rw [reached_element ordered cut found] at counted
        exact ⟨rank', rfl, counted⟩
      next => exact ih (Nat.lt_of_succ_lt level) _ rank' descent'
  obtain ⟨n, level⟩ : ∃ n, zsl.level = n + 1 := Nat.exists_eq_succ_of_ne_zero (Nat.ne_of_gt linked.positive)
  have start := Descent.start zsl (before ++ e :: after) (before ++ [e])
  rw [level] at start
  obtain ⟨rank, walked, counted⟩ := walk n (by omega) [] 0 start
  rw [length_append, length_singleton] at counted
  rw [zslGetRank, level]
  exact ⟨rank, walked, counted⟩

theorem zslGetRank_spec (linked : Linked zsl (before ++ e :: after)) (ordered : Ordered (before ++ e :: after))
    (short : (before ++ e :: after).length < 2 ^ 32) : zslGetRank zsl e.score e.obj = some (before.length + 1) := by
  obtain ⟨rank, found, counted⟩ := zslGetRank_counted linked ordered
  rw [found, counted.2 short]

theorem zslGetRank_absent (linked : Linked zsl entries) (ordered : Ordered entries) (score : Binary64)
    (absent : obj ∉ entries.map Entry.obj) : zslGetRank zsl score obj = some 0 := by
  have cut := filter_split ordered.order (sortsUpTo_down score obj ordered)
  have guards := guards_upTo score obj linked ordered
  have walk : ∀ i, i ≤ zsl.level → ∀ X rank, Descent zsl entries (entries.filter (sortsUpTo score obj)) i X rank →
      zslRankFrom zsl score obj i (place zsl.header X) rank = some 0 := by
    intro i
    induction i with
    | zero => exact fun _ X rank _ => rfl
    | succ i ih =>
      intro level X rank descent
      obtain ⟨rank', descent', unfolded⟩ := zslRankFrom_succ linked cut guards level descent
      rw [unfolded, if_neg]
      · exact ih (Nat.le_of_lt level) _ rank' descent'
      · intro found
        obtain ⟨f, last, same⟩ := map_eq_some_iff.mp found
        obtain ⟨Y, within⟩ := descent'.inside
        have member : f ∈ entries.filter (sortsUpTo score obj) := within ▸ mem_append_left Y (mem_of_getLast? last)
        exact absent (same ▸ List.mem_map_of_mem (mem_filter.mp member).1)
  exact walk zsl.level (Nat.le_refl _) [] 0 (Descent.start zsl entries _)

theorem zslElementFrom_succ {i rank wanted : Nat} (linked : Linked zsl entries) (short : entries.length < 2 ^ 32)
    (level : i < zsl.level) (descent : Descent zsl entries (entries.take wanted) (i + 1) X rank) :
    ∃ reached, reached = reach Entry.height i (entries.take wanted) ∧ Descent zsl entries (entries.take wanted) i reached reached.length ∧
      zslElementFrom zsl wanted (i + 1) (place zsl.header X) rank = if reached.length = wanted then some (some (place zsl.header reached))
        else zslElementFrom zsl wanted i (place zsl.header reached) reached.length := by
  have guards : Guards (fun traversed span _ => some ((traversed + span) % ulongModulus ≤ wanted)) zsl.heap entries
      (entries.take wanted) := by
    intro pre f post split rank span exact_
    have total := exact_ short
    have length := congrArg List.length split
    rw [length_append, length_cons] at length
    have small : pre.length + 1 < ulongModulus := by
      unfold ulongModulus
      omega
    simp only [total, Nat.mod_eq_of_lt small, length_take]
    congr 2
    rw [eq_iff_iff]
    omega
  obtain ⟨rank', walked, descent'⟩ := descent.next linked (take_append_drop wanted entries).symm guards level
  obtain rfl := descent'.counted.2 short
  refine ⟨_, rfl, descent', ?_⟩
  simp only [zslElementFrom, walked, bind_eq_bind, bind_some]
  rfl

theorem zslGetElementByRank_spec (linked : Linked zsl (before ++ e :: after)) (short : (before ++ e :: after).length < 2 ^ 32) :
    zslGetElementByRank zsl (before.length + 1) = some (some e.addr) := by
  have cut : (before ++ e :: after).take (before.length + 1) = before ++ [e] := by
    rw [append_cons, ← length_singleton (a := e), ← length_append, take_left]
  have height := (linked.heights e (by simp)).1
  have walk : ∀ i, i < zsl.level → ∀ X rank,
      Descent zsl (before ++ e :: after) ((before ++ e :: after).take (before.length + 1)) (i + 1) X rank →
      zslElementFrom zsl (before.length + 1) (i + 1) (place zsl.header X) rank = some (some e.addr) := by
    intro i
    induction i with
    | zero =>
      intro level X rank descent
      obtain ⟨reached, rfl, _, unfolded⟩ := zslElementFrom_succ linked short level descent
      have arrived : reach Entry.height 0 (before ++ [e]) = before ++ [e] := by
        rw [reach_concat, if_neg (Nat.not_le.mpr height)]
      rw [cut, arrived, length_append, length_singleton, if_pos rfl, place_concat] at unfolded
      exact unfolded
    | succ i ih =>
      intro level X rank descent
      obtain ⟨reached, _, descent', unfolded⟩ := zslElementFrom_succ linked short level descent
      rw [unfolded]
      split
      next found =>
        obtain ⟨Y, within⟩ := descent'.inside
        rw [cut] at within
        have same : reached ++ Y = (before ++ [e]) ++ [] := by rw [← within, append_nil]
        have whole : reached = before ++ [e] := append_inj_left same (by simp [found])
        rw [whole, place_concat]
      next => exact ih (Nat.lt_of_succ_lt level) reached _ descent'
  obtain ⟨n, level⟩ : ∃ n, zsl.level = n + 1 := Nat.exists_eq_succ_of_ne_zero (Nat.ne_of_gt linked.positive)
  have start := Descent.start zsl (before ++ e :: after) ((before ++ e :: after).take (before.length + 1))
  rw [level] at start
  rw [zslGetElementByRank, level]
  exact walk n (by omega) [] 0 start

theorem zslGetElementByRank_beyond (linked : Linked zsl entries) (short : entries.length < 2 ^ 32) {rank : Nat}
    (beyond : entries.length < rank) : zslGetElementByRank zsl rank = some none := by
  have walk : ∀ i, i ≤ zsl.level → ∀ X traversed, Descent zsl entries (entries.take rank) i X traversed →
      zslElementFrom zsl rank i (place zsl.header X) traversed = some none := by
    intro i
    induction i with
    | zero => exact fun _ X traversed _ => rfl
    | succ i ih =>
      intro level X traversed descent
      obtain ⟨reached, _, descent', unfolded⟩ := zslElementFrom_succ linked short level descent
      rw [unfolded, if_neg]
      · exact ih (Nat.le_of_lt level) reached _ descent'
      · intro found
        obtain ⟨Y, within⟩ := descent'.inside
        have length := congrArg List.length within
        rw [length_take, length_append] at length
        omega
  exact walk zsl.level (Nat.le_refl _) [] 0 (Descent.start zsl entries _)

end

/-! Runs of a skiplist. After any run of insertions and deletions the list is sorted, its
levels, spans, backward pointers and counters are exact, and an element and its rank
determine each other, as long as there are fewer than 2^32 nodes. -/

section
inductive ZslOp where
  | insert (x level : Nat) (score : Binary64) (obj : List UInt8)
  | delete (score : Binary64) (obj : List UInt8)
  | deleteRangeByScore (range : Zrangespec)
  | deleteRangeByRank (start stop : Nat)

def zslStep (zsl : Zskiplist) : ZslOp → Option (Zskiplist × List (List UInt8))
  | .insert x level score obj => (zslInsert zsl x level score obj).map fun zsl => (zsl, [])
  | .delete score obj => (zslDelete zsl score obj).map fun r => (r.1, if r.2 then [obj] else [])
  | .deleteRangeByScore range => zslDeleteRangeByScore zsl range
  | .deleteRangeByRank start stop => zslDeleteRangeByRank zsl start stop

def chain (heap : ZslHeap) : Nat → Option Nat → List (List UInt8)
  | fuel + 1, some x =>
    ((heap x).bind ZskiplistNode.obj).toList ++ chain heap fuel ((levelAt heap x 0).bind ZskiplistLevel.forward)
  | _, _ => []

def elements (zsl : Zskiplist) : List (List UInt8) :=
  chain zsl.heap zsl.length ((levelAt zsl.heap zsl.header 0).bind ZskiplistLevel.forward)

def ZslOp.Proper (zsl : Zskiplist) : ZslOp → Prop
  | .insert x level score obj => (1 ≤ level ∧ level ≤ zskiplistMaxlevel) ∧ score.isNaN = false ∧
    (zsl.heap x).isNone = true ∧ obj ∉ elements zsl
  | _ => True

def ZslOp.Room (zsl : Zskiplist) : ZslOp → Prop
  | .insert .. => zsl.length + 1 < 2 ^ 32
  | _ => True

instance (zsl : Zskiplist) (op : ZslOp) : Decidable (op.Proper zsl) :=
  match op with
  | .insert x level score obj => inferInstanceAs (Decidable ((1 ≤ level ∧ level ≤ zskiplistMaxlevel) ∧
    score.isNaN = false ∧ (zsl.heap x).isNone = true ∧ obj ∉ elements zsl))
  | .delete .. | .deleteRangeByScore _ | .deleteRangeByRank .. => .isTrue trivial

instance (zsl : Zskiplist) (op : ZslOp) : Decidable (op.Room zsl) :=
  match op with
  | .insert .. => inferInstanceAs (Decidable (zsl.length + 1 < 2 ^ 32))
  | .delete .. | .deleteRangeByScore _ | .deleteRangeByRank .. => .isTrue trivial

def sortedStep (entries : List Entry) : ZslOp → List Entry × List (List UInt8)
  | .insert x level score obj => (insertSorted ⟨x, score, obj, level⟩ entries, [])
  | .delete score obj => (entries.filter fun e => !isElement score obj e,
    if ∃ e ∈ entries, isElement score obj e = true then [obj] else [])
  | .deleteRangeByScore range => (entries.filter fun e => below range e || !notAbove range e,
    (entries.filter fun e => !below range e && notAbove range e).map Entry.obj)
  | .deleteRangeByRank start stop => (entries.take (start - 1) ++ (entries.drop (start - 1)).drop (stop - (start - 1)),
    ((entries.drop (start - 1)).take (stop - (start - 1))).map Entry.obj)

variable {zsl : Zskiplist} {entries : List Entry}

theorem elements_eq (linked : Linked zsl entries) : elements zsl = entries.map Entry.obj := by
  have positive : ∀ e ∈ entries, 1 ≤ e.height := fun e member => (linked.heights e member).1
  have next : ∀ A B, entries = A ++ B → (levelAt zsl.heap (place zsl.header A) 0).bind ZskiplistLevel.forward = B.head?.map Entry.addr := by
    intro A B split
    have stops : Stops Entry.height 0 A := fun e last =>
      positive e (split ▸ mem_append_left B (mem_of_getLast? last))
    have read : levelAt zsl.heap (place zsl.header A) 0 = _ := linked.levels.levels 0 linked.positive A B split stops
    rw [read, bind_some, render, link_zero fun e member => positive e (split ▸ mem_append_right A member)]
  have walk : ∀ B A, entries = A ++ B → chain zsl.heap B.length (B.head?.map Entry.addr) = B.map Entry.obj := by
    intro B
    induction B with
    | nil => exact fun _ _ => rfl
    | cons e B ih =>
      intro A split
      obtain ⟨node, found, element, _⟩ := linked.node (e := e) (by simp [split])
      have split' : entries = (A ++ [e]) ++ B := by rw [split, append_assoc, singleton_append]
      have here := next (A ++ [e]) B split'
      rw [place_concat] at here
      rw [head?_cons, map_some, length_cons, chain, found, bind_some, element, here, ih (A ++ [e]) split']
      rfl
  have first := next [] entries rfl
  rw [place_nil] at first
  rw [elements, first, linked.length, walk entries [] rfl]

structure Represents (zsl : Zskiplist) (entries : List Entry) : Prop where
  linked : Linked zsl entries
  ordered : Ordered entries

theorem Represents.insert {x level : Nat} {score : Binary64} {obj : List UInt8} (rep : Represents zsl entries)
    (proper : ZslOp.Proper zsl (.insert x level score obj)) (fits : entries.length + 1 < 2 ^ 64) :
    ∃ zsl', zslInsert zsl x level score obj = some zsl' ∧ zsl'.header = zsl.header ∧
      Represents zsl' (insertSorted ⟨x, score, obj, level⟩ entries) := by
  obtain ⟨height, number, free, fresh⟩ := proper
  rw [elements_eq rep.linked] at fresh
  have apart := rep.linked.apart (isNone_iff_eq_none.mp free)
  obtain ⟨zsl', run, header, linked⟩ := zslInsert_spec (e := ⟨x, score, obj, level⟩) rep.linked rep.ordered number apart
    height fits
  exact ⟨zsl', run, header, linked, rep.ordered.insert number fresh⟩

theorem zslStep_simulates (zsl : Zskiplist) (entries : List Entry) (op : ZslOp)
    (rep : Represents zsl entries ∧ entries.length < 2 ^ 32) (supported : op.Proper zsl ∧ op.Room zsl) :
    ∃ zsl', zslStep zsl op = some (zsl', (sortedStep entries op).2) ∧ Represents zsl' (sortedStep entries op).1 ∧
      (sortedStep entries op).1.length < 2 ^ 32 := by
  obtain ⟨rep, short⟩ := rep
  obtain ⟨proper, room⟩ := supported
  cases op with
  | insert x level score obj =>
    simp only [ZslOp.Room, rep.linked.length] at room
    obtain ⟨zsl', run, _, rep'⟩ := rep.insert proper (by omega)
    refine ⟨zsl', by simp only [zslStep, run, map_some, sortedStep], rep', ?_⟩
    have length := congrArg List.length (filter_split rep.ordered.order (sorts_down score obj rep.ordered))
    simp only [sortedStep, insertSorted, length_append, length_cons] at length ⊢
    omega
  | delete score obj =>
    obtain ⟨zsl', run, _, linked⟩ := zslDelete_spec rep.linked rep.ordered score obj
    refine ⟨zsl', ?_, ⟨linked, rep.ordered.sublist filter_sublist⟩, ?_⟩
    · simp only [zslStep, run, map_some, sortedStep, decide_eq_true_eq]
    · exact Nat.lt_of_le_of_lt (length_filter_le _ _) short
  | deleteRangeByScore range =>
    obtain ⟨zsl', run, _, linked⟩ := zslDeleteRangeByScore_spec rep.linked rep.ordered range
    refine ⟨zsl', run, ⟨linked, rep.ordered.sublist filter_sublist⟩, ?_⟩
    exact Nat.lt_of_le_of_lt (length_filter_le _ _) short
  | deleteRangeByRank start stop =>
    obtain ⟨zsl', run, _, linked⟩ := zslDeleteRangeByRank_spec rep.linked short start stop
    have sub : List.Sublist (sortedStep entries (.deleteRangeByRank start stop)).1 entries := by
      have both := (List.Sublist.refl (entries.take (start - 1))).append
        (drop_sublist (stop - (start - 1)) (entries.drop (start - 1)))
      rwa [take_append_drop] at both
    exact ⟨zsl', run, ⟨linked, rep.ordered.sublist sub⟩, Nat.lt_of_le_of_lt sub.length_le short⟩

/-- A skiplist in order, with its entries. A link leads to the next entry above its level
and spans the ranks to it, or to the end of the list. -/
structure InOrder (zsl : Zskiplist) (entries : List Entry) : Prop where
  sorted : entries.Pairwise Precedes
  nodes : NodesOk (fixed zsl.heap) none entries
  links : ∀ i < zsl.level, ∀ A B, entries = A ++ B → Stops Entry.height i A →
    levelAt zsl.heap (place zsl.header A) i =
      some ⟨(link Entry.height i B).1.map Entry.addr, (link Entry.height i B).2⟩
  heights : ∀ e ∈ entries, 1 ≤ e.height ∧ e.height ≤ zsl.level
  level : zsl.level = 1 ∨ ∃ e ∈ entries, e.height = zsl.level
  tail : zsl.tail = entries.getLast?.map Entry.addr
  length : zsl.length = entries.length
  rank : ∀ A e B, entries = A ++ e :: B → zslGetRank zsl e.score e.obj = some (A.length + 1) ∧
    zslGetElementByRank zsl (A.length + 1) = some (some e.addr)
  absent : ∀ score obj, obj ∉ entries.map Entry.obj → zslGetRank zsl score obj = some 0
  beyond : ∀ rank > entries.length, zslGetElementByRank zsl rank = some none

theorem link_le {i : Nat} (rest : List Entry) : (link Entry.height i rest).2 ≤ rest.length := by
  rcases low_or_split Entry.height i rest with low | ⟨gap, e, post, rfl, low, high⟩
  · rw [link_end low]
  · rw [link_found low high, length_append, length_cons]
    omega

theorem Represents.inOrder (rep : Represents zsl entries) (short : entries.length < 2 ^ 32) : InOrder zsl entries where
  sorted := rep.ordered.order
  nodes := rep.linked.nodes
  links i below A B split stops := by
    have fits : (link Entry.height i B).2 < 2 ^ 32 := by
      have length := congrArg List.length split
      rw [length_append] at length
      exact Nat.lt_of_le_of_lt (link_le B) (by omega)
    have read : levelAt zsl.heap (place zsl.header A) i = _ := rep.linked.levels.levels i below A B split stops
    rw [read, render, Nat.mod_eq_of_lt fits]
  heights := rep.linked.heights
  level := rep.linked.reached
  tail := rep.linked.tail
  length := rep.linked.length
  rank := by
    rintro A e B rfl
    exact ⟨zslGetRank_spec rep.linked rep.ordered short, zslGetElementByRank_spec rep.linked short⟩
  absent score obj missing := zslGetRank_absent rep.linked rep.ordered score missing
  beyond _ far := zslGetElementByRank_beyond rep.linked short far

def StaysInOrder (header : Nat) (ops : List ZslOp) : Prop :=
  ∃ zsl, Run.exec zslStep (zslCreate header) ops = some (zsl, (Run.specExec sortedStep [] ops).2) ∧
    InOrder zsl (Run.specExec sortedStep [] ops).1

theorem represents_create (header : Nat) : Represents (zslCreate header) [] where
  linked := linked_create header
  ordered := { order := .nil, numbers := by simp, objs := .nil }

theorem zsl_stays_in_order (header : Nat) (ops : List ZslOp)
    (supported : Run.Allowed zslStep (fun zsl op => op.Proper zsl ∧ op.Room zsl) (zslCreate header) ops) :
    StaysInOrder header ops := by
  obtain ⟨zsl, run, rep, short⟩ := Run.exec_refines zslStep_simulates ops ⟨represents_create header, by simp⟩
    supported
  exact ⟨zsl, run, rep.inOrder short⟩

/-- Two nodes of different heights, and the first of them is deleted by its rank. -/
theorem zsl_stays_in_order_two : StaysInOrder 0
    [.insert 1 2 Binary64.zero [97], .insert 2 1 Binary64.zero [98], .deleteRangeByRank 1 1] :=
  zsl_stays_in_order 0 _ (by decide +kernel)

def label (k : Nat) : List UInt8 := List.ofFn fun i : Fin 64 => if k.testBit i then 1 else 0

theorem label_inj {j k : Nat} (small : j < 2 ^ 64) (small' : k < 2 ^ 64) (same : label j = label k) : j = k := by
  have bits := ofFn_injective same
  apply Nat.eq_of_testBit_eq
  intro i
  rcases Nat.lt_or_ge i 64 with inside | outside
  · have bit := congrFun bits ⟨i, inside⟩
    cases left : j.testBit i <;> cases right : k.testBit i <;> simp [left, right] at bit ⊢
  · have far : ∀ n < 2 ^ 64, n.testBit i = false := fun n small =>
      Nat.testBit_lt_two_pow (Nat.lt_of_lt_of_le small (Nat.pow_le_pow_right (by omega) outside))
    rw [far j small, far k small']

structure Flat (zsl : Zskiplist) (entries : List Entry) (count : Nat) : Prop where
  rep : Represents zsl entries
  header : zsl.header = 0
  shape : ∃ rest, entries = ⟨1, Binary64.zero, [], 2⟩ :: rest ∧ rest.length = count ∧
    ∀ e ∈ rest, e.height = 1 ∧ e.addr < count + 2 ∧ ∃ k < count, e.obj = label k

def flatOp (k : Nat) : ZslOp := .insert (k + 2) 1 Binary64.zero (label k)

variable {count : Nat}

theorem Flat.next (flat : Flat zsl entries count) (small : count + 2 < 2 ^ 64) :
    (flatOp count).Proper zsl ∧ ∃ zsl', zslStep zsl (flatOp count) = some (zsl', []) ∧
      Flat zsl' (sortedStep entries (flatOp count)).1 (count + 1) := by
  obtain ⟨rest, rfl, length, known⟩ := flat.shape
  have proper : (flatOp count).Proper zsl := by
    refine ⟨by decide, by decide, ?_, ?_⟩
    · rw [flat.rep.linked.live]
      · rfl
      · rw [flat.header, map_cons, mem_cons, mem_cons]
        rintro (equal | equal | member)
        · cases equal
        · cases equal
        · obtain ⟨e, inside, equal⟩ := List.mem_map.mp member
          have := (known e inside).2.1
          omega
    · rw [elements_eq flat.rep.linked, map_cons, mem_cons]
      rintro (equal | member)
      · have lengths := congrArg List.length equal
        simp [label] at lengths
      · obtain ⟨e, inside, equal⟩ := List.mem_map.mp member
        obtain ⟨_, _, k, below, same⟩ := known e inside
        have := label_inj (by omega) (by omega) (same.symm.trans equal)
        omega
  obtain ⟨zsl', run, header, rep⟩ := flat.rep.insert proper (by rw [length_cons, length]; omega)
  refine ⟨proper, zsl', by simp only [zslStep, flatOp, run, map_some], rep, header.trans flat.header, ?_⟩
  have first : sorts Binary64.zero (label count) ⟨1, Binary64.zero, [], 2⟩ = true := by
    rw [sorts_iff (by decide) (by decide), label, ofFn_succ]
    exact .inr ⟨rfl, nil_lt_cons _ _⟩
  refine ⟨rest.filter (sorts Binary64.zero (label count)) ++ ⟨count + 2, Binary64.zero, label count, 1⟩ ::
    rest.filter (fun f => !sorts Binary64.zero (label count) f), ?_, ?_, ?_⟩
  · rw [flatOp, sortedStep, insertSorted, filter_cons_of_pos first, filter_cons_of_neg (by simp [first]),
      cons_append]
  · rw [length_append, length_cons, ← Nat.add_assoc, ← length_eq_length_filter_add, length]
  · intro e member
    have old : ∀ e ∈ rest, e.height = 1 ∧ e.addr < count + 1 + 2 ∧ ∃ k < count + 1, e.obj = label k := by
      intro e inside
      obtain ⟨height, addr, k, below, same⟩ := known e inside
      exact ⟨height, by omega, k, Nat.lt_succ_of_lt below, same⟩
    rcases mem_append.mp member with inside | inside
    · exact old e (mem_filter.mp inside).1
    · rcases mem_cons.mp inside with rfl | inside
      · exact ⟨rfl, by simp, count, Nat.lt_succ_self count, rfl⟩
      · exact old e (mem_filter.mp inside).1

theorem Flat.run (steps : Nat) (flat : Flat zsl entries count) (small : count + steps + 2 < 2 ^ 64) :
    Run.Allowed zslStep (fun zsl op => op.Proper zsl) zsl ((List.range' count steps).map flatOp) ∧
      ∃ zsl' results, Run.exec zslStep zsl ((List.range' count steps).map flatOp) = some (zsl', results) ∧
        Flat zsl' (Run.specExec sortedStep entries ((List.range' count steps).map flatOp)).1 (count + steps) := by
  induction steps generalizing zsl entries count with
  | zero => exact ⟨trivial, zsl, [], rfl, flat⟩
  | succ steps ih =>
    obtain ⟨proper, zsl₁, run, flat₁⟩ := flat.next (by omega)
    obtain ⟨allowed, zsl', results, rest, flat'⟩ := ih flat₁ (by omega)
    rw [range'_succ, map_cons]
    refine ⟨⟨proper, ?_⟩, zsl', [] :: results, ?_, ?_⟩
    · intro after taken
      rw [run] at taken
      cases taken
      exact allowed
    · rw [Run.exec, run, bind_some, rest, map_some]
    · rw [Nat.add_assoc count 1 steps, Nat.add_comm 1 steps] at flat'
      exact flat'

def flatOps (count : Nat) : List ZslOp := .insert 1 2 Binary64.zero [] :: (List.range' 0 count).map flatOp

theorem flatOps_proper (small : count + 2 < 2 ^ 64) : Run.Allowed zslStep (fun zsl op => op.Proper zsl) (zslCreate 0) (flatOps count) ∧
      ∃ zsl results, Run.exec zslStep (zslCreate 0) (flatOps count) = some (zsl, results) ∧
        Flat zsl (Run.specExec sortedStep [] (flatOps count)).1 count := by
  have proper : ZslOp.Proper (zslCreate 0) (.insert 1 2 Binary64.zero []) := by decide
  obtain ⟨zsl₁, run, header, rep⟩ := (represents_create 0).insert proper (by decide)
  have step : zslStep (zslCreate 0) (.insert 1 2 Binary64.zero []) = some (zsl₁, []) := by
    rw [zslStep, run, map_some]
  have flat : Flat zsl₁ [⟨1, Binary64.zero, [], 2⟩] 0 := ⟨rep, header, [], rfl, rfl, by simp⟩
  obtain ⟨allowed, zsl', results, rest, flat'⟩ := flat.run count (by rwa [Nat.zero_add])
  rw [Nat.zero_add] at flat'
  refine ⟨⟨proper, ?_⟩, zsl', [] :: results, ?_, flat'⟩
  · intro after taken
    rw [step] at taken
    cases taken
    exact allowed
  · rw [flatOps, Run.exec, step, bind_some, rest, map_some]

theorem span_of_staysInOrder (small : count + 2 < 2 ^ 64) (inOrder : StaysInOrder 0 (flatOps count)) : count % 2 ^ 32 = count := by
  obtain ⟨_, zsl', results, run, flat⟩ := flatOps_proper small
  obtain ⟨zsl, run', inOrder⟩ := inOrder
  rw [run, some.injEq, Prod.mk.injEq] at run'
  obtain ⟨rfl, _⟩ := run'
  obtain ⟨rest, shape, length, known⟩ := flat.shape
  have level : 1 < zsl'.level := (inOrder.heights ⟨1, Binary64.zero, [], 2⟩ (by simp [shape])).2
  have stops : Stops Entry.height 1 [⟨1, Binary64.zero, [], 2⟩] := by simp [Stops]
  have low : Low Entry.height 1 rest := fun e member => Nat.le_of_eq (known e member).1
  have claimed := inOrder.links 1 level [⟨1, Binary64.zero, [], 2⟩] rest shape stops
  have actual : levelAt zsl'.heap _ 1 = _ := flat.rep.linked.levels.levels 1 level _ rest shape stops
  rw [actual, link_end low, length, render] at claimed
  exact congrArg ZskiplistLevel.span (some.inj claimed)

/-- With 2^32 nodes behind it, the link at level 1 of the first node has the span 0. -/
theorem zslInsert_span_wraps : ¬ ∀ header ops,
    Run.Allowed zslStep (fun zsl op => op.Proper zsl) (zslCreate header) ops → StaysInOrder header ops := by
  intro all
  have small : 2 ^ 32 + 2 < 2 ^ 64 := by decide
  have wraps := span_of_staysInOrder small (all 0 (flatOps (2 ^ 32)) (flatOps_proper small).1)
  rw [Nat.mod_self] at wraps
  cases wraps

end

end Cplusplus.Redis.Zsl
