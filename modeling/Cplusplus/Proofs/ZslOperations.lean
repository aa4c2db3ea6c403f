import Cplusplus.Library.SortedCut
import Cplusplus.Proofs.ZslOrder

/-! Each operation of a skiplist on the sorted entries that it represents: an insertion,
the deletion of an element, of a range of scores and of a range of ranks, and the two
ways between an element and its rank. -/

namespace Cplusplus.Redis.Zsl

open List Option

section
open SkipLinks

variable {zsl : Zskiplist} {entries before after : List Entry} {e : Entry} {score : Binary64} {obj : List UInt8}

section
variable (linked : Linked zsl entries)
include linked

theorem Linked.node (member : e ∈ entries) : ∃ node, zsl.heap e.addr = some node ∧ node.obj = some e.obj ∧ node.score = e.score := by
  obtain ⟨A, B, rfl⟩ := append_of_mem member
  obtain ⟨_, here, _⟩ := nodesOk_append.mp linked.nodes
  obtain ⟨node, found, obj, score, _⟩ := fixed_some here
  exact ⟨node, found, obj, score⟩

theorem Linked.apart {x : Nat} (free : zsl.heap x = none) : x ∉ zsl.header :: entries.map Entry.addr := by
  intro member
  rcases mem_cons.mp member with rfl | member
  · obtain ⟨_, _, here⟩ := linked.header
    obtain ⟨node, found, _⟩ := fixed_some here
    rw [found] at free
    cases free
  · obtain ⟨f, inside, rfl⟩ := List.mem_map.mp member
    obtain ⟨node, found, _⟩ := linked.node inside
    rw [found] at free
    cases free

theorem Linked.search {guard : ZslGuard} (split : entries = before ++ after) (guards : Guards guard zsl.heap entries before) :
    ∃ path, zslDescend guard ulongModulus zsl.heap (zsl.length + 1) zsl.level zsl.header 0 = some path ∧
      UpdateOk zsl.header before zsl.level (path.map Prod.fst) ∧
      zslAfterSearch zsl path = some (after.head?.map Entry.addr) ∧
      ∃ x rank, path[0]? = some (x, rank) ∧ (entries.length < 2 ^ 32 → rank = before.length) := by
  have enough : before.length < zsl.length + 1 := by
    rw [linked.length, split, length_append]
    omega
  obtain ⟨path, descended, length, known⟩ := zslDescend_spec (zsl.length + 1) split guards (.inr rfl) enough zsl.level []
    before 0 linked.levels.levels rfl (fun _ _ => stops_nil) ⟨rfl, fun _ => rfl⟩
  have heights : ∀ f ∈ before ++ after, 1 ≤ f.height := fun f member => (linked.heights f (split ▸ member)).1
  have positive : ∀ f ∈ before, 1 ≤ f.height := fun f member => heights f (by simp [member])
  have positive' : ∀ f ∈ after, 1 ≤ f.height := fun f member => heights f (by simp [member])
  obtain ⟨rank, first, counted⟩ := known 0 linked.positive
  rw [reach_zero positive] at first counted
  refine ⟨path, descended, ⟨?_, ?_⟩, ?_, _, rank, first, counted.2⟩
  · rw [length_map, length]
  · intro i below
    obtain ⟨_, here, _⟩ := known i below
    rw [getElem?_map, here, map_some]
  · have read : levelAt zsl.heap (place zsl.header before) 0 = _ := linked.levels.levels 0 linked.positive before after
      split fun f last => positive f (mem_of_getLast? last)
    simp only [zslAfterSearch, first, read, bind_eq_bind, bind_some]
    rw [render, link_zero positive']
    rfl

theorem reads_sorts (member : e ∈ entries) (rank span : Nat) :
    sortsBefore score obj rank span (zsl.heap e.addr) = some (sorts score obj e) := by
  obtain ⟨node, found, element, number⟩ := linked.node member
  simp only [sortsBefore, found, element, number, bind_eq_bind, bind_some, sorts]
  cases e.score.lt score <;> cases e.score.eq score <;> rfl

theorem zslInsert_spec (ordered : Ordered entries) (number : e.score.isNaN = false)
    (fresh : e.addr ∉ zsl.header :: entries.map Entry.addr) (height : 1 ≤ e.height ∧ e.height ≤ zskiplistMaxlevel)
    (fits : entries.length + 1 < 2 ^ 64) :
    ∃ zsl', zslInsert zsl e.addr e.height e.score e.obj = some zsl' ∧ zsl'.header = zsl.header ∧ Linked zsl' (insertSorted e entries) := by
  have down := sorts_down e.score e.obj ordered
  have guards := guards_of_pred ordered.order down fun f member => reads_sorts linked member
  have cut := filter_split ordered.order down
  apply Linked.insert
  · exact cut ▸ linked
  · rw [← cut]
    exact guards
  · exact number
  · rw [← cut]
    exact fresh
  · exact height
  · rw [← cut]
    exact fits

end

def survivors (inRange : Nat → Binary64 → Bool) : Nat → List Entry → List Entry
  | _, [] => []
  | traversed, e :: rest => if inRange traversed e.score then survivors inRange (traversed + 1) rest else e :: rest

def victims (inRange : Nat → Binary64 → Bool) : Nat → List Entry → List Entry
  | _, [] => []
  | traversed, e :: rest => if inRange traversed e.score then e :: victims inRange (traversed + 1) rest else []

theorem Linked.next (linked : Linked zsl (before ++ e :: after)) :
    ∃ l, levelAt zsl.heap e.addr 0 = some l ∧ l.forward = after.head?.map Entry.addr := by
  have height := (linked.heights e (by simp)).1
  have positive : ∀ f ∈ after, 1 ≤ f.height := fun f member => (linked.heights f (by simp [member])).1
  have read : levelAt zsl.heap e.addr 0 = some (render (link Entry.height 0 after)) := by
    have here := linked.levels.levels 0 linked.positive (before ++ [e]) after (by simp) (stops_concat.mpr height)
    rwa [place_concat] at here
  refine ⟨_, read, ?_⟩
  rw [← link_zero positive]
  rfl

theorem Linked.deleteNext {update : List Nat} (linked : Linked zsl (before ++ e :: after))
    (path : UpdateOk zsl.header before zsl.level update) :
    ∃ l zsl', levelAt zsl.heap e.addr 0 = some l ∧ l.forward = after.head?.map Entry.addr ∧
      zslDeleteNode zsl e.addr update = some zsl' ∧ zsl'.header = zsl.header ∧
      UpdateOk zsl'.header before zsl'.level update ∧ Linked zsl' (before ++ after) := by
  obtain ⟨l, read, next⟩ := linked.next
  obtain ⟨zsl', deleted, header, lower, linked'⟩ := linked.delete path
  refine ⟨l, zsl', read, next, deleted, header, ?_, linked'⟩
  rw [header]
  exact ⟨Nat.le_trans lower path.1, fun i below => path.2 i (Nat.lt_of_lt_of_le below lower)⟩

theorem zslDeleteWhile_spec (inRange : Nat → Binary64 → Bool) {update : List Nat} {fuel : Nat} (traversed : Nat)
    (linked : Linked zsl (before ++ after)) (path : UpdateOk zsl.header before zsl.level update) (enough : after.length < fuel) :
    ∃ zsl', zslDeleteWhile (fun traversed node => inRange traversed node.score) update fuel zsl
        (after.head?.map Entry.addr) traversed = some (zsl', (victims inRange traversed after).map Entry.obj) ∧
      zsl'.header = zsl.header ∧ Linked zsl' (before ++ survivors inRange traversed after) := by
  induction after generalizing zsl fuel traversed with
  | nil => exact ⟨zsl, by cases fuel <;> rfl, rfl, linked⟩
  | cons e after ih =>
    cases fuel with
    | zero => cases enough
    | succ fuel =>
      obtain ⟨node, found, element, number⟩ := linked.node (e := e) (by simp)
      cases holds : inRange traversed e.score with
      | false =>
        refine ⟨zsl, ?_, rfl, ?_⟩
        · simp only [zslDeleteWhile, head?_cons, map_some, found, number, holds, victims,
            Bool.false_eq_true, if_false, bind_eq_bind, bind_some]
          rfl
        · simpa only [survivors, holds, Bool.false_eq_true, if_false] using linked
      | true =>
        obtain ⟨l, zsl₁, read, next, deleted, header, path₁, linked₁⟩ := linked.deleteNext path
        obtain ⟨zsl', run, header', linked'⟩ := ih (traversed + 1) linked₁ path₁ (Nat.lt_of_succ_lt_succ enough)
        refine ⟨zsl', ?_, header'.trans header, ?_⟩
        · simp only [zslDeleteWhile, head?_cons, map_some, found, element, number, holds, victims, read,
            deleted, next, run, if_true, bind_eq_bind, bind_some]
          rfl
        · simpa only [survivors, holds, if_true] using linked'

theorem survivors_score (q : Binary64 → Bool) (traversed : Nat) (order : after.Pairwise Precedes)
    (down : DownClosed (fun e => q e.score) after) :
    survivors (fun _ score => q score) traversed after = after.filter (fun e => !q e.score) ∧
      victims (fun _ score => q score) traversed after = after.filter fun e => q e.score := by
  induction after generalizing traversed with
  | nil => exact ⟨rfl, rfl⟩
  | cons e after ih =>
    cases holds : q e.score with
    | true =>
      obtain ⟨left, right⟩ := ih (traversed + 1) order.of_cons down.tail
      simp [survivors, victims, holds, left, right]
    | false =>
      have ends := down.ends order holds
      constructor
      · rw [survivors, if_neg (by simp [holds]), filter_cons_of_pos (by simp [holds]), filter_eq_self.mpr]
        intro f member
        simp [ends f member]
      · rw [victims, if_neg (by simp [holds]), filter_cons_of_neg (by simp [holds]), filter_eq_nil_iff.mpr]
        intro f member
        simp [ends f member]

theorem survivors_rank (stop traversed : Nat) (after : List Entry) :
    survivors (fun traversed _ => traversed ≤ stop) traversed after = after.drop (stop + 1 - traversed) ∧
      victims (fun traversed _ => traversed ≤ stop) traversed after = after.take (stop + 1 - traversed) := by
  induction after generalizing traversed with
  | nil => simp [survivors, victims]
  | cons e after ih =>
    obtain ⟨left, right⟩ := ih (traversed + 1)
    rcases Nat.lt_or_ge stop traversed with beyond | inside
    · simp [survivors, victims, Nat.not_le.mpr beyond, Nat.sub_eq_zero_of_le beyond]
    · have count : stop + 1 - traversed = (stop + 1 - (traversed + 1)) + 1 := by omega
      rw [count]
      simp [survivors, victims, inside, left, right]

def isElement (score : Binary64) (obj : List UInt8) (e : Entry) : Bool :=
  score.eq e.score && equalStringObjects e.obj obj

theorem isElement_iff (number : e.score.isNaN = false) :
    isElement score obj e = true ↔ score.isNaN = false ∧ e.score.key = score.key ∧ e.obj = obj := by
  rw [isElement, Bool.and_eq_true, equalStringObjects_iff, ← and_assoc]
  cases nan : score.isNaN with
  | true => simp [Binary64.eq, nan]
  | false => rw [Binary64.eq_iff nan number, eq_comm, eq_self, true_and]

theorem not_isElement_of_sorts (number : e.score.isNaN = false) (before : sorts score obj e = true) : isElement score obj e = false := by
  rw [← Bool.not_eq_true, isElement_iff number]
  rintro ⟨number', same, rfl⟩
  rcases (sorts_iff number' number).mp before with less | ⟨_, less⟩
  · exact absurd same (Int.ne_of_lt less)
  · exact absurd less (List.lt_irrefl _)

section
variable (linked : Linked zsl entries)
include linked

theorem zslDelete_spec (ordered : Ordered entries) (score : Binary64) (obj : List UInt8) :
    ∃ zsl', zslDelete zsl score obj = some (zsl', decide (∃ e ∈ entries, isElement score obj e = true)) ∧
      zsl'.header = zsl.header ∧ Linked zsl' (entries.filter fun e => !isElement score obj e) := by
  have down := sorts_down score obj ordered
  have cut := filter_split ordered.order down
  obtain ⟨path, descended, update, next, _⟩ := linked.search cut
    (guards_of_pred ordered.order down fun f member => reads_sorts linked member)
  have front : ∀ f ∈ entries.filter (sorts score obj), isElement score obj f = false := fun f member =>
    not_isElement_of_sorts (ordered.numbers f (mem_filter.mp member).1) (mem_filter.mp member).2
  generalize entries.filter (sorts score obj) = before at cut update front
  have behind : ∀ f ∈ entries.filter (fun f => !sorts score obj f), ¬ sorts score obj f = true := by
    intro f member
    simpa using (mem_filter.mp member).2
  generalize entries.filter (fun f => !sorts score obj f) = after at cut next behind
  subst cut
  have keep : ∀ rest : List Entry, (∀ f ∈ rest, isElement score obj f = false) → rest.filter (fun e => !isElement score obj e) = rest := by
    intro rest none_
    rw [filter_eq_self]
    intro f member
    simp [none_ f member]
  have absent : (∀ f ∈ after, isElement score obj f = false) → ¬ ∃ e ∈ before ++ after, isElement score obj e = true := by
    rintro none_ ⟨f, member, holds⟩
    rcases mem_append.mp member with member | member
    · rw [front f member] at holds
      cases holds
    · rw [none_ f member] at holds
      cases holds
  cases after with
  | nil =>
    refine ⟨zsl, ?_, rfl, ?_⟩
    · rw [decide_eq_false (absent (by simp))]
      simp only [zslDelete, descended, next, head?_nil, map_none, bind_eq_bind, bind_some]
      rfl
    · rw [filter_append, keep before front, keep [] (by simp)]
      exact linked
  | cons f rest =>
    obtain ⟨node, found, element, number⟩ := linked.node (e := f) (by simp)
    have order := (pairwise_append.mp ordered.order).2.1
    cases holds : isElement score obj f with
    | true =>
      obtain ⟨same, equal⟩ := Bool.and_eq_true_iff.mp holds
      obtain ⟨zsl', deleted, header, _, linked'⟩ := linked.delete update
      refine ⟨zsl', ?_, header, ?_⟩
      · rw [decide_eq_true ⟨f, by simp, holds⟩]
        simp only [zslDelete, descended, next, head?_cons, map_some, found, number, same, element, equal,
          deleted, if_true, bind_eq_bind, bind_some]
        rfl
      · have others : ∀ g ∈ rest, isElement score obj g = false := by
          intro g member
          have objs := ordered.objs
          rw [map_append, map_cons, nodup_append, nodup_cons] at objs
          have differ : g.obj ≠ f.obj := fun equal' => objs.2.1.1 (equal' ▸ List.mem_map_of_mem member)
          have notEqual : equalStringObjects g.obj obj = false := by
            rw [← Bool.not_eq_true, equalStringObjects_iff]
            exact fun equal' => differ (equal'.trans ((equalStringObjects_iff f.obj obj).mp equal).symm)
          rw [isElement, notEqual, Bool.and_false]
        rw [filter_append, keep before front, filter_cons_of_neg (by simp [holds]), keep rest others]
        exact linked'
    | false =>
      have none_ : ∀ g ∈ f :: rest, isElement score obj g = false := by
        intro g member
        rcases mem_cons.mp member with rfl | member
        · exact holds
        · rw [← Bool.not_eq_true, isElement_iff (ordered.numbers g (by simp [member]))]
          rintro ⟨number', same, rfl⟩
          refine behind f mem_cons_self ((sorts_iff number' (ordered.numbers f (by simp))).mpr ?_)
          rw [← same]
          exact (pairwise_cons.mp order).1 g member
      refine ⟨zsl, ?_, rfl, ?_⟩
      · rw [decide_eq_false (absent none_)]
        simp only [zslDelete, descended, next, head?_cons, map_some, found, number, element, bind_eq_bind, bind_some]
        rw [isElement] at holds
        split
        next same =>
          rw [same, Bool.true_and] at holds
          simp [holds]
        next => rfl
      · rw [filter_append, keep before front, keep _ none_]
        exact linked

theorem zslDeleteRangeByScore_spec (ordered : Ordered entries) (range : Zrangespec) :
    ∃ zsl', zslDeleteRangeByScore zsl range = some (zsl', (entries.filter fun e => !below range e && notAbove range e).map Entry.obj) ∧
      zsl'.header = zsl.header ∧ Linked zsl' (entries.filter fun e => below range e || !notAbove range e) := by
  have down := below_down ordered range
  have cut := filter_split ordered.order down
  have guards : Guards (fun _ _ node => node.map fun node =>
      if range.minex then node.score.le range.min else node.score.lt range.min) zsl.heap entries
      (entries.filter (below range)) := by
    apply guards_of_pred ordered.order down
    intro f member rank span
    obtain ⟨node, found, _, number⟩ := linked.node member
    rw [found, map_some, number]
    rfl
  obtain ⟨path, descended, update, next, _⟩ := linked.search cut guards
  have sub : List.Sublist (entries.filter fun e => !below range e) entries := filter_sublist
  obtain ⟨left, removed⟩ := survivors_score
    (fun score => if range.maxex then score.lt range.max else score.le range.max) 0 (ordered.order.sublist sub) (notAbove_down (ordered.sublist sub) range)
  have enough : (entries.filter fun e => !below range e).length < zsl.length + 1 := by
    rw [linked.length]
    exact Nat.lt_succ_of_le (length_filter_le _ _)
  obtain ⟨zsl', run, header, linked'⟩ := zslDeleteWhile_spec
    (fun _ score => if range.maxex then score.lt range.max else score.le range.max) 0 (cut ▸ linked) update
    enough
  refine ⟨zsl', ?_, header, ?_⟩
  · simp only [zslDeleteRangeByScore, descended, next, bind_eq_bind, bind_some]
    have both : (entries.filter fun e => !below range e && notAbove range e) =
        (entries.filter fun e => !below range e).filter (notAbove range) := by
      rw [List.filter_filter]
      simp only [Bool.and_comm]
    rw [run, removed, both]
    rfl
  · rw [filter_or _ ordered.order down]
    rw [left] at linked'
    exact linked'

theorem zslDeleteRangeByRank_spec (short : entries.length < 2 ^ 32) (start stop : Nat) :
    ∃ zsl', zslDeleteRangeByRank zsl start stop = some (zsl', ((entries.drop (start - 1)).take (stop - (start - 1))).map Entry.obj) ∧
      zsl'.header = zsl.header ∧
      Linked zsl' (entries.take (start - 1) ++ (entries.drop (start - 1)).drop (stop - (start - 1))) := by
  have cut : entries = entries.take (start - 1) ++ entries.drop (start - 1) := (take_append_drop _ _).symm
  have guards : Guards (fun traversed span _ => some ((traversed + span) % ulongModulus < start)) zsl.heap entries
      (entries.take (start - 1)) := by
    intro pre e post split rank span exact_
    have total := exact_ short
    have length := congrArg List.length split
    rw [length_append, length_cons] at length
    have small : pre.length + 1 < ulongModulus := by
      unfold ulongModulus
      omega
    simp only [total, Nat.mod_eq_of_lt small, length_take]
    congr 2
    rw [eq_iff_iff]
    omega
  obtain ⟨path, descended, update, next, x, rank, first, counted⟩ := linked.search cut guards
  obtain rfl := counted short
  obtain ⟨left, removed⟩ := survivors_rank stop ((entries.take (start - 1)).length + 1) (entries.drop (start - 1))
  have enough : (entries.drop (start - 1)).length < zsl.length + 1 := by
    rw [linked.length, length_drop]
    omega
  have count : stop + 1 - ((entries.take (start - 1)).length + 1) = stop - (start - 1) ∨ entries.drop (start - 1) = [] := by
    rw [length_take, drop_eq_nil_iff]
    omega
  obtain ⟨zsl', run, header, linked'⟩ := zslDeleteWhile_spec (fun traversed _ => traversed ≤ stop)
    ((entries.take (start - 1)).length + 1) (cut ▸ linked) update enough
  have same : (entries.drop (start - 1)).drop (stop + 1 - ((entries.take (start - 1)).length + 1)) =
      (entries.drop (start - 1)).drop (stop - (start - 1)) := by
    rcases count with same | empty
    · rw [same]
    · simp only [empty, drop_nil]
  have same' : (entries.drop (start - 1)).take (stop + 1 - ((entries.take (start - 1)).length + 1)) =
      (entries.drop (start - 1)).take (stop - (start - 1)) := by
    rcases count with same | empty
    · rw [same]
    · simp only [empty, take_nil]
  refine ⟨zsl', ?_, header, ?_⟩
  · simp only [zslDeleteRangeByRank, descended, next, first, bind_eq_bind, bind_some]
    rw [run, removed, same']
  · rwa [left, same] at linked'

end

end

/-! The first and the last node of a range in a skiplist. A range has a lower bound, which holds
from some entry on, and an upper bound, which holds up to some entry. -/

section
open SkipLinks SortedCut

variable {zsl : Zskiplist} {entries : List Entry} {p q : Entry → Bool} {guard : ZslGuard}

theorem DownClosed.toPrefix (order : entries.Pairwise Precedes) (down : DownClosed q entries) : Prefix q entries :=
  order.imp_of_mem fun inA inB precedes => down _ inA _ inB precedes

theorem DownClosed.toSuffix (order : entries.Pairwise Precedes) (down : DownClosed (fun e => !p e) entries) : Suffix p entries := by
  apply order.imp_of_mem
  intro a b inA inB precedes holds
  have back := down a inA b inB precedes
  cases above : p b with
  | true => rfl
  | false =>
    simp only [above, holds] at back
    exact absurd (back rfl) Bool.false_ne_true

section
variable (linked : Linked zsl entries)
include linked

theorem first_forward : ∃ l, levelAt zsl.heap zsl.header 0 = some l ∧ l.forward = entries.head?.map Entry.addr := by
  have read : levelAt zsl.heap (place zsl.header []) 0 = _ := linked.levels.levels 0 linked.positive [] entries rfl stops_nil
  refine ⟨_, read, ?_⟩
  rw [← link_zero fun e member => (linked.heights e member).1]
  rfl

theorem Linked.ends : (entries = [] ∧ zsl.tail = none) ∨ ∃ f ∈ entries, ∃ g ∈ entries, ∃ l, entries.getLast? = some f ∧ zsl.tail = some f.addr ∧
      entries.head? = some g ∧ levelAt zsl.heap zsl.header 0 = some l ∧ l.forward = some g.addr := by
  obtain ⟨l, read, forward⟩ := first_forward linked
  have tail := linked.tail
  cases last : entries.getLast? with
  | none =>
    rw [last] at tail
    exact .inl ⟨getLast?_eq_none_iff.mp last, tail⟩
  | some f =>
    cases first : entries.head? with
    | none =>
      rw [head?_eq_none_iff.mp first] at last
      cases last
    | some g =>
      rw [last] at tail
      rw [first] at forward
      exact .inr ⟨f, mem_of_getLast? last, g, mem_of_head? first, l, rfl, tail, rfl, read, forward⟩

/-- The search for the first node stops in front of the first entry that is not too low. -/
theorem Linked.firstInRange (order : entries.Pairwise Precedes) (low : DownClosed (fun e => !p e) entries) (high : DownClosed q entries)
    (reads : ∀ e ∈ entries, ∀ rank span, guard rank span (zsl.heap e.addr) = some (!p e)) (within : entries.getLast?.any p = true) :
    ∃ path, ∃ f ∈ entries, zslDescend guard ulongModulus zsl.heap (zsl.length + 1) zsl.level zsl.header 0 = some path ∧
      zslAfterSearch zsl path = some (some f.addr) ∧ (entries.filter fun e => p e && q e).head? = if q f then some f else none := by
  obtain ⟨path, descended, _, next, _⟩ := linked.search (filter_split order low) (guards_of_pred order low reads)
  have head : (entries.filter fun e => p e && q e).head? = _ := head_range (low.toSuffix order) (high.toPrefix order)
  have nonempty := filter_ne_nil_of_last within
  simp only [Bool.not_not] at next
  cases after : entries.filter p with
  | nil => exact absurd after nonempty
  | cons f rest =>
    rw [after, head?_cons] at next head
    have inside : f ∈ entries := (mem_filter.mp (after ▸ mem_cons_self)).1
    exact ⟨path, f, inside, descended, next, head⟩

theorem Linked.lastInRange (order : entries.Pairwise Precedes) (low : DownClosed (fun e => !p e) entries) (high : DownClosed q entries)
    (reads : ∀ e ∈ entries, ∀ rank span, guard rank span (zsl.heap e.addr) = some (q e)) (within : entries.head?.any q = true) :
    ∃ path, ∃ f ∈ entries, ∃ rank, zslDescend guard ulongModulus zsl.heap (zsl.length + 1) zsl.level zsl.header 0 = some path ∧
      path[0]? = some (f.addr, rank) ∧ (entries.filter fun e => p e && q e).getLast? = if p f then some f else none := by
  obtain ⟨path, descended, ⟨_, update⟩, _, x, rank, first, _⟩ := linked.search (filter_split order high) (guards_of_pred order high reads)
  have last : (entries.filter fun e => p e && q e).getLast? = _ := last_range (low.toSuffix order) (high.toPrefix order)
  have here := update 0 linked.positive
  rw [getElem?_map, first, reach_zero fun f member => (linked.heights f (mem_filter.mp member).1).1] at here
  cases (entries.filter q).eq_nil_or_concat with
  | inl none_ => exact absurd none_ (filter_ne_nil_of_head within)
  | inr more =>
    obtain ⟨init, f, before⟩ := more
    rw [concat_eq_append] at before
    rw [before, place_concat] at here
    obtain rfl : x = f.addr := some.inj here
    have inside : f ∈ entries := (mem_filter.mp (before ▸ mem_concat_self)).1
    rw [before, getLast?_concat] at last
    exact ⟨path, f, inside, rank, descended, first, last⟩

end

end

end Cplusplus.Redis.Zsl
