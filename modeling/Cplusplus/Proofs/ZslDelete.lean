import Cplusplus.Proofs.ZslLevels

/-! The pointers of a skiplist: which nodes there are, how they are linked at every
level and backwards, and that an insertion keeps all of it. Spans are what they should
be up to a multiple of 2^32. -/

namespace Cplusplus.Redis.Zsl
open SkipLinks List Option Function
open Entry (addr)

section
abbrev Fixed := Nat → Option (Option (List UInt8) × Binary64 × Option Nat × Nat)

def NodesOk (nodes : Fixed) : Option Nat → List Entry → Prop
  | _, [] => True
  | previous, e :: rest =>
    nodes e.addr = some (some e.obj, e.score, previous, e.height) ∧ NodesOk nodes (some e.addr) rest

structure LevelsOk (heap : ZslHeap) (header n : Nat) (entries : List Entry) : Prop where
  levels : ∀ i < n, LevelOk (column heap i) header i entries
  closed : ∀ i, n ≤ i → i < zskiplistMaxlevel → ∃ span, column heap i header = some ⟨none, span⟩

structure Linked (zsl : Zskiplist) (entries : List Entry) : Prop where
  distinct : Distinct zsl.header entries
  header : ∃ score backward, fixed zsl.heap zsl.header = some (none, score, backward, zskiplistMaxlevel)
  nodes : NodesOk (fixed zsl.heap) none entries
  live : ∀ a, a ∉ zsl.header :: entries.map addr → zsl.heap a = none
  levels : LevelsOk zsl.heap zsl.header zsl.level entries
  tail : zsl.tail = entries.getLast?.map addr
  length : zsl.length = entries.length
  fits : entries.length < 2 ^ 64
  heights : ∀ e ∈ entries, 1 ≤ e.height ∧ e.height ≤ zsl.level
  positive : 1 ≤ zsl.level
  bounded : zsl.level ≤ zskiplistMaxlevel
  reached : zsl.level = 1 ∨ ∃ e ∈ entries, e.height = zsl.level

theorem linked_create (header : Nat) : Linked (zslCreate header) [] where
  distinct := by simp [Distinct]
  header := ⟨Binary64.zero, none, by simp [fixed, zslCreate, zslCreateNode]⟩
  nodes := trivial
  live a outside := by
    have other : a ≠ header := fun equal => outside (by simp [equal, zslCreate])
    exact if_neg other
  levels.levels := by
    intro i below A B empty _
    obtain ⟨rfl, rfl⟩ := append_eq_nil_iff.mp empty.symm
    cases Nat.lt_one_iff.mp below
    simp [column, levelAt, zslCreate, zslCreateNode, zskiplistMaxlevel, render, link]
  levels.closed i _ below := ⟨0, by simp [column, levelAt, zslCreate, zslCreateNode, below]⟩
  tail := rfl
  length := rfl
  fits := by simp
  heights := by simp
  positive := Nat.le_refl 1
  bounded := show 1 ≤ 32 by decide
  reached := .inl rfl

section Nodes

variable {nodes nodes' : Fixed}

theorem NodesOk.congr {previous : Option Nat} {entries : List Entry} (ok : NodesOk nodes previous entries)
    (same : ∀ e ∈ entries, nodes' e.addr = nodes e.addr) : NodesOk nodes' previous entries := by
  induction entries generalizing previous with
  | nil => trivial
  | cons e rest ih =>
    obtain ⟨first, ok⟩ := ok
    exact ⟨(same e mem_cons_self).trans first, ih ok fun f member => same f (mem_cons_of_mem e member)⟩

theorem nodesOk_append {previous : Option Nat} {A B : List Entry} : NodesOk nodes previous (A ++ B) ↔
      NodesOk nodes previous A ∧ NodesOk nodes ((A.getLast?.map addr).or previous) B := by
  induction A generalizing previous with
  | nil => simp [NodesOk]
  | cons e rest ih =>
    have last : ((e :: rest).getLast?.map addr).or previous = (rest.getLast?.map addr).or (some e.addr) := by
      rw [getLast?_cons]
      cases rest.getLast? <;> rfl
    rw [last, cons_append, NodesOk, NodesOk, ih, and_assoc]

end Nodes

variable {heap : ZslHeap} {header i : Nat} {entries before after : List Entry}

theorem uint_eq {n : Int} {m : Nat} (same : n % 2 ^ 32 = (m : Int) % 2 ^ 32) : uint n = m % 2 ^ 32 := by
  unfold uint
  omega

theorem LevelOk.congr {links links' : Column} (ok : LevelOk links header i entries)
    (same : ∀ a ∈ header :: entries.map addr, links' a = links a) : LevelOk links' header i entries := by
  rintro A B rfl stops
  rw [same _ (place_mem header A B)]
  exact ok A B rfl stops

theorem distinct_middle {e : Entry} : Distinct header (before ++ e :: after) ↔
      e.addr ∉ header :: (before ++ after).map addr ∧ Distinct header (before ++ after) := by
  unfold Distinct
  rw [map_append, map_cons, ← cons_append, nodup_middle, nodup_cons, map_append, ← cons_append]

theorem stops_low {A : List Entry} (stops : Stops Entry.height i A) (low : Low Entry.height i A) : A = [] := by
  cases A.eq_nil_or_concat with
  | inl empty => exact empty
  | inr more =>
    obtain ⟨init, e, rfl⟩ := more
    rw [concat_eq_append] at stops low
    exact absurd (low e (by simp)) (Nat.not_le.mpr (stops_concat.mp stops))

theorem zslOpenLevel_spec {span rank : Nat} (closed : column heap i header = some ⟨none, span⟩) (low : Low Entry.height i entries) :
    ∃ heap', zslOpenLevel entries.length i (header, rank) heap = some heap' ∧ fixed heap' = fixed heap ∧
      LevelOk (column heap' i) header i entries ∧ ∀ j, j ≠ i → column heap' j = column heap j := by
  obtain ⟨heap', set_, fixed', new, others⟩ := setLevel_spec closed ⟨none, uint entries.length⟩
  refine ⟨heap', ?_, fixed', ?_, others⟩
  · have read : levelAt heap header i = some ⟨none, span⟩ := closed
    simp only [zslOpenLevel, read, bind_eq_bind, bind_some, set_]
  · intro A B split stops
    rw [split] at low
    obtain rfl := stops_low stops (low_append.mp low).1
    rw [new, place_nil, update_self, link_end (low_append.mp low).2, split, nil_append, uint_eq rfl]
    rfl

theorem zslLinkLevel_spec {e : Entry} {rank0 rank : Nat} (level : LevelOk (column heap i) header i (before ++ after))
    (distinct : Distinct header (before ++ e :: after)) (present : i < e.height → ∃ l, column heap i e.addr = some l)
    (total : rank0 % 2 ^ 32 = before.length % 2 ^ 32) (counted : rank % 2 ^ 32 = (reach Entry.height i before).length % 2 ^ 32) :
    ∃ heap', zslLinkLevel e.addr e.height rank0 i (place header (reach Entry.height i before), rank) heap = some heap' ∧
      fixed heap' = fixed heap ∧ LevelOk (column heap' i) header i (before ++ e :: after) ∧
      ∀ j, j ≠ i → column heap' j = column heap j := by
  obtain ⟨gap, cut, low, stops⟩ := reach_spec Entry.height i before
  have length := congrArg List.length cut
  rw [length_append] at length
  have read : column heap i (place header (reach Entry.height i before)) =
      some (render ((link Entry.height i after).1, gap.length + (link Entry.height i after).2)) := by
    rw [level (reach Entry.height i before) (gap ++ after) _ stops, link_low low]
    rw [← append_assoc, ← cut]
  have other : place header (reach Entry.height i before) ≠ e.addr := by
    intro equal
    have member := place_mem header (reach Entry.height i before) (gap ++ after)
    rw [equal, ← append_assoc, ← cut] at member
    exact (distinct_middle.mp distinct).1 member
  have read' : levelAt heap (place header (reach Entry.height i before)) i = _ := read
  rcases Nat.lt_or_ge i e.height with high | short
  · obtain ⟨l, exists_⟩ := present high
    obtain ⟨heap₁, set₁, fixed₁, new₁, others₁⟩ := setLevel_spec exists_
      ⟨(link Entry.height i after).1.map addr, uint (((gap.length + (link Entry.height i after).2) % 2 ^ 32 : Nat) - (rank0 - rank))⟩
    obtain ⟨heap₂, set₂, fixed₂, new₂, others₂⟩ := setLevel_spec (a := place header (reach Entry.height i before))
      (by rw [new₁, update_of_ne other]; exact read) ⟨some e.addr, uint (rank0 - rank + 1)⟩
    refine ⟨heap₂, ?_, fixed₂.trans fixed₁, ?_, fun j far => (others₂ j far).trans (others₁ j far)⟩
    · simp only [zslLinkLevel, read', render, high, if_true, bind_eq_bind, bind_some, set₁]
      exact set₂
    · apply LevelOk.replace [] [e] level distinct
      · intro gap' cut'
        obtain rfl := append_cancel_left (cut'.symm.trans cut)
        rw [new₂, update_self, singleton_append, link_found low high, render, uint_eq (m := gap'.length + 1) (by omega)]
        rfl
      · intro M N split nonempty _
        obtain ⟨rfl, rfl⟩ | ⟨rfl, rfl⟩ := append_eq_singleton_iff.mp split.symm
        · exact absurd rfl nonempty
        · rw [new₂, ← nil_append [e], place_concat, update_of_ne other.symm, new₁, update_self,
            nil_append, render, uint_eq (m := (link Entry.height i after).2) (by omega)]
      · intro a notHere notNew
        rw [map_singleton, mem_singleton] at notNew
        rw [new₂, update_of_ne notHere, new₁, update_of_ne notNew]
  · obtain ⟨heap', set_, fixed', new, others⟩ := setLevel_spec read
      ⟨(link Entry.height i after).1.map addr, uint (((gap.length + (link Entry.height i after).2) % 2 ^ 32 : Nat) + 1)⟩
    refine ⟨heap', ?_, fixed', ?_, others⟩
    · simp only [zslLinkLevel, read', render, Nat.not_lt.mpr short, if_false, bind_eq_bind, bind_some]
      exact set_
    · apply LevelOk.replace [] [e] level distinct
      · intro gap' cut'
        obtain rfl := append_cancel_left (cut'.symm.trans cut)
        have above : Low Entry.height i (gap' ++ [e]) := low_append.mpr ⟨low, low_cons.mpr ⟨short, low_nil⟩⟩
        rw [new, update_self, ← append_assoc, link_low above, render, length_append,
          length_singleton, uint_eq (m := gap'.length + 1 + (link Entry.height i after).2) (by omega)]
      · intro M N split nonempty stops'
        obtain ⟨rfl, rfl⟩ | ⟨rfl, rfl⟩ := append_eq_singleton_iff.mp split.symm
        · exact absurd rfl nonempty
        · rw [← nil_append [e], stops_concat] at stops'
          exact absurd stops' (Nat.not_lt.mpr short)
      · intro a notHere _
        rw [new, update_of_ne notHere]

theorem replicate_get {α : Type} {x y : α} {m k : Nat} : (replicate m x)[k]? = some y ↔ k < m ∧ x = y := by
  simp [getElem?_replicate]

theorem open_levels {n m : Nat} (ok : LevelsOk heap header n entries) (low : ∀ e ∈ entries, e.height ≤ n)
    (bounded : m ≤ zskiplistMaxlevel) :
    ∃ heap', zslEachLevel (zslOpenLevel entries.length) n (replicate (m - n) (header, 0)) heap = some heap' ∧
      fixed heap' = fixed heap ∧ LevelsOk heap' header (max n m) entries := by
  obtain ⟨heap', run, fixed', opened, others⟩ := zslEachLevel_spec (zslOpenLevel entries.length)
    (fun i item links => item = (header, 0) ∧ (∃ span, links header = some ⟨none, span⟩) ∧ Low Entry.height i entries)
    (fun i _ links => LevelOk links header i entries)
    (by
      intro i item heap needs
      obtain ⟨rfl, ⟨span, closed⟩, low⟩ := needs
      exact zslOpenLevel_spec closed low)
    (replicate (m - n) (header, 0)) n heap (by
      intro k item at_
      obtain ⟨below, rfl⟩ := replicate_get.mp at_
      exact ⟨rfl, ok.closed _ (by omega) (by omega), fun e member => Nat.le_add_right_of_le (low e member)⟩)
  refine ⟨heap', run, fixed', ⟨?_, ?_⟩⟩
  · intro i below
    rcases Nat.lt_or_ge i n with old | new
    · rw [others i (.inl old)]
      exact ok.levels i old
    · have here := opened (i - n) (header, 0) (replicate_get.mpr ⟨by omega, rfl⟩)
      rwa [Nat.add_sub_cancel' new] at here
  · intro i above below
    rw [others i (by rw [length_replicate]; omega)]
    exact ok.closed i (by omega) below

/-- The entries of `update` and `rank` with those of the levels that were opened. -/
theorem insert_path {n m : Nat} {path : List (Nat × Nat)} (ok : PathOk header entries before n path) (low : ∀ e ∈ before, e.height ≤ n) :
    ∀ i item, (path ++ replicate (m - n) (header, 0))[i]? = some item → ∃ rank, item = (place header (reach Entry.height i before), rank) ∧
        rank % 2 ^ 32 = (reach Entry.height i before).length % 2 ^ 32 := by
  obtain ⟨length, known⟩ := ok
  intro i item at_
  rcases Nat.lt_or_ge i n with old | new
  · obtain ⟨rank, here, counted, _⟩ := known i old
    rw [getElem?_append_left (length ▸ old), here] at at_
    exact ⟨rank, (some.inj at_).symm, counted⟩
  · rw [getElem?_append_right (length ▸ new)] at at_
    obtain ⟨_, rfl⟩ := replicate_get.mp at_
    have none_ : reach Entry.height i before = [] := reach_unique (A := []) stops_nil fun e member => Nat.le_trans (low e member) new
    exact ⟨0, by rw [none_, place_nil], by rw [none_]; rfl⟩

theorem link_levels {e : Entry} {rank0 n : Nat} {items : List (Nat × Nat)} (ok : LevelsOk heap header n (before ++ after))
    (distinct : Distinct header (before ++ e :: after)) (present : ∀ i < e.height, ∃ l, column heap i e.addr = some l)
    (total : rank0 % 2 ^ 32 = before.length % 2 ^ 32) (length : items.length = n)
    (path : ∀ i item, items[i]? = some item → ∃ rank, item = (place header (reach Entry.height i before), rank) ∧
      rank % 2 ^ 32 = (reach Entry.height i before).length % 2 ^ 32) :
    ∃ heap', zslEachLevel (zslLinkLevel e.addr e.height rank0) 0 items heap = some heap' ∧
      fixed heap' = fixed heap ∧ LevelsOk heap' header n (before ++ e :: after) := by
  obtain ⟨heap', run, fixed', linked, others⟩ := zslEachLevel_spec (zslLinkLevel e.addr e.height rank0)
    (fun i item links => LevelOk links header i (before ++ after) ∧
      (i < e.height → ∃ l, links e.addr = some l) ∧ ∃ rank, item = (place header (reach Entry.height i before), rank) ∧
        rank % 2 ^ 32 = (reach Entry.height i before).length % 2 ^ 32)
    (fun i _ links => LevelOk links header i (before ++ e :: after))
    (by
      intro i item heap needs
      obtain ⟨level, present, rank, rfl, counted⟩ := needs
      exact zslLinkLevel_spec level distinct present total counted)
    items 0 heap (by
      intro k item at_
      obtain ⟨inside, _⟩ := List.getElem?_eq_some_iff.mp at_
      rw [Nat.zero_add]
      exact ⟨ok.levels k (length ▸ inside), present k, path k item at_⟩)
  refine ⟨heap', run, fixed', ⟨?_, ?_⟩⟩
  · intro i below
    have here := linked i items[i] (getElem?_eq_getElem (length ▸ below))
    rwa [Nat.zero_add] at here
  · intro i above below
    rw [others i (by omega)]
    exact ok.closed i above below

theorem linkBack_spec (heap : ZslHeap) (tail : Option Nat) {previous : Option Nat} {rest : List Entry} (nodes : NodesOk (fixed heap) previous rest)
    (distinct : (rest.map addr).Nodup) (backward : Option Nat) :
    ∃ heap', zslLinkBack heap tail (rest.head?.map addr) backward = some (heap', if rest = [] then backward else tail) ∧
      NodesOk (fixed heap') backward rest ∧ (∀ a, a ∉ rest.map addr → fixed heap' a = fixed heap a) ∧
      ∀ j, column heap' j = column heap j := by
  cases rest with
  | nil => exact ⟨heap, rfl, trivial, fun _ _ => rfl, fun _ => rfl⟩
  | cons e rest =>
    obtain ⟨first, nodes⟩ := nodes
    obtain ⟨fresh, _⟩ := nodup_cons.mp distinct
    obtain ⟨heap', set_, new, columns⟩ := setBackward_spec first backward
    refine ⟨heap', ?_, ⟨?_, ?_⟩, ?_, columns⟩
    · simp only [zslLinkBack, head?_cons, map_some, set_, bind_eq_bind, bind_some]
      rfl
    · rw [new, update_self]
    · apply nodes.congr
      intro f member
      rw [new, update_of_ne]
      intro equal
      exact fresh (equal ▸ List.mem_map_of_mem member)
    · intro a outside
      rw [new, update_of_ne]
      intro equal
      exact outside (equal ▸ mem_cons_self)

theorem back_eq (distinct : Distinct header (before ++ after)) :
    (if place header before = header then none else some (place header before)) = before.getLast?.map addr := by
  cases before.eq_nil_or_concat with
  | inl empty => simp [empty]
  | inr more =>
    obtain ⟨init, e, rfl⟩ := more
    have other : e.addr ≠ header := by
      rintro rfl
      exact (nodup_cons.mp distinct).1 (by simp)
    rw [concat_eq_append, place_concat, if_neg other, getLast?_concat, map_some]

theorem reach_zero (positive : ∀ e ∈ before, 1 ≤ e.height) : reach Entry.height 0 before = before := by
  have stops : Stops Entry.height 0 before := fun e last => positive e (mem_of_getLast? last)
  have same := reach_unique stops low_nil
  rwa [append_nil] at same

theorem link_zero (positive : ∀ e ∈ after, 1 ≤ e.height) : (link Entry.height 0 after).1 = after.head? := by
  cases after with
  | nil => rfl
  | cons e rest =>
    have high : 0 < e.height := positive e mem_cons_self
    rw [link, if_pos high, head?_cons]

theorem create_spec {x level : Nat} {score : Binary64} {obj : List UInt8} {heap' : ZslHeap}
    (new : heap' = fun y => if y = x then some (zslCreateNode level score (some obj)) else heap y) :
    fixed heap' = Function.update (fixed heap) x (some (some obj, score, none, level)) ∧
      (∀ i, ∀ a, a ≠ x → column heap' i a = column heap i a) ∧ ∀ i < level, ∃ l, column heap' i x = some l := by
  refine ⟨?_, ?_, ?_⟩
  · funext a
    rcases eq_or_ne a x with rfl | other
    · simp [fixed, new, zslCreateNode]
    · simp [fixed, new, other]
  · intro i a other
    simp [column, levelAt, new, other]
  · intro i below
    simp [column, levelAt, new, zslCreateNode, below]

theorem Linked.insert {zsl : Zskiplist} {e : Entry} (linked : Linked zsl (before ++ after))
    (guards : Guards (sortsBefore e.score e.obj) zsl.heap (before ++ after) before) (number : e.score.isNaN = false)
    (fresh : e.addr ∉ zsl.header :: (before ++ after).map addr)
    (height : 1 ≤ e.height ∧ e.height ≤ zskiplistMaxlevel) (fits : (before ++ after).length + 1 < 2 ^ 64) :
    ∃ zsl', zslInsert zsl e.addr e.height e.score e.obj = some zsl' ∧ zsl'.header = zsl.header ∧ Linked zsl' (before ++ e :: after) := by
  have distinct : Distinct zsl.header (before ++ e :: after) := distinct_middle.mpr ⟨fresh, linked.distinct⟩
  have positive : ∀ f ∈ before, 1 ≤ f.height := fun f member => (linked.heights f (by simp [member])).1
  have positive' : ∀ f ∈ after, 1 ≤ f.height := fun f member => (linked.heights f (by simp [member])).1
  -- the search
  obtain ⟨path, descended, pathOk⟩ := zslDescend_spec (zsl.length + 1) rfl guards (.inl rfl)
    (by rw [linked.length, length_append]; omega) zsl.level [] before 0 linked.levels.levels rfl
    (fun _ _ => stops_nil) ⟨rfl, fun _ => rfl⟩
  rw [place_nil] at descended
  -- the levels that are opened
  obtain ⟨heap₁, opened, fixed₁, levels₁⟩ := open_levels linked.levels (fun f member => (linked.heights f member).2)
    height.2
  have items := insert_path (m := e.height) pathOk fun f member => (linked.heights f (by simp [member])).2
  have itemsLength : (path ++ replicate (e.height - zsl.level) (zsl.header, 0)).length = max zsl.level e.height := by
    rw [length_append, pathOk.1, length_replicate]
    omega
  obtain ⟨rank0, first, total⟩ : ∃ rank0,
      (path ++ replicate (e.height - zsl.level) (zsl.header, 0))[0]? = some (place zsl.header before, rank0) ∧
        rank0 % 2 ^ 32 = before.length % 2 ^ 32 := by
    have inside : 0 < (path ++ replicate (e.height - zsl.level) (zsl.header, 0)).length := by
      have := linked.positive
      omega
    obtain ⟨rank, same, counted⟩ := items 0 _ (getElem?_eq_getElem inside)
    rw [reach_zero positive] at same counted
    exact ⟨rank, by rw [getElem?_eq_getElem inside, same], counted⟩
  -- the new node
  obtain ⟨heap₂, new⟩ : ∃ heap₂ : ZslHeap, heap₂ =
      fun y => if y = e.addr then some (zslCreateNode e.height e.score (some e.obj)) else heap₁ y := ⟨_, rfl⟩
  obtain ⟨fixed₂, columns₂, present⟩ := create_spec new
  have levels₂ : LevelsOk heap₂ zsl.header (max zsl.level e.height) (before ++ after) := by
    constructor
    · intro i below
      apply (levels₁.levels i below).congr
      intro a member
      exact columns₂ i a fun equal => fresh (equal ▸ member)
    · intro i above below
      rw [columns₂ i zsl.header fun equal => fresh (equal ▸ mem_cons_self)]
      exact levels₁.closed i above below
  obtain ⟨heap₃, linkedAll, fixed₃, levels₃⟩ := link_levels levels₂ distinct present total itemsLength items
  -- the backward pointers
  have distinct' : e.addr ∉ before.map addr ∧ e.addr ∉ after.map addr := by
    simp only [map_append, mem_cons, mem_append, not_or] at fresh
    exact fresh.2
  have known : fixed heap₃ e.addr = some (some e.obj, e.score, none, e.height) := by
    rw [fixed₃, fixed₂, update_self]
  obtain ⟨heap₄, set_, fixed₄, columns₄⟩ := setBackward_spec known (before.getLast?.map addr)
  have unchanged : ∀ a, a ≠ e.addr → fixed heap₄ a = fixed zsl.heap a := by
    intro a other
    rw [fixed₄, update_of_ne other, fixed₃, fixed₂, update_of_ne other, fixed₁]
  obtain ⟨front, back⟩ := nodesOk_append.mp linked.nodes
  obtain ⟨heap₅, linkedBack, nodes₅, fixed₅, columns₅⟩ := linkBack_spec heap₄ zsl.tail
    (back.congr fun f member => unchanged _ fun equal => distinct'.2 (equal ▸ List.mem_map_of_mem member))
    (nodup_append.mp (map_append ▸ (nodup_cons.mp linked.distinct).2)).2.1 (some e.addr)
  have read : levelAt heap₄ e.addr 0 = some (render (link Entry.height 0 after)) := by
    have here := levels₃.levels 0 (by have := height.1; omega) (before ++ [e]) after (by simp) (stops_concat.mpr height.1)
    rw [place_concat, ← columns₄] at here
    exact here
  have next : (render (link Entry.height 0 after)).forward = after.head?.map addr := by
    rw [← link_zero positive']
    rfl
  refine ⟨{ zsl with
    heap := heap₅
    tail := if after = [] then some e.addr else zsl.tail
    length := (zsl.length + 1) % ulongModulus
    level := max zsl.level e.height }, ?_, rfl, ?_⟩
  · rw [linked.length.symm] at opened
    simp only [zslInsert, number, Bool.false_eq_true, if_false, descended, opened, first, ← new, linkedAll,
      back_eq distinct, set_, read, next, linkedBack, bind_eq_bind, bind_some]
    rfl
  · exact {
      distinct
      header := by
        obtain ⟨score, backward, here⟩ := linked.header
        refine ⟨score, backward, ?_⟩
        rw [fixed₅ _ fun member => (nodup_cons.mp linked.distinct).1 (by simp [member]), unchanged]
        · exact here
        · rintro equal
          exact fresh (equal ▸ mem_cons_self)
      nodes := by
        refine nodesOk_append.mpr ⟨front.congr ?_, ?_, nodes₅⟩
        · intro f member
          rw [fixed₅, unchanged]
          · intro equal
            exact distinct'.1 (equal ▸ List.mem_map_of_mem member)
          · intro clash
            have apart := (nodup_append.mp (map_append ▸ (nodup_cons.mp linked.distinct).2)).2.2
            exact apart _ (List.mem_map_of_mem member) _ clash rfl
        · rw [fixed₅ _ distinct'.2, fixed₄, update_self, or_none]
      live := by
        intro a outside
        simp only [map_append, map_cons, mem_cons, mem_append, not_or] at outside
        obtain ⟨notHeader, notBefore, notNew, notAfter⟩ := outside
        have old : fixed zsl.heap a = none := by
          apply map_eq_none_iff.mpr
          apply linked.live
          simp only [map_append, mem_cons, mem_append, not_or]
          exact ⟨notHeader, notBefore, notAfter⟩
        rw [← unchanged a notNew, ← fixed₅ a notAfter] at old
        exact map_eq_none_iff.mp old
      levels := by
        constructor
        · intro i below
          rw [columns₅, columns₄]
          exact levels₃.levels i below
        · intro i above below
          rw [columns₅, columns₄]
          exact levels₃.closed i above below
      tail := by
        cases after with
        | nil => simp
        | cons f rest => simp [linked.tail, getLast?_append, getLast?_cons_cons]
      length := by
        simp only [linked.length, length_append, length_cons, ulongModulus] at fits ⊢
        omega
      fits := by
        rw [length_append, length_cons]
        rwa [length_append] at fits
      heights := by
        intro f member
        rw [mem_append, mem_cons, or_left_comm, ← mem_append] at member
        rcases member with rfl | old
        · exact ⟨height.1, Nat.le_max_right _ _⟩
        · exact ⟨(linked.heights f old).1, Nat.le_trans (linked.heights f old).2 (Nat.le_max_left _ _)⟩
      positive := Nat.le_trans linked.positive (Nat.le_max_left _ _)
      bounded := Nat.max_le.mpr ⟨linked.bounded, height.2⟩
      reached := by
        rcases Nat.lt_or_ge zsl.level e.height with high | low
        · rw [Nat.max_eq_right (Nat.le_of_lt high)]
          exact .inr ⟨e, by simp, rfl⟩
        · rw [Nat.max_eq_left low]
          rcases linked.reached with one | ⟨f, member, same⟩
          · exact .inl one
          · refine .inr ⟨f, ?_, same⟩
            rw [mem_append, mem_cons]
            rw [mem_append] at member
            exact member.imp_right .inr }

end

/-! Deletion from a skiplist: one node is unlinked from every level, and the header's
empty levels are given up. The three operations that delete search for the first node
and go on from there with the same `update`. -/

section
variable {heap : ZslHeap} {header i : Nat} {entries before after : List Entry} {e : Entry}

theorem zslUnlinkLevel_spec (level : LevelOk (column heap i) header i (before ++ e :: after))
    (distinct : Distinct header (before ++ e :: after)) :
    ∃ heap', zslUnlinkLevel e.addr i (place header (reach Entry.height i before)) heap = some heap' ∧ fixed heap' = fixed heap ∧
      (LevelOk (column heap' i) header i (before ++ after) ∧
        (i < e.height → column heap' i e.addr = some (render (link Entry.height i after)))) ∧
      ∀ j, j ≠ i → column heap' j = column heap j := by
  obtain ⟨gap, cut, low, stops⟩ := reach_spec Entry.height i before
  obtain ⟨fresh, distinct'⟩ := distinct_middle.mp distinct
  have other : place header (reach Entry.height i before) ≠ e.addr := by
    intro equal
    have member := place_mem header (reach Entry.height i before) (gap ++ after)
    rw [equal, ← append_assoc, ← cut] at member
    exact fresh member
  have read : levelAt heap (place header (reach Entry.height i before)) i = some (render (link Entry.height i (gap ++ e :: after))) := by
    apply level (reach Entry.height i before) (gap ++ e :: after) _ stops
    rw [← append_assoc, ← cut]
  rcases Nat.lt_or_ge i e.height with high | short
  · have out : levelAt heap e.addr i = some (render (link Entry.height i after)) := by
      have here := level (before ++ [e]) after (by simp) (stops_concat.mpr high)
      rwa [place_concat] at here
    rw [link_found low high] at read
    obtain ⟨heap', set_, fixed', new, others⟩ := setLevel_spec read ⟨(link Entry.height i after).1.map addr,
      uint (((gap.length + 1) % 2 ^ 32 : Nat) + ((link Entry.height i after).2 % 2 ^ 32 : Nat) - 1)⟩
    refine ⟨heap', ?_, fixed', ⟨?_, ?_⟩, others⟩
    · simp only [zslUnlinkLevel, read, render, map_some, if_true, out, bind_eq_bind, bind_some]
      exact set_
    · apply LevelOk.replace [e] [] level distinct'
      · intro gap' cut'
        obtain rfl := append_cancel_left (cut'.symm.trans cut)
        rw [new, update_self, nil_append, link_low low, render, uint_eq (m := gap'.length + (link Entry.height i after).2) (by omega)]
      · intro M N split nonempty _
        exact absurd (append_eq_nil_iff.mp split.symm).1 nonempty
      · intro a notHere _
        rw [new, update_of_ne notHere]
    · intro _
      rw [new, update_of_ne other.symm]
      exact out
  · have above : Low Entry.height i (gap ++ [e]) := low_append.mpr ⟨low, low_cons.mpr ⟨short, low_nil⟩⟩
    rw [append_cons, link_low above] at read
    have notHere : (link Entry.height i after).1.map addr ≠ some e.addr := by
      intro found
      obtain ⟨f, here, equal⟩ := map_eq_some_iff.mp found
      refine fresh (mem_cons_of_mem _ (List.mem_map.mpr ⟨f, ?_, equal⟩))
      exact mem_append_right before (link_mem here)
    obtain ⟨heap', set_, fixed', new, others⟩ := setLevel_spec read ⟨(link Entry.height i after).1.map addr,
      uint ((((gap ++ [e]).length + (link Entry.height i after).2) % 2 ^ 32 : Nat) - 1)⟩
    refine ⟨heap', ?_, fixed', ⟨?_, fun high => absurd high (Nat.not_lt.mpr short)⟩, others⟩
    · simp only [zslUnlinkLevel, read, render, notHere, if_false, bind_eq_bind, bind_some]
      exact set_
    · apply LevelOk.replace [e] [] level distinct'
      · intro gap' cut'
        obtain rfl := append_cancel_left (cut'.symm.trans cut)
        rw [length_append, length_singleton] at new
        rw [new, update_self, nil_append, link_low low, render, uint_eq (m := gap'.length + (link Entry.height i after).2) (by omega)]
      · intro M N split nonempty _
        exact absurd (append_eq_nil_iff.mp split.symm).1 nonempty
      · intro a notHere _
        rw [new, update_of_ne notHere]

theorem unlink_levels {n : Nat} {items : List Nat} (ok : LevelsOk heap header n (before ++ e :: after))
    (distinct : Distinct header (before ++ e :: after)) (length : items.length = n)
    (path : ∀ i item, items[i]? = some item → item = place header (reach Entry.height i before)) :
    ∃ heap', zslEachLevel (zslUnlinkLevel e.addr) 0 items heap = some heap' ∧ fixed heap' = fixed heap ∧
      LevelsOk heap' header n (before ++ after) ∧
      ∀ i < n, i < e.height → column heap' i e.addr = some (render (link Entry.height i after)) := by
  obtain ⟨heap', run, fixed', unlinked, others⟩ := zslEachLevel_spec (zslUnlinkLevel e.addr)
    (fun i item links => LevelOk links header i (before ++ e :: after) ∧ item = place header (reach Entry.height i before))
    (fun i _ links => LevelOk links header i (before ++ after) ∧ (i < e.height → links e.addr = some (render (link Entry.height i after))))
    (by
      intro i item heap needs
      obtain ⟨level, rfl⟩ := needs
      exact zslUnlinkLevel_spec level distinct)
    items 0 heap (by
      intro k item at_
      obtain ⟨inside, _⟩ := List.getElem?_eq_some_iff.mp at_
      rw [Nat.zero_add]
      exact ⟨ok.levels k (length ▸ inside), path k item at_⟩)
  have here : ∀ i, i < n → LevelOk (column heap' i) header i (before ++ after) ∧
      (i < e.height → column heap' i e.addr = some (render (link Entry.height i after))) := by
    intro i below
    have known := unlinked i items[i] (getElem?_eq_getElem (length ▸ below))
    rwa [Nat.zero_add] at known
  refine ⟨heap', run, fixed', ⟨fun i below => (here i below).1, ?_⟩, fun i below => (here i below).2⟩
  intro i above below
  rw [others i (by omega)]
  exact ok.closed i above below

theorem zslLowerLevel_spec {n : Nat} (ok : LevelsOk heap header n entries) (positive : 1 ≤ n) (heights : ∀ e ∈ entries, e.height ≤ n) :
    ∃ m, zslLowerLevel heap header n = some m ∧ 1 ≤ m ∧ m ≤ n ∧ LevelsOk heap header m entries ∧
      (∀ e ∈ entries, e.height ≤ m) ∧ (m = 1 ∨ ∃ e ∈ entries, e.height = m) := by
  induction n using Nat.strongRecOn with
  | ind n ih =>
    match n, positive with
    | 1, _ => exact ⟨1, rfl, Nat.le_refl 1, Nat.le_refl 1, ok, heights, .inl rfl⟩
    | n + 2, _ =>
      have top := ok.levels (n + 1) (Nat.lt_succ_self _) [] entries rfl stops_nil
      have read : levelAt heap header (n + 1) = some (render (link Entry.height (n + 1) entries)) := top
      by_cases low : Low Entry.height (n + 1) entries
      · have closed : LevelsOk heap header (n + 1) entries := by
          constructor
          · exact fun i below => ok.levels i (Nat.lt_succ_of_lt below)
          · intro i above below
            rcases Nat.eq_or_lt_of_le above with rfl | higher
            · rw [link_end low] at top
              exact ⟨_, top⟩
            · exact ok.closed i higher below
        obtain ⟨m, lowered, one, small, rest⟩ := ih (n + 1) (Nat.lt_succ_self _) closed (Nat.le_add_left 1 n) low
        refine ⟨m, ?_, one, Nat.le_succ_of_le small, rest⟩
        rw [link_end low] at read
        simp only [zslLowerLevel, read, render, map_none, bind_eq_bind, bind_some, if_true, lowered]
      · refine ⟨n + 2, ?_, Nat.le_add_left 1 _, Nat.le_refl _, ok, heights, .inr ?_⟩
        · have some_ : (render (link Entry.height (n + 1) entries)).forward ≠ none := by
            intro none_
            exact low (link_none_iff.mp (map_eq_none_iff.mp none_))
          simp only [zslLowerLevel, read, some_, if_false, bind_eq_bind, bind_some]
          rfl
        · rcases low_or_split Entry.height (n + 1) entries with all | ⟨gap, f, post, rfl, _, high⟩
          · exact absurd all low
          · refine ⟨f, by simp, Nat.le_antisymm (heights f (by simp)) high⟩

def UpdateOk (header : Nat) (before : List Entry) (n : Nat) (update : List Nat) : Prop :=
  n ≤ update.length ∧ ∀ i < n, update[i]? = some (place header (reach Entry.height i before))

theorem Linked.delete {zsl : Zskiplist} {update : List Nat} (linked : Linked zsl (before ++ e :: after))
    (path : UpdateOk zsl.header before zsl.level update) :
    ∃ zsl', zslDeleteNode zsl e.addr update = some zsl' ∧ zsl'.header = zsl.header ∧ zsl'.level ≤ zsl.level ∧
      Linked zsl' (before ++ after) := by
  obtain ⟨fresh, distinct⟩ := distinct_middle.mp linked.distinct
  have old : ∀ f ∈ before ++ after, f ∈ before ++ e :: after := by
    intro f member
    rw [mem_append, mem_cons]
    exact (mem_append.mp member).imp_right .inr
  have height := linked.heights e (by simp)
  have positive : ∀ f ∈ after, 1 ≤ f.height := fun f member => (linked.heights f (by simp [member])).1
  obtain ⟨apart, apart'⟩ : e.addr ∉ before.map addr ∧ e.addr ∉ after.map addr := by
    simp only [map_append, mem_cons, mem_append, not_or] at fresh
    exact fresh.2
  have length : (update.take zsl.level).length = zsl.level := by
    rw [length_take, Nat.min_eq_left path.1]
  obtain ⟨heap₁, unlinked, fixed₁, levels₁, kept⟩ := unlink_levels linked.levels linked.distinct length (by
    intro i item at_
    obtain ⟨inside, _⟩ := List.getElem?_eq_some_iff.mp at_
    rw [length] at inside
    rw [getElem?_take_of_lt inside, path.2 i inside] at at_
    exact (some.inj at_).symm)
  obtain ⟨front, here, back⟩ := nodesOk_append.mp linked.nodes
  rw [or_none] at here
  obtain ⟨node, found, _, _, backward, _⟩ := fixed_some (fixed₁.symm ▸ here)
  have read : levelAt heap₁ e.addr 0 = some (render (link Entry.height 0 after)) := kept 0 (by omega) height.1
  have next : (render (link Entry.height 0 after)).forward = after.head?.map addr := by
    rw [← link_zero positive]
    rfl
  obtain ⟨heap₂, linkedBack, nodes₂, fixed₂, columns₂⟩ := linkBack_spec heap₁ zsl.tail (fixed₁.symm ▸ back)
    (nodup_append.mp (map_append ▸ (nodup_cons.mp distinct).2)).2.1 (before.getLast?.map addr)
  have levels₂ : LevelsOk heap₂ zsl.header zsl.level (before ++ after) := by
    constructor
    · intro i below
      rw [columns₂]
      exact levels₁.levels i below
    · intro i above below
      rw [columns₂]
      exact levels₁.closed i above below
  obtain ⟨m, lowered, one, small, levels, heights, reached⟩ := zslLowerLevel_spec levels₂ linked.positive
    fun f member => (linked.heights f (old f member)).2
  have freed : ∀ a, a ≠ e.addr → (fixed fun y => if y = e.addr then none else heap₂ y) a = fixed heap₂ a := by
    intro a other
    simp [fixed, other]
  have freed' : ∀ i a, a ≠ e.addr → column (fun y => if y = e.addr then none else heap₂ y) i a = column heap₂ i a := by
    intro i a other
    simp [column, levelAt, other]
  have member_ne : ∀ f ∈ before ++ after, f.addr ≠ e.addr := by
    intro f member equal
    exact fresh (mem_cons_of_mem _ (equal ▸ List.mem_map_of_mem member))
  have header_ne : zsl.header ≠ e.addr := fun equal => fresh (equal ▸ mem_cons_self)
  refine ⟨{ zsl with
    heap := fun y => if y = e.addr then none else heap₂ y
    tail := if after = [] then before.getLast?.map addr else zsl.tail
    level := m
    length := (zsl.length + (ulongModulus - 1)) % ulongModulus }, ?_, rfl, small, ?_⟩
  · simp only [zslDeleteNode, unlinked, found, read, next, backward, linkedBack, lowered, bind_eq_bind,
      bind_some]
    rfl
  · exact {
      distinct
      header := by
        obtain ⟨score, backward, here⟩ := linked.header
        refine ⟨score, backward, ?_⟩
        rw [freed _ header_ne, fixed₂ _ fun member => (nodup_cons.mp distinct).1 (by simp [member]), fixed₁]
        exact here
      nodes := by
        refine nodesOk_append.mpr ⟨front.congr ?_, NodesOk.congr (by rwa [or_none]) ?_⟩
        · intro f member
          rw [freed _ (member_ne f (by simp [member])), fixed₂, fixed₁]
          intro clash
          have differ := (nodup_append.mp (map_append ▸ (nodup_cons.mp distinct).2)).2.2
          exact differ _ (List.mem_map_of_mem member) _ clash rfl
        · intro f member
          exact freed _ (member_ne f (by simp [member]))
      live := by
        intro a outside
        rcases eq_or_ne a e.addr with rfl | other
        · exact if_pos rfl
        · have old : fixed zsl.heap a = none := by
            apply map_eq_none_iff.mpr
            apply linked.live
            rw [map_append, map_cons, mem_cons, mem_append, mem_cons]
            rw [map_append, mem_cons, mem_append] at outside
            tauto
          have notAfter : a ∉ after.map addr := fun member => outside (by simp [member])
          rw [← fixed₁, ← fixed₂ a notAfter, ← freed a other] at old
          exact map_eq_none_iff.mp old
      levels := by
        constructor
        · intro i below
          apply (levels.levels i below).congr
          intro a member
          exact freed' i a fun equal => fresh (equal ▸ member)
        · intro i above below
          rw [freed' i _ header_ne]
          exact levels.closed i above below
      tail := by
        cases after with
        | nil => simp
        | cons f rest => simp [linked.tail, getLast?_append, getLast?_cons_cons]
      length := by
        have fits := linked.fits
        simp only [linked.length, length_append, length_cons, ulongModulus] at fits ⊢
        omega
      fits := by
        have fits := linked.fits
        simp only [length_append, length_cons] at fits ⊢
        omega
      heights f member := ⟨(linked.heights f (old f member)).1, heights f member⟩
      positive := one
      bounded := Nat.le_trans small linked.bounded
      reached }

end

end Cplusplus.Redis.Zsl
