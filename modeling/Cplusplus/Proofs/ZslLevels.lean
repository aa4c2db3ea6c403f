import Cplusplus.Library.SkipLinks
import Cplusplus.Zskiplist
import Mathlib.Data.List.Nodup
import Mathlib.Tactic.Linarith

/-! The levels of a skiplist. The nodes are those of a list of entries; each level is
described on its own, as the links that the heights of the entries give. -/

namespace Cplusplus.Redis.Zsl
open SkipLinks List Option

structure Entry where
  addr : Nat
  score : Binary64
  obj : List UInt8
  height : Nat

def place (header : Nat) (before : List Entry) : Nat := (before.getLast?.map Entry.addr).getD header

def render (l : Option Entry × Nat) : ZskiplistLevel where
  forward := l.1.map Entry.addr
  span := l.2 % 2 ^ 32

abbrev Column := Nat → Option ZskiplistLevel

def column (heap : ZslHeap) (i : Nat) : Column := fun a => levelAt heap a i

def LevelOk (links : Column) (header i : Nat) (entries : List Entry) : Prop :=
  ∀ A B, entries = A ++ B → Stops Entry.height i A →
    links (place header A) = some (render (link Entry.height i B))

def Distinct (header : Nat) (entries : List Entry) : Prop := (header :: entries.map Entry.addr).Nodup

variable {heap : ZslHeap} {header i : Nat} {entries before after : List Entry}

@[simp] theorem place_nil : place header [] = header := rfl

@[simp] theorem place_concat (init : List Entry) (e : Entry) : place header (init ++ [e]) = e.addr := by
  simp [place]

theorem place_append (X : List Entry) {A : List Entry} (nonempty : A ≠ []) : place header (X ++ A) = place header A := by
  obtain ⟨init, e, rfl⟩ : ∃ init e, A = init ++ [e] := ⟨_, _, (dropLast_concat_getLast nonempty).symm⟩
  rw [← append_assoc, place_concat, place_concat]

theorem place_get (header : Nat) (A B : List Entry) : (header :: (A ++ B).map Entry.addr)[A.length]? = some (place header A) := by
  cases A.eq_nil_or_concat with
  | inl empty => simp [empty]
  | inr more =>
    obtain ⟨init, e, rfl⟩ := more
    simp

theorem place_inj {A B A' B' : List Entry} (distinct : Distinct header (A ++ B)) (same : A ++ B = A' ++ B')
    (equal : place header A = place header A') : A = A' := by
  have left := place_get header A B
  have right := place_get header A' B'
  rw [← same] at right
  have inside : A.length < (header :: (A ++ B).map Entry.addr).length := by
    rw [length_cons, length_map, length_append]
    omega
  have inside' : A'.length < (header :: (A ++ B).map Entry.addr).length := by
    rw [same, length_cons, length_map, length_append]
    omega
  rw [getElem?_eq_getElem inside] at left
  rw [getElem?_eq_getElem inside', ← equal, ← some.inj left] at right
  have length : A'.length = A.length := (List.Nodup.getElem_inj_iff distinct).mp (some.inj right)
  exact append_inj_left same length.symm

theorem place_mem (header : Nat) (A B : List Entry) : place header A ∈ header :: (A ++ B).map Entry.addr :=
  mem_of_getElem? (place_get header A B)

def fixed (heap : ZslHeap) (a : Nat) : Option (Option (List UInt8) × Binary64 × Option Nat × Nat) :=
  (heap a).map fun n => (n.obj, n.score, n.backward, n.level.length)

theorem fixed_some {a height : Nat} {obj : Option (List UInt8)} {score : Binary64} {backward : Option Nat}
    (known : fixed heap a = some (obj, score, backward, height)) :
    ∃ node, heap a = some node ∧ node.obj = obj ∧ node.score = score ∧ node.backward = backward ∧ node.level.length = height := by
  obtain ⟨node, found, same⟩ := map_eq_some_iff.mp known
  cases same
  exact ⟨node, found, rfl, rfl, rfl, rfl⟩

theorem setLevel_spec {a : Nat} {old : ZskiplistLevel} (present : column heap i a = some old) (new : ZskiplistLevel) :
    ∃ heap', setLevel heap a i new = some heap' ∧ fixed heap' = fixed heap ∧ column heap' i = Function.update (column heap i) a (some new) ∧
      ∀ j, j ≠ i → column heap' j = column heap j := by
  obtain ⟨node, found, read⟩ := bind_eq_some_iff.mp present
  obtain ⟨inside, _⟩ := List.getElem?_eq_some_iff.mp read
  refine ⟨_, by simp only [setLevel, found, bind_eq_bind, bind_some, inside, if_true]; rfl, ?_, ?_, ?_⟩
  · funext b
    rcases eq_or_ne b a with rfl | other
    · simp [fixed, found]
    · simp [fixed, other]
  · funext b
    rcases eq_or_ne b a with rfl | other
    · simp [column, levelAt, inside]
    · simp [column, levelAt, other]
  · intro j differs
    funext b
    rcases eq_or_ne b a with rfl | other
    · simp [column, levelAt, found, differs.symm]
    · simp [column, levelAt, other]

theorem setBackward_spec {a height : Nat} {obj : Option (List UInt8)} {score : Binary64} {old : Option Nat}
    (known : fixed heap a = some (obj, score, old, height)) (backward : Option Nat) :
    ∃ heap', setBackward heap a backward = some heap' ∧ fixed heap' = Function.update (fixed heap) a (some (obj, score, backward, height)) ∧
      ∀ j, column heap' j = column heap j := by
  obtain ⟨node, found, rfl, rfl, _, rfl⟩ := fixed_some known
  refine ⟨_, by simp only [setBackward, found, bind_eq_bind, bind_some]; rfl, ?_, ?_⟩
  · funext b
    rcases eq_or_ne b a with rfl | other
    · simp [fixed]
    · simp [fixed, other]
  · intro j
    funext b
    rcases eq_or_ne b a with rfl | other
    · simp [column, levelAt, found]
    · simp [column, levelAt, other]

/-- The levels are independent: what the body of a loop does to each level, the loop does
to all of them. -/
theorem zslEachLevel_spec {α : Type} (body : Nat → α → ZslHeap → Option ZslHeap)
    (Needs Gives : Nat → α → Column → Prop)
    (body_spec : ∀ i item heap, Needs i item (column heap i) → ∃ heap', body i item heap = some heap' ∧
      fixed heap' = fixed heap ∧ Gives i item (column heap' i) ∧ ∀ j, j ≠ i → column heap' j = column heap j) :
    ∀ (items : List α) (i : Nat) (heap : ZslHeap), (∀ k item, items[k]? = some item → Needs (i + k) item (column heap (i + k))) →
      ∃ heap', zslEachLevel body i items heap = some heap' ∧ fixed heap' = fixed heap ∧
        (∀ k item, items[k]? = some item → Gives (i + k) item (column heap' (i + k))) ∧
        ∀ j, j < i ∨ i + items.length ≤ j → column heap' j = column heap j := by
  intro items
  induction items with
  | nil => exact fun i heap _ => ⟨heap, rfl, rfl, by simp, fun _ _ => rfl⟩
  | cons item items ih =>
    intro i heap ready
    obtain ⟨middle, first, fixed₁, done, others⟩ := body_spec i item heap (ready 0 item rfl)
    obtain ⟨heap', rest, fixed₂, all, outside⟩ := ih (i + 1) middle fun k item' at_ => by
      rw [others _ (by omega), Nat.add_right_comm i 1 k]
      exact ready (k + 1) item' at_
    refine ⟨heap', by simp only [zslEachLevel, first, bind_eq_bind, bind_some, rest], fixed₂.trans fixed₁, ?_, ?_⟩
    · intro k item' at_
      cases k with
      | zero =>
        cases at_
        rw [Nat.add_zero, outside _ (.inl (Nat.lt_succ_self i))]
        exact done
      | succ k =>
        have later := all k item' at_
        rwa [Nat.add_right_comm i 1 k] at later
    · intro j far
      rw [length_cons] at far
      exact (outside j (by omega)).trans (others j (by omega))

/-- A level after a change in the middle of the list: it is enough to know the link at
the last place in front of the change and the links of the new entries. -/
theorem LevelOk.replace {links links' : Column} (mid mid' : List Entry)
    (old : LevelOk links header i (before ++ (mid ++ after))) (distinct : Distinct header (before ++ (mid' ++ after)))
    (here : ∀ gap, before = reach Entry.height i before ++ gap → links' (place header (reach Entry.height i before)) =
      some (render (link Entry.height i (gap ++ (mid' ++ after)))))
    (inside : ∀ M N, mid' = M ++ N → M ≠ [] → Stops Entry.height i M →
      links' (place header M) = some (render (link Entry.height i (N ++ after))))
    (frame : ∀ a, a ≠ place header (reach Entry.height i before) → a ∉ mid'.map Entry.addr → links' a = links a) :
    LevelOk links' header i (before ++ (mid' ++ after)) := by
  obtain ⟨last, reached, low, _⟩ := reach_spec Entry.height i before
  -- a place that is neither the one in front of the change nor a new entry is not touched
  have untouched : ∀ A B, before ++ (mid' ++ after) = A ++ B → A ≠ reach Entry.height i before →
      (∀ M N, mid' = M ++ N → M ≠ [] → A ≠ before ++ M) → links' (place header A) = links (place header A) := by
    intro A B split notHere notInside
    apply frame
    · intro equal
      have whole : A ++ B = reach Entry.height i before ++ (last ++ (mid' ++ after)) := by
        rw [← split, ← append_assoc (reach _ _ _), ← reached]
      exact notHere (place_inj (split ▸ distinct) whole equal)
    · intro member
      obtain ⟨e, inMid, equal⟩ := List.mem_map.mp member
      obtain ⟨M, N, rfl⟩ := append_of_mem inMid
      have whole : A ++ B = (before ++ (M ++ [e])) ++ (N ++ after) := by
        rw [← split]
        simp
      refine notInside (M ++ [e]) N (by simp) (by simp) (place_inj (split ▸ distinct) whole ?_)
      rw [← append_assoc, place_concat, equal]
  have front : ∀ A C, before = A ++ C → Stops Entry.height i A →
      links' (place header A) = some (render (link Entry.height i (C ++ (mid' ++ after)))) := by
    intro A C split stops
    by_cases low' : Low Entry.height i C
    · have arrived : reach Entry.height i before = A := by rw [split, reach_unique stops low']
      have known := here C
      rw [arrived] at known
      exact known split
    · rw [untouched A (C ++ (mid' ++ after)), link_inside low' _ (mid ++ after)]
      · exact old A _ (by rw [split, append_assoc]) stops
      · rw [split, append_assoc]
      · intro arrived
        rw [split] at arrived
        exact low' ((reach_eq_iff stops).mp arrived.symm)
      · intro M N _ nonempty same
        have lengths := congrArg List.length same
        rw [split, length_append, length_append] at lengths
        have := length_pos_iff.mpr nonempty
        omega
  intro A B split stops
  rcases append_eq_append_iff.mp split with ⟨A', rfl, tail⟩ | ⟨C, cut, rfl⟩
  · rcases eq_or_ne A' [] with rfl | nonempty
    · have known := front before [] (by simp)
      rw [append_nil] at stops ⊢
      rw [nil_append] at tail
      rw [← tail]
      exact known stops
    · rw [place_append before nonempty]
      rw [stops_append before nonempty] at stops
      rcases append_eq_append_iff.mp tail with ⟨A'', rfl, rfl⟩ | ⟨N, rfl, rfl⟩
      · rcases eq_or_ne A'' [] with rfl | more
        · rw [append_nil] at stops nonempty ⊢
          exact inside mid' [] (by simp) nonempty stops
        · rw [stops_append mid' more] at stops
          have unchanged := untouched (before ++ (mid' ++ A'')) B (by simp)
          have known := old (before ++ (mid ++ A'')) B (by simp)
          rw [← append_assoc, stops_append _ more, place_append _ more] at known
          rw [← append_assoc, place_append _ more] at unchanged
          rw [place_append mid' more, unchanged, known stops]
          · intro arrived
            have lengths := congrArg List.length arrived
            have longer := congrArg List.length reached
            simp only [length_append] at lengths longer
            have := length_pos_iff.mpr more
            omega
          · intro M N cut _ same
            have lengths := congrArg List.length same
            have longer := congrArg List.length cut
            simp only [length_append] at lengths longer
            have := length_pos_iff.mpr more
            omega
      · exact inside A' N rfl nonempty stops
  · exact front A C cut stops

/-- A rank as it is counted: exact unless the list is so long that spans wrap. -/
def RankOk (entries : List Entry) (rank count : Nat) : Prop :=
  rank % 2 ^ 32 = count % 2 ^ 32 ∧ (entries.length < 2 ^ 32 → rank = count)

def Guards (guard : ZslGuard) (heap : ZslHeap) (entries before : List Entry) : Prop :=
  ∀ pre e post, entries = pre ++ e :: post → ∀ rank span, (entries.length < 2 ^ 32 → rank + span = pre.length + 1) →
    guard rank span (heap e.addr) = some (decide (pre.length < before.length))

theorem zslWalk_spec {guard : ZslGuard} {modulus : Nat} (levels : LevelOk (column heap i) header i entries)
    (split : entries = before ++ after) (guards : Guards guard heap entries before) (bits : modulus = 2 ^ 32 ∨ modulus = 2 ^ 64) :
    ∀ (fuel : Nat) (A B : List Entry) (rank : Nat), before = A ++ B → Stops Entry.height i A → B.length < fuel → RankOk entries rank A.length →
      ∃ rank', zslWalk guard modulus heap i fuel (place header A) rank = some (place header (reach Entry.height i before), rank') ∧
        RankOk entries rank' (reach Entry.height i before).length := by
  intro fuel
  induction fuel with
  | zero => intro A B rank _ _ enough; cases enough
  | succ fuel ih =>
    intro A B rank cut stops enough counted
    have whole : entries = A ++ (B ++ after) := by rw [split, cut, append_assoc]
    have here : levelAt heap (place header A) i = _ := levels A (B ++ after) whole stops
    rcases low_or_split Entry.height i B with low | ⟨gap, e, post, rfl, low, high⟩
    · have arrived : reach Entry.height i before = A := by rw [cut, reach_unique stops low]
      refine ⟨rank, ?_, by rwa [arrived]⟩
      rw [arrived]
      rw [link_low low] at here
      rcases low_or_split Entry.height i after with none_ | ⟨gap, e, post, rfl, low', high⟩
      · rw [link_end none_] at here
        simp only [zslWalk, here, render, map_none, bind_eq_bind, bind_some]
        rfl
      · rw [link_found low' high] at here
        have position : entries = (before ++ gap) ++ e :: post := by rw [split, append_assoc]
        have stop := guards _ e post position rank ((B.length + (gap.length + 1)) % 2 ^ 32) fun short => by
          have := counted.2 short
          have total := congrArg List.length position
          simp only [length_append, length_cons] at total
          have parts := congrArg List.length cut
          simp only [length_append] at parts
          rw [length_append]
          omega
        rw [decide_eq_false (by rw [length_append]; omega)] at stop
        simp only [zslWalk, here, render, map_some, stop, bind_eq_bind, bind_some, Bool.false_eq_true, if_false]
        rfl
    · rw [append_assoc, cons_append, link_found low high] at here
      have position : entries = (A ++ gap) ++ e :: (post ++ after) := by
        rw [whole]
        simp
      have total := congrArg List.length position
      simp only [length_append, length_cons] at total
      have go := guards _ e _ position rank ((gap.length + 1) % 2 ^ 32) fun short => by
        have := counted.2 short
        rw [length_append]
        omega
      have inside : (A ++ gap).length < before.length := by
        rw [cut]
        simp
      rw [decide_eq_true inside] at go
      have next : before = (A ++ gap ++ [e]) ++ post := by
        rw [cut]
        simp
      have counted' : RankOk entries ((rank + (gap.length + 1) % 2 ^ 32) % modulus) (A ++ gap ++ [e]).length := by
        unfold RankOk at counted ⊢
        simp only [length_append, length_singleton]
        rcases bits with rfl | rfl <;> omega
      obtain ⟨rank', walked, exact_⟩ := ih (A ++ gap ++ [e]) post _ next (stops_concat.mpr high)
        (by simp only [length_append, length_cons] at enough; omega) counted'
      rw [place_concat] at walked
      refine ⟨rank', ?_, exact_⟩
      simp only [zslWalk, here, render, map_some, go, walked, bind_eq_bind, bind_some, if_true]

/-- What a search stores for each level: the last place in front of the entries that the
guard rejects, and its rank. -/
def PathOk (header : Nat) (entries before : List Entry) (n : Nat) (path : List (Nat × Nat)) : Prop :=
  path.length = n ∧ ∀ i < n, ∃ rank, path[i]? = some (place header (reach Entry.height i before), rank) ∧
    RankOk entries rank (reach Entry.height i before).length

theorem zslDescend_spec {guard : ZslGuard} {modulus : Nat} (fuel : Nat) (split : entries = before ++ after)
    (guards : Guards guard heap entries before) (bits : modulus = 2 ^ 32 ∨ modulus = 2 ^ 64) (enough : before.length < fuel) :
    ∀ (n : Nat) (A B : List Entry) (rank : Nat), (∀ i < n, LevelOk (column heap i) header i entries) →
      before = A ++ B → (∀ i < n, Stops Entry.height i A) → RankOk entries rank A.length →
      ∃ path, zslDescend guard modulus heap fuel n (place header A) rank = some path ∧ PathOk header entries before n path := by
  intro n
  induction n with
  | zero => exact fun A B rank _ _ _ _ => ⟨[], rfl, rfl, by simp⟩
  | succ n ih =>
    intro A B rank levels cut stops counted
    obtain ⟨rank', walked, counted'⟩ := zslWalk_spec (levels n (Nat.lt_succ_self n)) split guards bits fuel A B rank
      cut (stops n (Nat.lt_succ_self n)) (by rw [cut, length_append] at enough; omega) counted
    obtain ⟨gap, cut', _, stops'⟩ := reach_spec Entry.height n before
    obtain ⟨path, descended, length, known⟩ := ih (reach Entry.height n before) gap rank'
      (fun i below => levels i (Nat.lt_succ_of_lt below)) cut' (fun i below => stops'.mono (Nat.le_of_lt below)) counted'
    refine ⟨path ++ [(place header (reach Entry.height n before), rank')], ?_, by simp [length], ?_⟩
    · simp only [zslDescend, walked, descended, bind_eq_bind, bind_some]
      rfl
    · intro i below
      rcases Nat.lt_succ_iff_lt_or_eq.mp below with lower | rfl
      · obtain ⟨r, at_, counted''⟩ := known i lower
        exact ⟨r, by rw [getElem?_append_left (length ▸ lower), at_], counted''⟩
      · exact ⟨rank', by rw [getElem?_append_right (Nat.le_of_eq length), length, Nat.sub_self]; rfl, counted'⟩

end Cplusplus.Redis.Zsl
