import Cplusplus.Dict
import Mathlib.Algebra.BigOperators.Group.Finset.Piecewise
import Mathlib.Algebra.Order.BigOperators.Group.Finset

/-! What every operation of the hash table keeps: the entries sit in the bucket
of their hash, the counters count them, no key occurs twice, and the buckets
that the rehash has passed are empty. Each operation is described once, by its
effect on the multiset of entries. -/

namespace Cplusplus.Redis
open List Option

section
variable {K V : Type}

namespace Dictht

def contents (t : Dictht K V) : Multiset (DictEntry K V) :=
  ∑ i ∈ Finset.range t.size, (t.table i : Multiset (DictEntry K V))

theorem mem_contents {t : Dictht K V} {e : DictEntry K V} : e ∈ t.contents ↔ ∃ i < t.size, e ∈ t.table i := by
  simp [contents, Multiset.mem_sum]

section
variable (t : Dictht K V)

@[simp] theorem relink_size (i chain used) : (t.relink i chain used).size = t.size := rfl

@[simp] theorem relink_sizemask (i chain used) : (t.relink i chain used).sizemask = t.sizemask := rfl

@[simp] theorem relink_used (i chain used) : (t.relink i chain used).used = used := rfl

@[simp] theorem relink_table (i chain used) : (t.relink i chain used).table = Function.update t.table i chain := rfl

theorem contents_relink {i : Nat} (inside : i < t.size) (chain : List (DictEntry K V))
    (used : Nat) : (t.relink i chain used).contents + ↑(t.table i) = t.contents + ↑chain := by
  have member : i ∈ Finset.range t.size := Finset.mem_range.mpr inside
  have after : (t.relink i chain used).contents = ↑chain + ∑ j ∈ Finset.range t.size \ {i}, (t.table j : Multiset (DictEntry K V)) := by
    rw [← Finset.sum_update_of_mem member]
    apply Finset.sum_congr rfl
    intro j _
    by_cases same : j = i
    · subst j; simp
    · simp [same]
  have before : t.contents = ↑(t.table i) + ∑ j ∈ Finset.range t.size \ {i}, (t.table j : Multiset (DictEntry K V)) := by
    rw [contents, ← Finset.sum_update_of_mem member, Function.update_eq_self]
  rw [after, before]
  ac_rfl

end

theorem bucket_eq {t : Dictht K V} {i : Nat} (inside : i < t.size) : t.bucket i = some (t.table i) := by
  simp [bucket, inside]

theorem push_eq {t : Dictht K V} {i : Nat} (inside : i < t.size) (e : DictEntry K V) :
    t.push i e = some (t.relink i (e :: t.table i) (t.used + 1)) := by
  simp [push, bucket_eq inside]

theorem contents_push {t : Dictht K V} {i : Nat} (inside : i < t.size) (e : DictEntry K V) (used : Nat) :
    (t.relink i (e :: t.table i) used).contents = e ::ₘ t.contents := by
  have balance := t.contents_relink inside (e :: t.table i) used
  rw [← Multiset.cons_coe, Multiset.add_cons, ← Multiset.cons_add] at balance
  exact add_right_cancel balance

end Dictht

def Dict.contents (d : Dict K V) : Multiset (DictEntry K V) := d.ht0.contents + d.ht1.contents

section Hashed

variable (hash : K → BitVec 32)

/-- Sizes are powers of two that `zcalloc` can provide; `size = 0` is the NULL table. -/
def PowerSize (size : Nat) : Prop := ∃ j, j ≤ 60 ∧ size = 2 ^ j

structure TableValid (t : Dictht K V) : Prop where
  shape : t.size = 0 ∨ PowerSize t.size
  mask : t.sizemask = t.size - 1
  placed : ∀ i < t.size, ∀ e ∈ t.table i, keySlot hash t e.key = i
  count : t.used = t.contents.card

structure Moving (d : Dict K V) (rehashidx : Nat) : Prop where
  first : 0 < d.ht0.size
  second : 0 < d.ht1.size
  passed : ∀ i < rehashidx, d.ht0.table i = []

structure Valid (d : Dict K V) : Prop where
  first : TableValid hash d.ht0
  second : TableValid hash d.ht1
  distinct : (d.contents.map DictEntry.key).Nodup
  idle : d.rehashidx = none → d.ht1 = dictReset
  moving : ∀ idx, d.rehashidx = some idx → Moving d idx

/-- An operation that changes the shape of the tables and none of the entries. -/
structure Kept (d d' : Dict K V) : Prop where
  valid : Valid hash d'
  contents : d'.contents = d.contents
  iterators : d'.iterators = d.iterators
  started : 0 < d.ht0.size → 0 < d'.ht0.size

variable {hash}

theorem Kept.refl {d : Dict K V} (valid : Valid hash d) : Kept hash d d := ⟨valid, rfl, rfl, id⟩

theorem Kept.trans {d d' d'' : Dict K V} (first : Kept hash d d') (second : Kept hash d' d'') : Kept hash d d'' :=
  ⟨second.valid, second.contents.trans first.contents, second.iterators.trans first.iterators,
    fun positive => second.started (first.started positive)⟩

@[simp] theorem keySlot_relink (t : Dictht K V) (i chain used) (key : K) : keySlot hash (t.relink i chain used) key = keySlot hash t key := rfl

theorem TableValid.slot_inside {t : Dictht K V} (valid : TableValid hash t) (nonempty : 0 < t.size) (key : K) :
    keySlot hash t key < t.size := by
  have below : keySlot hash t key ≤ t.sizemask := Nat.and_le_right
  have := valid.mask
  omega

theorem tableValid_reset : TableValid hash (dictReset : Dictht K V) := by
  constructor <;> simp [dictReset, Dictht.contents]

theorem TableValid.push {t : Dictht K V} (valid : TableValid hash t) (nonempty : 0 < t.size) (e : DictEntry K V) : TableValid hash
      (t.relink (keySlot hash t e.key) (e :: t.table (keySlot hash t e.key)) (t.used + 1)) := by
  have inside := valid.slot_inside nonempty e.key
  refine ⟨valid.shape, valid.mask, ?_, ?_⟩
  · intro i bound other member
    rw [keySlot_relink]
    simp only [Dictht.relink_table] at member
    by_cases same : i = keySlot hash t e.key
    · subst i
      rw [Function.update_self, mem_cons] at member
      rcases member with rfl | member
      · rfl
      · exact valid.placed _ inside other member
    · rw [Function.update_of_ne same] at member
      exact valid.placed i bound other member
  · simp [Dictht.contents_push inside, valid.count]

theorem TableValid.shrink {t : Dictht K V} (valid : TableValid hash t) {i : Nat} (inside : i < t.size) {chain : List (DictEntry K V)}
    (sub : chain.Sublist (t.table i)) {used : Nat} (count : used + ((t.table i).length - chain.length) = t.used) :
    TableValid hash (t.relink i chain used) := by
  refine ⟨valid.shape, valid.mask, ?_, ?_⟩
  · intro j bound e member
    rw [keySlot_relink]
    simp only [Dictht.relink_table] at member
    by_cases same : j = i
    · subst j
      rw [Function.update_self] at member
      exact valid.placed i inside e (sub.subset member)
    · rw [Function.update_of_ne same] at member
      exact valid.placed j bound e member
  · have balance := congrArg Multiset.card (t.contents_relink inside chain used)
    simp only [Multiset.card_add, Multiset.coe_card] at balance
    have shorter := sub.length_le
    have := valid.count
    simp only [Dictht.relink_used]
    omega

private theorem nextPowerFrom_shape (size : Nat) : ∀ left j, left + j = 64 → 2 ≤ j → size ≤ 2 ^ 64 → (∀ k, 2 ≤ k → k < j → 2 ^ k < size) →
    ∃ k, j ≤ k ∧ k ≤ 64 ∧ nextPowerFrom size left (2 ^ j) = 2 ^ k ∧ size ≤ 2 ^ k ∧ ∀ i, 2 ≤ i → i < k → 2 ^ i < size := by
  intro left
  induction left with
  | zero =>
    intro j total _ bound smaller
    obtain rfl : j = 64 := by omega
    exact ⟨64, by omega, by omega, rfl, bound, smaller⟩
  | succ left ih =>
    intro j total low bound smaller
    by_cases enough : size ≤ 2 ^ j
    · exact ⟨j, by omega, by omega, by simp [nextPowerFrom, enough], enough, smaller⟩
    · obtain ⟨k, above, below, same, fits, least⟩ := ih (j + 1) (by omega) (by omega) bound (by
        intro i lower upper
        by_cases last : i = j
        · subst i; omega
        · exact smaller i lower (by omega))
      exact ⟨k, by omega, below, by simpa [nextPowerFrom, enough, ← Nat.pow_succ] using same, fits, least⟩

variable {size : Nat}

/-- The next power is the least power of two from 4 on that is not below the request. -/
theorem dictNextPower_spec (bound : size < longMax) :
    ∃ k, 2 ≤ k ∧ k ≤ 63 ∧ dictNextPower size = 2 ^ k ∧ size ≤ 2 ^ k ∧ ∀ i, 2 ≤ i → i < k → 2 ^ i < size := by
  have limit : size < 2 ^ 63 - 1 := bound
  obtain ⟨k, low, _, same, fits, least⟩ := nextPowerFrom_shape size 62 2 (by decide) (by decide)
    (by omega) (by omega)
  have small : k ≤ 63 := by
    by_contra large
    have := least 63 (by decide) (by omega)
    omega
  exact ⟨k, low, small, by simpa [dictNextPower, Nat.not_le.mpr bound, dictHtInitialSize] using same, fits, least⟩

theorem dictNextPower_le {size j : Nat} (bound : size ≤ 2 ^ j) (low : 2 ≤ j) (high : j ≤ 62) :
    ∃ k, 2 ≤ k ∧ k ≤ j ∧ dictNextPower size = 2 ^ k ∧ size ≤ 2 ^ k := by
  have mono : 2 ^ j ≤ 2 ^ 62 := Nat.pow_le_pow_right (by decide) high
  have limit : size < longMax := by unfold longMax; omega
  obtain ⟨k, lower, _, same, fits, least⟩ := dictNextPower_spec limit
  refine ⟨k, lower, ?_, same, fits⟩
  by_contra above
  have := least j low (by omega)
  omega

theorem dictCalloc_power {t : Dictht K V} (alloc : dictCalloc (dictNextPower size) = some t) :
    PowerSize t.size ∧ t.size = dictNextPower size ∧ t.sizemask = t.size - 1 ∧ t.used = 0 ∧ t.table = fun _ => [] := by
  unfold dictCalloc at alloc
  split at alloc
  next fits =>
    cases alloc
    refine ⟨?_, rfl, rfl, rfl, rfl⟩
    by_cases bound : size < longMax
    · obtain ⟨k, _, _, same, _⟩ := dictNextPower_spec bound
      refine ⟨k, ?_, same⟩
      by_contra large
      rw [same] at fits
      have := Nat.pow_le_pow_right (show 0 < 2 by decide) (show 61 ≤ k by omega)
      omega
    · have whole : dictNextPower size = longMax := by simp [dictNextPower, Nat.le_of_not_lt bound]
      rw [whole] at fits
      simp [longMax] at fits
  next => cases alloc

theorem contents_empty {t : Dictht K V} (empty : t.table = fun _ => []) : t.contents = 0 := by
  simp [Dictht.contents, empty]

theorem TableValid.fresh {t : Dictht K V} (power : PowerSize t.size) (mask : t.sizemask = t.size - 1)
    (used : t.used = 0) (empty : t.table = fun _ => []) : TableValid hash t :=
  ⟨.inr power, mask, by simp [empty], by simp [used, contents_empty empty]⟩

theorem Valid.contents_null {d : Dict K V} (null : d.ht0.size = 0) : d.ht0.contents = 0 := by
  simp [Dictht.contents, null]

variable {d d' : Dict K V} {status : Status}

/-- Either nothing changes, or the new table becomes the first or the second one. -/
theorem dictExpand_cases (step : dictExpand d size = some (d', status)) :
    (d' = d ∧ (d.isRehashing = true ∨ size < d.ht0.used ∨ dictNextPower size = d.ht0.size)) ∨
      ∃ n, dictCalloc (dictNextPower size) = some n ∧ d.isRehashing = false ∧
        ((d.ht0.size = 0 ∧ d' = { d with ht0 := n }) ∨ d.ht0.size ≠ 0 ∧ d' = { d with ht1 := n, rehashidx := some 0 }) := by
  by_cases refused : (d.isRehashing || decide (size < d.ht0.used)) = true
  · simp only [dictExpand, refused, if_true] at step
    cases step
    rw [Bool.or_eq_true, decide_eq_true_iff] at refused
    exact .inl ⟨rfl, refused.imp_right .inl⟩
  by_cases resized : dictNextPower size = d.ht0.size
  · simp only [dictExpand, refused, resized, if_true, Bool.false_eq_true, if_false] at step
    cases step
    exact .inl ⟨rfl, .inr (.inr resized)⟩
  · simp only [dictExpand, refused, resized, Bool.false_eq_true, if_false, bind_eq_bind,
      bind_eq_some_iff] at step
    obtain ⟨n, alloc, step⟩ := step
    have stopped : d.isRehashing = false := by simp_all
    refine .inr ⟨n, alloc, stopped, ?_⟩
    split at step
    next null =>
      cases step
      exact .inl ⟨null, rfl⟩
    next started =>
      cases step
      exact .inr ⟨started, rfl⟩

theorem dictExpand_preserves (valid : Valid hash d) (step : dictExpand d size = some (d', status)) : Kept hash d d' := by
  rcases dictExpand_cases step with ⟨rfl, _⟩ | ⟨n, alloc, stopped, ⟨null, rfl⟩ | ⟨started, rfl⟩⟩
  · exact .refl valid
  all_goals
    obtain ⟨power, _, mask, used, empty⟩ := dictCalloc_power alloc
    have fresh : TableValid hash n := .fresh power mask used empty
    have stopped : d.rehashidx = none := by simp_all [Dict.isRehashing]
    have idle := valid.idle stopped
  · have same : Dict.contents { d with ht0 := n } = d.contents := by
      simp [Dict.contents, contents_empty empty, Valid.contents_null null]
    refine ⟨⟨fresh, valid.second, ?_, fun _ => idle, ?_⟩, same, rfl, by simp [null]⟩
    · rw [same]; exact valid.distinct
    · intro idx moving
      cases stopped.symm.trans moving
  · have same : Dict.contents { d with ht1 := n, rehashidx := some 0 } = d.contents := by
      simp [Dict.contents, contents_empty empty, idle, contents_empty (t := dictReset) rfl]
    refine ⟨⟨valid.first, fresh, ?_, by simp, ?_⟩, same, rfl, id⟩
    · rw [same]; exact valid.distinct
    · intro idx moving
      cases moving
      obtain ⟨j, _, width⟩ := power
      exact ⟨Nat.pos_of_ne_zero started, by rw [width]; exact Nat.two_pow_pos j, by simp⟩

theorem dictExpand_defined (d : Dict K V) (bound : size ≤ 2 ^ 60) : ∃ result, dictExpand d size = some result := by
  obtain ⟨k, _, high, same, _⟩ := dictNextPower_le bound (by decide) (by decide)
  have fits : dictNextPower size * 8 < 2 ^ 64 := by
    rw [same]
    have := Nat.pow_le_pow_right (show 0 < 2 by decide) high
    omega
  unfold dictExpand dictCalloc
  simp only [fits, if_true]
  split
  · exact ⟨_, rfl⟩
  · split
    · exact ⟨_, rfl⟩
    · simp only [bind_eq_bind, bind_some]
      split <;> exact ⟨_, rfl⟩

theorem dictResize_preserves {canResize : Bool} (valid : Valid hash d)
    (step : dictResize canResize d = some (d', status)) : Kept hash d d' := by
  unfold dictResize at step
  split at step
  · cases step; exact .refl valid
  · exact dictExpand_preserves valid step

theorem dictResize_defined (canResize : Bool) (d : Dict K V) : ∃ result, dictResize canResize d = some result := by
  unfold dictResize
  split
  · exact ⟨_, rfl⟩
  · apply dictExpand_defined
    have := BitVec.toInt_lt (x := BitVec.ofNat 32 d.ht0.used)
    unfold dictHtInitialSize
    split <;> omega

end Hashed

end

/-! The incremental rehash moves entries and neither loses nor invents one,
whatever number of steps it is given and wherever its empty visits run out. -/

section
variable {K V : Type} {hash : K → BitVec 32}

theorem moveChain_spec (chain : List (DictEntry K V)) (ht0 ht1 : Dictht K V)
    (valid : TableValid hash ht1) (nonempty : 0 < ht1.size) :
    ∃ after, moveChain hash ht0 ht1 chain = some ({ ht0 with used := ht0.used - chain.length }, after) ∧
      TableValid hash after ∧ after.size = ht1.size ∧ after.contents = ht1.contents + ↑chain := by
  induction chain generalizing ht0 ht1 with
  | nil => exact ⟨ht1, rfl, valid, rfl, by simp⟩
  | cons de next ih =>
    have inside := valid.slot_inside nonempty de.key
    obtain ⟨after, moved, kept, size, contents⟩ := ih { ht0 with used := ht0.used - 1 } _ (valid.push nonempty de) nonempty
    refine ⟨after, ?_, kept, size, ?_⟩
    · simp only [moveChain, Dictht.push_eq inside, bind_eq_bind, bind_some, moved,
        length_cons]
      congr 3
      omega
    · rw [contents, Dictht.contents_push inside, ← Multiset.cons_coe, Multiset.cons_add,
        Multiset.add_cons]

/-- What skipping finds: every bucket before the index is empty, and the bucket
at the index is not unless the visits ran out. -/
def Skipped.Sound (t : Dictht K V) : Skipped → Prop
  | .exhausted idx => ∀ i < idx, t.table i = []
  | .found idx _ => idx < t.size ∧ ∀ i < idx, t.table i = []

theorem skipEmpty_spec (t : Dictht K V) (left idx : Nat) (emptyVisits : BitVec 32) (total : idx + left = t.size)
    (occupied : ∃ i < t.size, t.table i ≠ []) (passed : ∀ i < idx, t.table i = []) :
    ∃ skipped, skipEmpty t left idx emptyVisits = some skipped ∧ skipped.Sound t := by
  induction left generalizing idx emptyVisits with
  | zero =>
    obtain ⟨i, inside, chained⟩ := occupied
    exact absurd (passed i (by omega)) chained
  | succ left ih =>
    have inside : idx < t.size := by omega
    simp only [skipEmpty, Dictht.bucket_eq inside]
    cases chain : t.table idx with
    | cons => exact ⟨_, rfl, inside, passed⟩
    | nil =>
      have further : ∀ i < idx + 1, t.table i = [] := by
        intro i bound
        by_cases last : i = idx
        · rw [last, chain]
        · exact passed i (by omega)
      dsimp only
      split
      · exact ⟨_, rfl, further⟩
      · exact ih (idx + 1) _ (by omega) further

theorem TableValid.occupied {t : Dictht K V} (valid : TableValid hash t) (used : t.used ≠ 0) : ∃ i < t.size, t.table i ≠ [] := by
  have positive : 0 < t.contents.card := by rw [← valid.count]; omega
  obtain ⟨e, member⟩ := Multiset.card_pos_iff_exists_mem.mp positive
  obtain ⟨i, inside, chained⟩ := Dictht.mem_contents.mp member
  exact ⟨i, inside, fun empty => by simp [empty] at chained⟩

/-- One round of the loop: the chain at the index goes over to the second table. -/
theorem rehash_round {d : Dict K V} (valid : Valid hash d) {start : Nat} (moving : d.rehashidx = some start)
    {idx : Nat} (inside : idx < d.ht0.size) (passed : ∀ i < idx, d.ht0.table i = []) :
    ∃ ht1, moveChain hash d.ht0 d.ht1 (d.ht0.table idx) = some ({ d.ht0 with used := d.ht0.used - (d.ht0.table idx).length }, ht1) ∧
      Kept hash d { d with
        ht0 := d.ht0.relink idx [] (d.ht0.used - (d.ht0.table idx).length),
        ht1, rehashidx := some (idx + 1) } := by
  have shape := valid.moving start moving
  obtain ⟨ht1, moved, second, size, contents⟩ := moveChain_spec (d.ht0.table idx) d.ht0 d.ht1 valid.second shape.second
  have balance := d.ht0.contents_relink inside [] (d.ht0.used - (d.ht0.table idx).length)
  have length : (d.ht0.table idx).length ≤ d.ht0.used := by
    have card := congrArg Multiset.card balance
    have := valid.first.count
    simp at card
    omega
  have first : TableValid hash (d.ht0.relink idx [] (d.ht0.used - (d.ht0.table idx).length)) :=
    valid.first.shrink inside (nil_sublist _) (by simp; omega)
  have same : Dict.contents { d with
      ht0 := d.ht0.relink idx [] (d.ht0.used - (d.ht0.table idx).length),
      ht1, rehashidx := some (idx + 1) } = d.contents := by
    simp only [Dict.contents, contents]
    rw [Multiset.coe_nil, add_zero] at balance
    rw [← balance]
    ac_rfl
  refine ⟨ht1, moved, ⟨first, second, ?_, by simp, ?_⟩, same, rfl, id⟩
  · rw [same]; exact valid.distinct
  · intro next equal
    cases equal
    refine ⟨shape.first, by simpa [size] using shape.second, ?_⟩
    intro i bound
    by_cases last : i = idx
    · simp [last]
    · simpa [last] using passed i (by omega)

theorem rehashLoop_spec (n : Nat) (emptyVisits : BitVec 32) (idx : Nat) (d : Dict K V)
    (valid : Valid hash d) (moving : d.rehashidx = some idx) :
    ∃ d' exhausted, rehashLoop hash n emptyVisits idx d = some (d', exhausted) ∧ Kept hash d d' ∧ d'.isRehashing = true := by
  induction n generalizing emptyVisits idx d with
  | zero => exact ⟨d, false, rfl, .refl valid, by simp [Dict.isRehashing, moving]⟩
  | succ n ih =>
    by_cases drained : d.ht0.used = 0
    · exact ⟨d, false, by simp [rehashLoop, drained], .refl valid, by simp [Dict.isRehashing, moving]⟩
    · have shape := valid.moving idx moving
      have occupied := valid.first.occupied drained
      have bound : idx ≤ d.ht0.size := by
        obtain ⟨i, inside, chained⟩ := occupied
        by_contra beyond
        exact chained (shape.passed i (by omega))
      obtain ⟨skipped, skip, sound⟩ := skipEmpty_spec d.ht0 (d.ht0.size - idx) idx emptyVisits (by omega) occupied shape.passed
      simp only [rehashLoop, drained, if_false, skip, bind_eq_bind, bind_some]
      cases skipped with
      | exhausted stop =>
        refine ⟨_, _, rfl, ⟨⟨valid.first, valid.second, valid.distinct, by simp, ?_⟩, rfl, rfl, id⟩, rfl⟩
        intro next equal
        cases equal
        exact ⟨shape.first, shape.second, sound⟩
      | found place emptyVisits =>
        obtain ⟨inside, passed⟩ := sound
        obtain ⟨ht1, moved, kept⟩ := rehash_round valid moving inside passed
        obtain ⟨d', exhausted, rest, after, rehashing⟩ := ih emptyVisits (place + 1) _ kept.valid rfl
        refine ⟨d', exhausted, ?_, kept.trans after, rehashing⟩
        simp only [moved, bind_some]
        exact rest

theorem TableValid.contents_drained {t : Dictht K V} (valid : TableValid hash t) (drained : t.used = 0) :
    t.contents = 0 := Multiset.card_eq_zero.mp (valid.count.symm.trans drained)

theorem dictRehash_kept {d : Dict K V} (valid : Valid hash d) (n : BitVec 32) :
    ∃ d' more, dictRehash hash d n = some (d', more) ∧ Kept hash d d' := by
  cases moving : d.rehashidx with
  | none => exact ⟨d, false, by simp [dictRehash, moving], .refl valid⟩
  | some idx =>
    obtain ⟨after, exhausted, loop, kept, rehashing⟩ := rehashLoop_spec n.toNat (n * 10) idx d valid moving
    simp only [dictRehash, moving, loop, bind_eq_bind, bind_some]
    cases exhausted with
    | true => exact ⟨after, true, rfl, kept⟩
    | false =>
      by_cases drained : after.ht0.used = 0
      · refine ⟨_, _, by simp only [drained, Bool.false_eq_true, if_false, if_true]; rfl, ?_⟩
        have empty := kept.valid.first.contents_drained drained
        have same : Dict.contents { after with ht0 := after.ht1, ht1 := dictReset, rehashidx := none } = after.contents := by
          simp [Dict.contents, empty, contents_empty (t := dictReset) rfl]
        obtain ⟨next, moving⟩ := isSome_iff_exists.mp rehashing
        refine kept.trans ⟨⟨kept.valid.second, tableValid_reset, ?_, fun _ => rfl, by simp⟩, same, rfl,
          fun _ => (kept.valid.moving next moving).second⟩
        rw [same]
        exact kept.valid.distinct
      · exact ⟨after, true, by simp [drained], kept⟩

theorem dictStepIfRehashing_kept {d : Dict K V} (valid : Valid hash d) : ∃ d', dictStepIfRehashing hash d = some d' ∧ Kept hash d d' := by
  unfold dictStepIfRehashing dictRehashStep
  split
  · split
    · obtain ⟨d', more, step, kept⟩ := dictRehash_kept valid 1
      exact ⟨d', by rw [step]; rfl, kept⟩
    · exact ⟨d, rfl, .refl valid⟩
  · exact ⟨d, rfl, .refl valid⟩

theorem dictStepIfRehashing_paused {d : Dict K V} (iterating : d.iterators ≠ 0) : dictStepIfRehashing hash d = some d := by
  simp [dictStepIfRehashing, dictRehashStep, iterating]

end

end Cplusplus.Redis
