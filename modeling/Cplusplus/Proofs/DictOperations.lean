import Cplusplus.Proofs.DictRehash
import Mathlib.Tactic.Linarith

/-! Finding, adding, replacing and deleting, each by its effect on the entries.
An added key goes where the code can index it only if its bucket is below 2^31:
`_dictKeyIndex` returns the index as an int. -/

namespace Cplusplus.Redis

open List Option
open Multiset (add_cons card_cons coe_add cons_add cons_coe mem_add)

variable {K V : Type} {hash : K → BitVec 32}
variable {d : Dict K V} {e : DictEntry K V} {key : K} {second : Bool} {idx : Nat}

def Dict.HasKey (d : Dict K V) (key : K) : Prop := ∃ e ∈ d.contents, e.key = key

instance [DecidableEq K] (d : Dict K V) (key : K) : Decidable (d.HasKey key) :=
  Multiset.decidableExistsMultiset

theorem Kept.hasKey {d' : Dict K V} (kept : Kept hash d d') (key : K) : d'.HasKey key ↔ d.HasKey key := by
  simp [Dict.HasKey, kept.contents]

theorem Valid.unique (valid : Valid hash d) {f : DictEntry K V} (left : e ∈ d.contents) (right : f ∈ d.contents)
    (same : e.key = f.key) : e = f :=
  Multiset.inj_on_of_nodup_map valid.distinct e left f right same

theorem TableValid.mem_slot {t : Dictht K V} (valid : TableValid hash t) :
    e ∈ t.contents ↔ e ∈ t.table (keySlot hash t e.key) ∧ 0 < t.size := by
  constructor
  · intro member
    obtain ⟨i, inside, chained⟩ := Dictht.mem_contents.mp member
    rw [valid.placed i inside e chained]
    exact ⟨chained, by omega⟩
  · intro ⟨chained, nonempty⟩
    exact Dictht.mem_contents.mpr ⟨_, valid.slot_inside nonempty e.key, chained⟩

theorem Valid.table (d : Dict K V) (valid : Valid hash d) (second : Bool) : TableValid hash (d.ht second) := by
  cases second
  · exact valid.first
  · exact valid.second

theorem Dict.contents_ht (d : Dict K V) (second : Bool) : d.contents = (d.ht second).contents + (d.ht !second).contents := by
  cases second
  · rfl
  · exact add_comm _ _

/-- The table that takes new entries has buckets as soon as the first table has. -/
theorem Valid.target_size (valid : Valid hash d) (started : 0 < d.ht0.size) : 0 < (d.ht d.isRehashing).size := by
  cases moving : d.rehashidx with
  | none => simpa [Dict.isRehashing, moving, Dict.ht] using started
  | some idx => simpa [Dict.isRehashing, moving, Dict.ht] using (valid.moving idx moving).second

section Lookup

variable [DecidableEq K]

def Found (hash : K → BitVec 32) (d : Dict K V) (key : K) : Option (Bool × Nat) → Prop
  | none => ¬ d.HasKey key
  | some (second, idx) =>
    idx = keySlot hash (d.ht second) key ∧ 0 < (d.ht second).size ∧
      ∃ e ∈ (d.ht second).table idx, e.key = key

omit [DecidableEq K] in
private theorem absent_of_chains (valid : Valid hash d) (first : ∀ e ∈ d.ht0.table (keySlot hash d.ht0 key), e.key ≠ key)
    (second : d.isRehashing = true → ∀ e ∈ d.ht1.table (keySlot hash d.ht1 key), e.key ≠ key) : ¬ d.HasKey key := by
  rintro ⟨e, member, rfl⟩
  rcases mem_add.mp member with member | member
  · exact first e (valid.first.mem_slot.mp member).1 rfl
  · obtain ⟨chained, nonempty⟩ := valid.second.mem_slot.mp member
    refine second ?_ e chained rfl
    cases moving : d.rehashidx with
    | none => simp [valid.idle moving, dictReset] at nonempty
    | some idx => simp [Dict.isRehashing, moving]

theorem dictSearch_spec (valid : Valid hash d) (started : 0 < d.ht0.size) (key : K) :
    ∃ slot, dictSearch hash d key = some slot ∧ Found hash d key slot := by
  have inside := valid.first.slot_inside started key
  simp only [dictSearch, Dictht.bucket_eq inside, bind_eq_bind, bind_some]
  by_cases here : ∃ e ∈ d.ht0.table (keySlot hash d.ht0 key), e.key = key
  · refine ⟨some (false, keySlot hash d.ht0 key), ?_, rfl, started, here⟩
    simp [here]
  · have first : ∀ e ∈ d.ht0.table (keySlot hash d.ht0 key), e.key ≠ key := by
      simpa using here
    cases moving : d.isRehashing with
    | false =>
      exact ⟨none, by simpa using first, absent_of_chains valid first (by simp [moving])⟩
    | true =>
      obtain ⟨idx, rehashing⟩ := isSome_iff_exists.mp moving
      have inside' := valid.second.slot_inside (valid.moving idx rehashing).second key
      rw [Dictht.bucket_eq inside']
      by_cases there : ∃ e ∈ d.ht1.table (keySlot hash d.ht1 key), e.key = key
      · refine ⟨some (true, keySlot hash d.ht1 key), ?_, rfl, (valid.moving idx rehashing).second, there⟩
        simp [here, there]
      · have second : ∀ e ∈ d.ht1.table (keySlot hash d.ht1 key), e.key ≠ key := by
          simpa using there
        exact ⟨none, by simp [here, there], absent_of_chains valid first fun _ => second⟩

omit [DecidableEq K] in
theorem Found.mem (valid : Valid hash d) (found : Found hash d key (some (second, idx)))
    (chained : e ∈ (d.ht second).table idx) : e ∈ d.contents := by
  obtain ⟨rfl, nonempty, _⟩ := found
  rw [d.contents_ht second, mem_add]
  exact .inl (Dictht.mem_contents.mpr ⟨_, (valid.table d second).slot_inside nonempty key, chained⟩)

omit [DecidableEq K] in
theorem contents_null (valid : Valid hash d) (null : d.ht0.size = 0) : d.contents = 0 := by
  have stopped : d.rehashidx = none := by
    cases moving : d.rehashidx with
    | none => rfl
    | some idx => have := (valid.moving idx moving).first; omega
  simp [Dict.contents, Valid.contents_null null, valid.idle stopped, contents_empty (t := dictReset) rfl]

theorem dictFindSlot_spec (valid : Valid hash d) (key : K) : ∃ d' found, dictFindSlot hash d key = some (d', found) ∧ Kept hash d d' ∧
      match found with
      | none => ¬ d.HasKey key
      | some (second, idx, e) => e ∈ d.contents ∧ e.key = key ∧
          Found hash d' key (some (second, idx)) ∧ e ∈ (d'.ht second).table idx := by
  by_cases null : d.ht0.size = 0
  · refine ⟨d, none, by simp [dictFindSlot, null], .refl valid, ?_⟩
    simp [Dict.HasKey, contents_null valid null]
  · obtain ⟨d', step, kept⟩ := dictStepIfRehashing_kept valid
    obtain ⟨slot, search, found⟩ := dictSearch_spec kept.valid (kept.started (Nat.pos_of_ne_zero null)) key
    simp only [dictFindSlot, null, if_false, step, search, bind_eq_bind, bind_some]
    cases slot with
    | none => exact ⟨d', none, rfl, kept, fun present => found ((kept.hasKey key).mpr present)⟩
    | some place =>
      obtain ⟨second, idx⟩ := place
      have present := found.2.2
      cases first : ((d'.ht second).table idx).find? (fun he => decide (he.key = key)) with
      | none =>
        obtain ⟨e, chained, same⟩ := present
        exact absurd same (by simpa using List.find?_eq_none.mp first e chained)
      | some e =>
        have same : e.key = key := by simpa using List.find?_some first
        have chained := mem_of_find?_eq_some first
        refine ⟨d', some (second, idx, e), by simp [first], kept, ?_, same, found, chained⟩
        exact kept.contents ▸ found.mem kept.valid chained

end Lookup

section
variable (d)

section
variable (second)

@[simp] theorem Dict.setHt_iterators (t) : (d.setHt second t).iterators = d.iterators := by
  cases second <;> rfl

@[simp] theorem Dict.setHt_rehashidx (t) : (d.setHt second t).rehashidx = d.rehashidx := by
  cases second <;> rfl

theorem Dict.contents_setHt (t : Dictht K V) : (d.setHt second t).contents = t.contents + (d.ht !second).contents := by
  cases second
  · rfl
  · exact add_comm _ _

end

end

/-- A table may be exchanged for a valid one of its size whose keys are new to
the other table, if the buckets that were empty in the first table stay empty. -/
theorem Valid.setHt (valid : Valid hash d) {t : Dictht K V} (table : TableValid hash t) (size : t.size = (d.ht second).size)
    (nonempty : 0 < t.size) (distinct : ((t.contents + (d.ht !second).contents).map DictEntry.key).Nodup)
    (empties : d.isRehashing = true → second = false → ∀ i, d.ht0.table i = [] → t.table i = []) : Valid hash (d.setHt second t) := by
  cases second with
  | false =>
    refine ⟨table, valid.second, distinct, valid.idle, ?_⟩
    intro idx moving
    have shape := valid.moving idx moving
    have rehashing : d.isRehashing = true := isSome_iff_exists.mpr ⟨idx, moving⟩
    exact ⟨nonempty, shape.second, fun i bound => empties rehashing rfl i (shape.passed i bound)⟩
  | true =>
    refine ⟨valid.first, table, ?_, ?_, ?_⟩
    · rw [Dict.contents_setHt]; exact distinct
    · intro stopped
      have null : d.ht1 = dictReset := valid.idle stopped
      simp [size, Dict.ht, null, dictReset] at nonempty
    · intro idx moving
      have shape := valid.moving idx moving
      exact ⟨shape.first, nonempty, shape.passed⟩

variable {canResize : Bool}

theorem dictExpandIfNeeded_spec {d' : Dict K V} {status : Status} (valid : Valid hash d)
    (step : dictExpandIfNeeded canResize d = some (d', status)) : Kept hash d d' ∧ status = .ok ∧ 0 < d'.ht0.size := by
  have expands : ∀ size, d.isRehashing = false → d.ht0.used ≤ size → dictNextPower size ≠ d.ht0.size →
      dictExpand d size = some (d', status) → status = .ok ∧ 0 < d'.ht0.size := by
    intro size stopped fits resized expand
    simp only [dictExpand, stopped, Bool.false_or, decide_eq_true_eq, Nat.not_lt.mpr fits, resized, if_false,
      bind_eq_bind, bind_eq_some_iff] at expand
    obtain ⟨n, alloc, expand⟩ := expand
    obtain ⟨⟨j, _, width⟩, _⟩ := dictCalloc_power alloc
    split at expand
    · cases expand
      exact ⟨rfl, by simp [width]⟩
    next started =>
      cases expand
      exact ⟨rfl, Nat.pos_of_ne_zero started⟩
  unfold dictExpandIfNeeded at step
  cases moving : d.isRehashing with
  | true =>
    rw [moving, if_pos rfl] at step
    cases step
    obtain ⟨idx, rehashing⟩ := isSome_iff_exists.mp moving
    exact ⟨.refl valid, rfl, (valid.moving idx rehashing).first⟩
  | false =>
    simp only [moving, Bool.false_eq_true, if_false] at step
    by_cases null : d.ht0.size = 0
    · rw [if_pos null] at step
      have empty : d.ht0.used = 0 := by rw [valid.first.count, Valid.contents_null null]; rfl
      refine ⟨dictExpand_preserves valid step, expands _ moving (by omega) ?_ step⟩
      rw [null]
      decide
    · rw [if_neg null] at step
      split at step
      next full =>
        refine ⟨dictExpand_preserves valid step, expands _ moving (by omega) ?_ step⟩
        by_cases bound : d.ht0.used * 2 < longMax
        · obtain ⟨k, _, _, same, fits, _⟩ := dictNextPower_spec bound
          omega
        · obtain ⟨j, small, width⟩ := valid.first.shape.resolve_left null
          have := Nat.pow_le_pow_right (show 0 < 2 by decide) small
          rw [dictNextPower, if_pos (Nat.le_of_not_lt bound), width, longMax]
          omega
      next => cases step; exact ⟨.refl valid, rfl, Nat.pos_of_ne_zero null⟩

def Dict.insertEntry (hash : K → BitVec 32) (d : Dict K V) (e : DictEntry K V) : Dict K V :=
  let t := d.ht d.isRehashing
  d.setHt d.isRehashing (t.relink (keySlot hash t e.key) (e :: t.table (keySlot hash t e.key)) (t.used + 1))

theorem insertEntry_spec (valid : Valid hash d) (started : 0 < d.ht0.size) (absent : ¬ d.HasKey e.key) :
    Valid hash (d.insertEntry hash e) ∧ (d.insertEntry hash e).contents = e ::ₘ d.contents ∧
      (d.insertEntry hash e).iterators = d.iterators := by
  have nonempty := valid.target_size started
  have table := valid.table d d.isRehashing
  have inside := table.slot_inside nonempty e.key
  have contents : (d.insertEntry hash e).contents = e ::ₘ d.contents := by
    simp only [Dict.insertEntry, Dict.contents_setHt, Dictht.contents_push inside, cons_add]
    rw [← d.contents_ht]
  refine ⟨valid.setHt (table.push nonempty e) rfl nonempty ?_ ?_, contents, by simp [Dict.insertEntry]⟩
  · rw [Dictht.contents_push inside, cons_add, ← d.contents_ht, Multiset.map_cons,
      Multiset.nodup_cons]
    refine ⟨?_, valid.distinct⟩
    rw [Multiset.mem_map]
    exact absent
  · intro rehashing first
    rw [rehashing] at first
    cases first

variable [DecidableEq K]

def addIndex (hash : K → BitVec 32) (canResize : Bool) (d : Dict K V) (key : K) : Option Nat := do
  let d ← dictStepIfRehashing hash d
  let (d, _) ← dictExpandIfNeeded canResize d
  return keySlot hash (d.ht d.isRehashing) key

def Addable (hash : K → BitVec 32) (canResize : Bool) (d : Dict K V) (key : K) : Prop :=
  ∃ i, addIndex hash canResize d key = some i ∧ (d.HasKey key ∨ i < 2 ^ 31)

instance (canResize : Bool) (d : Dict K V) (key : K) : Decidable (Addable hash canResize d key) :=
  match slot : addIndex hash canResize d key with
  | none => .isFalse (by simp [Addable, slot])
  | some i => decidable_of_iff (d.HasKey key ∨ i < 2 ^ 31) (by simp [Addable, slot])

private theorem toInt_small {i : Nat} (bound : i < 2 ^ 31) : (BitVec.ofNat 32 i).toInt = (i : Int) := by
  rw [BitVec.toInt_eq_toNat_cond, BitVec.toNat_ofNat]
  have : i % 2 ^ 32 = i := Nat.mod_eq_of_lt (by omega)
  rw [this, if_pos (by omega)]

/-- `dictAddRaw` does its share of the rehash, expands, and then adds the entry
exactly if the key is new. -/
theorem dictAddRaw_spec (valid : Valid hash d) (addr : Nat) (key : K) (val : V) (addable : Addable hash canResize d key) :
    ∃ d₁ d₂, dictStepIfRehashing hash d = some d₁ ∧ dictExpandIfNeeded canResize d₁ = some (d₂, .ok) ∧ Kept hash d d₂ ∧ 0 < d₂.ht0.size ∧
      ((d.HasKey key ∧ dictAddRaw hash canResize d addr key val = some (d₂, none)) ∨ ¬ d.HasKey key ∧ dictAddRaw hash canResize d addr key val =
          some (d₂.insertEntry hash ⟨addr, key, val⟩, some ⟨addr, key, val⟩)) := by
  obtain ⟨i, index, fits⟩ := addable
  obtain ⟨d₁, step, first⟩ := dictStepIfRehashing_kept valid
  simp only [addIndex, step, bind_eq_bind, bind_some, bind_eq_some_iff] at index
  obtain ⟨⟨d₂, status⟩, expand, slot⟩ := index
  obtain ⟨second, rfl, started⟩ := dictExpandIfNeeded_spec first.valid expand
  have kept := first.trans second
  refine ⟨d₁, d₂, step, expand, kept, started, ?_⟩
  obtain ⟨found, search, report⟩ := dictSearch_spec kept.valid started key
  cases found with
  | some place =>
    have present : d.HasKey key := by
      rw [← kept.hasKey key]
      obtain ⟨e, chained, same⟩ := report.2.2
      exact ⟨e, report.mem kept.valid chained, same⟩
    refine .inl ⟨present, ?_⟩
    simp [dictAddRaw, dictKeyIndex, step, expand, search]
  | none =>
    have absent : ¬ d.HasKey key := fun present => report ((kept.hasKey key).mpr present)
    refine .inr ⟨absent, ?_⟩
    have inside := (kept.valid.table d₂ d₂.isRehashing).slot_inside (kept.valid.target_size started) key
    have small : keySlot hash (d₂.ht d₂.isRehashing) key < 2 ^ 31 := by
      cases slot
      exact fits.resolve_left absent
    have notMissing : ((keySlot hash (d₂.ht d₂.isRehashing) key : Nat) : Int) ≠ -1 := by omega
    simp only [dictAddRaw, dictKeyIndex, step, expand, search, toInt_small small, bind_eq_bind,
      Option.pure_def, bind_some, reduceCtorEq, if_false, notMissing]
    rw [Dictht.push_eq inside]
    rfl

theorem Found.split (found : Found hash d key (some (second, idx))) :
    ∃ e pre post, e.key = key ∧ (d.ht second).table idx = pre ++ e :: post ∧ (∀ f ∈ pre, f.key ≠ key) ∧
      ((d.ht second).table idx).eraseP (fun he => he.key = key) = pre ++ post := by
  obtain ⟨_, _, e, chained, same⟩ := found
  obtain ⟨f, pre, post, before, holds, cut, erased⟩ :=
    exists_of_eraseP (p := fun he : DictEntry K V => decide (he.key = key)) chained (by simpa using same)
  exact ⟨f, pre, post, by simpa using holds, cut, by simpa using before, erased⟩

theorem setVal_split (val : V) {pre : List (DictEntry K V)} (post : List (DictEntry K V)) (before : ∀ f ∈ pre, f.key ≠ key)
    (same : e.key = key) : setVal key val (pre ++ e :: post) = pre ++ { e with val } :: post := by
  induction pre with
  | nil => simp [setVal, same]
  | cons f pre ih =>
    have other := before f (by simp)
    simp only [cons_append, setVal, other, if_false]
    rw [ih fun g member => before g (by simp [member])]

def Dict.unlink (d : Dict K V) (second : Bool) (idx : Nat) (key : K) : Dict K V :=
  d.setHt second ((d.ht second).relink idx
    (((d.ht second).table idx).eraseP fun he => he.key = key) ((d.ht second).used - 1))

def Dict.assign (d : Dict K V) (second : Bool) (idx : Nat) (key : K) (val : V) : Dict K V :=
  d.setHt second ((d.ht second).relink idx (setVal key val ((d.ht second).table idx)) (d.ht second).used)

omit [DecidableEq K] in
theorem Valid.chain_empties {chain : List (DictEntry K V)} {used : Nat} (chained : (d.ht second).table idx ≠ []) :
    second = false → ∀ i, d.ht0.table i = [] → ((d.ht second).relink idx chain used).table i = [] := by
  rintro rfl i empty
  have other : i ≠ idx := fun same => chained (same ▸ empty)
  simpa [Dict.ht, other] using empty

section
variable (valid : Valid hash d)
include valid

theorem unlink_spec (found : Found hash d key (some (second, idx))) :
    Valid hash (d.unlink second idx key) ∧ ∃ e, e.key = key ∧ d.contents = e ::ₘ (d.unlink second idx key).contents := by
  obtain ⟨e, pre, post, same, cut, _, erased⟩ := found.split
  have table := valid.table d second
  have nonempty : 0 < (d.ht second).size := found.2.1
  have inside : idx < (d.ht second).size := found.1 ▸ table.slot_inside nonempty key
  have balance := (d.ht second).contents_relink inside (pre ++ post) ((d.ht second).used - 1)
  have taken : (d.ht second).contents = e ::ₘ ((d.ht second).relink idx (pre ++ post) ((d.ht second).used - 1)).contents := by
    rw [cut, ← coe_add, ← coe_add, ← cons_coe, add_cons, add_cons, ← cons_add] at balance
    exact (add_right_cancel balance).symm
  have contents : d.contents = e ::ₘ (d.unlink second idx key).contents := by
    rw [Dict.unlink, Dict.contents_setHt, erased, d.contents_ht second, taken, cons_add]
  refine ⟨valid.setHt ?_ rfl nonempty ?_ ?_, e, same, contents⟩
  · have positive : 0 < (d.ht second).used := by
      rw [table.count, taken, card_cons]
      omega
    refine table.shrink inside (eraseP_sublist ..) ?_
    rw [erased, cut]
    simp only [length_append, length_cons]
    omega
  · have distinct := valid.distinct
    rw [contents, Multiset.map_cons, Multiset.nodup_cons, Dict.unlink, Dict.contents_setHt] at distinct
    exact distinct.2
  · exact fun _ => Valid.chain_empties (by rw [cut]; simp)

theorem assign_spec (val : V) (found : Found hash d key (some (second, idx))) :
    Valid hash (d.assign second idx key val) ∧ ∃ e rest, e.key = key ∧
      d.contents = e ::ₘ rest ∧ (d.assign second idx key val).contents = { e with val } ::ₘ rest := by
  obtain ⟨e, pre, post, same, cut, before, _⟩ := found.split
  have table := valid.table d second
  have nonempty : 0 < (d.ht second).size := found.2.1
  have inside : idx < (d.ht second).size := found.1 ▸ table.slot_inside nonempty key
  have written := setVal_split val post before same
  have without := (d.ht second).contents_relink inside (pre ++ post) (d.ht second).used
  have after := (d.ht second).contents_relink inside (pre ++ { e with val } :: post) (d.ht second).used
  generalize rest : ((d.ht second).relink idx (pre ++ post) (d.ht second).used).contents = remaining at without
  have split : ∀ f : DictEntry K V, ((pre ++ f :: post : List (DictEntry K V)) : Multiset (DictEntry K V)) = f ::ₘ ↑(pre ++ post) := by
    intro f
    rw [← coe_add, ← coe_add, ← cons_coe, add_cons]
  have old : (d.ht second).contents = e ::ₘ remaining := by
    rw [cut, split, add_cons, ← cons_add] at without
    exact (add_right_cancel without).symm
  have new : ((d.ht second).relink idx (pre ++ { e with val } :: post) (d.ht second).used).contents = { e with val } ::ₘ remaining := by
    rw [cut, split, split, old] at after
    have moved : e ::ₘ remaining + ({ e with val } ::ₘ ↑(pre ++ post) : Multiset (DictEntry K V)) =
        ({ e with val } ::ₘ remaining) + (e ::ₘ ↑(pre ++ post)) := by
      simp only [cons_add, add_cons]
      rw [Multiset.cons_swap]
    rw [moved] at after
    exact add_right_cancel after
  have contents : (d.assign second idx key val).contents = { e with val } ::ₘ (remaining + (d.ht !second).contents) := by
    rw [Dict.assign, Dict.contents_setHt, cut, written, new, cons_add]
  refine ⟨valid.setHt ?_ rfl nonempty ?_ ?_, e, remaining + (d.ht !second).contents, same, ?_, contents⟩
  · refine ⟨table.shape, table.mask, ?_, ?_⟩
    · intro i bound f member
      rw [keySlot_relink]
      simp only [Dictht.relink_table] at member
      by_cases here : i = idx
      · subst i
        rw [Function.update_self, cut, written] at member
        have place : ∀ g ∈ pre ++ e :: post, keySlot hash (d.ht second) g.key = idx := by
          rw [← cut]; exact table.placed idx inside
        rcases mem_append.mp member with member | member
        · exact place f (mem_append_left _ member)
        · rcases mem_cons.mp member with rfl | member
          · exact place e (by simp)
          · exact place f (by simp [member])
      · rw [Function.update_of_ne here] at member
        exact table.placed i bound f member
    · rw [cut, written, new, card_cons, Dictht.relink_used, table.count, old, card_cons]
  · have distinct := valid.distinct
    rw [d.contents_ht second, old] at distinct
    rw [cut, written, new]
    simpa using distinct
  · exact fun _ => Valid.chain_empties (by rw [cut]; simp)
  · rw [d.contents_ht second, old, cons_add]

theorem dictGenericDelete_spec (key : K) : ∃ d₁, Kept hash d d₁ ∧ (0 < d.ht0.size → dictStepIfRehashing hash d = some d₁) ∧
      ((¬ d.HasKey key ∧ dictGenericDelete hash d key = some (d₁, .err)) ∨ ∃ second idx, Found hash d₁ key (some (second, idx)) ∧
          dictGenericDelete hash d key = some (d₁.unlink second idx key, .ok)) := by
  by_cases null : d.ht0.size = 0
  · refine ⟨d, .refl valid, by omega, .inl ⟨?_, by simp [dictGenericDelete, null]⟩⟩
    simp [Dict.HasKey, contents_null valid null]
  · obtain ⟨d₁, step, kept⟩ := dictStepIfRehashing_kept valid
    obtain ⟨slot, search, found⟩ := dictSearch_spec kept.valid (kept.started (Nat.pos_of_ne_zero null)) key
    refine ⟨d₁, kept, fun _ => step, ?_⟩
    cases slot with
    | none =>
      refine .inl ⟨fun present => found ((kept.hasKey key).mpr present), ?_⟩
      simp [dictGenericDelete, null, step, search]
    | some place =>
      refine .inr ⟨place.1, place.2, found, ?_⟩
      simp [dictGenericDelete, null, step, search, Dict.unlink]

theorem dictReplace_spec (addr : Nat) (key : K) (val : V) (addable : Addable hash canResize d key) :
    ∃ d' added, dictReplace hash canResize d addr key val = some (d', added) ∧ Valid hash d' ∧ d'.iterators = d.iterators ∧
      if added then ¬ d.HasKey key ∧ d'.contents = ⟨addr, key, val⟩ ::ₘ d.contents
      else ∃ e rest, e.key = key ∧ d.contents = e ::ₘ rest ∧ d'.contents = { e with val } ::ₘ rest := by
  obtain ⟨d₁, d₂, _, _, kept, started, ⟨present, add⟩ | ⟨absent, add⟩⟩ := dictAddRaw_spec valid addr key val addable
  · obtain ⟨d₃, found, find, later, report⟩ := dictFindSlot_spec kept.valid key
    cases found with
    | none => exact absurd ((kept.hasKey key).mpr present) report
    | some slot =>
      obtain ⟨second, idx, e⟩ := slot
      have all := kept.trans later
      obtain ⟨assigned, f, rest, same, before, after⟩ := assign_spec later.valid val report.2.2.1
      refine ⟨d₃.assign second idx key val, false, ?_, assigned, ?_, f, rest, same, ?_, after⟩
      · simp [dictReplace, dictAdd, add, find, Dict.assign]
      · rw [Dict.assign, Dict.setHt_iterators, all.iterators]
      · rw [← before, all.contents]
  · have new : ¬ d₂.HasKey key := fun present => absent ((kept.hasKey key).mp present)
    obtain ⟨inserted, contents, iterators⟩ := insertEntry_spec kept.valid started (e := ⟨addr, key, val⟩) new
    refine ⟨_, true, by simp [dictReplace, dictAdd, add], inserted, iterators.trans kept.iterators, absent, ?_⟩
    rw [contents, kept.contents]

end

end Cplusplus.Redis
