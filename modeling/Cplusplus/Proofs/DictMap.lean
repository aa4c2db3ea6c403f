import Cplusplus.Library.Run
import Cplusplus.Proofs.DictOperations

/-! How a table grows when keys are only added: it never holds more entries than the table that
takes new keys has buckets, so that many keys force a bucket index of 2^31 or more, which
`dictReplace` cannot add. -/

namespace Cplusplus.Redis

section
open Option

variable {K V : Type} {hash : K → BitVec 32}

/-- A valid table without iterators, such that a rehash in progress keeps up with the additions.
`ahead` is the number of additions for which no step was made yet. -/
structure Balanced (hash : K → BitVec 32) (ahead : Nat) (d : Dict K V) : Prop where
  valid : Valid hash d
  iterators : d.iterators = 0
  idle : d.rehashidx = none → d.dictSize ≤ d.ht0.size
  moving : ∀ idx, d.rehashidx = some idx →
    d.ht0.used ≠ 0 ∧ 2 * d.ht0.size ≤ d.ht1.size ∧ d.dictSize ≤ d.ht0.size + idx + ahead

theorem balanced_create : Balanced hash 1 (dictCreate : Dict K V) where
  valid := ⟨tableValid_reset, tableValid_reset, by
    simp [dictCreate, Dict.contents, Dictht.contents, dictReset], fun _ => rfl, by simp [dictCreate]⟩
  iterators := rfl
  idle _ := Nat.le_refl _
  moving idx rehashing := by cases rehashing

theorem Balanced.inside {ahead idx : Nat} {d : Dict K V} (balanced : Balanced hash ahead d) (moving : d.rehashidx = some idx) :
    idx < d.ht0.size := by
  obtain ⟨i, inside, chained⟩ := balanced.valid.first.occupied (balanced.moving idx moving).1
  have passed := (balanced.valid.moving idx moving).passed
  by_contra beyond
  exact chained (passed i (by omega))

theorem dictSize_contents {d : Dict K V} (valid : Valid hash d) : d.dictSize = d.contents.card := by
  rw [Dict.dictSize, valid.first.count, valid.second.count, Dict.contents, Multiset.card_add]

theorem Kept.dictSize {d d' : Dict K V} (kept : Kept hash d d') (valid : Valid hash d) : d'.dictSize = d.dictSize := by
  rw [dictSize_contents kept.valid, dictSize_contents valid, kept.contents]

theorem skipEmpty_moves (t : Dictht K V) (left idx : Nat) (emptyVisits : BitVec 32) {skipped : Skipped}
    (skip : skipEmpty t left idx emptyVisits = some skipped) :
    match skipped with
    | .exhausted stop => idx < stop
    | .found place _ => idx ≤ place := by
  induction left generalizing idx emptyVisits with
  | zero => cases skip
  | succ left ih =>
    simp only [skipEmpty] at skip
    split at skip
    next => cases skip
    next =>
      cases skip
      exact Nat.le_refl idx
    next =>
      split at skip
      next =>
        cases skip
        exact Nat.lt_succ_self idx
      next =>
        have further := ih (idx + 1) _ skip
        cases skipped with
        | exhausted stop => exact Nat.lt_of_succ_lt further
        | found place visits => exact Nat.le_of_succ_le further

theorem moveChain_size {chain : List (DictEntry K V)} {ht0 ht1 after0 after1 : Dictht K V}
    (moved : moveChain hash ht0 ht1 chain = some (after0, after1)) : after0.size = ht0.size ∧ after1.size = ht1.size := by
  induction chain generalizing ht0 ht1 with
  | nil =>
    cases moved
    exact ⟨rfl, rfl⟩
  | cons de next ih =>
    simp only [moveChain, bind_eq_bind, bind_eq_some_iff, Dictht.push, Option.pure_def] at moved
    obtain ⟨pushed, ⟨old, -, same⟩, moved⟩ := moved
    cases same
    have sizes := ih moved
    exact sizes

theorem dictRehash_moves {d d' : Dict K V} {idx : Nat} {more : Bool} (moving : d.rehashidx = some idx) (used : d.ht0.used ≠ 0)
    (rehash : dictRehash hash d 1 = some (d', more)) :
    (d'.rehashidx = none ∧ d'.ht0.size = d.ht1.size) ∨
      ∃ next, d'.rehashidx = some next ∧ idx < next ∧ d'.ht0.used ≠ 0 ∧ d'.ht0.size = d.ht0.size ∧ d'.ht1.size = d.ht1.size := by
  have once : (1 : BitVec 32).toNat = 0 + 1 := rfl
  simp only [dictRehash, moving, once, rehashLoop, used, if_false, bind_eq_bind, bind_eq_some_iff] at rehash
  obtain ⟨⟨after, exhausted⟩, ⟨skipped, skip, loop⟩, rehash⟩ := rehash
  have moves := skipEmpty_moves _ _ _ _ skip
  cases skipped with
  | exhausted stop =>
    cases loop
    cases rehash
    exact .inr ⟨stop, rfl, moves, used, rfl, rfl⟩
  | found place visits =>
    obtain ⟨⟨ht0, ht1⟩, moved, same⟩ := bind_eq_some_iff.mp loop
    obtain ⟨size0, size1⟩ := moveChain_size moved
    cases same
    simp only [Bool.false_eq_true, if_false] at rehash
    split at rehash
    next =>
      cases rehash
      exact .inl ⟨rfl, size1⟩
    next left =>
      cases rehash
      exact .inr ⟨place + 1, rfl, Nat.lt_succ_of_le moves, left, size0, size1⟩

theorem Balanced.step {d : Dict K V} (balanced : Balanced hash 1 d) :
    ∃ d₁, dictStepIfRehashing hash d = some d₁ ∧ Kept hash d d₁ ∧ Balanced hash 0 d₁ := by
  obtain ⟨d₁, step, kept⟩ := dictStepIfRehashing_kept balanced.valid
  refine ⟨d₁, step, kept, ?_⟩
  have size := kept.dictSize balanced.valid
  unfold dictStepIfRehashing at step
  cases moving : d.rehashidx with
  | none =>
    rw [Dict.isRehashing, moving] at step
    cases step
    exact ⟨balanced.valid, balanced.iterators, balanced.idle, fun idx rehashing => by rw [moving] at rehashing; cases rehashing⟩
  | some idx =>
    obtain ⟨used, large, bound⟩ := balanced.moving idx moving
    have inside := balanced.inside moving
    have rehashing : d.isRehashing = true := by simp [Dict.isRehashing, moving]
    rw [if_pos rehashing, dictRehashStep, if_pos balanced.iterators] at step
    obtain ⟨more, rehash⟩ : ∃ more, dictRehash hash d 1 = some (d₁, more) := by
      obtain ⟨⟨after, more⟩, rehash, rfl⟩ := map_eq_some_iff.mp step
      exact ⟨more, rehash⟩
    refine ⟨kept.valid, kept.iterators.trans balanced.iterators, ?_, ?_⟩
    · intro stopped
      obtain ⟨-, size0⟩ | ⟨next, here, -⟩ := dictRehash_moves moving used rehash
      · omega
      · rw [stopped] at here
        cases here
    · intro next here
      obtain ⟨stopped, -⟩ | ⟨other, there, further, left, size0, size1⟩ := dictRehash_moves moving used rehash
      · rw [stopped] at here
        cases here
      · rw [here] at there
        cases there
        exact ⟨left, by omega, by omega⟩

theorem Balanced.expand {d d' : Dict K V} {status : Status} (balanced : Balanced hash 0 d)
    (step : dictExpandIfNeeded true d = some (d', status)) : Balanced hash 0 d' ∧ (d'.rehashidx = none → d'.dictSize < d'.ht0.size) := by
  obtain ⟨kept, -, -⟩ := dictExpandIfNeeded_spec balanced.valid step
  have size := kept.dictSize balanced.valid
  have iterators := kept.iterators.trans balanced.iterators
  unfold dictExpandIfNeeded at step
  split at step
  next rehashing =>
    cases step
    refine ⟨balanced, fun stopped => ?_⟩
    rw [Dict.isRehashing, stopped] at rehashing
    cases rehashing
  next rest =>
    have stopped : d.rehashidx = none := by simpa [Dict.isRehashing] using rest
    have reset : d.ht1.used = 0 := by rw [balanced.valid.idle stopped]; rfl
    have bound := balanced.idle stopped
    rw [Dict.dictSize, reset] at bound
    split at step
    next null =>
      obtain ⟨-, rehashing | smaller | same⟩ | ⟨t, alloc, -, ⟨-, rfl⟩ | ⟨started, -⟩⟩ := dictExpand_cases step
      · exact absurd rehashing rest
      · omega
      · rw [null] at same
        exact absurd same (by decide)
      · obtain ⟨-, width, -⟩ := dictCalloc_power alloc
        have four : t.size = 4 := width.trans (by decide)
        refine ⟨⟨kept.valid, iterators, fun _ => ?_, fun idx moving => ?_⟩, fun _ => ?_⟩
        · rw [size, Dict.dictSize, reset]
          omega
        · exact absurd (stopped.symm.trans moving) (by simp)
        · rw [size, Dict.dictSize, reset]
          simp only
          omega
      · exact absurd null started
    next started =>
      obtain ⟨j, small, width⟩ := balanced.valid.first.shape.resolve_left started
      have limit := Nat.pow_le_pow_right (show 0 < 2 by decide) small
      split at step
      next full =>
        obtain ⟨k, -, -, same, fits, -⟩ := @dictNextPower_spec (d.ht0.used * 2) (by unfold longMax; omega)
        obtain ⟨-, rehashing | smaller | equal⟩ | ⟨t, alloc, -, ⟨null, -⟩ | ⟨-, rfl⟩⟩ := dictExpand_cases step
        · exact absurd rehashing rest
        · omega
        · omega
        · exact absurd null started
        · obtain ⟨-, large, -⟩ := dictCalloc_power alloc
          refine ⟨⟨kept.valid, iterators, (fun idle => by cases idle), fun idx moving => ?_⟩, (fun idle => by cases idle)⟩
          cases moving
          refine ⟨?_, ?_, ?_⟩
          · simp only
            omega
          · simp only
            omega
          · rw [size, Dict.dictSize, reset]
            simp only
            omega
      next room =>
        cases step
        refine ⟨balanced, fun _ => ?_⟩
        rw [Dict.dictSize, reset]
        simp only [true_or, and_true, Nat.not_le] at room
        omega

theorem Balanced.target {d : Dict K V} (balanced : Balanced hash 0 d) (room : d.rehashidx = none → d.dictSize < d.ht0.size) :
    d.dictSize < (d.ht d.isRehashing).size := by
  cases moving : d.rehashidx with
  | none => simpa [Dict.isRehashing, moving, Dict.ht] using room moving
  | some idx =>
    obtain ⟨-, large, bound⟩ := balanced.moving idx moving
    have inside := balanced.inside moving
    simp only [Dict.isRehashing, moving, isSome_some, Dict.ht, if_true]
    omega

theorem Balanced.insert {d : Dict K V} (balanced : Balanced hash 0 d) (room : d.rehashidx = none → d.dictSize < d.ht0.size)
    (started : 0 < d.ht0.size) {e : DictEntry K V} (absent : ¬ d.HasKey e.key) :
    Balanced hash 1 (d.insertEntry hash e) ∧ (d.insertEntry hash e).dictSize = d.dictSize + 1 := by
  obtain ⟨valid, contents, iterators⟩ := insertEntry_spec balanced.valid started absent
  have size : (d.insertEntry hash e).dictSize = d.dictSize + 1 := by
    rw [dictSize_contents valid, dictSize_contents balanced.valid, contents, Multiset.card_cons]
  refine ⟨⟨valid, iterators.trans balanced.iterators, fun idle => ?_, fun idx moving => ?_⟩, size⟩
  · have stopped : d.rehashidx = none := by simpa [Dict.insertEntry] using idle
    have same : (d.insertEntry hash e).ht0.size = d.ht0.size := by
      simp [Dict.insertEntry, Dict.isRehashing, stopped, Dict.setHt, Dict.ht]
    have := room stopped
    omega
  · have rehashing : d.rehashidx = some idx := by simpa [Dict.insertEntry] using moving
    obtain ⟨used, large, bound⟩ := balanced.moving idx rehashing
    have first : (d.insertEntry hash e).ht0 = d.ht0 := by
      simp [Dict.insertEntry, Dict.isRehashing, rehashing, Dict.setHt]
    have second : (d.insertEntry hash e).ht1.size = d.ht1.size := by
      simp [Dict.insertEntry, Dict.isRehashing, rehashing, Dict.setHt, Dict.ht]
    rw [first, second, size]
    exact ⟨used, large, by omega⟩

theorem toInt_large {i : Nat} (large : 2 ^ 31 ≤ i) (bound : i < 2 ^ 32) : (BitVec.ofNat 32 i).toInt < 0 := by
  rw [BitVec.toInt_eq_toNat_cond, BitVec.toNat_ofNat, Nat.mod_eq_of_lt bound]
  split <;> omega

theorem dictExpandIfNeeded_defined {d : Dict K V} (valid : Valid hash d) (few : d.dictSize ≤ 2 ^ 59) :
    ∃ d', dictExpandIfNeeded true d = some (d', .ok) := by
  have used : d.ht0.used ≤ d.dictSize := Nat.le_add_right _ _
  obtain ⟨⟨d', status⟩, expand⟩ : ∃ result, dictExpandIfNeeded true d = some result := by
    unfold dictExpandIfNeeded
    split
    · exact ⟨_, rfl⟩
    split
    · exact dictExpand_defined d (by decide)
    split
    · exact dictExpand_defined d (by omega)
    · exact ⟨_, rfl⟩
  obtain ⟨-, rfl, -⟩ := dictExpandIfNeeded_spec valid expand
  exact ⟨d', expand⟩

variable [DecidableEq K]

/-- What `dictReplace` does with a new key: it is added if its bucket is below 2^31, and else the
program faults. -/
theorem dictReplace_new {d : Dict K V} (balanced : Balanced hash 1 d) (few : d.dictSize ≤ 2 ^ 59) (addr : Nat) {key : K} (val : V)
    (absent : ¬ d.HasKey key) :
    ∃ slot target, d.dictSize < target ∧ PowerSize target ∧ slot = (hash key).toNat &&& (target - 1) ∧ if slot < 2 ^ 31 then
        ∃ d', dictReplace hash true d addr key val = some (d', true) ∧ Balanced hash 1 d' ∧ d'.dictSize = d.dictSize + 1 ∧
          d'.contents = ⟨addr, key, val⟩ ::ₘ d.contents
      else dictReplace hash true d addr key val = none := by
  obtain ⟨d₁, step, first, ahead⟩ := balanced.step
  obtain ⟨d₂, expand⟩ := dictExpandIfNeeded_defined ahead.valid (by rw [first.dictSize balanced.valid]; exact few)
  obtain ⟨second, -, started⟩ := dictExpandIfNeeded_spec ahead.valid expand
  obtain ⟨ready, room⟩ := ahead.expand expand
  have kept := first.trans second
  have size := kept.dictSize balanced.valid
  have new : ¬ d₂.HasKey key := mt (kept.hasKey key).mp absent
  have positive := ready.valid.target_size started
  have table := ready.valid.table d₂ d₂.isRehashing
  refine ⟨keySlot hash (d₂.ht d₂.isRehashing) key, (d₂.ht d₂.isRehashing).size, size ▸ ready.target room,
    table.shape.resolve_left (Nat.pos_iff_ne_zero.mp positive), by rw [keySlot, table.mask], ?_⟩
  split
  next small =>
    have addable : Addable hash true d key := ⟨_, by simp [addIndex, step, expand], .inr small⟩
    obtain ⟨_, _, step', expand', -, -, ⟨present, -⟩ | ⟨-, add⟩⟩ := dictAddRaw_spec balanced.valid addr key val addable
    · exact absurd present absent
    · rw [step] at step'
      cases step'
      rw [expand] at expand'
      cases expand'
      obtain ⟨inserted, grown⟩ := ready.insert room started (e := ⟨addr, key, val⟩) new
      obtain ⟨-, contents, -⟩ := insertEntry_spec ready.valid started (e := ⟨addr, key, val⟩) new
      exact ⟨_, by simp [dictReplace, dictAdd, add], inserted, by rw [grown, size], by rw [contents, kept.contents]⟩
  next large =>
    obtain ⟨found, search, report⟩ := dictSearch_spec ready.valid started key
    obtain ⟨later, slot, find, -, missing⟩ := dictFindSlot_spec ready.valid key
    cases found with
    | some place =>
      obtain ⟨e, chained, same⟩ := report.2.2
      exact absurd ⟨e, report.mem ready.valid chained, same⟩ new
    | none =>
      have bound : keySlot hash (d₂.ht d₂.isRehashing) key < 2 ^ 32 := Nat.lt_of_le_of_lt Nat.and_le_left (hash key).isLt
      have negative := toInt_large (Nat.le_of_not_lt large) bound
      simp only [dictReplace, dictAdd, dictAddRaw, dictKeyIndex, step, expand, search, bind_eq_bind, bind_some,
        Option.pure_def, reduceCtorEq, if_false]
      generalize (BitVec.ofNat 32 (keySlot hash (d₂.ht d₂.isRehashing) key)).toInt = index at negative
      cases slot with
      | some place => exact absurd ⟨place.2.2, missing.1, missing.2.1⟩ new
      | none =>
        by_cases refused : index = -1
        · simp [refused, find]
        · cases index with
          | ofNat i => exact absurd negative (by simp)
          | negSucc i => simp [refused]

end

/-! The hash table is a finite map: any run of operations answers as a map from
keys to values does, as long as every new key falls into a bucket below 2^31 and
no table of more than 2^60 buckets is asked for. -/

section
open Option Function

variable {K V : Type}
variable {d d' : Dict K V} {m : K → Option V}

inductive DictOp (K V : Type) where
  | add (canResize : Bool) (addr : Nat) (key : K) (val : V)
  | replace (canResize : Bool) (addr : Nat) (key : K) (val : V)
  | delete (key : K)
  | find (key : K)
  | expand (size : Nat)
  | resize (canResize : Bool)
  | rehash (n : BitVec 32)

inductive DictReply (V : Type) where
  | status (status : Status)
  | replaced (added : Bool)
  | value (found : Option V)
  | resized
deriving DecidableEq

section Executable

variable [DecidableEq K] (hash : K → BitVec 32)

def dictStep (d : Dict K V) : DictOp K V → Option (Dict K V × DictReply V)
  | .add canResize addr key val => (dictAdd hash canResize d addr key val).map fun r => (r.1, .status r.2)
  | .replace canResize addr key val =>
    (dictReplace hash canResize d addr key val).map fun r => (r.1, .replaced r.2)
  | .delete key => (dictGenericDelete hash d key).map fun r => (r.1, .status r.2)
  | .find key => (dictFind hash d key).map fun r => (r.1, .value (r.2.map DictEntry.val))
  | .expand size => (dictExpand d size).map fun r => (r.1, .resized)
  | .resize canResize => (dictResize canResize d).map fun r => (r.1, .resized)
  | .rehash n => (dictRehash hash d n).map fun r => (r.1, .resized)

def DictOp.Supported (d : Dict K V) : DictOp K V → Prop
  | .add canResize _ key _ => Addable hash canResize d key
  | .replace canResize _ key _ => Addable hash canResize d key
  | .expand size => d.isRehashing = true ∨ size < d.ht0.used ∨ size ≤ 2 ^ 60
  | _ => True

instance (d : Dict K V) (op : DictOp K V) : Decidable (op.Supported hash d) :=
  match op with
  | .add canResize _ key _ | .replace canResize _ key _ => inferInstanceAs (Decidable (Addable hash canResize d key))
  | .expand size => inferInstanceAs (Decidable (d.isRehashing = true ∨ size < d.ht0.used ∨ size ≤ 2 ^ 60))
  | .delete _ | .find _ | .resize _ | .rehash _ => .isTrue trivial

end Executable

section Abstract

variable [DecidableEq K]

def mapStep (m : K → Option V) : DictOp K V → (K → Option V) × DictReply V
  | .add _ _ key val =>
    if (m key).isSome then (m, .status .err) else (update m key (some val), .status .ok)
  | .replace _ _ key val => (update m key (some val), .replaced (m key).isNone)
  | .delete key =>
    if (m key).isSome then (update m key none, .status .ok) else (m, .status .err)
  | .find key => (m, .value (m key))
  | .expand _ => (m, .resized)
  | .resize _ => (m, .resized)
  | .rehash _ => (m, .resized)

end Abstract

def Represents (d : Dict K V) (m : K → Option V) : Prop :=
  ∀ key val, m key = some val ↔ ∃ e ∈ d.contents, e.key = key ∧ e.val = val

theorem Represents.isSome (rep : Represents d m) (key : K) : (m key).isSome = true ↔ d.HasKey key := by
  rw [isSome_iff_exists]
  constructor
  · rintro ⟨val, same⟩
    obtain ⟨e, member, key, _⟩ := (rep key val).mp same
    exact ⟨e, member, key⟩
  · rintro ⟨e, member, key⟩
    exact ⟨e.val, (rep _ _).mpr ⟨e, member, key, rfl⟩⟩

theorem Represents.isNone (rep : Represents d m) {key : K} (absent : ¬ d.HasKey key) : m key = none := by
  rw [← not_isSome_iff_eq_none, rep.isSome]
  exact absent

theorem Represents.congr (rep : Represents d m) (same : d'.contents = d.contents) : Represents d' m := by
  intro key val
  rw [rep key val, same]

theorem Valid.represented {hash : K → BitVec 32} (valid : Valid hash d) : ∃ m, Represents d m := by
  classical
  refine ⟨fun key => if present : d.HasKey key then some present.choose.val else none, fun key val => ?_⟩
  by_cases present : d.HasKey key
  · have chosen := present.choose_spec
    simp only [present, dif_pos, some.injEq]
    constructor
    · rintro rfl
      exact ⟨_, chosen.1, chosen.2, rfl⟩
    · rintro ⟨e, member, same, rfl⟩
      rw [valid.unique member chosen.1 (same.trans chosen.2.symm)]
  · simp only [present, dif_neg, not_false_eq_true]
    exact ⟨(fun impossible => by cases impossible), fun ⟨e, member, same, _⟩ => absurd ⟨e, member, same⟩ present⟩

section Update

variable [DecidableEq K]

theorem Represents.insert (rep : Represents d m) {e : DictEntry K V} (absent : ¬ d.HasKey e.key) (after : d'.contents = e ::ₘ d.contents) :
    Represents d' (update m e.key (some e.val)) := by
  intro key val
  rw [after]
  by_cases same : key = e.key
  · subst same
    rw [update_self]
    constructor
    · intro equal
      cases equal
      exact ⟨e, Multiset.mem_cons_self e _, rfl, rfl⟩
    · rintro ⟨f, member, key, rfl⟩
      rcases Multiset.mem_cons.mp member with rfl | member
      · rfl
      · exact absurd ⟨f, member, key⟩ absent
  · rw [update_of_ne same, rep key val]
    constructor
    · rintro ⟨f, member, holds⟩
      exact ⟨f, Multiset.mem_cons_of_mem member, holds⟩
    · rintro ⟨f, member, holds⟩
      rcases Multiset.mem_cons.mp member with rfl | member
      · exact absurd holds.1.symm same
      · exact ⟨f, member, holds⟩

theorem Represents.erase {hash : K → BitVec 32} (rep : Represents d m) (valid : Valid hash d) {e : DictEntry K V}
    (before : d.contents = e ::ₘ d'.contents) : Represents d' (update m e.key none) := by
  have distinct := valid.distinct
  rw [before, Multiset.map_cons, Multiset.nodup_cons] at distinct
  intro key val
  by_cases same : key = e.key
  · subst same
    rw [update_self]
    refine ⟨(fun impossible => by cases impossible), ?_⟩
    rintro ⟨f, member, key, _⟩
    exact absurd (Multiset.mem_map.mpr ⟨f, member, key⟩) distinct.1
  · rw [update_of_ne same, rep key val, before]
    constructor
    · rintro ⟨f, member, holds⟩
      rcases Multiset.mem_cons.mp member with rfl | member
      · exact absurd holds.1.symm same
      · exact ⟨f, member, holds⟩
    · rintro ⟨f, member, holds⟩
      exact ⟨f, Multiset.mem_cons_of_mem member, holds⟩

end Update

variable {hash : K → BitVec 32}

def MapRep (hash : K → BitVec 32) (d : Dict K V) (m : K → Option V) : Prop :=
  Valid hash d ∧ Represents d m

theorem mapRep_create : MapRep hash (dictCreate : Dict K V) fun _ => none := by
  refine ⟨⟨tableValid_reset, tableValid_reset, ?_, fun _ => rfl, by simp [dictCreate]⟩, ?_⟩
  · simp [dictCreate, Dict.contents, contents_empty (t := dictReset) rfl]
  · simp [Represents, dictCreate, Dict.contents, contents_empty (t := dictReset) rfl]

theorem MapRep.kept (rep : MapRep hash d m) (kept : Kept hash d d') : MapRep hash d' m := ⟨kept.valid, rep.2.congr kept.contents⟩

variable [DecidableEq K]

theorem dictFind_value (rep : MapRep hash d m) (key : K) : ∃ d' found, dictFind hash d key = some (d', found) ∧ Kept hash d d' ∧
      found.map DictEntry.val = m key := by
  obtain ⟨d', found, find, kept, report⟩ := dictFindSlot_spec rep.1 key
  refine ⟨d', found.map fun slot => slot.2.2, by simp [dictFind, find], kept, ?_⟩
  cases found with
  | none => exact (rep.2.isNone report).symm
  | some slot => exact ((rep.2 key _).mpr ⟨slot.2.2, report.1, report.2.1, rfl⟩).symm

theorem dictStep_simulates (d : Dict K V) (m : K → Option V) (op : DictOp K V) (rep : MapRep hash d m) (supported : op.Supported hash d) :
    ∃ d', dictStep hash d op = some (d', (mapStep m op).2) ∧ MapRep hash d' (mapStep m op).1 := by
  obtain ⟨valid, graph⟩ := rep
  cases op with
  | add canResize addr key val =>
    obtain ⟨_, d₂, _, _, kept, started, ⟨present, add⟩ | ⟨absent, add⟩⟩ := dictAddRaw_spec valid addr key val supported
    · refine ⟨d₂, ?_, ?_⟩ <;> simp only [mapStep, (graph.isSome key).mpr present, if_true]
      · simp [dictStep, dictAdd, add]
      · exact ⟨kept.valid, graph.congr kept.contents⟩
    · have new : ¬ d₂.HasKey key := fun present => absent ((kept.hasKey key).mp present)
      obtain ⟨inserted, contents, _⟩ := insertEntry_spec kept.valid started (e := ⟨addr, key, val⟩) new
      refine ⟨d₂.insertEntry hash ⟨addr, key, val⟩, ?_, ?_⟩ <;>
        simp only [mapStep, graph.isNone absent, isSome_none, Bool.false_eq_true, if_false]
      · simp [dictStep, dictAdd, add]
      · exact ⟨inserted, (graph.congr kept.contents).insert new contents⟩
  | replace canResize addr key val =>
    obtain ⟨d', added, replace, after, _, effect⟩ := dictReplace_spec valid addr key val supported
    refine ⟨d', ?_, after, ?_⟩ <;> cases added
    · obtain ⟨e, rest, same, before, _⟩ := effect
      have present : (m key).isSome = true := (graph.isSome key).mpr ⟨e, before ▸ Multiset.mem_cons_self e rest, same⟩
      obtain ⟨old, stored⟩ := isSome_iff_exists.mp present
      simp [dictStep, replace, mapStep, stored]
    · simp [dictStep, replace, mapStep, graph.isNone effect.1]
    · -- an update in place is an erasure followed by an insertion
      obtain ⟨e, rest, rfl, before, contents⟩ := effect
      have distinct := valid.distinct
      rw [before, Multiset.map_cons, Multiset.nodup_cons] at distinct
      intro key val'
      simp only [mapStep]
      by_cases same : key = e.key
      · subst same
        rw [update_self, contents]
        constructor
        · intro equal
          cases equal
          exact ⟨_, Multiset.mem_cons_self _ _, rfl, rfl⟩
        · rintro ⟨f, member, key, rfl⟩
          rcases Multiset.mem_cons.mp member with rfl | member
          · rfl
          · exact absurd (Multiset.mem_map.mpr ⟨f, member, key⟩) distinct.1
      · rw [update_of_ne same, graph key val', before, contents]
        simp only [Multiset.mem_cons, exists_eq_or_imp]
        simp [Ne.symm same]
    · exact graph.insert (e := ⟨addr, key, val⟩) effect.1 effect.2
  | delete key =>
    obtain ⟨d₁, kept, _, ⟨absent, delete⟩ | ⟨second, idx, found, delete⟩⟩ := dictGenericDelete_spec valid key
    · refine ⟨d₁, ?_, ?_⟩ <;>
        simp only [mapStep, graph.isNone absent, isSome_none, Bool.false_eq_true, if_false]
      · simp [dictStep, delete]
      · exact ⟨kept.valid, graph.congr kept.contents⟩
    · obtain ⟨after, e, rfl, contents⟩ := unlink_spec kept.valid found
      have present : (m e.key).isSome = true := by
        rw [graph.isSome, ← kept.hasKey]
        exact ⟨e, contents ▸ Multiset.mem_cons_self e _, rfl⟩
      refine ⟨d₁.unlink second idx e.key, ?_, ?_⟩ <;> simp only [mapStep, present, if_true]
      · simp [dictStep, delete]
      · exact ⟨after, (graph.congr kept.contents).erase kept.valid contents⟩
  | find key =>
    obtain ⟨d', found, find, kept, value⟩ := dictFind_value ⟨valid, graph⟩ key
    exact ⟨d', by simp [dictStep, find, value, mapStep], kept.valid, graph.congr kept.contents⟩
  | expand size =>
    obtain ⟨⟨d', status⟩, expand⟩ : ∃ result, dictExpand d size = some result := by
      rcases supported with rehashing | larger | small
      · exact ⟨_, by simp [dictExpand, rehashing]; rfl⟩
      · exact ⟨_, by simp [dictExpand, larger]; rfl⟩
      · exact dictExpand_defined d small
    have kept := dictExpand_preserves valid expand
    exact ⟨d', by simp [dictStep, expand, mapStep], kept.valid, graph.congr kept.contents⟩
  | resize canResize =>
    obtain ⟨⟨d', status⟩, resize⟩ := dictResize_defined canResize d
    have kept := dictResize_preserves valid resize
    exact ⟨d', by simp [dictStep, resize, mapStep], kept.valid, graph.congr kept.contents⟩
  | rehash n =>
    obtain ⟨d', more, rehash, kept⟩ := dictRehash_kept valid n
    exact ⟨d', by simp [dictStep, rehash, mapStep], kept.valid, graph.congr kept.contents⟩

/-- The table is the map `m`: `dictFind` answers as `m`, no key occurs twice, the
counters count the entries, which are as many as the keys, and the entries sit
where the code looks for them. -/
structure FiniteMap (hash : K → BitVec 32) (d : Dict K V) (m : K → Option V) : Prop where
  find : ∀ key, ∃ d' found, dictFind hash d key = some (d', found) ∧ found.map DictEntry.val = m key
  distinct : (d.contents.map DictEntry.key).Nodup
  size : ∀ keys : Finset K, (∀ key, key ∈ keys ↔ (m key).isSome = true) →
    d.ht0.used + d.ht1.used = keys.card
  used : ∀ second, (d.ht second).used = (d.ht second).contents.card
  passed : ∀ idx, d.rehashidx = some idx → ∀ i < idx, d.ht0.table i = []
  placed : ∀ second, ∀ i < (d.ht second).size, ∀ e ∈ (d.ht second).table i,
    (hash e.key).toNat &&& (d.ht second).sizemask = i

theorem MapRep.finiteMap (rep : MapRep hash d m) : FiniteMap hash d m where
  find key := by
    obtain ⟨d', found, find, _, value⟩ := dictFind_value rep key
    exact ⟨d', found, find, value⟩
  distinct := rep.1.distinct
  size keys listed := by
    have same : keys = (d.contents.map DictEntry.key).toFinset := by
      ext key
      rw [listed, rep.2.isSome, Multiset.mem_toFinset, Multiset.mem_map]
      rfl
    rw [same, Multiset.toFinset_card_of_nodup rep.1.distinct, Multiset.card_map, Dict.contents,
      Multiset.card_add, rep.1.first.count, rep.1.second.count]
  used second := (rep.1.table d second).count
  passed idx moving := (rep.1.moving idx moving).passed
  placed second := (rep.1.table d second).placed

def BehavesAsMap (hash : K → BitVec 32) (ops : List (DictOp K V)) : Prop :=
  ∃ d, Run.exec (dictStep hash) dictCreate ops = some (d, (Run.specExec mapStep (fun _ => none) ops).2) ∧
    FiniteMap hash d (Run.specExec mapStep (fun _ => none) ops).1

theorem dict_behaves_as_map (hash : K → BitVec 32) (ops : List (DictOp K V))
    (supported : Run.Allowed (dictStep hash) (fun d op => op.Supported hash d) dictCreate ops) :
    BehavesAsMap hash ops := by
  obtain ⟨d, run, rep⟩ := Run.exec_refines dictStep_simulates ops mapRep_create supported
  exact ⟨d, run, rep.finiteMap⟩

/-- Two keys that collide in a table of four buckets, and a rehash to eight. -/
theorem dict_behaves_as_map_collision :
    BehavesAsMap (fun key : Nat => BitVec.ofNat 32 key)
      [.expand 4, .add true 0 1 'a', .replace true 1 5 'b', .expand 8, .rehash 1, .delete 1] :=
  dict_behaves_as_map _ _ (by decide +kernel)

/-- A key whose bucket is 2^32 - 1 is taken for one that exists: `dictAdd` refuses
it, and `dictReplace` then writes through the NULL that `dictFind` returns. -/
theorem dictReplace_index_wraps :
    ¬ BehavesAsMap (fun key : BitVec 32 => key) [.expand (2 ^ 32), .replace true 0 (-1) 'a'] := by
  rintro ⟨d, run, _⟩
  have fault : (Run.exec (dictStep fun key : BitVec 32 => key) dictCreate
      [.expand (2 ^ 32), .replace true 0 (-1) 'a']).isNone = true := by decide
  rw [run] at fault
  cases fault

end

end Cplusplus.Redis
