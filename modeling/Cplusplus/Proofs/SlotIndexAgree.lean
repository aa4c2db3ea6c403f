import Cplusplus.Proofs.SlotIndexRuns

/-! What the indexes say of the keys in every state, and what the functions for a slot answer. -/

namespace Cplusplus.Redis.SlotIndex
open Zsl List

variable {V : Type} {settings : Settings} {s : Server V}

def Op.Proper (settings : Settings) (s : Server V) : Op V → Prop
  | .dbAdd c alloc key _ => key ∉ (s.dbs (s.selected c)).dict ∧ Free settings s alloc
  | .dbOverwrite c key _ | .setExpire c key _ | .removeExpire c key => key ∈ (s.dbs (s.selected c)).dict
  | .rename _ alloc .. | .move _ alloc .. => Free settings s alloc
  | _ => True

theorem Agree.step (agree : Agree settings s) (databases : 0 < settings.dbnum) (op : Op V) :
    Outcome settings (op.Proper settings s) (step settings s op) := by
  have first : ∀ c, settings.clusterEnabled = true → s.selected c = 0 := fun c cluster => agree.selected cluster c
  cases op with
  | select c text => exact (agree.select c text).outcome _
  | dbAdd c alloc key val => exact agree.dbAdd_outcome alloc (first c) key val
  | dbOverwrite c key val => exact agree.dbOverwrite (s.selected c) key val
  | dbDelete c key =>
    obtain ⟨after, deleted, follows, -⟩ := agree.dbDelete (s.selected c) key
    rw [SlotIndex.step, deleted]
    exact follows.agree.outcome _
  | setExpire c key when => exact agree.setExpire (s.selected c) key when
  | removeExpire c key => exact agree.removeExpire (s.selected c) key
  | expireIfNeeded now c key =>
    obtain ⟨after, expired, follows⟩ := agree.expireIfNeeded now (s.selected c) key
    rw [SlotIndex.step, expired]
    exact follows.agree.outcome _
  | activeExpire now dbid key =>
    obtain ⟨after, expired, agree'⟩ := agree.activeExpire now dbid key
    rw [SlotIndex.step, expired]
    exact agree'.outcome _
  | rename clock alloc nx c src dst => exact agree.rename clock alloc nx src dst (first c)
  | move clock alloc c key text => exact agree.move clock alloc key text (s.selected c)
  | flushdb header c => exact (agree.flushdb header (first c)).outcome _
  | flushall header => exact (agree.emptyDb header databases).outcome _
  | delKeysInSlot slot =>
    rw [SlotIndex.step]
    split
    next cluster =>
      obtain ⟨entries, mirrors⟩ := agree.mirrors cluster
      obtain ⟨after, deleted, agree', -⟩ := agree.delKeysInSlot cluster slot mirrors
      rw [deleted, Option.map_some]
      exact agree'.outcome _
    next => exact agree.outcome _

theorem Agree.run (agree : Agree settings s) (databases : 0 < settings.dbnum) {ops : List (Op V)} {after : Server V}
    (ran : run settings s ops = some after) : Agree settings after := by
  induction ops generalizing s with
  | nil => exact Option.some.inj ran ▸ agree
  | cons op ops ih =>
    rw [SlotIndex.run, foldlM_cons] at ran
    obtain ⟨middle, taken, rest⟩ := Option.bind_eq_some_iff.mp ran
    exact ih ((agree.step databases op).agree middle taken) rest

def slotKeys (s : Server V) (slot : UInt32) : Finset Key :=
  (s.dbs 0).dict.keys.filter fun key => keyHashSlot key = slot

structure Answers (settings : Settings) (s : Server V) (slot : UInt32) : Prop where
  count : countKeysInSlot s slot = some ((slotKeys s slot).card % 2 ^ 32)
  keys : ∀ count, ∃ keys, getKeysInSlot s slot count = some keys ∧ keys.Nodup ∧
    keys.length = min count.toNat (slotKeys s slot).card ∧ ∀ key ∈ keys, key ∈ slotKeys s slot
  deleted : ∃ after, delKeysInSlot settings s slot = some (after, (slotKeys s slot).card % 2 ^ 32) ∧
    ∀ key, (after.dbs 0).lookupKey key = if keyHashSlot key = slot then none else (s.dbs 0).lookupKey key

structure Indexed (settings : Settings) (s : Server V) : Prop where
  once : (elements s.slotsToKeys).Nodup
  keys : ∀ key, key ∈ elements s.slotsToKeys ↔ key ∈ (s.dbs 0).dict
  scores : ∀ x node key, s.slotsToKeys.heap x = some node → node.obj = some key → node.score = slotScore (keyHashSlot key)
  answers : ∀ slot, Answers settings s slot

theorem Mirrors.scores {zsl : Zskiplist} {dict : Finmap fun _ : Key => V} {entries : List Entry} (mirrors : Mirrors zsl dict entries)
    {x : Nat} {node : ZskiplistNode} {key : Key} (found : zsl.heap x = some node) (element : node.obj = some key) :
    node.score = slotScore (keyHashSlot key) := by
  by_cases member : x ∈ zsl.header :: entries.map Entry.addr
  · rcases mem_cons.mp member with rfl | member
    · obtain ⟨score, backward, header⟩ := mirrors.rep.linked.header
      obtain ⟨node', found', none_, -⟩ := fixed_some header
      obtain rfl := Option.some.inj (found.symm.trans found')
      rw [element] at none_
      cases none_
    · obtain ⟨e, inside, rfl⟩ := List.mem_map.mp member
      obtain ⟨node', found', element', number⟩ := mirrors.rep.linked.node inside
      obtain rfl := Option.some.inj (found.symm.trans found')
      obtain rfl := Option.some.inj (element.symm.trans element')
      rw [number, mirrors.scored e inside]
  · rw [mirrors.rep.linked.live x member] at found
    cases found

theorem Agree.indexed (agree : Agree settings s) (cluster : settings.clusterEnabled = true) : Indexed settings s := by
  obtain ⟨entries, mirrors⟩ := agree.mirrors cluster
  have elements := elements_eq mirrors.rep.linked
  refine ⟨?_, fun key => ?_, fun x node key found element => mirrors.scores found element, fun slot => ?_⟩
  · rw [elements]
    exact mirrors.rep.ordered.objs
  · rw [elements, mirrors.keys]
  · have distinct : ((entries.filter (inSlot slot)).map Entry.obj).Nodup :=
      mirrors.rep.ordered.objs.sublist (List.Sublist.map _ filter_sublist)
    have members : ∀ key, key ∈ (entries.filter (inSlot slot)).map Entry.obj ↔ key ∈ slotKeys s slot := by
      intro key
      rw [slotKeys, Finset.mem_filter, Finmap.mem_keys, ← mirrors.keys]
      simp only [List.mem_map, mem_filter, inSlot, beq_iff_eq]
      constructor
      · rintro ⟨e, ⟨member, same⟩, rfl⟩
        exact ⟨⟨e, member, rfl⟩, same⟩
      · rintro ⟨⟨e, member, rfl⟩, same⟩
        exact ⟨e, ⟨member, same⟩, rfl⟩
    have card : (slotKeys s slot).card = (entries.filter (inSlot slot)).length := by
      have same : slotKeys s slot = ⟨((entries.filter (inSlot slot)).map Entry.obj : List Key), Multiset.coe_nodup.mpr distinct⟩ :=
        Finset.ext fun key => (members key).symm
      rw [same, Finset.card_mk, Multiset.coe_card, length_map]
    obtain ⟨after, deleted, -, lookup⟩ := agree.delKeysInSlot cluster slot mirrors
    refine ⟨?_, fun count => ⟨_, getKeysInSlot_spec mirrors.scored mirrors.rep slot count, ?_, ?_, fun key member => ?_⟩, after, ?_, lookup⟩
    · rw [countKeysInSlot_spec mirrors.scored mirrors.rep, card]
    · rw [map_take]
      exact distinct.sublist (take_sublist _ _)
    · rw [length_map, length_take, card]
    · rw [map_take] at member
      exact (members key).mp (mem_of_mem_take member)
    · rw [deleted, card]

def clusterMode : Settings where
  dbnum := 16
  clusterEnabled := true
  loading := false
  masterhost := false

def tagged (k : Nat) : Key := [123, 97, 125] ++ label k

theorem tagged_slot (k : Nat) : keyHashSlot (tagged k) = (crc16 [97] &&& 0x3FFF).toUInt32 := by
  have outside : ([123, 97, 125] ++ label k).takeWhile (· ≠ 123) = [] := rfl
  have tag : ([97, 125] ++ label k).takeWhile (· ≠ 125) = [97] := rfl
  have rest : ([123, 97, 125] ++ label k).drop 1 = [97, 125] ++ label k := rfl
  unfold keyHashSlot tagged
  simp only [outside, length_nil, Nat.zero_add, rest, tag]
  rw [if_neg (by simp), if_neg (by simp)]

def fillOp (k : Nat) : Op Unit := .dbAdd 0 ⟨UInt64.ofNat (k + 1), 1, by decide⟩ (tagged k) ()

structure Filled (s : Server Unit) (count : Nat) : Prop where
  agree : Agree clusterMode s
  keys : ∀ k < count, tagged k ∈ (s.dbs 0).dict
  fresh : ∀ k < 2 ^ 64, count ≤ k → tagged k ∉ (s.dbs 0).dict
  free : ∀ a, count < a → s.slotsToKeys.heap a = none

theorem Filled.next {s : Server Unit} {count : Nat} (filled : Filled s count) (small : count + 1 < 2 ^ 64) :
    ∃ after, step clusterMode s (fillOp count) = some after ∧ Filled after (count + 1) := by
  have addr : (UInt64.ofNat (count + 1)).toNat = count + 1 := (UInt64.toNat_ofNat' ..).trans (Nat.mod_eq_of_lt small)
  have selected := filled.agree.selected rfl 0
  have absent : tagged count ∉ (s.dbs (s.selected 0)).dict := by
    rw [selected]
    exact filled.fresh count (by omega) (Nat.le_refl count)
  obtain ⟨-, used⟩ | ⟨after, added, agree, dbs, -, unused⟩ :=
    filled.agree.dbAdd ⟨UInt64.ofNat (count + 1), 1, by decide⟩ (fun _ => selected) () absent
  · exact absurd (fun _ => addr.symm ▸ filled.free (count + 1) (Nat.lt_succ_self count)) used
  · have members : ∀ k, tagged k ∈ (after.dbs 0).dict ↔ tagged k = tagged count ∨ tagged k ∈ (s.dbs 0).dict := by
      intro k
      rw [dbs, selected, setDb_dbs, if_pos rfl]
      exact Finmap.mem_insert
    refine ⟨after, added, agree, fun k below => (members k).mpr ?_, fun k small' beyond member => ?_, fun a beyond => ?_⟩
    · rcases Nat.lt_succ_iff_lt_or_eq.mp below with below | rfl
      · exact .inr (filled.keys k below)
      · exact .inl rfl
    · rcases (members k).mp member with same | old
      · have := label_inj small' (by omega) (append_cancel_left same)
        omega
      · exact filled.fresh k small' (by omega) old
    · refine unused a ?_ (filled.free a (by omega))
      change a ≠ (UInt64.ofNat (count + 1)).toNat
      rw [addr]
      omega

theorem Filled.run (steps : Nat) {s : Server Unit} {count : Nat} (filled : Filled s count) (small : count + steps < 2 ^ 64) :
    ∃ after, run clusterMode s ((List.range' count steps).map fillOp) = some after ∧ Filled after (count + steps) := by
  induction steps generalizing s count with
  | zero => exact ⟨s, rfl, filled⟩
  | succ steps ih =>
    obtain ⟨middle, taken, filled'⟩ := filled.next (by omega)
    obtain ⟨after, rest, last⟩ := ih filled' (by omega)
    refine ⟨after, ?_, ?_⟩
    · rw [range'_succ, map_cons, SlotIndex.run, foldlM_cons, taken]
      exact rest
    · rw [Nat.add_assoc, Nat.add_comm 1 steps] at last
      exact last

theorem filled_create : Filled (create Unit 0) 0 where
  agree := agree_create clusterMode 0
  keys k below := absurd below (Nat.not_lt_zero k)
  fresh _ _ _ member := absurd member Finmap.notMem_empty
  free _ positive := if_neg (Nat.ne_of_gt positive)

end Cplusplus.Redis.SlotIndex
