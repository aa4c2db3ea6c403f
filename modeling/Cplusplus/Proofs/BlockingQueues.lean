import Cplusplus.BlockingLists

/-! The two sides of the blocking operations: `bpop.keys` of the clients and the queues of
`blocking_keys`, and `server.ready_keys` and the `ready_keys` of the databases. They agree
after every command, whatever the commands are. -/

namespace Cplusplus.Redis.BlockingServer

open List

variable {κ α : Type} [DecidableEq κ]
variable {s t : BlockingServer κ α}

def waiting (s : BlockingServer κ α) (key : Nat × κ) : List Nat := (s.blockingKeys.lookup key).getD []

structure Listed (s : BlockingServer κ α) : Prop where
  listed : ∀ key id, id ∈ waiting s key ↔ s.waitsFor key id = true
  nonempty : ∀ key, s.blockingKeys.lookup key ≠ some []
  ordered : ∀ key, (waiting s key).Pairwise fun first second => (s.client first).since < (s.client second).since
  keysNodup : ∀ id, (s.client id).keys.Nodup

structure Queues (s : BlockingServer κ α) : Prop extends Listed s where
  idle : ∀ id, (s.client id).blocked = false → (s.client id).keys = []
  past : ∀ id, (s.client id).blocked = true → (s.client id).since < s.clock
  alive : ∀ id, (s.client id).blocked = true → id ∈ s.clients
  clientsNodup : s.clients.Nodup

structure Ready (pending : List (Nat × κ)) (s : BlockingServer κ α) : Prop where
  nodup : (pending ++ s.readyKeys).Nodup
  both : ∀ key, key ∈ s.dbReadyKeys ↔ key ∈ pending ++ s.readyKeys

theorem waitsFor_iff {key : Nat × κ} {id : Nat} : s.waitsFor key id = true ↔ (s.client id).db = key.1 ∧ key.2 ∈ (s.client id).keys := by
  simp [waitsFor]

theorem Queues.blocked_of_waits (queues : Queues s) (key : Nat × κ) {id : Nat} (waits : s.waitsFor key id = true) :
    (s.client id).blocked = true := by
  by_contra running
  have none := queues.idle id (Bool.not_eq_true _ ▸ running)
  have member := (waitsFor_iff.mp waits).2
  rw [none] at member
  cases member

theorem Listed.waiting_nodup (listed : Listed s) (key : Nat × κ) : (waiting s key).Nodup :=
  (listed.ordered key).imp fun before same => absurd (same ▸ before) (Nat.lt_irrefl _)

theorem queues_start (loaded : LoadedKeys κ α) (dbnum : Nat) : Queues (loaded.start dbnum) where
  listed key id := by simp [waiting, waitsFor, LoadedKeys.start]
  nonempty key := by simp [LoadedKeys.start]
  ordered key := by simp [waiting, LoadedKeys.start]
  keysNodup id := nodup_nil
  idle id _ := rfl
  past id blocked := by cases blocked
  alive id blocked := by cases blocked
  clientsNodup := nodup_nil

theorem ready_start (loaded : LoadedKeys κ α) (dbnum : Nat) : Ready [] (loaded.start dbnum) where
  nodup := nodup_nil
  both key := by simp [LoadedKeys.start]

structure Keeps (s t : BlockingServer κ α) : Prop where
  blockingKeys : t.blockingKeys = s.blockingKeys
  client : t.client = s.client
  clients : t.clients = s.clients
  clock : t.clock = s.clock
  ready : ∀ pending, Ready pending s → Ready pending t
  signals : s.dbReadyKeys ⊆ t.dbReadyKeys

theorem Keeps.refl (s : BlockingServer κ α) : Keeps s s := ⟨rfl, rfl, rfl, rfl, fun _ ready => ready, fun _ member => member⟩

theorem Keeps.trans {u : BlockingServer κ α} (first : Keeps s t) (second : Keeps t u) : Keeps s u where
  blockingKeys := second.blockingKeys.trans first.blockingKeys
  client := second.client.trans first.client
  clients := second.clients.trans first.clients
  clock := second.clock.trans first.clock
  ready pending ready := second.ready pending (first.ready pending ready)
  signals := first.signals.trans second.signals

theorem Keeps.of_eq (blockingKeys : t.blockingKeys = s.blockingKeys) (client : t.client = s.client) (clients : t.clients = s.clients)
    (clock : t.clock = s.clock) (readyKeys : t.readyKeys = s.readyKeys) (dbReadyKeys : t.dbReadyKeys = s.dbReadyKeys) : Keeps s t :=
  ⟨blockingKeys, client, clients, clock, fun _ ready => ⟨readyKeys ▸ ready.nodup, readyKeys ▸ dbReadyKeys ▸ ready.both⟩,
    dbReadyKeys ▸ fun _ member => member⟩

theorem Keeps.waiting (keeps : Keeps s t) (key : Nat × κ) : waiting t key = waiting s key := by
  rw [BlockingServer.waiting, keeps.blockingKeys]
  rfl

theorem Keeps.waitsFor (keeps : Keeps s t) (key : Nat × κ) (id : Nat) : t.waitsFor key id = s.waitsFor key id := by
  rw [BlockingServer.waitsFor, keeps.client]
  rfl

theorem Keeps.queues (keeps : Keeps s t) (queues : Queues s) : Queues t where
  listed key id := by
    rw [keeps.waiting, keeps.waitsFor]
    exact queues.listed key id
  nonempty := keeps.blockingKeys ▸ queues.nonempty
  ordered key := by
    rw [keeps.waiting, keeps.client]
    exact queues.ordered key
  keysNodup := keeps.client ▸ queues.keysNodup
  idle := keeps.client ▸ queues.idle
  past := keeps.client ▸ keeps.clock ▸ queues.past
  alive := keeps.client ▸ keeps.clients ▸ queues.alive
  clientsNodup := keeps.clients ▸ queues.clientsNodup

section
variable (s)

theorem addReply_keeps (id : Nat) (reply : BlockingReply κ α) : Keeps s (s.addReply id reply) := .of_eq rfl rfl rfl rfl rfl rfl

theorem setList_keeps (key : Nat × κ) (elements : List α) : Keeps s (s.setList key elements) := .of_eq rfl rfl rfl rfl rfl rfl

theorem record_keeps (id : Nat) (key : Nat × κ) (value : α) (since : Nat) : Keeps s (s.record id key value since) :=
  .of_eq rfl rfl rfl rfl rfl rfl

theorem recordPush_keeps (value : α) : Keeps s (s.recordPush value) := .of_eq rfl rfl rfl rfl rfl rfl

section
variable (key : Nat × κ)

theorem dbDelete_keeps : Keeps s (dbDelete s key) := .of_eq rfl rfl rfl rfl rfl rfl

section
variable (value : ListObject α)

theorem dbOverwrite_keeps : Keeps s (dbOverwrite s key value) := .of_eq rfl rfl rfl rfl rfl rfl

theorem dbDeleteEmpty_keeps : Keeps s (dbDeleteEmpty s key) := by
  rw [dbDeleteEmpty]
  split
  next => exact dbDelete_keeps s key
  next => exact .refl s

theorem signalListAsReady_keeps : Keeps s (signalListAsReady s key) := by
  rw [signalListAsReady]
  split
  next => exact .refl s
  next =>
    split
    next => exact .refl s
    next new =>
      refine ⟨rfl, rfl, rfl, rfl, fun pending ready => ⟨?_, ?_⟩, Finset.subset_insert key _⟩
      · dsimp only
        rw [← append_assoc, ← concat_eq_append]
        exact ready.nodup.concat fun member => new ((ready.both key).mpr member)
      · intro other
        dsimp only
        rw [Finset.mem_insert, ← append_assoc, mem_append, mem_singleton, ready.both]
        exact or_comm

theorem signalListAsReady_ready : waiting s key = [] ∨ key ∈ (signalListAsReady s key).dbReadyKeys := by
  rw [signalListAsReady]
  split
  next none => exact .inl (by rw [waiting, none]; rfl)
  next =>
    split
    next member => exact .inr member
    next => exact .inr (Finset.mem_insert_self key _)

theorem dbAdd_keeps : Keeps s (dbAdd s key value) := by
  have inserted : Keeps s { s with dict := s.dict.insert key value } := .of_eq rfl rfl rfl rfl rfl rfl
  cases value with
  | list elements => exact inserted.trans (signalListAsReady_keeps _ key)
  | other type => exact inserted

theorem setKey_keeps : Keeps s (setKey s key value) := by
  rw [setKey]
  split
  next => exact dbAdd_keeps s key value
  next => exact dbOverwrite_keeps s key value

end

theorem pushValue_keeps (where_ : ListEnd) (value : α) : Keeps s (pushValue key where_ s value) := by
  rw [pushValue]
  split
  next => exact ((dbAdd_keeps s key _).trans (setList_keeps _ key _)).trans (recordPush_keeps _ value)
  next => exact (setList_keeps s key _).trans (recordPush_keeps _ value)
  next => exact .refl s

end

theorem rpoplpushHandlePush_keeps (id : Nat) (dstkey : κ) (value : α) : Keeps s (rpoplpushHandlePush s id dstkey value) :=
  (pushValue_keeps s _ .head value).trans (addReply_keeps _ id _)

end

theorem foldl_keeps {β : Type} {step : BlockingServer κ α → β → BlockingServer κ α} (keeps : ∀ s item, Keeps s (step s item)) :
    ∀ (items : List β) (s : BlockingServer κ α), Keeps s (items.foldl step s) := by
  intro items
  induction items with
  | nil => exact fun s => .refl s
  | cons item items ih => exact fun s => (keeps s item).trans (ih (step s item))

theorem modify_client (s : BlockingServer κ α) (id other : Nat) (f : BlockingClient κ → BlockingClient κ) :
    (s.modify id f).client other = if other = id then f (s.client id) else s.client other := by
  by_cases same : other = id
  · subst same
    rw [if_pos rfl]
    exact Function.update_self _ _ _
  · rw [if_neg same]
    exact Function.update_of_ne same _ _

theorem modify_queues {id : Nat} {f : BlockingClient κ → BlockingClient κ} (queues : Queues s)
    (keys : (f (s.client id)).keys = (s.client id).keys) (blocked : (f (s.client id)).blocked = (s.client id).blocked)
    (since : (f (s.client id)).since = (s.client id).since)
    (db : (f (s.client id)).db = (s.client id).db ∨ (s.client id).keys = []) : Queues (s.modify id f) := by
  have same (other : Nat) : ((s.modify id f).client other).keys = (s.client other).keys ∧
      ((s.modify id f).client other).blocked = (s.client other).blocked ∧
      ((s.modify id f).client other).since = (s.client other).since := by
    rw [modify_client]
    split
    next eq =>
      subst eq
      exact ⟨keys, blocked, since⟩
    next => exact ⟨rfl, rfl, rfl⟩
  refine ⟨⟨?_, queues.nonempty, ?_, ?_⟩, ?_, ?_, ?_, queues.clientsNodup⟩
  · intro key other
    refine (queues.listed key other).trans ?_
    rw [waitsFor_iff, waitsFor_iff, (same other).1, modify_client]
    split
    next eq =>
      subst eq
      rcases db with db | none
      · rw [db]
      · simp [none]
    next => rfl
  · intro key
    apply (queues.ordered key).imp
    intro first second before
    rwa [(same first).2.2, (same second).2.2]
  · intro other
    rw [(same other).1]
    exact queues.keysNodup other
  · intro other
    rw [(same other).1, (same other).2.1]
    exact queues.idle other
  · intro other
    rw [(same other).2.1, (same other).2.2]
    exact queues.past other
  · intro other
    rw [(same other).2.1]
    exact queues.alive other

section
variable (id db : Nat)

theorem unblockForKey_lookup (bk : AList fun _ : Nat × κ => List Nat) (key : κ) (other : Nat × κ) :
    ((unblockForKey id db bk key).lookup other).getD [] =
      if other = (db, key) then ((bk.lookup other).getD []).erase id else (bk.lookup other).getD [] := by
  rw [unblockForKey]
  split
  next none =>
    split
    next same => rw [same, none]; rfl
    next => rfl
  next l found =>
    by_cases same : other = (db, key)
    · rw [if_pos same, same, found]
      split
      next empty => rw [AList.lookup_erase]; exact empty.symm
      next => rw [AList.lookup_insert]; rfl
    · rw [if_neg same]
      split
      next => rw [AList.lookup_erase_ne same]
      next => rw [AList.lookup_insert_ne same]

theorem unblockForKey_nonempty {bk : AList fun _ : Nat × κ => List Nat} {key : κ} (nonempty : ∀ other, bk.lookup other ≠ some [])
    (other : Nat × κ) : (unblockForKey id db bk key).lookup other ≠ some [] := by
  rw [unblockForKey]
  split
  next => exact nonempty other
  next l found =>
    by_cases same : other = (db, key)
    · subst same
      split
      next => rw [AList.lookup_erase]; exact Option.some_ne_none _ ∘ Eq.symm
      next some =>
        rw [AList.lookup_insert]
        exact fun eq => some (Option.some.inj eq)
    · split
      next => rw [AList.lookup_erase_ne same]; exact nonempty other
      next => rw [AList.lookup_insert_ne same]; exact nonempty other

theorem unblockForKeys_lookup : ∀ (keys : List κ) (bk : AList fun _ : Nat × κ => List Nat), keys.Nodup → (∀ other, bk.lookup other ≠ some []) →
    (∀ other, (keys.foldl (unblockForKey id db) bk).lookup other ≠ some []) ∧
      ∀ other : Nat × κ, ((keys.foldl (unblockForKey id db) bk).lookup other).getD [] =
        if other.1 = db ∧ other.2 ∈ keys then ((bk.lookup other).getD []).erase id else (bk.lookup other).getD [] := by
  intro keys
  induction keys with
  | nil => exact fun bk _ nonempty => ⟨nonempty, fun other => (if_neg fun both => absurd both.2 not_mem_nil).symm⟩
  | cons key keys ih =>
    intro bk distinct nonempty
    obtain ⟨notLater, distinct⟩ := nodup_cons.mp distinct
    rw [foldl_cons]
    obtain ⟨kept, lookup⟩ := ih (unblockForKey id db bk key) distinct (unblockForKey_nonempty id db nonempty)
    refine ⟨kept, fun other => ?_⟩
    rw [lookup, unblockForKey_lookup]
    by_cases same : other = (db, key)
    · subst same
      rw [if_neg fun both => notLater both.2, if_pos rfl, if_pos ⟨rfl, mem_cons_self⟩]
    · have either : (other.1 = db ∧ other.2 ∈ key :: keys) ↔ (other.1 = db ∧ other.2 ∈ keys) := by
        refine and_congr_right fun first => ?_
        rw [mem_cons]
        exact or_iff_right fun second => same (Prod.ext first second)
      rw [if_neg same]
      simp only [either]

end

section
variable (s)

theorem unblockClientWaitingData_client (id other : Nat) : (unblockClientWaitingData s id).client other =
    if other = id then { s.client id with blocked := false, keys := [], target := none } else s.client other :=
  modify_client s id other ({ · with blocked := false, keys := [], target := none })

theorem unblockClientWaitingData_since (id other : Nat) : ((unblockClientWaitingData s id).client other).since = (s.client other).since := by
  rw [unblockClientWaitingData_client]
  split
  next same => rw [same]
  next => rfl

end

theorem unblockClientWaitingData_waiting (listed : Listed s) (id : Nat) (key : Nat × κ) :
    waiting (unblockClientWaitingData s id) key = (waiting s key).erase id := by
  have lookup := (unblockForKeys_lookup id (s.client id).db (s.client id).keys s.blockingKeys (listed.keysNodup id) listed.nonempty).2 key
  refine lookup.trans ?_
  split
  next => rfl
  next other =>
    refine (erase_of_not_mem fun member => other ?_).symm
    have waits := waitsFor_iff.mp ((listed.listed key id).mp member)
    exact ⟨waits.1.symm, waits.2⟩

theorem unblockClientWaitingData_queues (queues : Queues s) (id : Nat) : Queues (unblockClientWaitingData s id) := by
  have client := unblockClientWaitingData_client s id
  have since := unblockClientWaitingData_since s id
  refine ⟨⟨?_, ?_, ?_, ?_⟩, ?_, ?_, ?_, queues.clientsNodup⟩
  · intro key other
    rw [unblockClientWaitingData_waiting queues.toListed, (queues.waiting_nodup key).mem_erase_iff, queues.listed, waitsFor_iff,
      waitsFor_iff, client]
    split
    next same => simp [same]
    next different => simp [different]
  · exact (unblockForKeys_lookup id (s.client id).db (s.client id).keys s.blockingKeys (queues.keysNodup id) queues.nonempty).1
  · intro key
    rw [unblockClientWaitingData_waiting queues.toListed]
    apply ((queues.ordered key).sublist erase_sublist).imp
    intro first second before
    rwa [since, since]
  · intro other
    rw [client]
    split
    next => exact nodup_nil
    next => exact queues.keysNodup other
  · intro other
    rw [client]
    split
    next => exact fun _ => rfl
    next => exact queues.idle other
  · intro other blocked
    rw [since]
    apply queues.past other
    rw [client] at blocked
    split at blocked
    next => cases blocked
    next => exact blocked
  · intro other blocked
    apply queues.alive other
    rw [client] at blocked
    split at blocked
    next => cases blocked
    next => exact blocked

structure Blocking (id : Nat) (s : BlockingServer κ α) : Prop extends Listed s where
  last : ∀ key, ∀ other ∈ waiting s key, other ≠ id → (s.client other).since < (s.client id).since

theorem blockForKey_client (id : Nat) (s : BlockingServer κ α) (key : κ) (other : Nat) : (blockForKey id s key).client other =
    if other = id ∧ key ∉ (s.client id).keys then { s.client id with keys := (s.client id).keys ++ [key] } else s.client other := by
  unfold blockForKey
  dsimp only
  by_cases member : key ∈ (s.client id).keys
  · rw [if_pos member, if_neg fun both => both.2 member]
  · have client := modify_client s id other ({ · with keys := (s.client id).keys ++ [key] })
    rw [if_neg member]
    simp only [member, not_false_eq_true, and_true]
    split <;> exact client

theorem blockForKey_waiting (id : Nat) (s : BlockingServer κ α) (key : κ) (other : Nat × κ) : waiting (blockForKey id s key) other =
    if other = ((s.client id).db, key) ∧ key ∉ (s.client id).keys then waiting s other ++ [id] else waiting s other := by
  unfold blockForKey waiting
  dsimp only
  by_cases member : key ∈ (s.client id).keys
  · rw [if_pos member, if_neg fun both => both.2 member]
  · rw [if_neg member]
    simp only [member, not_false_eq_true, and_true, modify]
    by_cases same : other = ((s.client id).db, key)
    · subst same
      rw [if_pos rfl]
      split
      next none => rw [AList.lookup_insert, none]; rfl
      next l found => rw [AList.lookup_insert, found]; rfl
    · rw [if_neg same]
      split
      next => rw [AList.lookup_insert_ne same]
      next => rw [AList.lookup_insert_ne same]

theorem blockForKey_nonempty {id : Nat} {key : κ} (nonempty : ∀ other, s.blockingKeys.lookup other ≠ some [])
    (other : Nat × κ) : (blockForKey id s key).blockingKeys.lookup other ≠ some [] := by
  unfold blockForKey
  dsimp only
  split
  next => exact nonempty other
  next =>
    by_cases same : other = ((s.client id).db, key)
    · subst same
      split
      next => rw [AList.lookup_insert]; simp
      next => rw [AList.lookup_insert]; simp
    · split
      next => rw [AList.lookup_insert_ne same]; exact nonempty other
      next => rw [AList.lookup_insert_ne same]; exact nonempty other

theorem blockForKey_blocking {id : Nat} (blocking : Blocking id s) (key : κ) : Blocking id (blockForKey id s key) := by
  by_cases member : key ∈ (s.client id).keys
  · have same : blockForKey id s key = s := by simp [blockForKey, member]
    rwa [same]
  have client := blockForKey_client id s key
  have waits := blockForKey_waiting id s key
  simp only [member, not_false_eq_true, and_true] at client waits
  have since (other : Nat) : ((blockForKey id s key).client other).since = (s.client other).since := by
    rw [client]
    split
    next same => rw [same]
    next => rfl
  have absent : id ∉ waiting s ((s.client id).db, key) := fun queued =>
    member (waitsFor_iff.mp ((blocking.listed _ id).mp queued)).2
  refine ⟨⟨?_, blockForKey_nonempty blocking.nonempty, ?_, ?_⟩, ?_⟩
  · intro other waiter
    have before := blocking.listed other waiter
    rw [waitsFor_iff] at before ⊢
    rw [waits, client]
    by_cases own : waiter = id
    · subst own
      rw [if_pos rfl]
      dsimp only
      rw [mem_append, mem_singleton]
      split
      next same => simp [same]
      next different =>
        rw [before]
        refine and_congr_right fun first => ?_
        exact (or_iff_left fun second => different (Prod.ext first.symm second)).symm
    · rw [if_neg own, ← before]
      split
      next => simp [own]
      next => rfl
  · intro other
    rw [waits]
    split
    next same =>
      apply pairwise_append.mpr
      refine ⟨?_, pairwise_singleton _ _, ?_⟩
      · apply (blocking.ordered other).imp
        intro first second before
        rwa [since, since]
      · intro first queued second last
        rw [mem_singleton.mp last, since, since]
        apply blocking.last other first queued
        rintro rfl
        exact absent (same ▸ queued)
    next =>
      apply (blocking.ordered other).imp
      intro first second before
      rwa [since, since]
  · intro other
    rw [client]
    split
    next =>
      dsimp only
      rw [← concat_eq_append]
      exact (blocking.keysNodup id).concat member
    next => exact blocking.keysNodup other
  · intro other waiter queued different
    rw [since, since]
    apply blocking.last other waiter _ different
    rw [waits] at queued
    split at queued
    next =>
      rcases mem_append.mp queued with before | own
      · exact before
      · exact absurd (mem_singleton.mp own) different
    next => exact queued

theorem blockForKey_fields (id : Nat) (s : BlockingServer κ α) (key : κ) :
    ∃ client blockingKeys, blockForKey id s key = { s with client := client, blockingKeys := blockingKeys } := by
  unfold blockForKey
  dsimp only
  split
  next => exact ⟨s.client, s.blockingKeys, rfl⟩
  next => split <;> exact ⟨_, _, rfl⟩

structure BlockedOn (id : Nat) (keys : List κ) (s t : BlockingServer κ α) : Prop where
  fields : ∃ client blockingKeys, t = { s with client := client, blockingKeys := blockingKeys }
  others : ∀ other, other ≠ id → t.client other = s.client other
  own : (t.client id).db = (s.client id).db ∧ (t.client id).blocked = (s.client id).blocked ∧ (t.client id).since = (s.client id).since
  waiting : ∀ key, waiting t key = waiting s key ∨ (key.1 = (s.client id).db ∧ key.2 ∈ keys)

theorem blockForKeys_blockedOn (id : Nat) : ∀ (keys : List κ) (s : BlockingServer κ α), Blocking id s →
    Blocking id (keys.foldl (blockForKey id) s) ∧ BlockedOn id keys s (keys.foldl (blockForKey id) s) := by
  intro keys
  induction keys with
  | nil => exact fun s blocking => ⟨blocking, ⟨_, _, rfl⟩, fun _ _ => rfl, ⟨rfl, rfl, rfl⟩, fun _ => .inl rfl⟩
  | cons key keys ih =>
    intro s blocking
    rw [foldl_cons]
    obtain ⟨kept, fields, others, own, waits⟩ := ih (blockForKey id s key) (blockForKey_blocking blocking key)
    have client := blockForKey_client id s key
    have same : ((blockForKey id s key).client id).db = (s.client id).db ∧ ((blockForKey id s key).client id).blocked = (s.client id).blocked ∧
        ((blockForKey id s key).client id).since = (s.client id).since := by
      rw [client]
      split <;> exact ⟨rfl, rfl, rfl⟩
    refine ⟨kept, ?_, ?_, ?_, ?_⟩
    · obtain ⟨clientT, keysT, eqT⟩ := fields
      obtain ⟨clientK, keysK, eqK⟩ := blockForKey_fields id s key
      rw [eqT, eqK]
      exact ⟨_, _, rfl⟩
    · intro other different
      rw [others other different, client, if_neg fun both => different both.1]
    · exact ⟨own.1.trans same.1, own.2.1.trans same.2.1, own.2.2.trans same.2.2⟩
    · intro other
      rw [same.1] at waits
      rcases waits other with eq | both
      · rw [eq, blockForKey_waiting]
        split
        next new =>
          right
          rw [new.1]
          exact ⟨rfl, mem_cons_self⟩
        next => exact .inl rfl
      · exact .inr ⟨both.1, mem_cons_of_mem _ both.2⟩

theorem blocking_start {id : Nat} (queues : Queues s) (running : (s.client id).blocked = false) (target : Option κ) :
    Blocking id (s.modify id ({ · with target := target, since := s.clock })) := by
  have client (other : Nat) := modify_client s id other ({ · with target := target, since := s.clock })
  have none := queues.idle id running
  have absent (key : Nat × κ) : id ∉ waiting s key := fun queued =>
    absurd (queues.blocked_of_waits key ((queues.listed key id).mp queued)) (by simp [running])
  have sinceOther {other : Nat} (different : other ≠ id) :
      ((s.modify id ({ · with target := target, since := s.clock })).client other).since = (s.client other).since := by
    rw [client, if_neg different]
  refine ⟨⟨?_, queues.nonempty, ?_, ?_⟩, ?_⟩
  · intro key other
    refine (queues.listed key other).trans ?_
    rw [waitsFor_iff, waitsFor_iff, client]
    split
    next same => rw [same]
    next => rfl
  · intro key
    refine (queues.ordered key).imp_of_mem ?_
    intro first second firstQueued secondQueued before
    have firstOther : first ≠ id := fun same => absent key (same ▸ firstQueued)
    have secondOther : second ≠ id := fun same => absent key (same ▸ secondQueued)
    rwa [sinceOther firstOther, sinceOther secondOther]
  · intro other
    rw [client]
    split
    next => exact queues.keysNodup id
    next => exact queues.keysNodup other
  · intro key other queued different
    rw [sinceOther different, client, if_pos rfl]
    exact queues.past other (queues.blocked_of_waits key ((queues.listed key other).mp queued))

theorem blockForKeys_fields {id : Nat} (queues : Queues s) (running : (s.client id).blocked = false) (keys : List κ)
    (target : Option κ) :
    (∃ client blockingKeys clock, blockForKeys s id keys target = { s with client := client, blockingKeys := blockingKeys, clock := clock }) ∧
      ∀ key, waiting (blockForKeys s id keys target) key = waiting s key ∨ (key.1 = (s.client id).db ∧ key.2 ∈ keys) := by
  obtain ⟨_, fields, _, _, waits⟩ := blockForKeys_blockedOn id keys _ (blocking_start queues running target)
  rw [modify_client, if_pos rfl] at waits
  obtain ⟨client, blockingKeys, fields⟩ := fields
  refine ⟨?_, waits⟩
  unfold blockForKeys
  dsimp only
  rw [fields]
  exact ⟨_, _, _, rfl⟩

theorem blockForKeys_queues {id : Nat} (queues : Queues s) (running : (s.client id).blocked = false)
    (member : id ∈ s.clients) (keys : List κ) (target : Option κ) : Queues (blockForKeys s id keys target) := by
  obtain ⟨blocking, ⟨client', blockingKeys', fields⟩, others, own, _⟩ :=
    blockForKeys_blockedOn id keys _ (blocking_start queues running target)
  rw [modify_client, if_pos rfl] at own
  unfold blockForKeys
  dsimp only
  generalize keys.foldl (blockForKey id) (s.modify id ({ · with target := target, since := s.clock })) = t at *
  have clients : t.clients = s.clients := by rw [fields]; rfl
  have clock : t.clock = s.clock := by rw [fields]; rfl
  have client (other : Nat) := modify_client t id other ({ · with blocked := true })
  have same (other : Nat) : ((t.modify id ({ · with blocked := true })).client other).db = (t.client other).db ∧
      ((t.modify id ({ · with blocked := true })).client other).keys = (t.client other).keys ∧
      ((t.modify id ({ · with blocked := true })).client other).since = (t.client other).since := by
    rw [client]
    split
    next eq => rw [eq]; exact ⟨rfl, rfl, rfl⟩
    next => exact ⟨rfl, rfl, rfl⟩
  -- The other clients are as they were.
  have other {other : Nat} (different : other ≠ id) : (t.modify id ({ · with blocked := true })).client other = s.client other := by
    rw [client, if_neg different, others other different, modify_client, if_neg different]
  refine ⟨⟨?_, blocking.nonempty, ?_, ?_⟩, ?_, ?_, ?_, clients ▸ queues.clientsNodup⟩
  · intro key waiter
    refine (blocking.listed key waiter).trans ?_
    rw [waitsFor_iff, waitsFor_iff]
    dsimp only
    rw [(same waiter).1, (same waiter).2.1]
  · intro key
    apply (blocking.ordered key).imp
    intro first second before
    dsimp only
    rwa [(same first).2.2, (same second).2.2]
  · intro waiter
    dsimp only
    rw [(same waiter).2.1]
    exact blocking.keysNodup waiter
  · intro waiter idle
    by_cases eq : waiter = id
    · subst eq
      rw [client, if_pos rfl] at idle
      cases idle
    · dsimp only at idle ⊢
      rw [other eq] at idle ⊢
      exact queues.idle waiter idle
  · intro waiter blocked
    dsimp only at blocked ⊢
    rw [clock]
    by_cases eq : waiter = id
    · subst eq
      rw [(same waiter).2.2, own.2.2]
      exact Nat.lt_succ_self _
    · rw [other eq] at blocked ⊢
      exact Nat.lt_succ_of_lt (queues.past waiter blocked)
  · intro waiter blocked
    dsimp only [modify] at blocked ⊢
    rw [clients]
    by_cases eq : waiter = id
    · exact eq ▸ member
    · exact queues.alive waiter (other eq ▸ blocked)

end Cplusplus.Redis.BlockingServer
