import Cplusplus.Proofs.BlockingQueues

/-! Commands and `handleClientsBlockedOnLists`. A command serves nobody, and signals the
keys under which it makes lists; the loop ends with no key signalled. -/

namespace Cplusplus.Redis.BlockingServer

open List

variable {κ α : Type} [DecidableEq κ]
variable {s t : BlockingServer κ α} {id : Nat} {key : Nat × κ}

theorem pushGenericCommand_keeps (s : BlockingServer κ α) (id : Nat) (key : κ) (values : List α) (where_ : ListEnd) :
    Keeps s (pushGenericCommand s id key values where_) := by
  unfold pushGenericCommand
  dsimp only
  split
  next => exact addReply_keeps s id _
  next => exact (foldl_keeps (fun s => pushValue_keeps s _ where_) values s).trans (addReply_keeps _ id _)

theorem pushxGenericCommand_keeps [DecidableEq α] (s : BlockingServer κ α) (id : Nat) (key : κ) (refval : Option α) (value : α)
    (where_ : ListEnd) : Keeps s (pushxGenericCommand s id key refval value where_) := by
  unfold pushxGenericCommand
  dsimp only
  split
  next => exact addReply_keeps s id _
  next => exact addReply_keeps s id _
  next =>
    split
    next => exact addReply_keeps s id _
    next => exact ((setList_keeps s _ _).trans (recordPush_keeps _ value)).trans (addReply_keeps _ id _)

section
variable (s)

theorem popped_keeps (id : Nat) (key : Nat × κ) (value : α) (rest : List α) (reply : BlockingReply κ α) :
    Keeps s (dbDeleteEmpty (((s.setList key rest).record id key value s.clock).addReply id reply) key) :=
  (((setList_keeps s key rest).trans (record_keeps _ id key value _)).trans (addReply_keeps _ id reply)).trans (dbDeleteEmpty_keeps _ key)

theorem popGenericCommand_keeps (id : Nat) (key : κ) (where_ : ListEnd) : Keeps s (popGenericCommand s id key where_) := by
  unfold popGenericCommand
  dsimp only
  split
  next => exact addReply_keeps s id _
  next => exact addReply_keeps s id _
  next =>
    split
    next => exact addReply_keeps s id _
    next => exact popped_keeps s id _ _ _ _

theorem rpoplpushCommand_keeps (id : Nat) (source target : κ) : Keeps s (rpoplpushCommand s id source target) := by
  unfold rpoplpushCommand
  dsimp only
  split
  next => exact addReply_keeps s id _
  next => exact addReply_keeps s id _
  next =>
    split
    next => exact addReply_keeps s id _
    next =>
      split
      next => exact addReply_keeps s id _
      next =>
        exact (((setList_keeps s _ _).trans (record_keeps _ id _ _ _)).trans (rpoplpushHandlePush_keeps _ id target _)).trans
          (dbDeleteEmpty_keeps _ _)

end

theorem listTypePop_none {elements : List α} {where_ : ListEnd} (pop : listTypePop elements where_ = none) : elements = [] := by
  cases elements with
  | nil => rfl
  | cons value elements => cases where_ <;> cases pop

def NoElements (s : BlockingServer κ α) (db : Nat) (keys : List κ) : Prop :=
  ∀ key ∈ keys, ∀ elements, s.dict.lookup (db, key) = some (.list elements) → elements = []

section
variable (s)

section
variable (id)

/-- The loop over the keys of a blocking pop ends with a result, or it has found no element. -/
theorem blockingPopKeys_cases (where_ : ListEnd) (keys : List κ) : match blockingPopKeys s id where_ keys with
    | some t => Keeps s t
    | none => NoElements s (s.client id).db keys := by
  induction keys with
  | nil => exact fun key member => absurd member not_mem_nil
  | cons key keys ih =>
    have later (here : ∀ elements, s.dict.lookup ((s.client id).db, key) = some (.list elements) → elements = []) :
        match blockingPopKeys s id where_ keys with
        | some t => Keeps s t
        | none => NoElements s (s.client id).db (key :: keys) := by
      split at ih
      next => exact ih
      next =>
        intro other member
        rcases mem_cons.mp member with same | member
        · exact same ▸ here
        · exact ih other member
    rw [blockingPopKeys]
    cases found : s.dict.lookup ((s.client id).db, key) with
    | none => exact later fun elements list => by simp [found] at list
    | some object =>
      cases object with
      | other type => exact addReply_keeps s id _
      | list elements =>
        dsimp only
        cases popped : listTypePop elements where_ with
        | some pair => exact popped_keeps s id _ _ _ _
        | none =>
          refine later fun held list => ?_
          rw [found] at list
          cases list
          exact listTypePop_none popped

theorem delCommand_keeps (keys : List κ) : Keeps s (delCommand s id keys) := (foldl_keeps dbDelete_keeps _ s).trans (addReply_keeps _ id _)

theorem renameGenericCommand_keeps (source target : κ) (nx : Bool) : Keeps s (renameGenericCommand s id source target nx) := by
  unfold renameGenericCommand
  dsimp only
  split
  next => exact addReply_keeps s id _
  next =>
    split
    next => exact addReply_keeps s id _
    next =>
      split
      next => exact addReply_keeps s id _
      next => exact (((dbDelete_keeps s _).trans (dbAdd_keeps _ _ _)).trans (dbDelete_keeps _ _)).trans (addReply_keeps _ id _)

theorem moveCommand_keeps (key : κ) (dbid : Nat) : Keeps s (moveCommand s id key dbid) := by
  unfold moveCommand
  dsimp only
  split
  next => exact addReply_keeps s id _
  next =>
    split
    next => exact addReply_keeps s id _
    next =>
      split
      next => exact addReply_keeps s id _
      next =>
        split
        next => exact addReply_keeps s id _
        next => exact ((dbAdd_keeps s _ _).trans (dbDelete_keeps _ _)).trans (addReply_keeps _ id _)

theorem sortStoreCommand_keeps (key storekey : κ) (sorted : List α) : Keeps s (sortStoreCommand s id key storekey sorted) := by
  unfold sortStoreCommand
  dsimp only
  split
  next => exact addReply_keeps s id _
  next => exact addReply_keeps s id _
  next => exact (dbDelete_keeps s _).trans (addReply_keeps _ id _)
  next =>
    refine Keeps.trans ?_ (addReply_keeps _ id _)
    split
    next => exact dbDelete_keeps s _
    next => exact setKey_keeps s _ _

theorem addCommand_keeps (key : κ) (type : ObjectType) (reply : Nat) : Keeps s (addCommand s id key type reply) := by
  unfold addCommand
  dsimp only
  split
  next => exact (dbAdd_keeps s _ _).trans (addReply_keeps _ id _)
  next => exact addReply_keeps s id _
  next => exact addReply_keeps s id _

end

end

/-- What a command can do to the clients: nothing, block the client, or change its database. -/
theorem callBlocking_cases [DecidableEq α] (id : Nat) (multi : Bool) (s : BlockingServer κ α) (cmd : BlockingCommand κ α) :
    Keeps s (callBlocking id multi s cmd) ∨ (multi = false ∧ ∃ keys target, NoElements s (s.client id).db keys ∧
        callBlocking id multi s cmd = blockForKeys s id keys target) ∨
      ∃ db, callBlocking id multi s cmd = (s.modify id ({ · with db := db })).addReply id .ok := by
  cases cmd with
  | push key values where_ => exact .inl (pushGenericCommand_keeps s id key values where_)
  | pushx key refval value where_ => exact .inl (pushxGenericCommand_keeps s id key refval value where_)
  | pop key where_ => exact .inl (popGenericCommand_keeps s id key where_)
  | rpoplpush source target => exact .inl (rpoplpushCommand_keeps s id source target)
  | del keys => exact .inl (delCommand_keeps s id keys)
  | rename source target nx => exact .inl (renameGenericCommand_keeps s id source target nx)
  | move key dbid => exact .inl (moveCommand_keeps s id key dbid)
  | sortStore key storekey sorted => exact .inl (sortStoreCommand_keeps s id key storekey sorted)
  | set key => exact .inl ((setKey_keeps s _ _).trans (addReply_keeps _ id _))
  | add key type reply => exact .inl (addCommand_keeps s id key type reply)
  | select dbid =>
    rw [callBlocking, selectCommand]
    split
    next => exact .inl (addReply_keeps s id _)
    next => exact .inr (.inr ⟨dbid, rfl⟩)
  | blockingPop key keys where_ =>
    have cases := blockingPopKeys_cases s id where_ (key :: keys)
    rw [callBlocking, blockingPopGenericCommand]
    cases found : blockingPopKeys s id where_ (key :: keys) with
    | some t =>
      rw [found] at cases
      exact .inl cases
    | none =>
      rw [found] at cases
      cases multi with
      | true => exact .inl (addReply_keeps s id _)
      | false => exact .inr (.inl ⟨rfl, _, _, cases, rfl⟩)
  | brpoplpush source target =>
    rw [callBlocking, brpoplpushCommand]
    cases found : s.dict.lookup ((s.client id).db, source) with
    | none =>
      cases multi with
      | true => exact .inl (addReply_keeps s id _)
      | false =>
        refine .inr (.inl ⟨rfl, [source], some target, ?_, rfl⟩)
        intro key member elements list
        rw [mem_singleton.mp member, found] at list
        cases list
    | some object =>
      cases object with
      | other type => exact .inl (addReply_keeps s id _)
      | list elements => exact .inl (rpoplpushCommand_keeps s id source target)

structure Running (s : BlockingServer κ α) (id : Nat) : Prop where
  connected : id ∈ s.clients
  free : (s.client id).blocked = false

theorem callBlocking_queues [DecidableEq α] (queues : Queues s) (running : Running s id) (multi : Bool) (cmd : BlockingCommand κ α) :
    Queues (callBlocking id multi s cmd) ∧ (∀ pending, Ready pending s → Ready pending (callBlocking id multi s cmd)) ∧
      (multi = true → Running (callBlocking id multi s cmd) id) := by
  rcases callBlocking_cases id multi s cmd with keeps | ⟨multi, keys, target, _, eq⟩ | ⟨db, eq⟩
  · exact ⟨keeps.queues queues, keeps.ready, fun _ => ⟨keeps.clients ▸ running.connected, keeps.client ▸ running.free⟩⟩
  · obtain ⟨⟨_, _, _, fields⟩, _⟩ := blockForKeys_fields queues running.free keys target
    refine ⟨eq ▸ blockForKeys_queues queues running.free running.connected keys target, fun pending ready => ?_, fun inside => ?_⟩
    · rw [eq, fields]
      exact ⟨ready.nodup, ready.both⟩
    · rw [multi] at inside
      cases inside
  · have moved := modify_queues (f := ({ · with db := db })) queues rfl rfl rfl (.inr (queues.idle id running.free))
    rw [eq]
    refine ⟨(addReply_keeps _ id _).queues moved, fun pending ready => ⟨ready.nodup, ready.both⟩, fun _ => ⟨running.connected, ?_⟩⟩
    exact (congrArg BlockingClient.blocked ((modify_client s id id ({ · with db := db })).trans (if_pos rfl))).trans running.free

theorem callTransaction_queues [DecidableEq α] : ∀ (commands : List (BlockingCommand κ α)) (s : BlockingServer κ α),
    Queues s → Running s id → Queues (commands.foldl (callBlocking id true) s) ∧
      (∀ pending, Ready pending s → Ready pending (commands.foldl (callBlocking id true) s)) ∧
      Running (commands.foldl (callBlocking id true) s) id := by
  intro commands
  induction commands with
  | nil => exact fun s queues running => ⟨queues, fun _ ready => ready, running⟩
  | cons cmd commands ih =>
    intro s queues running
    obtain ⟨queues, ready, running⟩ := callBlocking_queues queues running true cmd
    obtain ⟨queuesEnd, readyEnd, runningEnd⟩ := ih _ queues (running rfl)
    exact ⟨queuesEnd, fun pending before => readyEnd pending (ready pending before), runningEnd⟩

def blockedCount (s : BlockingServer κ α) : Nat := s.clients.countP fun id => (s.client id).blocked

theorem blockedCount_unblock (queues : Queues s) (blocked : (s.client id).blocked = true) :
    blockedCount (unblockClientWaitingData s id) < blockedCount s := by
  have client := unblockClientWaitingData_client s id
  have split := perm_cons_erase (queues.alive id blocked)
  have before : blockedCount s = (s.clients.erase id).countP (fun id => (s.client id).blocked) + 1 := by
    rw [blockedCount, split.countP_eq]
    exact countP_cons_of_pos (p := fun id => (s.client id).blocked) blocked
  have after : blockedCount (unblockClientWaitingData s id) =
      (s.clients.erase id).countP fun other => ((unblockClientWaitingData s id).client other).blocked := by
    refine (split.countP_eq _).trans ?_
    apply countP_cons_of_neg
    rw [client, if_pos rfl]
    exact Bool.false_ne_true
  have fewer : (s.clients.erase id).countP (fun other => ((unblockClientWaitingData s id).client other).blocked) ≤
      (s.clients.erase id).countP fun id => (s.client id).blocked := by
    apply countP_mono_left
    intro other _ waits
    rw [client] at waits
    split at waits
    next => cases waits
    next => exact waits
  omega

theorem Keeps.blockedCount (keeps : Keeps s t) : blockedCount t = blockedCount s := by
  rw [BlockingServer.blockedCount, keeps.client, keeps.clients]
  rfl

theorem serveClientBlockedOnList_keeps {receiver : Nat} {dstkey : Option κ} {value : α}
    (served : serveClientBlockedOnList s receiver key dstkey value = some t) : Keeps s t := by
  unfold serveClientBlockedOnList at served
  dsimp only at served
  split at served
  next =>
    cases served
    exact (record_keeps s receiver key value _).trans (addReply_keeps _ receiver _)
  next =>
    split at served
    next => cases served
    next =>
      cases served
      exact (record_keeps s receiver key value _).trans (rpoplpushHandlePush_keeps _ receiver _ value)

def popped (s : BlockingServer κ α) (key : Nat × κ) (receiver : Nat) (rest : List α) : BlockingServer κ α :=
  unblockClientWaitingData (s.setList key rest) receiver

/-- An iteration of the loop over the clients of a key serves the first one, or puts the element back. -/
theorem serveFirst_cases (served : serveFirst s key = some t) :
    ∃ receiver others elements value rest, s.blockingKeys.lookup key = some (receiver :: others) ∧
      s.dict.lookup key = some (.list elements) ∧ listTypePop elements (servedEnd (s.client receiver)) = some (value, rest) ∧
      (serveClientBlockedOnList (popped s key receiver rest) receiver key (s.client receiver).target value = some t ∨
        t = ((popped s key receiver rest).addReply receiver .wrongtypeerr).setList key
          (listTypePush rest value (servedEnd (s.client receiver)))) := by
  unfold serveFirst at served
  split at served
  next receiver others elements queue list =>
    dsimp only at served
    split at served
    next => cases served
    next value rest pop =>
      refine ⟨receiver, others, elements, value, rest, queue, list, pop, ?_⟩
      split at served
      next u serves =>
        cases served
        exact .inl serves
      next =>
        cases served
        exact .inr rfl
  next => cases served

theorem serveFirst_keeps (served : serveFirst s key = some t) :
    ∃ receiver others rest, s.blockingKeys.lookup key = some (receiver :: others) ∧ Keeps (popped s key receiver rest) t := by
  obtain ⟨receiver, others, _, _, rest, queue, _, _, serves | undone⟩ := serveFirst_cases served
  · exact ⟨receiver, others, rest, queue, serveClientBlockedOnList_keeps serves⟩
  · exact ⟨receiver, others, rest, queue, undone ▸ (addReply_keeps _ receiver _).trans (setList_keeps _ key _)⟩

/-- What serving does to the queues; keys become ready only when a client is served. -/
structure Served (s t : BlockingServer κ α) : Prop where
  queues : Queues t
  clients : t.clients = s.clients
  fewer : blockedCount t < blockedCount s ∨ (blockedCount t = blockedCount s ∧ t.readyKeys = s.readyKeys)

theorem Served.trans {u : BlockingServer κ α} (first : Served s t) (second : Served t u) : Served s u := by
  refine ⟨second.queues, second.clients.trans first.clients, ?_⟩
  rcases first.fewer with less | ⟨same, ready⟩
  · rcases second.fewer with less' | ⟨same', _⟩ <;> exact .inl (by omega)
  · rcases second.fewer with less' | ⟨same', ready'⟩
    · exact .inl (by omega)
    · exact .inr ⟨by omega, ready'.trans ready⟩

theorem serveFirst_served (queues : Queues s) (served : serveFirst s key = some t) :
    Served s t ∧ (∀ pending, Ready pending s → Ready pending t) ∧ waiting t key = (waiting s key).tail := by
  obtain ⟨receiver, others, rest, queue, keeps⟩ := serveFirst_keeps served
  have list := setList_keeps s key rest
  have queue : waiting s key = receiver :: others := by rw [waiting, queue]; rfl
  have blocked : (s.client receiver).blocked = true := by
    apply queues.blocked_of_waits key
    rw [← queues.listed, queue]
    exact mem_cons_self
  refine ⟨⟨keeps.queues (unblockClientWaitingData_queues (list.queues queues) receiver), keeps.clients, .inl ?_⟩,
    fun pending ready => keeps.ready pending ⟨ready.nodup, ready.both⟩, ?_⟩
  · rw [keeps.blockedCount, ← list.blockedCount]
    exact blockedCount_unblock (list.queues queues) blocked
  · rw [keeps.waiting, popped, unblockClientWaitingData_waiting (list.queues queues).toListed, list.waiting, queue,
      erase_cons_head]
    rfl

theorem serveClients_served (key : Nat × κ) : ∀ (numclients : Nat) (s : BlockingServer κ α), Queues s →
    Served s (serveClients key numclients s) ∧ ∀ pending, Ready pending s → Ready pending (serveClients key numclients s) := by
  intro numclients
  induction numclients with
  | zero => exact fun s queues => ⟨⟨queues, rfl, .inr ⟨rfl, rfl⟩⟩, fun _ ready => ready⟩
  | succ numclients ih =>
    intro s queues
    rw [serveClients]
    split
    next => exact ⟨⟨queues, rfl, .inr ⟨rfl, rfl⟩⟩, fun _ ready => ready⟩
    next t first =>
      obtain ⟨served, ready, _⟩ := serveFirst_served queues first
      obtain ⟨servedEnd, readyEnd⟩ := ih t served.queues
      exact ⟨served.trans servedEnd, fun pending before => readyEnd pending (ready pending before)⟩

theorem dbDeleteEmpty_served (queues : Queues s) (key : Nat × κ) : Served s (dbDeleteEmpty s key) := by
  have keeps := dbDeleteEmpty_keeps s key
  refine ⟨keeps.queues queues, keeps.clients, .inr ⟨keeps.blockedCount, ?_⟩⟩
  rw [dbDeleteEmpty]
  split <;> rfl

theorem serveReadyKey_served {pending : List (Nat × κ)} (queues : Queues s) (ready : Ready (key :: pending) s) :
    Served s (serveReadyKey s key) ∧ Ready pending (serveReadyKey s key) := by
  have erased : Ready pending { s with dbReadyKeys := s.dbReadyKeys.erase key } := by
    have nodup := nodup_cons.mp ready.nodup
    refine ⟨nodup.2, fun other => ?_⟩
    dsimp only
    rw [Finset.mem_erase, ready.both, cons_append, mem_cons]
    constructor
    · exact fun both => both.2.resolve_left both.1
    · exact fun member => ⟨fun same => nodup.1 (same ▸ member), .inr member⟩
  have queuesErased : Queues { s with dbReadyKeys := s.dbReadyKeys.erase key } :=
    ⟨⟨queues.listed, queues.nonempty, queues.ordered, queues.keysNodup⟩, queues.idle, queues.past, queues.alive, queues.clientsNodup⟩
  have same : Served s { s with dbReadyKeys := s.dbReadyKeys.erase key } := ⟨queuesErased, rfl, .inr ⟨rfl, rfl⟩⟩
  rw [serveReadyKey]
  dsimp only
  split
  next =>
    split
    next => exact ⟨same.trans (dbDeleteEmpty_served queuesErased key), (dbDeleteEmpty_keeps _ key).ready pending erased⟩
    next clients _ =>
      obtain ⟨served, readyEnd⟩ := serveClients_served key clients.length _ queuesErased
      exact ⟨(same.trans served).trans (dbDeleteEmpty_served served.queues key),
        (dbDeleteEmpty_keeps _ key).ready pending (readyEnd pending erased)⟩
  next => exact ⟨same, erased⟩

theorem serveReadyKeys_served : ∀ (keys : List (Nat × κ)) (s : BlockingServer κ α), Queues s → Ready keys s →
    Served s (keys.foldl serveReadyKey s) ∧ Ready [] (keys.foldl serveReadyKey s) := by
  intro keys
  induction keys with
  | nil => exact fun s queues ready => ⟨⟨queues, rfl, .inr ⟨rfl, rfl⟩⟩, ready⟩
  | cons key keys ih =>
    intro s queues ready
    obtain ⟨served, readyNext⟩ := serveReadyKey_served queues ready
    obtain ⟨servedEnd, readyEnd⟩ := ih _ served.queues readyNext
    exact ⟨served.trans servedEnd, readyEnd⟩

theorem taken_queues (queues : Queues s) (ready : Ready [] s) :
    Queues { s with readyKeys := [] } ∧ Ready s.readyKeys { s with readyKeys := [] } := by
  refine ⟨⟨⟨queues.listed, queues.nonempty, queues.ordered, queues.keysNodup⟩, queues.idle, queues.past, queues.alive,
    queues.clientsNodup⟩, ?_, ?_⟩
  · rw [append_nil]
    exact ready.nodup
  · dsimp only
    rw [append_nil]
    exact ready.both

/-- The loop has served all keys when it has gone round once more than there are blocked clients. -/
theorem handleReadyKeys_done : ∀ (fuel : Nat) (s : BlockingServer κ α), Queues s → Ready [] s → blockedCount s < fuel →
    Queues (handleReadyKeys fuel s) ∧ Ready [] (handleReadyKeys fuel s) ∧ (handleReadyKeys fuel s).readyKeys = [] ∧
      (handleReadyKeys fuel s).clients = s.clients := by
  intro fuel
  induction fuel with
  | zero => exact fun s _ _ enough => absurd enough (Nat.not_lt_zero _)
  | succ fuel ih =>
    intro s queues ready enough
    rw [handleReadyKeys]
    split
    next empty => exact ⟨queues, ready, empty, rfl⟩
    next =>
      obtain ⟨queuesTaken, readyTaken⟩ := taken_queues queues ready
      obtain ⟨served, readyEnd⟩ := serveReadyKeys_served s.readyKeys _ queuesTaken readyTaken
      rcases served.fewer with less | ⟨_, none⟩
      · have fewer : blockedCount (s.readyKeys.foldl serveReadyKey { s with readyKeys := [] }) < blockedCount s := less
        obtain ⟨queuesDone, readyDone, done, clients⟩ := ih _ served.queues readyEnd (by omega)
        exact ⟨queuesDone, readyDone, done, clients.trans served.clients⟩
      · -- Nobody was served, so no key is ready.
        have last : handleReadyKeys fuel (s.readyKeys.foldl serveReadyKey { s with readyKeys := [] }) =
            s.readyKeys.foldl serveReadyKey { s with readyKeys := [] } := by
          cases fuel with
          | zero => rfl
          | succ fuel => rw [handleReadyKeys, if_pos none]
        rw [last]
        exact ⟨served.queues, readyEnd, none, served.clients⟩

theorem handleClientsBlockedOnLists_done (queues : Queues s) (ready : Ready [] s) :
    Queues (handleClientsBlockedOnLists s) ∧ Ready [] (handleClientsBlockedOnLists s) ∧
      (handleClientsBlockedOnLists s).readyKeys = [] ∧ (handleClientsBlockedOnLists s).clients = s.clients :=
  handleReadyKeys_done _ s queues ready (Nat.lt_succ_of_le countP_le_length)

theorem serveClients_induct {P : BlockingServer κ α → Prop} (step : ∀ s t, Queues s → P s → serveFirst s key = some t → P t) :
    ∀ (numclients : Nat) (s : BlockingServer κ α), Queues s → P s → P (serveClients key numclients s) := by
  intro numclients
  induction numclients with
  | zero => exact fun s _ holds => holds
  | succ numclients ih =>
    intro s queues holds
    rw [serveClients]
    split
    next => exact holds
    next t first => exact ih t (serveFirst_served queues first).1.queues (step s t queues holds first)

theorem handleClients_induct {P : BlockingServer κ α → Prop} (taken : ∀ s, P s → P { s with readyKeys := [] })
    (step : ∀ s key, Queues s → P s → P (serveReadyKey s key)) (queues : Queues s) (ready : Ready [] s) (holds : P s) :
    P (handleClientsBlockedOnLists s) := by
  have inner : ∀ (keys : List (Nat × κ)) (s : BlockingServer κ α), Queues s → Ready keys s → P s → P (keys.foldl serveReadyKey s) := by
    intro keys
    induction keys with
    | nil => exact fun s _ _ holds => holds
    | cons key keys ih =>
      intro s queues ready holds
      obtain ⟨served, readyNext⟩ := serveReadyKey_served queues ready
      exact ih _ served.queues readyNext (step s key queues holds)
  have outer : ∀ (fuel : Nat) (s : BlockingServer κ α), Queues s → Ready [] s → P s → P (handleReadyKeys fuel s) := by
    intro fuel
    induction fuel with
    | zero => exact fun s _ _ holds => holds
    | succ fuel ih =>
      intro s queues ready holds
      rw [handleReadyKeys]
      split
      next => exact holds
      next =>
        obtain ⟨queuesTaken, readyTaken⟩ := taken_queues queues ready
        obtain ⟨served, readyEnd⟩ := serveReadyKeys_served s.readyKeys _ queuesTaken readyTaken
        exact ih _ served.queues readyEnd (inner s.readyKeys _ queuesTaken readyTaken (taken s holds))
  exact outer _ s queues ready holds

structure Quiet (s : BlockingServer κ α) : Prop where
  queues : Queues s
  ready : Ready [] s
  none : s.readyKeys = []

theorem quiet_start (loaded : LoadedKeys κ α) (dbnum : Nat) : Quiet (loaded.start dbnum) :=
  ⟨queues_start loaded dbnum, ready_start loaded dbnum, rfl⟩

theorem running_of_canCall (can : canCall s id = true) : Running s id := by
  simp only [canCall, Bool.and_eq_true, decide_eq_true_eq, Bool.not_eq_true'] at can
  exact ⟨can.1, can.2⟩

theorem lastcmd_queues (queues : Queues s) (running : Running s id) (blpop : Bool) :
    Queues (setLastcmd s id blpop) ∧ Running (setLastcmd s id blpop) id := by
  have client := modify_client s id id ({ · with blpop := blpop })
  refine ⟨modify_queues (f := ({ · with blpop := blpop })) queues rfl rfl rfl (.inl rfl), running.connected, ?_⟩
  rw [setLastcmd, client, if_pos rfl]
  exact running.free

theorem callCommand_queues [DecidableEq α] (queues : Queues s) (ready : Ready [] s) (running : Running s id)
    (cmd : BlockingCommand κ α) : Queues (callCommand s id cmd) ∧ Ready [] (callCommand s id cmd) := by
  obtain ⟨queues, running⟩ := lastcmd_queues queues running cmd.isBlpop
  obtain ⟨queues, readyEnd, _⟩ := callBlocking_queues queues running false cmd
  exact ⟨queues, readyEnd [] ⟨ready.nodup, ready.both⟩⟩

theorem callTransaction_ready [DecidableEq α] (queues : Queues s) (ready : Ready [] s) (running : Running s id)
    (commands : List (BlockingCommand κ α)) : Queues (callTransaction s id commands) ∧ Ready [] (callTransaction s id commands) := by
  obtain ⟨queues, running⟩ := lastcmd_queues queues running false
  obtain ⟨queues, readyEnd, _⟩ := callTransaction_queues commands _ queues running
  exact ⟨queues, readyEnd [] ⟨ready.nodup, ready.both⟩⟩

theorem handled_quiet (queues : Queues s) (ready : Ready [] s) : Quiet (handleClientsBlockedOnLists s) := by
  obtain ⟨queues, ready, none, _⟩ := handleClientsBlockedOnLists_done queues ready
  exact ⟨queues, ready, none⟩

theorem unblock_quiet (quiet : Quiet s) (id : Nat) : Quiet (unblockClientWaitingData s id) :=
  ⟨unblockClientWaitingData_queues quiet.queues id, ⟨quiet.ready.nodup, quiet.ready.both⟩, quiet.none⟩

theorem keeps_quiet (quiet : Quiet s) (keeps : Keeps s t) (readyKeys : t.readyKeys = s.readyKeys) : Quiet t :=
  ⟨keeps.queues quiet.queues, keeps.ready [] quiet.ready, readyKeys.trans quiet.none⟩

theorem release_quiet (quiet : Quiet s) (running : (s.client id).blocked = false) :
    Quiet { s.modify id fun _ => {} with clients := s.clients.erase id } := by
  obtain ⟨⟨⟨listed, nonempty, ordered, keysNodup⟩, idle, past, alive, clientsNodup⟩, ready, none⟩ := quiet
  have client (other : Nat) := modify_client s id other fun _ => {}
  have empty := idle id running
  have absent (key : Nat × κ) : id ∉ waiting s key := by
    rw [listed, waitsFor_iff, empty]
    exact fun both => absurd both.2 not_mem_nil
  refine ⟨⟨⟨?_, nonempty, ?_, ?_⟩, ?_, ?_, ?_, clientsNodup.erase id⟩, ⟨ready.nodup, ready.both⟩, none⟩
  · intro key other
    refine (listed key other).trans ?_
    rw [waitsFor_iff, waitsFor_iff]
    dsimp only
    rw [client]
    split
    next same => simp [same, empty]
    next => rfl
  · intro key
    refine (ordered key).imp_of_mem ?_
    intro first second firstQueued secondQueued before
    have firstOther : first ≠ id := fun same => absent key (same ▸ firstQueued)
    have secondOther : second ≠ id := fun same => absent key (same ▸ secondQueued)
    dsimp only
    rw [client, client, if_neg firstOther, if_neg secondOther]
    exact before
  · intro other
    dsimp only
    rw [client]
    split
    next => exact nodup_nil
    next => exact keysNodup other
  · intro other
    dsimp only
    rw [client]
    split
    next => exact fun _ => rfl
    next => exact idle other
  · intro other blocked
    dsimp only at blocked ⊢
    rw [client] at blocked ⊢
    split at blocked
    next => cases blocked
    next different =>
      rw [if_neg different]
      exact past other blocked
  · intro other blocked
    dsimp only at blocked ⊢
    rw [client] at blocked
    split at blocked
    next => cases blocked
    next different => exact clientsNodup.mem_erase_iff.mpr ⟨different, alive other blocked⟩

theorem blockingStep_quiet [DecidableEq α] (quiet : Quiet s) (step : BlockingStep κ α) : Quiet (blockingStep s step) := by
  cases step with
  | connect id =>
    rw [blockingStep]
    split
    next => exact quiet
    next new =>
      obtain ⟨⟨listed, idle, past, alive, clientsNodup⟩, ready, none⟩ := quiet
      refine ⟨⟨⟨listed.listed, listed.nonempty, listed.ordered, listed.keysNodup⟩, idle, past, ?_, ?_⟩, ⟨ready.nodup, ready.both⟩, none⟩
      · exact fun other blocked => mem_append_left _ (alive other blocked)
      · dsimp only
        rw [← concat_eq_append]
        exact clientsNodup.concat new
  | command id cmd =>
    rw [blockingStep]
    split
    next can =>
      obtain ⟨queues, ready⟩ := callCommand_queues quiet.queues quiet.ready (running_of_canCall can) cmd
      exact handled_quiet queues ready
    next => exact quiet
  | exec id commands =>
    rw [blockingStep]
    split
    next can =>
      obtain ⟨queues, ready⟩ := callTransaction_ready quiet.queues quiet.ready (running_of_canCall can) commands
      exact handled_quiet queues ready
    next => exact quiet
  | timeout id =>
    rw [blockingStep]
    split
    next => exact unblock_quiet (keeps_quiet quiet (addReply_keeps s id _) rfl) id
    next => exact quiet
  | disconnect id =>
    rw [blockingStep]
    split
    next =>
      dsimp only
      split
      next =>
        refine release_quiet (unblock_quiet quiet id) ?_
        rw [unblockClientWaitingData_client, if_pos rfl]
      next running => exact release_quiet quiet (Bool.not_eq_true _ ▸ running)
    next => exact quiet
  | expire key => exact keeps_quiet quiet (dbDelete_keeps s key) rfl

theorem blockingRun_quiet [DecidableEq α] : ∀ (steps : List (BlockingStep κ α)) (s : BlockingServer κ α), Quiet s →
    Quiet (blockingRun s steps) := by
  intro steps
  induction steps with
  | nil => exact fun s quiet => quiet
  | cons step steps ih => exact fun s quiet => ih _ (blockingStep_quiet quiet step)

end Cplusplus.Redis.BlockingServer
