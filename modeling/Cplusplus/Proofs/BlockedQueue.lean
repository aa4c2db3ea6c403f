import Cplusplus.Blocked
import Mathlib.Data.List.Nodup

/-! The queue of unblocked clients. A client is appended without a look at its flag, so the
queue is right as long as nobody unblocks a client that is in the queue, and no pause ends
while there are clients in it. -/

namespace Cplusplus.Redis.BlockedServer

open List

variable {s : BlockedServer} {id : Nat}

structure QueueOk (s : BlockedServer) : Prop where
  nodup : s.unblockedClients.Nodup
  flagged : ∀ id, id ∈ s.unblockedClients ↔ (s.client id).unblocked = true
  alive : ∀ id ∈ s.unblockedClients, id ∈ s.clients

structure Inv (s : BlockedServer) : Prop extends QueueOk s where
  clientsNodup : s.clients.Nodup
  blockedAlive : ∀ id, s.isBlocked id = true → id ∈ s.clients

theorem inv_start : Inv blockedStart where
  nodup := nodup_nil
  flagged id := ⟨fun member => absurd member not_mem_nil, fun flag => (by cases flag)⟩
  alive id member := absurd member not_mem_nil
  clientsNodup := nodup_nil
  blockedAlive id blocked := by cases blocked

def Fresh (s : BlockedServer) (id : Nat) : Prop := s.isBlocked id = true → (s.client id).unblocked = false

def PauseFine (s : BlockedServer) : Prop :=
  pauseEnds s = true → ∀ id ∈ s.clients, (s.client id).slave = false → s.isBlocked id = false → (s.client id).unblocked = false

def RequestFine (s : BlockedServer) (id : Nat) : BlockedRequest → Prop
  | .push served => ∀ other ∈ served, (s.client other).btype = .list → (s.client other).unblocked = false
  | .kill other => other ≠ id → other ∈ s.clients → Fresh s other
  | .slaveof => ∀ other ∈ s.clients, Fresh s other
  | _ => True

def Serves (s : BlockedServer) (id : Nat) : Prop :=
  ((s.client id).slave = true ∨ s.clientsPaused = false ∨ pauseEnds s = true) ∧ s.isBlocked id = false ∧
    (s.client id).closeAfterReply = false

def StepFine (s : BlockedServer) : BlockedStep → Prop
  | .input id => id ∈ s.clients → ∀ request rest, (s.client id).querybuf = request :: rest →
      ((s.client id).slave = false → PauseFine s) ∧ (Serves s id → RequestFine s id request)
  | .timeout id => Fresh s id
  | .acks ids => ∀ id ∈ ids, (s.client id).btype = .wait → (s.client id).unblocked = false
  | .disconnect id => id ∈ s.clients → Fresh s id
  | .cron => PauseFine s
  | _ => True

theorem modify_client (s : BlockedServer) (id other : Nat) (f : BlockedClient → BlockedClient) :
    (s.modify id f).client other = if other = id then f (s.client id) else s.client other := by
  by_cases same : other = id
  · subst same
    rw [if_pos rfl]
    exact Function.update_self _ _ _
  · rw [if_neg same]
    exact Function.update_of_ne same _ _

theorem modify_inv {f : BlockedClient → BlockedClient} (inv : Inv s)
    (keeps : (f (s.client id)).unblocked = (s.client id).unblocked)
    (blocks : (f (s.client id)).btype ≠ .none → id ∈ s.clients) : Inv (s.modify id f) where
  nodup := inv.nodup
  flagged other := by
    rw [modify_client]
    split
    next same => rw [keeps, ← same]; exact inv.flagged other
    next => exact inv.flagged other
  alive := inv.alive
  clientsNodup := inv.clientsNodup
  blockedAlive other blocked := by
    rw [isBlocked, modify_client] at blocked
    split at blocked
    next same => exact same ▸ blocks (of_decide_eq_true blocked)
    next => exact inv.blockedAlive other blocked

theorem enqueue_inv {f : BlockedClient → BlockedClient} (inv : Inv s) (member : id ∈ s.clients)
    (clear : (s.client id).unblocked = false) (flag : (f (s.client id)).unblocked = true) :
    Inv { s.modify id f with unblockedClients := (s.modify id f).unblockedClients ++ [id] } where
  nodup := by
    apply nodup_append.mpr
    refine ⟨inv.nodup, nodup_singleton id, ?_⟩
    intro a first b second same
    have first : a ∈ s.unblockedClients := first
    rw [mem_singleton.mp second] at same
    rw [same, inv.flagged, clear] at first
    cases first
  flagged other := by
    rw [mem_append, mem_singleton, modify_client]
    split
    next same => exact ⟨fun _ => flag, fun _ => .inr same⟩
    next different => exact ⟨fun either => (inv.flagged other).mp (either.resolve_right different),
      fun set => .inl ((inv.flagged other).mpr set)⟩
  alive other queued := by
    rcases mem_append.mp queued with first | last
    · exact inv.alive other first
    · exact mem_singleton.mp last ▸ member
  clientsNodup := inv.clientsNodup
  blockedAlive other blocked := by
    by_cases same : other = id
    · exact same ▸ member
    · have kept : (s.modify id f).client other = s.client other := by rw [modify_client, if_neg same]
      have blocked : decide (((s.modify id f).client other).btype ≠ .none) = true := blocked
      rw [kept] at blocked
      exact inv.blockedAlive other blocked

theorem unblockClient_inv (inv : Inv s) (member : id ∈ s.clients) (clear : (s.client id).unblocked = false) : Inv (unblockClient s id) :=
  enqueue_inv inv member clear rfl

theorem unblockClient_client (s : BlockedServer) (id other : Nat) : (unblockClient s id).client other =
    if other = id then { s.client id with btype := .none, unblocked := true } else s.client other :=
  modify_client s id other ({ · with btype := .none, unblocked := true })

theorem unblockAll_inv {btype : Btype} (blocks : btype ≠ .none) : ∀ (ids : List Nat) (s : BlockedServer), Inv s →
    (∀ id ∈ ids, (s.client id).btype = btype → (s.client id).unblocked = false) → Inv (unblockAll s btype ids) := by
  intro ids
  induction ids with
  | nil => exact fun s inv _ => inv
  | cons id ids ih =>
    intro s inv fine
    rw [unblockAll, foldl_cons]
    split
    next waits =>
      have member : id ∈ s.clients := inv.blockedAlive id (decide_eq_true (waits ▸ blocks))
      apply ih _ (unblockClient_inv inv member (fine id mem_cons_self waits))
      intro other later waits'
      rw [unblockClient_client] at waits' ⊢
      split at waits'
      next => exact absurd waits'.symm blocks
      next different =>
        rw [if_neg different]
        exact fine other (mem_cons_of_mem _ later) waits'
    next => exact ih s inv fun other later => fine other (mem_cons_of_mem _ later)

theorem disconnectAll_inv (inv : Inv s) (fine : ∀ id ∈ s.clients, Fresh s id) : Inv (disconnectAllBlockedClients s) := by
  have loop : ∀ (ids : List Nat) (s : BlockedServer), Inv s → (∀ id ∈ ids, Fresh s id) → Inv (ids.foldl (fun s id =>
        if s.isBlocked id then (unblockClient s id).modify id ({ · with closeAfterReply := true }) else s) s) := by
    intro ids
    induction ids with
    | nil => exact fun s inv _ => inv
    | cons id ids ih =>
      intro s inv fine
      rw [foldl_cons]
      split
      next blocked =>
        have member := inv.blockedAlive id blocked
        have unblocked := unblockClient_inv inv member (fine id mem_cons_self blocked)
        refine ih _ (modify_inv unblocked rfl fun _ => member) ?_
        intro other later blocked'
        rw [isBlocked, modify_client, unblockClient_client, unblockClient_client] at blocked'
        rw [modify_client, unblockClient_client, unblockClient_client]
        by_cases same : other = id
        · rw [if_pos same, if_pos rfl] at blocked'
          cases blocked'
        · rw [if_neg same, if_neg same] at blocked' ⊢
          exact fine other (mem_cons_of_mem _ later) blocked'
      next => exact ih s inv fun other later => fine other (mem_cons_of_mem _ later)
  exact loop s.clients s inv fine

def Unpaused (c c' : BlockedClient) : Prop := c' = c ∨ (c.btype = .none ∧ c' = { c with unblocked := true })

theorem unpauseClient_client (s : BlockedServer) (id other : Nat) : Unpaused (s.client other) ((unpauseClient s id).client other) := by
  rw [unpauseClient]
  split
  next => exact .inl rfl
  next runs =>
    have kept := modify_client s id other ({ · with unblocked := true })
    by_cases same : other = id
    · subst same
      rw [if_pos rfl] at kept
      rw [Bool.not_eq_true, Bool.or_eq_false_iff] at runs
      exact .inr ⟨not_not.mp (of_decide_eq_false runs.2), kept⟩
    · rw [if_neg same] at kept
      exact .inl kept

theorem unpauseClient_inv (inv : Inv s) (member : id ∈ s.clients)
    (clear : (s.client id).slave = false → s.isBlocked id = false → (s.client id).unblocked = false) : Inv (unpauseClient s id) := by
  rw [unpauseClient]
  split
  next => exact inv
  next runs =>
    rw [Bool.not_eq_true, Bool.or_eq_false_iff] at runs
    exact enqueue_inv inv member (clear runs.1 runs.2) rfl

section
variable (s)

theorem unpauseClient_other {other : Nat} (different : other ≠ id) : (unpauseClient s id).client other = s.client other := by
  rw [unpauseClient]
  split
  next => rfl
  next => exact Function.update_of_ne different _ _

theorem unpauseClient_clients (id : Nat) : (unpauseClient s id).clients = s.clients := by
  rw [unpauseClient]
  split <;> rfl

theorem unpauseClient_paused (id : Nat) : (unpauseClient s id).clientsPaused = s.clientsPaused := by
  rw [unpauseClient]
  split <;> rfl

end

theorem unpauseClients_inv : ∀ (ids : List Nat) (s : BlockedServer), Inv s → ids.Nodup → (∀ id ∈ ids, id ∈ s.clients) →
    (∀ id ∈ ids, (s.client id).slave = false → s.isBlocked id = false → (s.client id).unblocked = false) →
    Inv (ids.foldl unpauseClient s) := by
  intro ids
  induction ids with
  | nil => exact fun s inv _ _ _ => inv
  | cons id ids ih =>
    intro s inv distinct members clear
    obtain ⟨notLater, distinct⟩ := nodup_cons.mp distinct
    rw [foldl_cons]
    apply ih _ (unpauseClient_inv inv (members id mem_cons_self) (clear id mem_cons_self)) distinct
    · intro other later
      rw [unpauseClient_clients]
      exact members other (mem_cons_of_mem _ later)
    · intro other later
      have different : other ≠ id := by
        rintro rfl
        exact notLater later
      rw [isBlocked, unpauseClient_other s different]
      exact clear other (mem_cons_of_mem _ later)

theorem unpauseClients_client (other : Nat) : ∀ (ids : List Nat) (s : BlockedServer),
    Unpaused (s.client other) ((ids.foldl unpauseClient s).client other) ∧
      (ids.foldl unpauseClient s).clients = s.clients ∧ (ids.foldl unpauseClient s).clientsPaused = s.clientsPaused := by
  intro ids
  induction ids with
  | nil => exact fun s => ⟨.inl rfl, rfl, rfl⟩
  | cons id ids ih =>
    intro s
    rw [foldl_cons]
    obtain ⟨client, clients, paused⟩ := ih (unpauseClient s id)
    refine ⟨?_, clients.trans (unpauseClient_clients s id), paused.trans (unpauseClient_paused s id)⟩
    rcases unpauseClient_client s id other with same | ⟨waits, set⟩
    · rwa [same] at client
    · right
      rw [set] at client
      rcases client with same | ⟨_, again⟩
      · exact ⟨waits, same⟩
      · exact ⟨waits, again⟩

theorem clientsArePaused_inv (inv : Inv s) (fine : PauseFine s) : Inv (clientsArePaused s) := by
  rw [clientsArePaused]
  split
  next ends =>
    apply unpauseClients_inv s.clients { s with clientsPaused := false } _ inv.clientsNodup (fun _ member => member) (fine ends)
    exact ⟨⟨inv.nodup, inv.flagged, inv.alive⟩, inv.clientsNodup, inv.blockedAlive⟩
  next => exact inv

theorem clientsArePaused_client (s : BlockedServer) (id : Nat) : Unpaused (s.client id) ((clientsArePaused s).client id) := by
  rw [clientsArePaused]
  split
  next => exact (unpauseClients_client id s.clients { s with clientsPaused := false }).1
  next => exact .inl rfl

theorem clientsArePaused_clients (s : BlockedServer) : (clientsArePaused s).clients = s.clients := by
  rw [clientsArePaused]
  split
  next => exact (unpauseClients_client 0 s.clients { s with clientsPaused := false }).2.1
  next => rfl

theorem clientsArePaused_paused (runs : (clientsArePaused s).clientsPaused = false) : s.clientsPaused = false ∨ pauseEnds s = true := by
  rw [clientsArePaused] at runs
  split at runs
  next ends => exact .inr ends
  next => exact .inl runs

theorem release_inv (inv : Inv s) (id : Nat) : Inv (BlockedServer.modify { s with
      clients := s.clients.erase id
      unblockedClients := if (s.client id).unblocked then s.unblockedClients.erase id else s.unblockedClients } id fun _ => {}) := by
  have queue : (if (s.client id).unblocked then s.unblockedClients.erase id else s.unblockedClients) = s.unblockedClients.erase id := by
    split
    next => rfl
    next clear => exact (erase_of_not_mem fun queued => clear ((inv.flagged id).mp queued)).symm
  rw [queue]
  have client (other : Nat) := modify_client { s with clients := s.clients.erase id, unblockedClients := s.unblockedClients.erase id }
    id other fun _ => {}
  refine ⟨⟨inv.nodup.erase id, ?_, ?_⟩, inv.clientsNodup.erase id, ?_⟩
  · intro other
    refine inv.nodup.mem_erase_iff.trans ?_
    rw [client]
    split
    next same => exact ⟨fun both => absurd same both.1, fun flag => (by cases flag)⟩
    next different => exact ⟨fun both => (inv.flagged other).mp both.2, fun flag => ⟨different, (inv.flagged other).mpr flag⟩⟩
  · intro other queued
    have both := inv.nodup.mem_erase_iff.mp queued
    exact inv.clientsNodup.mem_erase_iff.mpr ⟨both.1, inv.alive other both.2⟩
  · intro other blocked
    rw [isBlocked, client] at blocked
    split at blocked
    next => cases blocked
    next different => exact inv.clientsNodup.mem_erase_iff.mpr ⟨different, inv.blockedAlive other blocked⟩

theorem freeClient_inv (inv : Inv s) (member : id ∈ s.clients) (fresh : Fresh s id) : Inv (freeClient s id) := by
  unfold freeClient
  dsimp only
  split
  next cached =>
    simp only [Bool.and_eq_true, Bool.not_eq_true', Bool.or_eq_false_iff] at cached
    obtain ⟨_, ⟨_, notBlocked⟩, clear⟩ := cached
    refine ⟨⟨inv.nodup, inv.flagged, ?_⟩, inv.clientsNodup.erase id, ?_⟩
    · intro other queued
      refine inv.clientsNodup.mem_erase_iff.mpr ⟨?_, inv.alive other queued⟩
      rintro rfl
      rw [inv.flagged, clear] at queued
      cases queued
    · intro other blocked
      refine inv.clientsNodup.mem_erase_iff.mpr ⟨?_, inv.blockedAlive other blocked⟩
      rintro rfl
      exact absurd blocked (notBlocked ▸ Bool.false_ne_true)
  next =>
    have unblocked : Inv (if s.isBlocked id then unblockClient s id else s) := by
      split
      next blocked => exact unblockClient_inv inv member (fresh blocked)
      next => exact inv
    have released := release_inv unblocked id
    generalize (if s.isBlocked id then unblockClient s id else s) = t at released ⊢
    split
    next flag => rwa [if_pos flag] at released
    next flag => rwa [if_neg flag] at released

theorem nextUnblocked_inv (inv : Inv s) : Inv (nextUnblocked s) := by
  unfold nextUnblocked
  split
  next => exact inv
  next id rest queue =>
    obtain ⟨notLater, distinct⟩ := nodup_cons.mp (queue ▸ inv.nodup)
    have client (other : Nat) := modify_client { s with unblockedClients := rest } id other ({ · with unblocked := false })
    refine ⟨⟨distinct, ?_, ?_⟩, inv.clientsNodup, ?_⟩
    · intro other
      rw [client]
      split
      next same => exact ⟨fun later => absurd (same ▸ later) notLater, fun flag => (by cases flag)⟩
      next different =>
        refine Iff.trans ?_ (inv.flagged other)
        rw [queue, mem_cons]
        exact ⟨.inr, fun either => either.resolve_left different⟩
    · intro other later
      exact inv.alive other (queue ▸ mem_cons_of_mem _ later)
    · intro other blocked
      apply inv.blockedAlive other
      rw [isBlocked, client] at blocked
      split at blocked
      next same => exact same ▸ blocked
      next => exact blocked

theorem runRequest_inv {request : BlockedRequest} (inv : Inv s) (member : id ∈ s.clients)
    (fine : RequestFine s id request) : Inv (runRequest s id request) := by
  cases request with
  | blockList => exact modify_inv (f := ({ · with btype := .list })) inv rfl fun _ => member
  | blockWait => exact modify_inv (f := ({ · with btype := .wait })) inv rfl fun _ => member
  | push served => exact unblockAll_inv (by simp) served s inv fine
  | pause end_ => exact ⟨⟨inv.nodup, inv.flagged, inv.alive⟩, inv.clientsNodup, inv.blockedAlive⟩
  | kill other =>
    rw [runRequest]
    split
    next => exact modify_inv (f := ({ · with closeAfterReply := true })) inv rfl fun _ => member
    next different =>
      split
      next connected => exact freeClient_inv inv connected (fine different connected)
      next => exact inv
  | sync => exact modify_inv (f := ({ · with slave := true })) inv rfl fun _ => member
  | slaveof => exact disconnectAll_inv inv fine
  | quit => exact modify_inv (f := ({ · with closeAfterReply := true })) inv rfl fun _ => member
  | other => exact inv

/-- The condition of a request, at a state where the clients have changed as they do at the
end of a pause. -/
theorem requestFine_of_unpaused {t : BlockedServer} {request : BlockedRequest} (clients : t.clients = s.clients)
    (unpaused : ∀ other, (t.client other).btype = (s.client other).btype ∧
      ((s.client other).btype ≠ .none → (t.client other).unblocked = (s.client other).unblocked))
    (fine : RequestFine s id request) : RequestFine t id request := by
  have fresh (other : Nat) (before : Fresh s other) : Fresh t other := by
    intro blocked
    rw [isBlocked, (unpaused other).1] at blocked
    exact ((unpaused other).2 (of_decide_eq_true blocked)).trans (before blocked)
  cases request with
  | push served =>
    intro other member waits
    rw [(unpaused other).1] at waits
    exact ((unpaused other).2 (by simp [waits])).trans (fine other member waits)
  | kill other => exact fun different connected => fresh other (fine different (clients ▸ connected))
  | slaveof => exact fun other connected => fresh other (fine other (clients ▸ connected))
  | blockList | blockWait | pause | sync | quit | other => trivial

theorem processInput_inv (inv : Inv s) (member : id ∈ s.clients) (fine : StepFine s (.input id)) : Inv (processInput s id) := by
  unfold processInput
  split
  next => exact inv
  next request rest buffer =>
    obtain ⟨pause, serve⟩ := fine member request rest buffer
    dsimp only
    generalize input : (if (s.client id).slave then s else clientsArePaused s) = t
    -- `t` is `s`, or `s` after the end of a pause.
    have unpaused : Inv t ∧ (∀ other, Unpaused (s.client other) (t.client other)) ∧ t.clients = s.clients ∧
        (t.clientsPaused = false → (s.client id).slave = false → s.clientsPaused = false ∨ pauseEnds s = true) := by
      rw [← input]
      split
      next slave => exact ⟨inv, fun _ => .inl rfl, rfl, fun _ notSlave => absurd slave (by simp [notSlave])⟩
      next notSlave =>
        exact ⟨clientsArePaused_inv inv (pause (Bool.not_eq_true _ ▸ notSlave)), clientsArePaused_client s, clientsArePaused_clients s,
          fun runs _ => clientsArePaused_paused runs⟩
    obtain ⟨invT, clientT, clientsT, pausedT⟩ := unpaused
    have same (other : Nat) : (t.client other).btype = (s.client other).btype ∧
        ((s.client other).btype ≠ .none → (t.client other).unblocked = (s.client other).unblocked) ∧
        (t.client other).slave = (s.client other).slave ∧ (t.client other).closeAfterReply = (s.client other).closeAfterReply := by
      rcases clientT other with eq | ⟨runs, eq⟩
      · rw [eq]
        exact ⟨rfl, fun _ => rfl, rfl, rfl⟩
      · rw [eq]
        exact ⟨rfl, fun blocked => absurd runs blocked, rfl, rfl⟩
    split
    next => exact invT
    next notPaused =>
      split
      next => exact invT
      next runs =>
        rw [Bool.not_eq_true, Bool.or_eq_false_iff, isBlocked, (same id).1, (same id).2.2.2] at runs
        rw [Bool.not_eq_true, Bool.and_eq_false_iff, (same id).2.2.1] at notPaused
        have serves : Serves s id := by
          refine ⟨?_, runs.1, runs.2⟩
          cases slave : (s.client id).slave with
          | true => exact .inl rfl
          | false =>
            rw [slave] at notPaused
            exact .inr (pausedT (notPaused.resolve_left (by simp)) slave)
        have client (other : Nat) := modify_client t id other ({ · with querybuf := rest })
        apply runRequest_inv (modify_inv invT rfl fun _ => clientsT ▸ member) (show id ∈ t.clients from clientsT ▸ member)
        refine requestFine_of_unpaused (t := t.modify id ({ · with querybuf := rest })) clientsT ?_ (serve serves)
        intro other
        rw [client]
        split
        next eq =>
          subst eq
          exact ⟨(same other).1, (same other).2.1⟩
        next => exact ⟨(same other).1, (same other).2.1⟩

theorem append_inv (inv : Inv s) (new : id ∉ s.clients) : Inv { s with clients := s.clients ++ [id] } where
  nodup := inv.nodup
  flagged := inv.flagged
  alive other queued := mem_append_left _ (inv.alive other queued)
  clientsNodup := by
    dsimp only
    rw [← concat_eq_append]
    exact inv.clientsNodup.concat new
  blockedAlive other blocked := mem_append_left _ (inv.blockedAlive other blocked)

theorem blockedStep_inv {step : BlockedStep} (inv : Inv s) (fine : StepFine s step) : Inv (blockedStep s step) := by
  cases step with
  | accept id =>
    rw [blockedStep]
    split
    next => exact inv
    next new => exact append_inv inv fun member => new (.inl member)
  | read id requests =>
    rw [blockedStep]
    split
    next member => exact modify_inv inv rfl fun _ => member
    next => exact inv
  | input id =>
    rw [blockedStep]
    split
    next member => exact processInput_inv inv member fine
    next => exact inv
  | next => exact nextUnblocked_inv inv
  | timeout id =>
    rw [blockedStep]
    split
    next blocked => exact unblockClient_inv inv (inv.blockedAlive id blocked) (fine blocked)
    next => exact inv
  | acks ids => exact unblockAll_inv (by simp) ids s inv fine
  | disconnect id =>
    rw [blockedStep]
    split
    next member => exact freeClient_inv inv member (fine member)
    next => exact inv
  | connectMaster id =>
    rw [blockedStep]
    split
    next => exact inv
    next new =>
      have idle (blocked : (s.client id).btype ≠ .none) : id ∈ s.clients := inv.blockedAlive id (decide_eq_true blocked)
      exact append_inv (modify_inv (f := ({ · with master := true })) inv rfl idle) fun member => new (.inl member)
  | resurrect =>
    rw [blockedStep]
    split
    next => exact inv
    next id _ =>
      split
      next => exact inv
      next new =>
        have idle (blocked : (s.client id).btype ≠ .none) : id ∈ s.clients := inv.blockedAlive id (decide_eq_true blocked)
        have kept := append_inv (modify_inv (f := ({ · with closeAfterReply := false, closeAsap := false })) inv rfl idle) new
        exact ⟨⟨kept.nodup, kept.flagged, kept.alive⟩, kept.clientsNodup, kept.blockedAlive⟩
  | discard =>
    rw [blockedStep]
    split
    next => exact inv
    next id _ =>
      split
      next => exact inv
      next released =>
        -- Only clients that are alive have the flag.
        have clear : (s.client id).unblocked = false := by
          rw [← Bool.not_eq_true, ← inv.flagged]
          exact fun queued => released (inv.alive id queued)
        have kept := modify_inv (f := fun _ => {}) inv clear.symm fun blocked => absurd rfl blocked
        exact ⟨⟨kept.nodup, kept.flagged, kept.alive⟩, kept.clientsNodup, kept.blockedAlive⟩
  | tick mstime => exact ⟨⟨inv.nodup, inv.flagged, inv.alive⟩, inv.clientsNodup, inv.blockedAlive⟩
  | cron => exact clientsArePaused_inv inv fine

def StepsFine (s : BlockedServer) : List BlockedStep → Prop
  | [] => True
  | step :: steps => StepFine s step ∧ StepsFine (blockedStep s step) steps

theorem blockedRun_inv : ∀ (steps : List BlockedStep) (s : BlockedServer), Inv s → StepsFine s steps → Inv (blockedRun s steps) := by
  intro steps
  induction steps with
  | nil => exact fun s inv _ => inv
  | cons step steps ih => exact fun s inv fine => ih (blockedStep s step) (blockedStep_inv inv fine.1) fine.2

/-- A run without a client that is unblocked while it is queued keeps the queue of unblocked
clients in agreement with their flags. -/
theorem unblocked_queue_ok (steps : List BlockedStep) (fine : StepsFine blockedStart steps) :
    QueueOk (blockedRun blockedStart steps) :=
  (blockedRun_inv steps blockedStart inv_start fine).toQueueOk

/-- Two clients; the first is blocked, and the second serves it. -/
theorem unblocked_queue_ok_served :
    StepsFine blockedStart [.accept 0, .accept 1, .read 0 [.blockList], .input 0, .read 1 [.push [0]], .input 1] ∧
      QueueOk (blockedRun blockedStart [.accept 0, .accept 1, .read 0 [.blockList], .input 0, .read 1 [.push [0]], .input 1]) := by
  have fine : StepsFine blockedStart [.accept 0, .accept 1, .read 0 [.blockList], .input 0, .read 1 [.push [0]], .input 1] := by
    refine ⟨trivial, trivial, trivial, ?_, trivial, ?_, trivial⟩
    · intro _ request rest buffer
      refine ⟨fun _ ends => (by cases ends), fun _ => ?_⟩
      cases buffer
      trivial
    · intro _ request rest buffer
      refine ⟨fun _ ends => (by cases ends), fun _ => ?_⟩
      cases buffer
      intro other served _
      cases mem_singleton.mp served
      rfl
  exact ⟨fine, unblocked_queue_ok _ fine⟩

/-- A client with two blocking pops in its query buffer is served twice, and then disconnects. -/
theorem released_client_queued :
    let run := blockedRun blockedStart [.accept 0, .accept 1, .read 0 [.blockList, .blockList], .input 0,
      .read 1 [.push [0], .push [0]], .input 1, .input 0, .input 1]
    run.unblockedClients = [0, 0] ∧ 0 ∈ (blockedStep run (.disconnect 0)).unblockedClients ∧
      0 ∉ (blockedStep run (.disconnect 0)).clients ∧ ¬ QueueOk run ∧ ¬ QueueOk (blockedStep run (.disconnect 0)) := by
  intro run
  have queued : 0 ∈ (blockedStep run (.disconnect 0)).unblockedClients := by decide
  have released : 0 ∉ (blockedStep run (.disconnect 0)).clients := by decide
  exact ⟨rfl, queued, released, fun ok => absurd ok.nodup (by decide), fun ok => released (ok.alive 0 queued)⟩

end Cplusplus.Redis.BlockedServer
