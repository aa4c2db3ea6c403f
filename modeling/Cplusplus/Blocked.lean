import Mathlib.Logic.Function.Basic

/-! `blocked.c`, and what `networking.c` does with `server.unblocked_clients`. A run takes
the loops of `processInputBuffer` and `processUnblockedClients` one iteration at a time, so
the steps of other clients may come between them. -/

namespace Cplusplus.Redis

inductive Btype where
  | none | list | wait
deriving DecidableEq

inductive BlockedRequest where
  | blockList
  /-- WAIT without enough replicas. -/
  | blockWait
  | push (served : List Nat)
  | pause (end_ : Nat)
  | kill (id : Nat)
  | sync
  /-- SLAVEOF: `disconnectAllBlockedClients` -/
  | slaveof
  | quit
  | other

structure BlockedClient where
  btype : Btype := .none
  unblocked : Bool := false
  slave : Bool := false
  master : Bool := false
  closeAfterReply : Bool := false
  closeAsap : Bool := false
  querybuf : List BlockedRequest := []

structure BlockedServer where
  clients : List Nat
  client : Nat → BlockedClient
  unblockedClients : List Nat
  clientsPaused : Bool
  clientsPauseEndTime : Nat
  mstime : Nat
  cachedMaster : Option Nat

namespace BlockedServer

def modify (s : BlockedServer) (id : Nat) (f : BlockedClient → BlockedClient) : BlockedServer :=
  { s with client := Function.update s.client id (f (s.client id)) }

/-- `c->flags & REDIS_BLOCKED` -/
def isBlocked (s : BlockedServer) (id : Nat) : Bool := (s.client id).btype ≠ .none

end BlockedServer

def blockClient (s : BlockedServer) (id : Nat) (btype : Btype) : BlockedServer := s.modify id ({ · with btype := btype })

def unblockClient (s : BlockedServer) (id : Nat) : BlockedServer :=
  let s := s.modify id ({ · with btype := .none, unblocked := true })
  { s with unblockedClients := s.unblockedClients ++ [id] }

def pauseClients (s : BlockedServer) (end_ : Nat) : BlockedServer :=
  { s with
    clientsPauseEndTime := if !s.clientsPaused || s.clientsPauseEndTime < end_ then end_ else s.clientsPauseEndTime
    clientsPaused := true }

def pauseEnds (s : BlockedServer) : Bool := s.clientsPaused && s.clientsPauseEndTime < s.mstime

def unpauseClient (s : BlockedServer) (id : Nat) : BlockedServer :=
  if (s.client id).slave || s.isBlocked id then s
  else
    let s := s.modify id ({ · with unblocked := true })
    { s with unblockedClients := s.unblockedClients ++ [id] }

def clientsArePaused (s : BlockedServer) : BlockedServer :=
  if pauseEnds s then s.clients.foldl unpauseClient { s with clientsPaused := false } else s

def freeClient (s : BlockedServer) (id : Nat) : BlockedServer :=
  let c := s.client id
  if c.master && !(c.closeAfterReply || c.closeAsap || s.isBlocked id || c.unblocked) then
    { s with clients := s.clients.erase id, cachedMaster := some id }
  else
    let s := if s.isBlocked id then unblockClient s id else s
    let s := { s with clients := s.clients.erase id }
    let s := if (s.client id).unblocked then { s with unblockedClients := s.unblockedClients.erase id } else s
    s.modify id fun _ => {}

def unblockAll (s : BlockedServer) (btype : Btype) (ids : List Nat) : BlockedServer :=
  ids.foldl (fun s id => if (s.client id).btype = btype then unblockClient s id else s) s

def disconnectAllBlockedClients (s : BlockedServer) : BlockedServer :=
  s.clients.foldl
    (fun s id => if s.isBlocked id then (unblockClient s id).modify id ({ · with closeAfterReply := true }) else s) s

def runRequest (s : BlockedServer) (id : Nat) : BlockedRequest → BlockedServer
  | .blockList => blockClient s id .list
  | .blockWait => blockClient s id .wait
  | .push served => unblockAll s .list served
  | .pause end_ => pauseClients s end_
  | .kill other =>
    if other = id then s.modify id ({ · with closeAfterReply := true })
    else if other ∈ s.clients then freeClient s other else s
  | .sync => s.modify id ({ · with slave := true })
  | .slaveof => disconnectAllBlockedClients s
  | .quit => s.modify id ({ · with closeAfterReply := true })
  | .other => s

def processInput (s : BlockedServer) (id : Nat) : BlockedServer :=
  match (s.client id).querybuf with
  | [] => s
  | request :: rest =>
    let s := if (s.client id).slave then s else clientsArePaused s
    if !(s.client id).slave && s.clientsPaused then s
    else if s.isBlocked id || (s.client id).closeAfterReply then s
    else runRequest (s.modify id ({ · with querybuf := rest })) id request

def nextUnblocked (s : BlockedServer) : BlockedServer :=
  match s.unblockedClients with
  | [] => s
  | id :: rest => ({ s with unblockedClients := rest }).modify id ({ · with unblocked := false })

inductive BlockedStep where
  | accept (id : Nat)
  | read (id : Nat) (requests : List BlockedRequest)
  | input (id : Nat)
  | next
  | timeout (id : Nat)
  | acks (ids : List Nat)
  | disconnect (id : Nat)
  | connectMaster (id : Nat)
  | resurrect
  | discard
  | tick (mstime : Nat)
  | cron

def blockedStep (s : BlockedServer) : BlockedStep → BlockedServer
  | .accept id => if id ∈ s.clients ∨ s.cachedMaster = some id then s else { s with clients := s.clients ++ [id] }
  | .read id requests => if id ∈ s.clients then s.modify id fun c => { c with querybuf := c.querybuf ++ requests } else s
  | .input id => if id ∈ s.clients then processInput s id else s
  | .next => nextUnblocked s
  | .timeout id => if s.isBlocked id then unblockClient s id else s
  | .acks ids => unblockAll s .wait ids
  | .disconnect id => if id ∈ s.clients then freeClient s id else s
  | .connectMaster id =>
    if id ∈ s.clients ∨ s.cachedMaster.isSome ∨ s.clients.any (fun id => (s.client id).master) then s
    else { s.modify id ({ · with master := true }) with clients := s.clients ++ [id] }
  | .resurrect =>
    match s.cachedMaster with
    | none => s
    | some id =>
      if id ∈ s.clients then s
      else
        let s := s.modify id ({ · with closeAfterReply := false, closeAsap := false })
        { s with clients := s.clients ++ [id], cachedMaster := none }
  | .discard =>
    match s.cachedMaster with
    | none => s
    | some id => if id ∈ s.clients then s else { s.modify id fun _ => {} with cachedMaster := none }
  | .tick mstime => { s with mstime := mstime }
  | .cron => clientsArePaused s

def blockedRun (s : BlockedServer) (steps : List BlockedStep) : BlockedServer := steps.foldl blockedStep s

def blockedStart : BlockedServer := ⟨[], fun _ => {}, [], false, 0, 0, none⟩

end Cplusplus.Redis
