import Mathlib.Data.List.Basic

/-! WAIT of `replication.c`: clients wait until enough slaves have acknowledged an offset. Times are left
out: a timeout is an event. -/

namespace Cplusplus.Redis.WaitReplicas

/-- REDIS_REPL_WAIT_BGSAVE_START, REDIS_REPL_WAIT_BGSAVE_END, REDIS_REPL_SEND_BULK and REDIS_REPL_ONLINE -/
inductive ReplState where
  | waitBgsaveStart | waitBgsaveEnd | sendBulk | online
deriving DecidableEq

structure Slave where
  client : Nat
  replstate : ReplState
  replAckOff : Int

structure Waiter where
  client : Nat
  reploffset : Int
  numreplicas : Int

/-- `replies` are the integers sent by WAIT, the last ones at the end. -/
structure Server where
  slaves : List Slave
  clientsWaitingAcks : List Waiter
  replies : List (Nat × Int)

def replicationCountAcksByOffset (slaves : List Slave) (offset : Int) : Nat :=
  slaves.foldl (fun count slave =>
    if slave.replstate ≠ .online then count else if offset ≤ slave.replAckOff then count + 1 else count) 0

/-- `numreplicas` is a long argument, and an int in the client. -/
def waitCommand (s : Server) (client : Nat) (woff numreplicas : Int) (multi : Bool) : Server :=
  let ackreplicas := replicationCountAcksByOffset s.slaves woff
  if numreplicas ≤ ackreplicas ∨ multi then { s with replies := s.replies ++ [(client, (ackreplicas : Int))] }
  else { s with clientsWaitingAcks := s.clientsWaitingAcks ++ [⟨client, woff, (BitVec.ofInt 32 numreplicas).toInt⟩] }

def waitingLoop (slaves : List Slave) : List Waiter → Int → Int → List Waiter × List (Nat × Int)
  | [], _, _ => ([], [])
  | c :: rest, lastOffset, lastNumreplicas =>
    if lastOffset ≠ 0 ∧ c.reploffset < lastOffset ∧ c.numreplicas < lastNumreplicas then
      let after := waitingLoop slaves rest lastOffset lastNumreplicas
      (after.1, (c.client, lastNumreplicas) :: after.2)
    else
      let numreplicas := (replicationCountAcksByOffset slaves c.reploffset : Int)
      if c.numreplicas ≤ numreplicas then
        let after := waitingLoop slaves rest c.reploffset numreplicas
        (after.1, (c.client, numreplicas) :: after.2)
      else
        let after := waitingLoop slaves rest lastOffset lastNumreplicas
        (c :: after.1, after.2)

def processClientsWaitingReplicas (s : Server) : Server :=
  let after := waitingLoop s.slaves s.clientsWaitingAcks 0 0
  { s with clientsWaitingAcks := after.1, replies := s.replies ++ after.2 }

/-- REPLCONF ACK; an older offset is ignored. -/
def replconfAck (s : Server) (client : Nat) (offset : Int) : Server :=
  { s with slaves := s.slaves.map fun slave =>
      if slave.client = client ∧ slave.replAckOff < offset then { slave with replAckOff := offset } else slave }

def clientTimedOut (s : Server) (client : Nat) : Server :=
  let timedOut := s.clientsWaitingAcks.filter (·.client = client)
  { s with
    clientsWaitingAcks := s.clientsWaitingAcks.filter (·.client ≠ client)
    replies := s.replies ++ timedOut.map fun c => (c.client, (replicationCountAcksByOffset s.slaves c.reploffset : Int)) }

def freeClient (s : Server) (client : Nat) : Server :=
  { s with
    slaves := s.slaves.filter (·.client ≠ client)
    clientsWaitingAcks := s.clientsWaitingAcks.filter (·.client ≠ client) }

inductive Event where
  | attach (client : Nat) (replstate : ReplState)
  | setReplState (client : Nat) (replstate : ReplState)
  | ack (client : Nat) (offset : Int)
  | wait (client : Nat) (woff numreplicas : Int) (multi : Bool)
  | timeout (client : Nat)
  | free (client : Nat)
  | beforeSleep

def step (s : Server) : Event → Server
  | .attach client replstate => { s with slaves := s.slaves ++ [⟨client, replstate, 0⟩] }
  | .setReplState client replstate =>
    { s with slaves := s.slaves.map fun slave => if slave.client = client then { slave with replstate } else slave }
  | .ack client offset => replconfAck s client offset
  | .wait client woff numreplicas multi => waitCommand s client woff numreplicas multi
  | .timeout client => clientTimedOut s client
  | .free client => freeClient s client
  | .beforeSleep => if s.clientsWaitingAcks.length ≠ 0 then processClientsWaitingReplicas s else s

end Cplusplus.Redis.WaitReplicas
