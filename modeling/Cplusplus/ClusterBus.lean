import Cplusplus.Library.Traced
import Mathlib.Algebra.Ring.Nat

/-! The bus of `cluster.c`: how bytes become packets, and which fields of a packet are read. What the tests on
the state of the cluster give is left open. -/

namespace Cplusplus.Redis.ClusterBus

abbrev Bytes := List UInt8

structure Field where
  offset : Nat
  size : Nat

def Field.Within (len : Nat) (f : Field) : Prop := f.offset + f.size ≤ len

instance (len : Nat) (f : Field) : Decidable (f.Within len) := inferInstanceAs (Decidable (_ ≤ _))

structure Memory where
  rcvbuf : Bytes
  beyond : Nat → UInt8

def Memory.byte (m : Memory) (offset : Nat) : UInt8 := m.rcvbuf.getD offset (m.beyond (offset - m.rcvbuf.length))

def Memory.number (m : Memory) (f : Field) : Nat :=
  (List.range f.size).foldl (fun n i => n * 256 + (m.byte (f.offset + i)).toNat) 0

def Memory.read (m : Memory) (f : Field) : Traced Field Nat := .note f (m.number f)

def touch (f : Field) : Traced Field Unit := .note f ()

def sizeofClusterMsg : Nat := 4304

/-- CLUSTERMSG_MIN_LEN, which is sizeof(clusterMsg) - sizeof(union clusterMsgData) -/
def clustermsgMinLen : Nat := 2208

def sizeofGossip : Nat := 104
def sizeofFail : Nat := 40
def sizeofPublish : Nat := 16
def sizeofUpdate : Nat := 2096

namespace Hdr
def sig : Field := ⟨0, 4⟩
def totlen : Field := ⟨4, 4⟩
def ver : Field := ⟨8, 2⟩
def type : Field := ⟨12, 2⟩
def count : Field := ⟨14, 2⟩
def currentEpoch : Field := ⟨16, 8⟩
def configEpoch : Field := ⟨24, 8⟩
def replOffset : Field := ⟨32, 8⟩
def sender : Field := ⟨40, 40⟩
def myslots : Field := ⟨80, 2048⟩
def slaveof : Field := ⟨2128, 40⟩
def port : Field := ⟨2200, 2⟩
def flags : Field := ⟨2202, 2⟩
def mflags : Field := ⟨2205, 3⟩
end Hdr

namespace Gossip
def nodename (i : Nat) : Field := ⟨clustermsgMinLen + sizeofGossip * i, 40⟩
def ip (i : Nat) : Field := ⟨clustermsgMinLen + sizeofGossip * i + 48, 46⟩
def port (i : Nat) : Field := ⟨clustermsgMinLen + sizeofGossip * i + 94, 2⟩
def flags (i : Nat) : Field := ⟨clustermsgMinLen + sizeofGossip * i + 96, 2⟩
end Gossip

namespace Fail
def about : Field := ⟨2208, 40⟩
end Fail

namespace Publish
def channelLen : Field := ⟨2208, 4⟩
def messageLen : Field := ⟨2212, 4⟩
def bulkData : Nat := 2216
end Publish

namespace Update
def configEpoch : Field := ⟨2208, 8⟩
def nodename : Field := ⟨2216, 40⟩
def slots : Field := ⟨2256, 2048⟩
end Update

/-- CLUSTERMSG_TYPE_PING and so on. -/
inductive PacketType where
  | ping | pong | meet | fail | publish | failoverAuthRequest | failoverAuthAck | update | mfstart | unknown
deriving DecidableEq

def PacketType.ofNumber (type : Nat) : PacketType :=
  if type = 0 then .ping
  else if type = 1 then .pong
  else if type = 2 then .meet
  else if type = 3 then .fail
  else if type = 4 then .publish
  else if type = 5 then .failoverAuthRequest
  else if type = 6 then .failoverAuthAck
  else if type = 7 then .update
  else if type = 8 then .mfstart
  else .unknown

structure Env where
  senderKnown : Bool
  senderInHandshake : Bool
  mfWaits : Bool
  linkNode : Option Bool
  senderNameMatches : Bool
  senderMaster : Bool
  usesIp : Nat → Bool
  subscribers : Bool
  votes : Bool
  updateNodeKnown : Bool
  updateIsNewer : Bool

variable (env : Env) (m : Memory)

def explenIs (totlen : Nat) (explen : Nat) : Bool := totlen = explen % 2 ^ 32

/-- The length that a packet of the type must have. -/
def checkExplen (totlen : Nat) : PacketType → Traced Field Bool
  | .ping | .pong | .meet => do
    let count ← m.read Hdr.count
    pure (explenIs totlen (clustermsgMinLen + sizeofGossip * count))
  | .fail => pure (explenIs totlen (clustermsgMinLen + sizeofFail))
  | .publish => do
    let channelLen ← m.read Publish.channelLen
    let messageLen ← m.read Publish.messageLen
    pure (explenIs totlen (clustermsgMinLen + (sizeofPublish - 8 + channelLen + messageLen)))
  | .failoverAuthRequest | .failoverAuthAck | .mfstart => pure (explenIs totlen clustermsgMinLen)
  | .update => pure (explenIs totlen (clustermsgMinLen + sizeofUpdate))
  | .unknown => pure true

def sanityChecks (totlen : Nat) (type : PacketType) : Traced Field Bool := do
  if totlen < 16 then pure false
  else
    let ver ← m.read Hdr.ver
    if ver ≠ 0 then pure false
    else if m.rcvbuf.length < totlen then pure false
    else checkExplen m totlen type

def clusterProcessGossipSection : Traced Field Unit := do
  let count ← m.read Hdr.count
  .when_ env.linkNode.isNone (touch Hdr.sender)
  .each (List.range count) fun i => do
    let _ ← m.read (Gossip.flags i)
    let _ ← m.read (Gossip.port i)
    touch (Gossip.nodename i)
    .when_ (env.usesIp i) (touch (Gossip.ip i))

def learn : Traced Field Unit := do
  let _ ← m.read Hdr.currentEpoch
  let _ ← m.read Hdr.configEpoch
  let _ ← m.read Hdr.replOffset
  .when_ env.mfWaits (touch Hdr.mflags)

/-- The node of the link is compared with the sender. The link is freed if the node is known already, or
another one. -/
def checkLinkNode : Traced Field Bool :=
  match env.linkNode with
  | none => pure true
  | some true =>
    if env.senderKnown then do
      let _ ← m.read Hdr.port
      pure false
    else do
      touch Hdr.sender
      pure true
  | some false => do
    touch Hdr.sender
    pure env.senderNameMatches

/-- The branch of PING, PONG and MEET. -/
def processConfig (type : PacketType) : Traced Field Unit := do
  let goesOn ← checkLinkNode env m
  .when_ goesOn do
    .when_ (env.senderKnown && type = .ping && !env.senderInHandshake) do
      let _ ← m.read Hdr.port
    .when_ env.senderKnown do
      touch Hdr.slaveof
      .when_ env.senderMaster (touch Hdr.myslots)
      clusterProcessGossipSection env m

def clusterSendFailoverAuthIfNeeded : Traced Field Unit := do
  let _ ← m.read Hdr.currentEpoch
  let _ ← m.read Hdr.configEpoch
  touch Hdr.mflags
  .when_ env.votes (touch Hdr.myslots)

def processPublish : Traced Field Unit := do
  .when_ env.subscribers do
    let channelLen ← m.read Publish.channelLen
    let messageLen ← m.read Publish.messageLen
    touch ⟨Publish.bulkData, channelLen⟩
    touch ⟨Publish.bulkData + channelLen, messageLen⟩

def processUpdate : Traced Field Unit := do
  let _ ← m.read Update.configEpoch
  .when_ env.senderKnown do
    touch Update.nodename
    .when_ (env.updateNodeKnown && env.updateIsNewer) (touch Update.slots)

def processChecked (type : PacketType) : Traced Field Unit := do
  touch Hdr.sender
  .when_ (env.senderKnown && !env.senderInHandshake) (learn env m)
  .when_ (type = .meet && !env.senderKnown) do
    let _ ← m.read Hdr.port
    clusterProcessGossipSection env m
  match type with
  | .ping | .pong | .meet => processConfig env m type
  | .fail => touch Fail.about
  | .publish => processPublish env m
  | .failoverAuthRequest => .when_ env.senderKnown (clusterSendFailoverAuthIfNeeded env m)
  | .failoverAuthAck | .mfstart | .unknown => pure ()
  | .update => processUpdate env m

def clusterProcessPacket : Traced Field Bool := do
  let totlen ← m.read Hdr.totlen
  let type := PacketType.ofNumber (← m.read Hdr.type)
  let _ ← m.read Hdr.flags
  let passes ← sanityChecks m totlen type
  .when_ passes (processChecked env m type)
  pure passes

/-- An answer of read(2): the bytes that are there, of which it takes as many as are asked for. No bytes are
the end of the connection, or an error. -/
inductive ReadResult where
  | again
  | bytes (available : Bytes)

structure Link where
  rcvbuf : Bytes
  freed : Bool
  received : Bytes
  packets : List Bytes

def Link.new : Link := ⟨[], false, [], []⟩

def totlenOf (rcvbuf : Bytes) : Nat := ({ rcvbuf, beyond := fun _ => 0 } : Memory).number Hdr.totlen

/-- "RCmb" -/
def signature : Bytes := [82, 67, 109, 98]

def badHeader (rcvbuf : Bytes) : Bool := rcvbuf.take 4 ≠ signature || totlenOf rcvbuf < clustermsgMinLen

def readlen (rcvbuf : Bytes) : Nat :=
  if rcvbuf.length < 8 then 8 - rcvbuf.length
  else min ((totlenOf rcvbuf + 2 ^ 32 - rcvbuf.length) % 2 ^ 32) sizeofClusterMsg

/-- A packet of which all bytes are there is processed; `keeps n` says whether the link is still valid after
the packet number n. -/
def Link.process (keeps : Nat → Bool) (link : Link) : Link :=
  if 8 ≤ link.rcvbuf.length ∧ link.rcvbuf.length = totlenOf link.rcvbuf then
    { link with rcvbuf := [], freed := !keeps link.packets.length, packets := link.packets ++ [link.rcvbuf] }
  else link

def clusterReadHandler (keeps : Nat → Bool) (link : Link) : List ReadResult → Link
  | [] => link
  | result :: results =>
    if link.freed then link
    else if link.rcvbuf.length = 8 ∧ badHeader link.rcvbuf then { link with freed := true }
    else
      match result with
      | .again => link
      | .bytes available =>
        let buf := available.take (readlen link.rcvbuf)
        if buf = [] then { link with freed := true }
        else
          clusterReadHandler keeps
            ({ link with rcvbuf := link.rcvbuf ++ buf, received := link.received ++ buf }.process keeps) results

end Cplusplus.Redis.ClusterBus
