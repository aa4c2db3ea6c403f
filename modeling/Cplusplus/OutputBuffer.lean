import Cplusplus.Library.Decimal
import Cplusplus.Library.References
import Cplusplus.Library.Run
import Cplusplus.Util

/-! The output buffers of a client in `networking.c`: the static buffer, the reply list and the
deferred lengths in it. A result of none is a failed assertion or the use of a bad pointer.
The limits on output buffers, which close a client, are left out. -/

namespace Cplusplus.Redis.OutputBuffer
open Cplusplus.References

def sdsMaxPrealloc : Nat := 1024 * 1024

def encodingEmbstrSizeLimit : Nat := 39

structure Sds where
  buf : List UInt8
  free : BitVec 32
  block : Nat
deriving DecidableEq

def sdsText (text : List UInt8) : List UInt8 := text.take (text.length % 2 ^ 32)

def sdsnewlen (init : List UInt8) : Sds := ⟨sdsText init, 0, 8 + init.length + 1⟩

def sdsempty : Sds := sdsnewlen []

def sdsMakeRoomFor (s : Sds) (addlen : Nat) : Sds :=
  if addlen ≤ s.free.toNat then s
  else
    let newlen := s.buf.length + addlen
    let newlen := if newlen < sdsMaxPrealloc then newlen * 2 else newlen + sdsMaxPrealloc
    { s with free := BitVec.ofNat 32 (newlen - s.buf.length), block := 8 + newlen + 1 }

def sdscatlen (s : Sds) (t : List UInt8) : Sds :=
  let room := sdsMakeRoomFor s t.length
  { room with buf := sdsText (s.buf ++ t), free := room.free - BitVec.ofNat 32 t.length }

/-- A string object by its encoding. The text of an EMBSTR lies in the object's own block, and
`raw none` is an object whose pointer is NULL. -/
inductive Value where
  | raw (ptr : Option Sds)
  | embstr (text : List UInt8)
  | int (value : BitVec 64)
deriving DecidableEq

def Value.text : Value → Option (List UInt8)
  | .raw ptr => ptr.map Sds.buf
  | .embstr text => some text
  | .int _ => none

def createRawStringObject (text : List UInt8) : Value := .raw (some (sdsnewlen text))

def createStringObject (text : List UInt8) : Value :=
  if text.length ≤ encodingEmbstrSizeLimit then .embstr text else createRawStringObject text

def dupStringObject : Value → Option Value
  | .raw (some ptr) => some (createRawStringObject ptr.buf)
  | .raw none => none
  | .embstr text => some (.embstr text)
  | .int value => some (.int value)

section
variable (usable : Nat → Nat)

def zmallocSizeSds (s : Sds) : Nat := usable s.block

def getStringObjectSdsUsedMemory : Value → Option Nat
  | .raw (some ptr) => some (zmallocSizeSds usable ptr)
  | .raw none => none
  | .embstr text => some text.length
  | .int _ => some 0

end

def replyChunkBytes : Nat := 16 * 1024

def maxWritePerEvent : Nat := 1024 * 64

inductive ReplState where
  | none
  | waitBgsave
  | online
deriving DecidableEq

structure ListNode where
  id : Nat
  value : Nat
deriving DecidableEq

/-- The fields of `redisClient` that its output depends on. `buf` is the part of the static
buffer that is in use, so that `bufpos` is its length. -/
structure Client where
  fd : Int
  luaClient : Bool
  master : Bool
  masterForceReply : Bool
  closeAfterReply : Bool
  closeAsap : Bool
  replstate : ReplState
  replPutOnlineOnAck : Bool
  writeHandler : Bool
  buf : List UInt8
  sentlen : Nat
  reply : List ListNode
  replyBytes : BitVec 64

structure Server where
  objects : Heap Value
  nodes : Nat
  client : Client

def prepareClientToWrite (aeCreateFileEvent : Bool) (c : Client) : Client × Bool :=
  if c.luaClient then (c, true)
  else if c.master && !c.masterForceReply then (c, false)
  else if c.fd ≤ 0 then (c, false)
  else if c.buf = [] && c.reply = [] &&
      (c.replstate = .none || (c.replstate = .online && !c.replPutOnlineOnAck)) then
    if aeCreateFileEvent then ({ c with writeHandler := true }, true) else ({ c with closeAsap := true }, false)
  else (c, true)

def addReplyToBuffer (c : Client) (s : List UInt8) : Client × Bool :=
  if c.closeAfterReply then (c, true)
  else if c.reply ≠ [] then (c, false)
  else if replyChunkBytes - c.buf.length < s.length then (c, false)
  else ({ c with buf := c.buf ++ s }, true)

namespace Server

def value (s : Server) (addr : Nat) : Option Value := (s.objects.get addr).map Cell.value

def listAddNodeTail (s : Server) (addr : Nat) : Server :=
  { s with nodes := s.nodes + 1, client := { s.client with reply := s.client.reply ++ [⟨s.nodes, addr⟩] } }

def addReplyBytes (s : Server) (n : Nat) : Server :=
  { s with client := { s.client with replyBytes := s.client.replyBytes + BitVec.ofNat 64 n } }

def subReplyBytes (s : Server) (n : Nat) : Server :=
  { s with client := { s.client with replyBytes := s.client.replyBytes - BitVec.ofNat 64 n } }

def dupLastObjectIfNeeded (s : Server) : Option (Server × Nat) := do
  let ln ← s.client.reply.getLast?
  let cur ← s.objects.get ln.value
  if 1 < cur.refcount then
    let new ← dupStringObject cur.value
    let (objects, addr) := s.objects.alloc new
    let objects ← objects.decrRef ln.value
    let reply := s.client.reply.dropLast ++ [{ ln with value := addr }]
    return ({ s with objects := objects, client := { s.client with reply := reply } }, addr)
  else return (s, ln.value)

end Server

section
variable (usable : Nat → Nat)

def appendToTail (s : Server) (ptr : Sds) (text : List UInt8) : Option Server := do
  let s := s.subReplyBytes (zmallocSizeSds usable ptr)
  let (s, tail) ← s.dupLastObjectIfNeeded
  match ← s.value tail with
  | .raw (some ptr) =>
    let ptr := sdscatlen ptr text
    let objects ← s.objects.write tail (.raw (some ptr))
    return { s with objects := objects }.addReplyBytes (zmallocSizeSds usable ptr)
  | _ => none

def addTextToList (s : Server) (text : List UInt8) (push : Option Server) : Option Server :=
  if s.client.closeAfterReply then some s
  else
    match s.client.reply.getLast? with
    | none => push
    | some ln => do
      match ← s.value ln.value with
      | .raw (some ptr) =>
        if ptr.buf.length + text.length ≤ replyChunkBytes then appendToTail usable s ptr text else push
      | _ => push

def pushObject (s : Server) (addr : Nat) : Option Server := do
  let o ← s.value addr
  let used ← getStringObjectSdsUsedMemory usable o
  return (s.listAddNodeTail addr).addReplyBytes used

def addReplyObjectToList (s : Server) (addr : Nat) : Option Server := do
  let o ← s.value addr
  let text ← o.text
  addTextToList usable s text do
    let objects ← s.objects.incrRef addr
    pushObject usable { s with objects := objects } addr

def pushFresh (s : Server) (o : Value) : Option Server :=
  let (objects, addr) := s.objects.alloc o
  pushObject usable { s with objects := objects } addr

def addReplySdsToList (s : Server) (text : Sds) : Option Server :=
  addTextToList usable s text.buf (pushFresh usable s (.raw (some text)))

def addReplyStringToList (s : Server) (text : List UInt8) : Option Server :=
  addTextToList usable s text (pushFresh usable s (createStringObject text))

def addReplyText (s : Server) (text : List UInt8) (toList : Server → Option Server) : Option Server :=
  match addReplyToBuffer s.client text with
  | (c, true) => some { s with client := c }
  | (_, false) => toList s

def whenPrepared (aeCreateFileEvent : Bool) (s : Server) (run : Server → Option Server) : Option Server :=
  match prepareClientToWrite aeCreateFileEvent s.client with
  | (c, false) => some { s with client := c }
  | (c, true) => run { s with client := c }

def addReplyDecoded (s : Server) (text : List UInt8) : Option Server := do
  let (objects, addr) := s.objects.alloc (createStringObject text)
  let s ← addReplyText { s with objects := objects } text fun s => addReplyObjectToList usable s addr
  let objects ← s.objects.decrRef addr
  return { s with objects := objects }

def addReply (aeCreateFileEvent : Bool) (s : Server) (obj : Nat) : Option Server :=
  whenPrepared aeCreateFileEvent s fun s => do
    match ← s.value obj with
    | .int value =>
      let text := ll2string 32 value.toInt
      if s.client.reply = [] ∧ 32 ≤ replyChunkBytes - s.client.buf.length ∧ (addReplyToBuffer s.client text).2 then
        return { s with client := (addReplyToBuffer s.client text).1 }
      else addReplyDecoded usable s text
    | o => addReplyText s (← o.text) fun s => addReplyObjectToList usable s obj

def addReplySds (aeCreateFileEvent : Bool) (s : Server) (text : Sds) : Option Server :=
  whenPrepared aeCreateFileEvent s fun s => addReplyText s text.buf fun s => addReplySdsToList usable s text

def addReplyString (aeCreateFileEvent : Bool) (s : Server) (text : List UInt8) : Option Server :=
  whenPrepared aeCreateFileEvent s fun s => addReplyText s text fun s => addReplyStringToList usable s text

/-- The node is none for NULL. -/
def addDeferredMultiBulkLength (aeCreateFileEvent : Bool) (s : Server) : Server × Option Nat :=
  match prepareClientToWrite aeCreateFileEvent s.client with
  | (c, false) => ({ s with client := c }, none)
  | (c, true) =>
    let (objects, addr) := s.objects.alloc (.raw none)
    ({ s with client := c, objects := objects }.listAddNodeTail addr, some s.nodes)

/-- The text of "*%ld\r\n". -/
def multiBulkHeader (length : Int) : List UInt8 :=
  42 :: (if length < 0 then [45] else []) ++ Decimal.decimal length.natAbs ++ [13, 10]

def glueNext (s : Server) (front : List ListNode) (ln next : ListNode) (rest : List ListNode) (len : Sds) : Option Server := do
  let o ← s.value next.value
  match o with
  | .raw none => return s
  | _ =>
    let s := s.subReplyBytes (zmallocSizeSds usable len)
    let s := s.subReplyBytes (← getStringObjectSdsUsedMemory usable o)
    let glued := sdscatlen len (← o.text)
    let objects ← s.objects.write ln.value (.raw (some glued))
    let s := { s with objects := objects }.addReplyBytes (zmallocSizeSds usable glued)
    let objects ← s.objects.decrRef next.value
    return { s with objects := objects, client := { s.client with reply := front ++ ln :: rest } }

def setDeferredMultiBulkLength (s : Server) (node : Option Nat) (length : BitVec 64) : Option Server :=
  match node with
  | none => some s
  | some id =>
    match s.client.reply.dropWhile fun ln => ln.id ≠ id with
    | [] => none
    | ln :: after => do
      let len := sdscatlen sdsempty (multiBulkHeader length.toInt)
      let objects ← s.objects.write ln.value (.raw (some len))
      let s := { s with objects := objects }.addReplyBytes (zmallocSizeSds usable len)
      match after with
      | [] => return s
      | next :: rest => glueNext usable s (s.client.reply.takeWhile fun ln => ln.id ≠ id) ln next rest len

end

def listDelFirst (s : Server) : Option Server := do
  let first ← s.client.reply.head?
  let objects ← s.objects.decrRef first.value
  return { s with objects := objects, client := { s.client with reply := s.client.reply.tail } }

/-- `write` of a count that was an int and is now a size_t: none is the error for a count above
SSIZE_MAX. The kernel takes `accepts` bytes at most. -/
def write (accepts : Nat) (count : Int) : Option Nat := if count < 0 then none else some (min accepts count.toNat)

/-- The state after the loop, the bytes that were written, and whether no write failed. A list
`accepts` that is at its end stands for EAGAIN. `overMemory` is the test on `maxmemory`. -/
def sendLoop (usable : Nat → Nat) (overMemory : Bool) : (fuel : Nat) → (accepts : List Nat) → (totwritten : Nat) → Server →
    Option (Server × List UInt8 × Bool)
  | 0, _, _, s => some (s, [], true)
  | fuel + 1, accepts, totwritten, s =>
    let c := s.client
    if c.buf ≠ [] then
      match write (accepts.headD 0) (c.buf.length - c.sentlen : Nat) with
      | none => some (s, [], false)
      | some 0 => some (s, [], true)
      | some (n + 1) =>
        let nwritten := n + 1
        let sent := (c.buf.drop c.sentlen).take nwritten
        let c := if c.sentlen + nwritten = c.buf.length then { c with buf := [], sentlen := 0 }
          else { c with sentlen := c.sentlen + nwritten }
        let s := { s with client := c }
        if maxWritePerEvent < totwritten + nwritten && !overMemory then some (s, sent, true)
        else (sendLoop usable overMemory fuel accepts.tail (totwritten + nwritten) s).map fun last => (last.1, sent ++ last.2.1, last.2.2)
    else
      match c.reply with
      | [] => some (s, [], true)
      | first :: _ => do
        let o ← s.value first.value
        let text ← o.text
        let objlen := (BitVec.ofNat 32 text.length).toInt
        let objmem ← getStringObjectSdsUsedMemory usable o
        if objlen = 0 then
          let s ← listDelFirst s
          sendLoop usable overMemory fuel accepts totwritten (s.subReplyBytes objmem)
        else
          match write (accepts.headD 0) (objlen - c.sentlen) with
          | none => return (s, [], false)
          | some 0 => return (s, [], true)
          | some (n + 1) =>
            let nwritten := n + 1
            let sent := (text.drop c.sentlen).take nwritten
            let s ← if (c.sentlen + nwritten : Nat) = objlen then do
                let s ← listDelFirst s
                pure ({ s with client := { s.client with sentlen := 0 } }.subReplyBytes objmem)
              else pure { s with client := { c with sentlen := c.sentlen + nwritten } }
            if maxWritePerEvent < totwritten + nwritten && !overMemory then return (s, sent, true)
            else
              let last ← sendLoop usable overMemory fuel accepts.tail (totwritten + nwritten) s
              return (last.1, sent ++ last.2.1, last.2.2)

/-- The last component is false when the client was freed. -/
def sendReplyToClient (usable : Nat → Nat) (overMemory : Bool) (accepts : List Nat) (s : Server) :
    Option (Server × List UInt8 × Bool) := do
  let (s, sent, written) ← sendLoop usable overMemory (accepts.length + s.client.reply.length + 1) accepts 0 s
  if !written then return (s, sent, false)
  else if s.client.buf = [] && s.client.reply = [] then
    return ({ s with client := { s.client with sentlen := 0, writeHandler := false } }, sent, !s.client.closeAfterReply)
  else return (s, sent, true)

inductive Symbol where
  | byte (b : UInt8)
  | hole (node : Nat)
deriving DecidableEq

def bytes (text : List UInt8) : List Symbol := text.map .byte

def fill (node : Nat) (text : List UInt8) (stream : List Symbol) : List Symbol :=
  stream.flatMap fun
    | .hole n => if n = node then bytes text else [.hole n]
    | .byte b => [.byte b]

def nodeText (objects : Heap Value) (ln : ListNode) : Option (List UInt8) := (objects.get ln.value).bind fun cell => cell.value.text

def nodeSymbols (objects : Heap Value) (ln : ListNode) : List Symbol := (nodeText objects ln).elim [.hole ln.id] bytes

def nodeMemory (usable : Nat → Nat) (objects : Heap Value) (ln : ListNode) : Nat :=
  ((objects.get ln.value).bind fun cell => getStringObjectSdsUsedMemory usable cell.value).getD 0

namespace Server

def queue (s : Server) : List Symbol := bytes s.client.buf ++ s.client.reply.flatMap (nodeSymbols s.objects)

def pending (s : Server) : List Symbol := s.queue.drop s.client.sentlen

def memory (usable : Nat → Nat) (s : Server) : Nat := (s.client.reply.map (nodeMemory usable s.objects)).sum

def replyText (s : Server) (obj : Nat) : Option (List UInt8) :=
  (s.value obj).bind fun
    | .int value => some (ll2string 32 value.toInt)
    | o => o.text

def textAfter (s : Server) (id : Nat) : Option (List UInt8) :=
  ((s.client.reply.dropWhile fun ln => ln.id ≠ id).tail.head?).bind (nodeText s.objects)

end Server

/-- A client from the outside: the references that others hold to objects, the replies that it is
owed in program order, and the bytes that were sent to it. -/
structure Session where
  server : Server
  held : List Nat
  stream : List Symbol
  sent : List UInt8
  connected : Bool

inductive Action where
  | addReply (aeCreateFileEvent : Bool) (obj : Nat)
  | addReplySds (aeCreateFileEvent : Bool) (text : Sds)
  | addReplyString (aeCreateFileEvent : Bool) (text : List UInt8)
  | addDeferredMultiBulkLength (aeCreateFileEvent : Bool)
  | setDeferredMultiBulkLength (node : Option Nat) (length : BitVec 64)
  | sendReplyToClient (overMemory : Bool) (accepts : List Nat)
  | createObject (o : Value)
  | incrRefCount (obj : Nat)
  | decrRefCount (obj : Nat)

def Session.owe (s : Session) (aeCreateFileEvent : Bool) (server : Server) (symbols : List Symbol) : Session :=
  { s with
    server := server
    stream := if (prepareClientToWrite aeCreateFileEvent s.server.client).2 then s.stream ++ symbols else s.stream }

def sessionStep (usable : Nat → Nat) (s : Session) (action : Action) : Option (Session × Option Nat) :=
  if !s.connected then none
  else
    match action with
    | .addReply ev obj => do
      let text ← s.server.replyText obj
      let server ← addReply usable ev s.server obj
      return (s.owe ev server (bytes text), none)
    | .addReplySds ev text => do
      let server ← addReplySds usable ev s.server text
      return (s.owe ev server (bytes text.buf), none)
    | .addReplyString ev text => do
      let server ← addReplyString usable ev s.server text
      return (s.owe ev server (bytes text), none)
    | .addDeferredMultiBulkLength ev =>
      let (server, node) := addDeferredMultiBulkLength ev s.server
      some (s.owe ev server [.hole s.server.nodes], node)
    | .setDeferredMultiBulkLength node length => do
      let server ← setDeferredMultiBulkLength usable s.server node length
      return ({ s with server := server, stream := node.elim s.stream fun n => fill n (multiBulkHeader length.toInt) s.stream }, none)
    | .sendReplyToClient overMemory accepts => do
      let (server, sent, connected) ← sendReplyToClient usable overMemory accepts s.server
      return ({ s with server := server, sent := s.sent ++ sent, connected := connected }, none)
    | .createObject o =>
      let (objects, addr) := s.server.objects.alloc o
      some ({ s with server := { s.server with objects := objects }, held := addr :: s.held }, none)
    | .incrRefCount obj => do
      let objects ← s.server.objects.incrRef obj
      return ({ s with server := { s.server with objects := objects }, held := obj :: s.held }, none)
    | .decrRefCount obj => do
      let objects ← s.server.objects.decrRef obj
      return ({ s with server := { s.server with objects := objects }, held := s.held.erase obj }, none)

/-- What the callers promise: they refer to the objects that they use, a length is set once for
a node that waits for it, and the event loop runs when no length is outstanding. -/
def Action.Proper (s : Session) : Action → Prop
  | .addReply _ obj | .incrRefCount obj | .decrRefCount obj => obj ∈ s.held
  | .setDeferredMultiBulkLength (some node) _ => .hole node ∈ s.stream
  | .sendReplyToClient _ _ => ∀ node, .hole node ∉ s.stream
  | .createObject o => o ≠ .raw none
  | _ => True

/-- Every string that is queued on its own has a length that fits an int. -/
def Action.Short (s : Session) : Action → Prop
  | .addReply _ obj => ∀ text, s.server.replyText obj = some text → text.length < 2 ^ 31
  | .addReplySds _ text => text.buf.length < 2 ^ 31
  | .addReplyString _ text => text.length < 2 ^ 31
  | .setDeferredMultiBulkLength (some node) length =>
    ∀ text, s.server.textAfter node = some text → (multiBulkHeader length.toInt).length + text.length < 2 ^ 31
  | _ => True

structure Client.Fresh (c : Client) : Prop where
  buf : c.buf = []
  sentlen : c.sentlen = 0
  reply : c.reply = []
  replyBytes : c.replyBytes = 0
  flags : c.closeAfterReply = false

def Session.start (c : Client) : Session := ⟨⟨[], 0, c⟩, [], [], [], true⟩

/-- The bytes sent and then the bytes that wait are the replies in program order, and
`reply_bytes` is the memory of the nodes. -/
structure Session.Intact (usable : Nat → Nat) (s : Session) : Prop where
  connected : s.connected = true
  stream : s.stream = bytes s.sent ++ s.server.pending
  replyBytes : s.server.client.replyBytes = BitVec.ofNat 64 (s.server.memory usable)

end Cplusplus.Redis.OutputBuffer
