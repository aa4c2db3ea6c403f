import Cplusplus.Sds

/-! Requests in the query buffer of a client. What a command does to the client matters only as far as
it blocks it, makes it a slave or pauses the clients. A result of `none` is a failed assertion. -/

namespace Cplusplus.Redis.Query

section
open CheckAof (strcasecmp)

abbrev Bytes := List UInt8

def inlineMaxSize : Nat := 1024 * 64

def mbulkBigArg : Nat := 1024 * 32

def iobufLen : Nat := 1024 * 16

inductive ReqType where
  | unknown
  | inline
  | multibulk

inductive ProtocolError where
  | tooBigInline
  | unbalancedQuotes
  | tooBigMbulkCount
  | invalidMultibulkLength
  | tooBigBulkCount
  | expected (got : UInt8)
  | invalidBulkLength

structure Client where
  querybuf : Bytes
  reqtype : ReqType
  multibulklen : Nat
  /-- `none` is -1 -/
  bulklen : Option Nat
  argv : List Bytes
  slave : Bool
  blocked : Bool
  closeAfterReply : Bool
  freed : Bool
  errors : List ProtocolError
  commands : List (List Bytes)

def Client.byte (c : Client) (pos : Nat) : UInt8 := c.querybuf.getD pos 0

structure State where
  client : Client
  paused : Bool
  arriving : Bytes

structure Effect where
  blocks : Bool
  enslaves : Bool
  pauses : Bool

structure Server where
  clientMaxQuerybufLen : Nat
  processInlineBuffer : Client → Client × Bool
  call : List (List Bytes) → Effect

def strchr (target : UInt8) : Bytes → Option Nat
  | [] => none
  | c :: s => if c = target then some 0 else if c = 0 then none else (strchr target s).map (· + 1)

def resetClient (c : Client) : Client := { c with argv := [], reqtype := .unknown, multibulklen := 0, bulklen := none }

def protocolError (c : Client) (error : ProtocolError) (pos : Nat) : Client :=
  { c with closeAfterReply := true, querybuf := c.querybuf.drop pos, errors := c.errors ++ [error] }

inductive Header where
  | error (c : Client)
  | incomplete
  | length (c : Client) (pos len : Nat)

def bulkHeader (c : Client) (pos : Nat) : Header :=
  match c.bulklen with
  | some len => .length c pos len
  | none =>
    match strchr 13 (c.querybuf.drop pos) with
    | none => if inlineMaxSize < c.querybuf.length then .error (protocolError c .tooBigBulkCount 0) else .incomplete
    | some newline =>
      if (c.querybuf.length : Int) - 2 < pos + newline then .incomplete
      else if c.byte pos ≠ 36 then .error (protocolError c (.expected (c.byte pos)) pos)
      else
        match string2ll ((c.querybuf.drop (pos + 1)).take (newline - 1)) with
        | none => .error (protocolError c .invalidBulkLength pos)
        | some ll =>
          if ll < 0 ∨ 512 * 1024 * 1024 < ll then .error (protocolError c .invalidBulkLength pos)
          else
            let pos := pos + newline + 2
            -- a large argument should start at the boundary of the buffer
            if mbulkBigArg ≤ ll.toNat then .length { c with querybuf := c.querybuf.drop pos, bulklen := some ll.toNat } 0 ll.toNat
            else .length { c with bulklen := some ll.toNat } pos ll.toNat

/-- `while(c->multibulklen)`: the client, `pos`, and true for a protocol error. -/
def multibulkLoop : Nat → Client → Nat → Client × Nat × Bool
  | 0, c, pos => (c, pos, false)
  | multibulklen + 1, c, pos =>
    match bulkHeader c pos with
    | .error c => (c, pos, true)
    | .incomplete => (c, pos, false)
    | .length c pos len =>
      if c.querybuf.length - pos < len + 2 then (c, pos, false)
      else if pos = 0 ∧ mbulkBigArg ≤ len ∧ c.querybuf.length = len + 2 then
        multibulkLoop multibulklen { c with argv := c.argv ++ [c.querybuf.take len], querybuf := [], bulklen := none, multibulklen } 0
      else
        multibulkLoop multibulklen { c with argv := c.argv ++ [(c.querybuf.drop pos).take len], bulklen := none, multibulklen }
          (pos + (len + 2))

/-- The loop and what follows it; true is REDIS_OK. -/
def readBulks (c : Client) (pos : Nat) : Client × Bool :=
  let (c, pos, error) := multibulkLoop c.multibulklen c pos
  if error then (c, false)
  else ({ c with querybuf := c.querybuf.drop pos }, c.multibulklen = 0)

def processMultibulkBuffer (c : Client) : Option (Client × Bool) :=
  if c.multibulklen ≠ 0 then some (readBulks c 0)
  else if c.argv ≠ [] then none
  else
    match strchr 13 c.querybuf with
    | none => some (if inlineMaxSize < c.querybuf.length then protocolError c .tooBigMbulkCount 0 else c, false)
    | some newline =>
      if (c.querybuf.length : Int) - 2 < newline then some (c, false)
      else if c.byte 0 ≠ 42 then none
      else
        match string2ll ((c.querybuf.drop 1).take (newline - 1)) with
        | none => some (protocolError c .invalidMultibulkLength 0, false)
        | some ll =>
          if 1024 * 1024 < ll then some (protocolError c .invalidMultibulkLength 0, false)
          else if ll ≤ 0 then some ({ c with querybuf := c.querybuf.drop (newline + 2) }, true)
          else some (readBulks { c with multibulklen := ll.toNat } (newline + 2))

def quitName : Bytes := [113, 117, 105, 116]

/-- False for QUIT, after which the client is not reset. -/
def processCommand (server : Server) (s : State) : State × Bool :=
  let c := { s.client with commands := s.client.commands ++ [s.client.argv] }
  if strcasecmp (c.argv.headD []) quitName then ({ s with client := { c with closeAfterReply := true } }, false)
  else
    let effect := server.call c.commands
    ({ s with client := { c with blocked := effect.blocks, slave := c.slave || effect.enslaves }, paused := s.paused || effect.pauses }, true)

def determineType (c : Client) : Client :=
  match c.reqtype with
  | .unknown => { c with reqtype := if c.byte 0 = 42 then .multibulk else .inline }
  | _ => c

def inputLoop (server : Server) : Nat → State → Option State
  | 0, s => some s
  | fuel + 1, s =>
    if s.client.querybuf = [] then some s
    else if !s.client.slave && s.paused then some s
    else if s.client.blocked then some s
    else if s.client.closeAfterReply then some s
    else do
      let c := determineType s.client
      let (c, ok) ← match c.reqtype with
        | .inline => some (server.processInlineBuffer c)
        | _ => processMultibulkBuffer c
      if !ok then return { s with client := c }
      if c.argv = [] then inputLoop server fuel { s with client := resetClient c }
      else
        let (s, ok) := processCommand server { s with client := c }
        inputLoop server fuel (if ok then { s with client := resetClient s.client } else s)

def processInputBuffer (server : Server) (s : State) : Option State := inputLoop server s.client.querybuf.length s

def readLength (c : Client) : Int :=
  match c.reqtype, c.bulklen with
  | .multibulk, some len =>
    if c.multibulklen ≠ 0 ∧ mbulkBigArg ≤ len then min (len + 2 - c.querybuf.length) iobufLen else iobufLen
  | _, _ => iobufLen

def readQueryFromClient (server : Server) (s : State) (n : Nat) : Option State :=
  if readLength s.client ≤ 0 then some { s with client := { s.client with freed := true } }
  else
    let bytes := s.arriving.take (min n (readLength s.client).toNat)
    if bytes = [] then some s
    else
      let c := { s.client with querybuf := s.client.querybuf ++ bytes }
      let s := { s with client := c, arriving := s.arriving.drop bytes.length }
      if server.clientMaxQuerybufLen < c.querybuf.length then some { s with client := { c with freed := true } }
      else processInputBuffer server s

inductive Event where
  | read (n : Nat)
  | process
  | unblock
  | pause
  | unpause

def step (server : Server) (s : State) (event : Event) : Option State :=
  if s.client.freed then some s
  else
    match event with
    | .read n => readQueryFromClient server s n
    | .process => processInputBuffer server s
    | .unblock => some { s with client := { s.client with blocked := false } }
    | .pause => some { s with paused := true }
    | .unpause => some { s with paused := false }

def newClient (slave : Bool) : Client where
  querybuf := []
  reqtype := .unknown
  multibulklen := 0
  bulklen := none
  argv := []
  slave := slave
  blocked := false
  closeAfterReply := false
  freed := false
  errors := []
  commands := []

end

/-! `processInlineBuffer` of `networking.c`, as what reads the requests that are not multibulk ones. -/

/-- The line without its CR and LF. What is left in the buffer begins two bytes after it. An argument
without a byte is dropped. -/
def processInlineBuffer (c : Client) : Client × Bool :=
  match strchr 10 c.querybuf with
  | none => (if inlineMaxSize < c.querybuf.length then protocolError c .tooBigInline 0 else c, false)
  | some newline =>
    let querylen := if newline ≠ 0 ∧ c.byte (newline - 1) = 13 then newline - 1 else newline
    match Sds.sdssplitargs (c.querybuf.take querylen) with
    | none => (protocolError c .unbalancedQuotes 0, false)
    | some argv => ({ c with querybuf := c.querybuf.drop (querylen + 2), argv := argv.filter (· ≠ []) }, true)

def inlineServer (clientMaxQuerybufLen : Nat) (call : List (List Bytes) → Effect) : Server :=
  { clientMaxQuerybufLen, processInlineBuffer, call }

end Cplusplus.Redis.Query
