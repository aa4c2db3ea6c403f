import Cplusplus.Library.Decimal
import Cplusplus.Library.Ring
import Cplusplus.Library.Run
import Cplusplus.ReadOnlySlave

/-! The replication backlog of `replication.c`: a circular buffer of the last bytes of the
replication stream, addressed by offsets into the whole stream. A result that is none is a
failed assertion or an access outside the buffer. -/

namespace Cplusplus.Redis.Replication
open Cplusplus.Redis.CheckAof (strcasecmp)
open Cplusplus.Redis.ReadOnlySlave (getLongFromObject)

def replBacklogMinSize : Nat := 1024 * 16

/-- The replication fields of `server`. `replBacklog` is none for NULL, and a cell is none until
a byte is written to it. -/
structure Backlog where
  masterReplOffset : Int
  replBacklog : Option (List (Option UInt8))
  replBacklogSize : Nat
  replBacklogHistlen : Nat
  replBacklogIdx : Nat
  replBacklogOff : Int
deriving DecidableEq

/-- `initServerConfig`, where the size is REDIS_DEFAULT_REPL_BACKLOG_SIZE. -/
def initServerConfig : Backlog := ⟨0, none, 1024 * 1024, 0, 0, 0⟩

def freshBlock (size : Nat) : List (Option UInt8) := List.replicate size none

def createReplicationBacklog (s : Backlog) : Option Backlog :=
  match s.replBacklog with
  | some _ => none
  | none =>
    some
      { s with
        replBacklog := some (freshBlock s.replBacklogSize)
        replBacklogHistlen := 0
        replBacklogIdx := 0
        masterReplOffset := s.masterReplOffset + 1
        replBacklogOff := s.masterReplOffset + 1 + 1 }

def resizeReplicationBacklog (s : Backlog) (newsize : Int) : Backlog :=
  let size := if newsize < replBacklogMinSize then replBacklogMinSize else newsize.toNat
  if s.replBacklogSize = size then s
  else
    match s.replBacklog with
    | none => { s with replBacklogSize := size }
    | some _ =>
      { s with
        replBacklogSize := size
        replBacklog := some (freshBlock size)
        replBacklogHistlen := 0
        replBacklogIdx := 0
        replBacklogOff := s.masterReplOffset + 1 }

def freeReplicationBacklog (s : Backlog) (slaves : Nat) : Option Backlog :=
  if slaves = 0 then some { s with replBacklog := none } else none

def feedLoop : Nat → Backlog → List UInt8 → Option Backlog
  | _, s, [] => some s
  | 0, _, _ => none
  | fuel + 1, s, p =>
    let thislen := min (s.replBacklogSize - s.replBacklogIdx) p.length
    s.replBacklog.bind fun block =>
      (Ring.writeAt block s.replBacklogIdx ((p.take thislen).map some)).bind fun written =>
        let idx := s.replBacklogIdx + thislen
        feedLoop fuel
          { s with
            replBacklog := some written
            replBacklogIdx := if idx = s.replBacklogSize then 0 else idx
            replBacklogHistlen := s.replBacklogHistlen + thislen }
          (p.drop thislen)

def feedReplicationBacklog (s : Backlog) (p : List UInt8) : Option Backlog :=
  (feedLoop p.length { s with masterReplOffset := s.masterReplOffset + p.length } p).map fun s =>
    let histlen := min s.replBacklogHistlen s.replBacklogSize
    { s with
      replBacklogHistlen := histlen
      replBacklogOff := s.masterReplOffset - histlen + 1 }

def replyLoop (block : List (Option UInt8)) (size : Nat) : Nat → Nat → Nat → Option (List (Option UInt8))
  | _, _, 0 => some []
  | 0, _, _ => none
  | fuel + 1, j, len =>
    let thislen := if size - j < len then size - j else len
    (Ring.readAt block j thislen).bind fun cells => (replyLoop block size fuel 0 (len - thislen)).map (cells ++ ·)

/-- What is added to the output buffer of the client; none if a byte was never written. The
caller has checked that `offset` is not before the first byte. -/
def addReplyReplicationBacklog (s : Backlog) (offset : Int) : Option (List UInt8) :=
  if s.replBacklogHistlen = 0 then some []
  else
    s.replBacklog.bind fun block =>
      let skip := (offset - s.replBacklogOff).toNat
      let j := (s.replBacklogIdx + (s.replBacklogSize - s.replBacklogHistlen)) % s.replBacklogSize
      let j := (j + skip) % s.replBacklogSize
      let len := s.replBacklogHistlen - skip
      (replyLoop block s.replBacklogSize len j len).bind (List.mapM id)

/-- Offsets 7 to 9 of a full block that wraps. -/
example : addReplyReplicationBacklog ⟨9, some [some 9, some 6, some 7, some 8], 4, 4, 1, 6⟩ 7 = some [7, 8, 9] := by decide

def printOffset (n : Int) : List UInt8 :=
  if n < 0 then 45 :: Decimal.decimal n.natAbs else Decimal.decimal n.natAbs

/-- The texts "+CONTINUE\r\n" and "+FULLRESYNC %s %lld\r\n". -/
def continueLine : List UInt8 := [43, 67, 79, 78, 84, 73, 78, 85, 69, 13, 10]

def fullresyncLine (runid : List UInt8) (offset : Int) : List UInt8 :=
  [43, 70, 85, 76, 76, 82, 69, 83, 89, 78, 67, 32] ++ runid ++ [32] ++ printOffset offset ++ [13, 10]

/-- "-ERR value is not an integer or out of range\r\n" -/
def notIntegerError : List UInt8 :=
  [45, 69, 82, 82, 32, 118, 97, 108, 117, 101, 32, 105, 115, 32, 110, 111, 116, 32, 97, 110, 32, 105, 110, 116, 101,
   103, 101, 114, 32, 111, 114, 32, 111, 117, 116, 32, 111, 102, 32, 114, 97, 110, 103, 101, 13, 10]

/-- `line` is what is written to the socket, `reply` what is added to the output buffer.
`accepted` tells that the client became an online slave, `ok` is the return value. -/
structure PsyncAnswer where
  ok : Bool
  accepted : Bool
  freed : Bool
  line : List UInt8
  reply : List UInt8
deriving DecidableEq

def psyncOffsetKept (s : Backlog) (offset : Int) : Bool :=
  s.replBacklog.isSome && decide (s.replBacklogOff ≤ offset) && decide (offset ≤ s.replBacklogOff + s.replBacklogHistlen)

def needFullResync (runid : List UInt8) (s : Backlog) (write : Bool) (reply : List UInt8) : PsyncAnswer :=
  let offset := if s.replBacklog.isNone then s.masterReplOffset + 1 else s.masterReplOffset
  ⟨!write, false, !write, fullresyncLine runid offset, reply⟩

def masterTryPartialResynchronization (runid : List UInt8) (s : Backlog) (masterRunid psyncOffset : List UInt8) (write : Bool) :
    Option PsyncAnswer :=
  if strcasecmp masterRunid runid then
    match getLongFromObject psyncOffset with
    | none => some (needFullResync runid s write notIntegerError)
    | some offset =>
      if psyncOffsetKept s offset then
        if write then (addReplyReplicationBacklog s offset).map fun sent => ⟨true, true, false, continueLine, sent⟩
        else some ⟨true, true, true, continueLine, []⟩
      else some (needFullResync runid s write [])
  else some (needFullResync runid s write [])

inductive BacklogAction where
  | create
  | resize (newsize : Int)
  | free (slaves : Nat)
  | feed (p : List UInt8)
deriving DecidableEq

def backlogStep (s : Backlog) : BacklogAction → Option Backlog
  | .create => createReplicationBacklog s
  | .resize newsize => some (resizeReplicationBacklog s newsize)
  | .free slaves => freeReplicationBacklog s slaves
  | .feed p => feedReplicationBacklog s p

/-- The stream after a number of actions: for every offset after `base` the byte that was fed
there, or none for an offset that was skipped. `allocated` is the length of the stream when the
present buffer was allocated. -/
structure Stream where
  base : Int
  bytes : List (Option UInt8)
  allocated : Nat

def Stream.last (stream : Stream) : Int := stream.base + stream.bytes.length

def Stream.Stored (stream : Stream) (size : Nat) (offset : Int) : Prop :=
  stream.base + stream.allocated < offset ∧ stream.last < offset + size

def Stream.onward (stream : Stream) (offset : Int) : List (Option UInt8) :=
  stream.bytes.drop (offset - stream.base - 1).toNat

end Cplusplus.Redis.Replication
