import Cplusplus.CheckAof

/-! `readSyncBulkPayload` of `replication.c`: the dataset that a slave receives is written to a temporary
file. What is done with it after the rename is left out, as are the calls of `fsync`. -/

namespace Cplusplus.Redis.BulkTransfer
open CheckAof (cString strtol)

def runIdSize : Nat := 40

def bufSize : Int := 4096

/-- "EOF:" -/
def eofName : List UInt8 := [69, 79, 70, 58]

inductive ReplState where
  | transfer | connected | connect
deriving DecidableEq

structure Transfer where
  replState : ReplState
  transferSize : Int
  transferRead : Int
  tmpfile : List UInt8
  eofmark : List UInt8
  lastbytes : List UInt8
  usemark : Bool

structure Outcomes where
  written : Bool
  truncated : Bool
  renamed : Bool
  loaded : Bool

def replicationAbortSyncTransfer (t : Transfer) : Transfer := { t with replState := .connect }

/-- The line in front of the payload, as `syncReadLine` stores it; none is an error. -/
def readBulkCount (t : Transfer) (line : Option (List UInt8)) : Transfer :=
  match line.map cString with
  | none => replicationAbortSyncTransfer t
  | some buf =>
    if buf.headD 0 = 45 then replicationAbortSyncTransfer t
    else if buf.headD 0 = 0 then t
    else if buf.headD 0 ≠ 36 then replicationAbortSyncTransfer t
    else if (buf.drop 1).take 4 = eofName ∧ runIdSize ≤ (buf.drop 5).length then
      { t with usemark := true, eofmark := (buf.drop 5).take runIdSize, lastbytes := List.replicate runIdSize 0, transferSize := 0 }
    else { t with usemark := false, transferSize := (strtol (buf.drop 1)).1 }

def readLength (t : Transfer) : Int :=
  if t.usemark then bufSize
  else
    let left := t.transferSize - t.transferRead
    if left < bufSize then left else bufSize

/-- "Update the last bytes array" -/
def updateLastbytes (lastbytes buf : List UInt8) : List UInt8 :=
  if runIdSize ≤ buf.length then buf.drop (buf.length - runIdSize) else lastbytes.drop buf.length ++ buf

def ftruncate (file : List UInt8) (size : Int) : Option (List UInt8) :=
  if size < 0 then none else some (file.take size.toNat ++ List.replicate (size.toNat - file.length) 0)

def finishTransfer (io : Outcomes) (t : Transfer) : Transfer :=
  if !io.renamed then replicationAbortSyncTransfer t
  else if !io.loaded then replicationAbortSyncTransfer t
  else { t with replState := .connected }

def writeBulkData (io : Outcomes) (t : Transfer) (buf : List UInt8) : Transfer :=
  let t := if t.usemark then { t with lastbytes := updateLastbytes t.lastbytes buf } else t
  let marked := t.usemark && t.lastbytes == t.eofmark
  if !io.written then replicationAbortSyncTransfer t
  else
    let t := { t with tmpfile := t.tmpfile ++ buf, transferRead := t.transferRead + buf.length }
    if marked then
      match if io.truncated then ftruncate t.tmpfile (t.transferRead - runIdSize) else none with
      | none => replicationAbortSyncTransfer t
      | some tmpfile => finishTransfer io { t with tmpfile }
    else if !t.usemark && t.transferRead == t.transferSize then finishTransfer io t
    else t

def readSyncBulkPayload (io : Outcomes) (t : Transfer) (arriving : Option (List UInt8)) : Option Transfer :=
  if t.transferSize = -1 then some (readBulkCount t arriving)
  else if readLength t < 0 then none
  else
    match arriving.map (List.take (readLength t).toNat) with
    | none | some [] => some (replicationAbortSyncTransfer t)
    | some buf => some (writeBulkData io t buf)

/-- The handler of the socket is there during the transfer only. -/
def event (t : Transfer) (io : Outcomes) (arriving : Option (List UInt8)) : Option Transfer :=
  if t.replState = .transfer then readSyncBulkPayload io t arriving else some t

def receive (t : Transfer) : List (Outcomes × List UInt8) → Option Transfer
  | [] => some t
  | (io, bytes) :: reads => (event t io (some bytes)).bind fun t => receive t reads

end Cplusplus.Redis.BulkTransfer
