import Cplusplus.OutputBuffer

/-! `flushAppendOnlyFile` of `aof.c`: the buffer is written to the end of the file, and a write that failed is
undone or accounted for. Latency samples, the log and `errno` are left out. -/

namespace Cplusplus.Redis.AofFlush
open OutputBuffer (Sds sdsempty sdscatlen)

inductive AofFsync where
  | no | always | everysec
deriving DecidableEq

inductive WriteResult where
  | error
  | written (nwritten : Nat) (ftruncated : Bool)
deriving DecidableEq

/-- What a call of `flushAppendOnlyFile` reads from outside of the buffer and its accounts. -/
structure Call where
  force : Bool
  aofFsync : AofFsync
  aofNoFsyncOnRewrite : Bool
  childActive : Bool
  result : WriteResult

structure Server where
  file : List UInt8
  aofBuf : Sds
  aofCurrentSize : Int
  unixtime : Int
  aofFlushPostponedStart : Int
  aofLastFsync : Int
  aofDelayedFsync : Nat
  aofLastWriteStatus : Bool
  /-- Pending jobs of the type REDIS_BIO_AOF_FSYNC. -/
  bioPendingJobs : Nat
  exited : Bool
  appended : List UInt8

/-- The conversion to an int. -/
def int32 (x : Int) : Int := x.bmod (2 ^ 32)

/-- `start` and `stop` are ints, and so is `(signed) len`. -/
def sdsrange (s : Sds) (start stop : Int) : Sds :=
  let len := s.buf.length
  if len = 0 then s
  else
    let start := if start < 0 then max 0 (int32 (len + start)) else start
    let stop := if stop < 0 then max 0 (int32 (len + stop)) else stop
    let newlen : Nat :=
      if stop < start then 0
      else if int32 len ≤ start then 0
      else if int32 len ≤ stop then (if (len : Int) - 1 < start then 0 else (len - 1 - start + 1).toNat)
      else (stop - start + 1).toNat
    let start := if stop < start then 0 else start
    { s with buf := (s.buf.drop start.toNat).take newlen, free := s.free + BitVec.ofNat 32 (len - newlen) }

def sdsclear (s : Sds) : Sds := { s with buf := [], free := s.free + BitVec.ofNat 32 s.buf.length }

def ftruncate (file : List UInt8) (length : Nat) : List UInt8 :=
  file.take length ++ List.replicate (length - file.length) 0

/-- A background fsync is looked for under one policy only. -/
def Server.syncInProgress (s : Server) (call : Call) : Bool := call.aofFsync = .everysec && s.bioPendingJobs != 0

def Server.writeDone (s : Server) (call : Call) (nwritten : Int) : Server :=
  let aofBuf := if s.aofBuf.buf.length + s.aofBuf.free.toNat < 4000 then sdsclear s.aofBuf else sdsempty
  let done := { s with aofLastWriteStatus := true, aofCurrentSize := s.aofCurrentSize + nwritten, aofBuf }
  if call.aofNoFsyncOnRewrite ∧ call.childActive then done
  else if call.aofFsync = .always then { done with aofLastFsync := s.unixtime }
  else if call.aofFsync = .everysec ∧ s.aofLastFsync < s.unixtime then
    { done with
      bioPendingJobs := if s.syncInProgress call then s.bioPendingJobs else s.bioPendingJobs + 1
      aofLastFsync := s.unixtime }
  else done

def Server.writeFailed (s : Server) (call : Call) (nwritten : Int) : Server :=
  if call.aofFsync = .always then { s with exited := true }
  else if 0 < nwritten then
    { s with
      aofLastWriteStatus := false
      aofCurrentSize := s.aofCurrentSize + nwritten
      aofBuf := sdsrange s.aofBuf (int32 nwritten) (-1) }
  else { s with aofLastWriteStatus := false }

/-- A write of the whole buffer; it never takes more bytes than that. -/
def Server.write (s : Server) (call : Call) : Server :=
  let started := { s with aofFlushPostponedStart := 0 }
  match call.result with
  | .error =>
    if -1 ≠ int32 s.aofBuf.buf.length then started.writeFailed call (-1) else started.writeDone call (-1)
  | .written n ftruncated =>
    let nwritten := min n s.aofBuf.buf.length
    let written := { started with file := s.file ++ s.aofBuf.buf.take nwritten }
    if (nwritten : Int) ≠ int32 s.aofBuf.buf.length then
      if ftruncated ∧ 0 ≤ s.aofCurrentSize then
        { written with file := ftruncate written.file s.aofCurrentSize.toNat }.writeFailed call (-1)
      else written.writeFailed call nwritten
    else written.writeDone call nwritten

def flushAppendOnlyFile (s : Server) (call : Call) : Server :=
  if s.aofBuf.buf.length = 0 then s
  else if call.aofFsync = .everysec ∧ !call.force ∧ s.syncInProgress call then
    if s.aofFlushPostponedStart = 0 then { s with aofFlushPostponedStart := s.unixtime }
    else if s.unixtime - s.aofFlushPostponedStart < 2 then s
    else { s with aofDelayedFsync := s.aofDelayedFsync + 1 }.write call
  else s.write call

def Server.feed (s : Server) (data : List UInt8) : Server :=
  { s with aofBuf := sdscatlen s.aofBuf data, appended := s.appended ++ data }

inductive Event where
  | feed (data : List UInt8)
  | flush (call : Call) (recovers : call.aofFsync ≠ .always)
  | clock (unixtime : Int)
  | fsyncDone

def step (s : Server) : Event → Server
  | .feed data => s.feed data
  | .flush call _ => flushAppendOnlyFile s call
  | .clock unixtime => { s with unixtime }
  | .fsyncDone => { s with bioPendingJobs := s.bioPendingJobs - 1 }

def Server.initial (file : List UInt8) (unixtime : Int) : Server :=
  { file, aofBuf := sdsempty, aofCurrentSize := file.length, unixtime, aofFlushPostponedStart := 0, aofLastFsync := unixtime,
    aofDelayedFsync := 0, aofLastWriteStatus := true, bioPendingJobs := 0, exited := false, appended := file }

end Cplusplus.Redis.AofFlush
