import Cplusplus.Library.Run
import Mathlib.Data.List.Basic

/-! The rewrite buffer of `aof.c` and what parent and child do with it. A write outside of a block
is a fault. Reads and writes of pipes and files may take any number of bytes. -/

namespace Cplusplus.Redis.AofRewrite

abbrev Bytes := List UInt8

def aofRwBufBlockSize : Nat := 1024 * 1024 * 10

structure Block where
  used : Nat
  free : Nat
  buf : Bytes

/-- Copies bytes into a buffer, which they must not leave. -/
def memcpy (buf : Bytes) (offset : Nat) (s : Bytes) : Option Bytes :=
  if offset + s.length ≤ buf.length then some (buf.take offset ++ s ++ buf.drop (offset + s.length)) else none

/-- A block that was just allocated. Its bytes could have any value. -/
def Block.new : Block := ⟨0, aofRwBufBlockSize, List.replicate aofRwBufBlockSize 0⟩

/-- The used bytes of the block, which must all be there. -/
def Block.read (block : Block) : Option Bytes :=
  if block.used ≤ block.buf.length then some (block.buf.take block.used) else none

def Block.append (block : Block) (s : Bytes) : Option (Block × Bytes) :=
  let thislen := min block.free s.length
  (memcpy block.buf block.used (s.take thislen)).map fun buf =>
    ({ used := block.used + thislen, free := block.free - thislen, buf }, s.drop thislen)

def Block.shift (block : Block) (nwritten : Nat) : Option Block := do
  let bytes ← block.read
  let buf ← memcpy block.buf 0 (bytes.drop nwritten)
  some { block with used := block.used - nwritten, buf }

def fillLast (blocks : List Block) (s : Bytes) : Option (List Block × Bytes) :=
  match blocks.getLast? with
  | none => some (blocks, s)
  | some block => (block.append s).map fun filled => (blocks.dropLast ++ [filled.1], filled.2)

/-- The loop of `aofRewriteBufferAppend`: it allocates a block for what is left. -/
def appendLoop : Nat → List Block → Bytes → Option (List Block)
  | 0, blocks, s => if s = [] then some blocks else none
  | fuel + 1, blocks, s => do
    if s = [] then some blocks
    else
      let filled ← fillLast blocks s
      if filled.2 = [] then some filled.1 else appendLoop fuel (filled.1 ++ [Block.new]) filled.2

def aofRewriteBufferAppend (blocks : List Block) (s : Bytes) : Option (List Block) := appendLoop (s.length + 1) blocks s

/-- The loop of `aofChildWriteDiffData`. `writes` are the numbers of bytes that the pipe takes, zero or the
end of the list is EAGAIN. -/
def sendLoop : List Nat → List Block → Bytes → Option (List Block × Bytes)
  | [], blocks, pipe => some (blocks.dropWhile fun block => block.used = 0, pipe)
  | nwritten :: writes, blocks, pipe =>
    match blocks.dropWhile fun block => block.used = 0 with
    | [] => some ([], pipe)
    | block :: blocks => do
      let nwritten := min nwritten block.used
      if nwritten = 0 then some (block :: blocks, pipe)
      else
        let bytes ← block.read
        let block ← block.shift nwritten
        sendLoop writes (block :: blocks) (pipe ++ bytes.take nwritten)

def aofRewriteBufferWrite : List Block → Option Bytes
  | [] => some []
  | block :: blocks => do
    let bytes ← block.read
    let rest ← aofRewriteBufferWrite blocks
    some (bytes ++ rest)

inductive Phase where
  | rewriting
  | asked
  | agreed
  | exited (success : Bool)
deriving DecidableEq

/-- A running rewrite. `pipe` holds the bytes on their way to the child, `diff` is
`aof_child_diff`, `file` what the child wrote after the snapshot. The pipes for the "!" hold one
byte at most. `fed` is everything that was passed to `aofRewriteBufferAppend`. -/
structure Rewrite where
  phase : Phase
  pipe : Bytes
  diff : Bytes
  file : Bytes
  readable : Bool
  toParent : Bool
  toChild : Bool
  fed : Bytes

/-- `child` is there as long as `aof_child_pid != -1`. `written` says of each rewrite that succeeded
what its file holds after the snapshot, and what was passed to `aofRewriteBufferAppend` since the fork. -/
structure Server where
  blocks : List Block
  stopSendingDiff : Bool
  writable : Bool
  child : Option Rewrite
  written : List (Bytes × Bytes)

/-- The child works on its own: it may read, fail or be killed at any time. The numbers and flags are the
results of the system calls. -/
inductive Event where
  | fork (success : Bool)
  | feedAppendOnlyFile (buf : Bytes)
  | childWriteDiffData (writes : List Nat)
  | childReads (nread : Nat)
  | childAsks
  | childPipeReadable (acknowledged : Bool)
  | childAgrees
  | childFinishes
  | childFails
  | rewriteDone (complete : Bool)
  | stopAppendOnly

def Server.setChild (s : Server) (child : Rewrite) : Server := { s with child := some child }

def Server.rewriteAppendOnlyFileBackground (s : Server) (forked : Bool) : Server :=
  match s.child with
  | some _ => s
  | none =>
    { s with
      stopSendingDiff := false
      child := if forked then some ⟨.rewriting, [], [], [], true, false, false, []⟩ else none }

def Server.feedAppendOnlyFile (s : Server) (buf : Bytes) : Option Server :=
  match s.child with
  | none => some s
  | some child =>
    (aofRewriteBufferAppend s.blocks buf).map fun blocks =>
      { s with blocks, writable := true, child := some { child with fed := child.fed ++ buf } }

def Server.aofChildWriteDiffData (s : Server) (writes : List Nat) : Option Server :=
  match s.child with
  | none => some s
  | some child =>
    if s.writable = false then some s
    else if s.stopSendingDiff then some { s with writable := false }
    else
      (sendLoop writes s.blocks child.pipe).map fun sent =>
        { s with blocks := sent.1, writable := !sent.1.isEmpty, child := some { child with pipe := sent.2 } }

def Rewrite.aofReadDiffFromParent (child : Rewrite) (nread : Nat) : Rewrite :=
  if child.phase = .rewriting ∨ child.phase = .agreed then
    { child with diff := child.diff ++ child.pipe.take nread, pipe := child.pipe.drop nread }
  else child

def Rewrite.ask (child : Rewrite) : Rewrite :=
  if child.phase = .rewriting then { child with phase := .asked, toParent := true } else child

def Server.aofChildPipeReadable (s : Server) (acknowledged : Bool) : Server :=
  match s.child with
  | none => s
  | some child =>
    if child.readable && child.toParent then
      { s with stopSendingDiff := true, child := some { child with readable := false, toParent := false, toChild := acknowledged } }
    else s

def Rewrite.agree (child : Rewrite) : Rewrite :=
  if child.phase = .asked ∧ child.toChild = true then { child with phase := .agreed, toChild := false } else child

def Rewrite.finish (child : Rewrite) : Rewrite :=
  if child.phase = .agreed ∧ child.pipe = [] then { child with phase := .exited true, file := child.file ++ child.diff } else child

def Rewrite.fail (child : Rewrite) : Rewrite :=
  match child.phase with
  | .exited _ => child
  | _ => { child with phase := .exited false }

def Server.cleanup (s : Server) : Server := { s with blocks := [], writable := false, child := none }

def Server.backgroundRewriteDoneHandler (s : Server) (complete : Bool) : Option Server :=
  match s.child with
  | none => some s
  | some child =>
    match child.phase with
    | .exited true => do
      let bytes ← aofRewriteBufferWrite s.blocks
      some { s.cleanup with written := if complete then (child.file ++ bytes, child.fed) :: s.written else s.written }
    | .exited false => some s.cleanup
    | _ => some s

def step (s : Server) : Event → Option Server
  | .fork success => some (s.rewriteAppendOnlyFileBackground success)
  | .feedAppendOnlyFile buf => s.feedAppendOnlyFile buf
  | .childWriteDiffData writes => s.aofChildWriteDiffData writes
  | .childReads nread => some { s with child := s.child.map fun child => child.aofReadDiffFromParent nread }
  | .childAsks => some { s with child := s.child.map Rewrite.ask }
  | .childPipeReadable acknowledged => some (s.aofChildPipeReadable acknowledged)
  | .childAgrees => some { s with child := s.child.map Rewrite.agree }
  | .childFinishes => some { s with child := s.child.map Rewrite.finish }
  | .childFails => some { s with child := s.child.map Rewrite.fail }
  | .rewriteDone complete => s.backgroundRewriteDoneHandler complete
  | .stopAppendOnly => some s.cleanup

def Server.initial : Server := ⟨[], false, false, none, []⟩

def run (events : List Event) : Option Server := events.foldlM step Server.initial

end Cplusplus.Redis.AofRewrite
