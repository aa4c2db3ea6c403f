import Cplusplus.Library.BackReferences
import Mathlib.Algebra.Group.Nat.Defs

/-! The compression of strings, `lzf_c.c` and `lzf_d.c` with the settings of `lzfP.h`. Of an output
buffer there is what lies in front of `op`. An access outside of a buffer is a fault. -/

namespace Cplusplus.Lzf
open BackReferences

abbrev Bytes := List UInt8

def hlog : Nat := 16

def maxLit : Nat := 32

def maxOff : Nat := 8192

def maxRef : Nat := 264

inductive Stop where
  | outside
  | returnsZero
  | e2big
  | einval
deriving DecidableEq

def read (p : Bytes) (i : Nat) : Except Stop UInt8 :=
  match p[i]? with
  | some c => .ok c
  | none => .error .outside

/-- `*op++ = c` in a buffer of `size` bytes. -/
def put (size : Nat) (out : Bytes) (c : UInt8) : Except Stop Bytes :=
  if out.length < size then .ok (out ++ [c]) else .error .outside

def first (data : Bytes) (ip : Nat) : Except Stop UInt32 := do
  return (← read data ip).toUInt32 <<< 8 ||| (← read data (ip + 1)).toUInt32

def next (v : UInt32) (data : Bytes) (ip : Nat) : Except Stop UInt32 := do
  return v <<< 8 ||| (← read data (ip + 2)).toUInt32

def idx (h : UInt32) : UInt32 := ((h >>> UInt32.ofNat (24 - hlog)) - h * 5) &&& UInt32.ofNat (2 ^ hlog - 1)

/-- `base` is the address of `in_data`. The buffer has `outLen + 1` bytes as in `rdb.c`, and `old`
is what it holds at first. -/
structure Input where
  data : Bytes
  base : UInt64
  outLen : Nat
  old : Nat → UInt8

/-- The variables of `lzf_compress`; `ip` is an offset. The slots of `htab` are addresses, and have
any value at first. -/
structure Compressor where
  ip : Nat
  lit : Nat
  hval : UInt32
  htab : UInt32 → UInt64
  out : Bytes

namespace Compressor
variable (inp : Input) (s : Compressor)

def put (c : UInt8) : Except Stop Compressor := do
  return { s with out := ← Lzf.put (inp.outLen + 1) s.out c }

/-- `op [- lit - 1] = lit - 1` -/
def stopRun : Except Stop Compressor :=
  if s.lit < s.out.length ∧ s.out.length ≤ inp.outLen + 1 + s.lit then
    .ok { s with out := s.out.set (s.out.length - s.lit - 1) (UInt8.ofNat (s.lit + 255)) }
  else .error .outside

/-- Stops the run, and undoes it if its length is zero. -/
def endRun : Except Stop Compressor := do
  let s ← s.stopRun inp
  return if s.lit = 0 then { s with out := s.out.dropLast } else s

/-- `lit = 0; op++` -/
def startRun : Compressor := { s with lit := 0, out := s.out ++ [inp.old s.out.length] }

def literal : Except Stop Compressor := do
  let s ← s.put inp (← read inp.data s.ip)
  let s := { s with lit := s.lit + 1, ip := s.ip + 1 }
  if s.lit = maxLit then return (← s.stopRun inp).startRun inp else return s

/-- `htab[IDX (hval)] = ip`, after `hval = NEXT (hval, ip)` -/
def enter : Except Stop Compressor := do
  let hval ← next s.hval inp.data s.ip
  return { s with hval, htab := fun i => if i = idx hval then inp.base + UInt64.ofNat s.ip else s.htab i }

end Compressor

def same (data : Bytes) (ref ip len : Nat) : Except Stop Bool := do
  return (← read data (ref + len)) == (← read data (ip + len))

/-- Each comparison comes after its `len++`. The result is true if one of them fails. -/
def compare (data : Bytes) (ref ip : Nat) : Nat → Nat → Except Stop (Nat × Bool)
  | 0, len => return (len, false)
  | count + 1, len => do
    if ← same data ref ip (len + 1) then compare data ref ip count (len + 1) else return (len + 1, true)

/-- The comparisons that are written out, and the do-while loop, which ends at `maxlen` without one. -/
def matchLength (data : Bytes) (ref ip maxlen : Nat) : Except Stop Nat := do
  let row ← compare data ref ip (if 16 < maxlen then 16 else 0) 2
  if row.2 then return row.1
  else
    let rest ← compare data ref ip (maxlen - (row.1 + 1)) row.1
    return if rest.2 then rest.1 else rest.1 + 1

/-- The first three bytes, of which the first two are compared at once where that is possible. -/
def sameThree (data : Bytes) (ref ip : Nat) : Except Stop Bool := do
  if ← same data ref ip 0 then
    if ← same data ref ip 1 then same data ref ip 2 else return false
  else return false

/-- The condition of the loop. `slot` was read from the table. -/
def isMatch (inp : Input) (ip : Nat) (slot : UInt64) : Except Stop Bool :=
  if (inp.base + UInt64.ofNat ip - slot - 1).toNat < maxOff ∧ ip + 4 < inp.data.length ∧ inp.base < slot then
    sameThree inp.data (slot.toNat - inp.base.toNat) ip
  else .ok false

namespace Compressor
variable (inp : Input) (s : Compressor)

/-- `len` is the number of octets less 2. -/
def putLength (off len : Nat) : Except Stop Compressor :=
  if len < 7 then s.put inp (UInt8.ofNat (off / 256 + len * 32))
  else do (← s.put inp (UInt8.ofNat (off / 256 + 7 * 32))).put inp (UInt8.ofNat (len - 7))

/-- The rest of the branch, where two more positions are hashed before the last two bytes. -/
def advance : Except Stop Compressor :=
  if inp.data.length ≤ s.ip + 2 then .ok s
  else do
    let ip := s.ip - 2
    let s ← { s with ip, hval := ← first inp.data ip }.enter inp
    let s ← { s with ip := s.ip + 1 }.enter inp
    return { s with ip := s.ip + 1 }

def backReference (off len : Nat) : Except Stop Compressor := do
  let s ← s.putLength inp off (len - 2)
  let s ← s.put inp (UInt8.ofNat off)
  { s.startRun inp with ip := s.ip + len }.advance inp

def matched (slot : UInt64) : Except Stop Compressor := do
  let maxlen := min (inp.data.length - s.ip - 2) maxRef
  let s ← s.endRun inp
  if inp.outLen ≤ s.out.length + 4 then throw .returnsZero
  else
    let len ← matchLength inp.data (slot.toNat - inp.base.toNat) s.ip maxlen
    s.backReference inp (inp.base + UInt64.ofNat s.ip - slot - 1).toNat len

def round : Except Stop Compressor := do
  let slot := s.htab (idx (← next s.hval inp.data s.ip))
  let s ← s.enter inp
  if ← isMatch inp s.ip slot then s.matched inp slot
  else if inp.outLen ≤ s.out.length then throw .returnsZero
  else s.literal inp

end Compressor

def compressLoop (inp : Input) : Nat → Compressor → Except Stop Compressor
  | 0, _ => throw .outside
  | fuel + 1, s => if s.ip + 2 < inp.data.length then do compressLoop inp fuel (← s.round inp) else return s

def literals (inp : Input) : Nat → Compressor → Except Stop Compressor
  | 0, s => return s
  | count + 1, s => do literals inp count (← s.literal inp)

/-- The compressed bytes, whose number is returned. Every round takes a byte at least. -/
def lzfCompress (inp : Input) (htab : UInt32 → UInt64) : Except Stop Bytes :=
  if inp.data.length = 0 ∨ inp.outLen = 0 then .error .returnsZero
  else do
    let s ← compressLoop inp (inp.data.length + 1) (Compressor.startRun inp ⟨0, 0, ← first inp.data 0, htab, []⟩)
    if inp.outLen < s.out.length + 3 then throw .returnsZero
    else
      let s ← literals inp (inp.data.length - s.ip) s
      return (← s.endRun inp).out

/-- `*op++ = *ip++`. Here `ip` is the rest of the input. -/
def copyIn (outLen : Nat) : Nat → Bytes → Bytes → Except Stop (Bytes × Bytes)
  | 0, ip, out => .ok (ip, out)
  | count + 1, c :: ip, out => do copyIn outLen count ip (← put outLen out c)
  | _ + 1, [], _ => .error .outside

/-- `*op++ = *ref++` -/
def copyOut (outLen : Nat) : Nat → Nat → Bytes → Except Stop Bytes
  | 0, _, out => .ok out
  | count + 1, ref, out => do copyOut outLen count (ref + 1) (← put outLen out (← read out ref))

/-- The end of a back reference, after the low byte of its offset. -/
def reference (outLen high len : Nat) (low : UInt8) (ip out : Bytes) : Except Stop (Bytes × Bytes) :=
  let ref := (out.length : Int) - (high * 256 : Nat) - 1 - low.toNat
  if outLen < out.length + len + 2 then .error .e2big
  else if ref < 0 then .error .einval
  else do return (ip, ← copyOut outLen (len + 2) ref.toNat out)

/-- One turn of the do-while loop. -/
def decompressRound (outLen : Nat) (ip out : Bytes) : Except Stop (Bytes × Bytes) :=
  match ip with
  | [] => .error .outside
  | ctrl :: ip =>
    if ctrl.toNat < 32 then
      if outLen < out.length + (ctrl.toNat + 1) then .error .e2big
      else if ip.length < ctrl.toNat + 1 then .error .einval
      else copyIn outLen (ctrl.toNat + 1) ip out
    else
      match ip with
      | [] => .error .einval
      | b :: ip =>
        if ctrl.toNat / 32 = 7 then
          match ip with
          | [] => .error .einval
          | low :: ip => reference outLen (ctrl.toNat % 32) (7 + b.toNat) low ip out
        else reference outLen (ctrl.toNat % 32) (ctrl.toNat / 32) b ip out

def decompressLoop (outLen : Nat) : Nat → Bytes → Bytes → Except Stop Bytes
  | 0, _, _ => .error .outside
  | fuel + 1, ip, out => do
    let after ← decompressRound outLen ip out
    if after.1 ≠ [] then decompressLoop outLen fuel after.1 after.2 else return after.2

/-- The decompressed bytes, whose number is returned. -/
def lzfDecompress (data : Bytes) (outLen : Nat) : Except Stop Bytes := decompressLoop outLen (data.length + 1) data []

end Cplusplus.Lzf
