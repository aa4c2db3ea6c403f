import Cplusplus.Library.Bytes
import Cplusplus.Util

/-! The ziplist of `ziplist.c`: one block of bytes with a header of `zlbytes`,
`zltail` and `zllen`, the entries, and an end mark. A pointer into the list is an
offset, and the macros that decode an entry take the bytes from the pointer to the
end of the block. A result of `none` is an access outside the block or a failed
assertion. -/

namespace Cplusplus.Redis

section
open Bytes

def zipEnd : UInt8 := 255

def zipBiglen : Nat := 254

def zipStr14B : UInt8 := 0x40

def zipStr32B : UInt8 := 0x80

def zipInt16B : UInt8 := 0xc0

def zipInt32B : UInt8 := 0xd0

def zipInt64B : UInt8 := 0xe0

def zipInt24B : UInt8 := 0xf0

def zipInt8B : UInt8 := 0xfe

def zipIntImmMin : UInt8 := 0xf1

def zipIntImmMax : UInt8 := 0xfd

def ziplistHeaderSize : Nat := 10

def uint16Max : Nat := 2 ^ 16 - 1

def zipIsStr (encoding : UInt8) : Bool := encoding &&& 0xc0 < 0xc0

def zipEntryEncoding (byte : UInt8) : UInt8 := if byte < 0xc0 then byte &&& 0xc0 else byte

def zipIntSize (encoding : UInt8) : Nat :=
  if encoding = zipInt8B then 1
  else if encoding = zipInt16B then 2
  else if encoding = zipInt24B then 3
  else if encoding = zipInt32B then 4
  else if encoding = zipInt64B then 8
  else 0

/-- The bytes that are stored; with `p == NULL` the code returns their number. -/
def zipEncodeLength (encoding : UInt8) (rawlen : Nat) : List UInt8 :=
  if zipIsStr encoding then
    if rawlen ≤ 0x3f then [UInt8.ofNat rawlen]
    else if rawlen ≤ 0x3fff then [zipStr14B ||| UInt8.ofNat (rawlen / 256 % 64), UInt8.ofNat rawlen]
    else zipStr32B :: (leBytes 4 rawlen).reverse
  else [encoding]

/-- `ZIP_DECODE_LENGTH`: the encoding, `lensize` and `len`. -/
def zipDecodeLength : List UInt8 → Option (UInt8 × Nat × Nat)
  | [] => none
  | b :: p =>
    let encoding := zipEntryEncoding b
    if encoding < 0xc0 then
      if encoding = 0 then some (encoding, 1, (b &&& 0x3f).toNat)
      else if encoding = zipStr14B then
        p.head?.map fun c => (encoding, 2, (b &&& 0x3f).toNat * 256 + c.toNat)
      else if encoding = zipStr32B then
        if 4 ≤ p.length then some (encoding, 5, leValue (p.take 4).reverse) else none
      else none
    else some (encoding, 1, zipIntSize encoding)

/-- As for `zipEncodeLength`. `len` is an unsigned int. -/
def zipPrevEncodeLength (len : Nat) : List UInt8 :=
  if len < zipBiglen then [UInt8.ofNat len] else 254 :: leBytes 4 len

def zipPrevEncodeLengthForceLarge (len : Nat) : List UInt8 := 254 :: leBytes 4 len

def zipDecodePrevlensize : List UInt8 → Option Nat
  | [] => none
  | b :: _ => some (if b.toNat < zipBiglen then 1 else 5)

/-- `ZIP_DECODE_PREVLEN`: the size of the field and its value. -/
def zipDecodePrevlen : List UInt8 → Option (Nat × Nat)
  | [] => none
  | b :: p => if b.toNat < zipBiglen then some (1, b.toNat) else (load 4 p).map fun len => (5, len)

def zipPrevLenByteDiff (p : List UInt8) (len : Nat) : Option Int := do
  let prevlensize ← zipDecodePrevlensize p
  return (zipPrevEncodeLength len).length - prevlensize

def zipRawEntryLength (p : List UInt8) : Option Nat := do
  let prevlensize ← zipDecodePrevlensize p
  let (_, lensize, len) ← zipDecodeLength (p.drop prevlensize)
  return (prevlensize + lensize + len) % 2 ^ 32

structure ZlEntry where
  prevrawlensize : Nat
  prevrawlen : Nat
  lensize : Nat
  len : Nat
  headersize : Nat
  encoding : UInt8

def zipEntry (p : List UInt8) : Option ZlEntry := do
  let (prevrawlensize, prevrawlen) ← zipDecodePrevlen p
  let (encoding, lensize, len) ← zipDecodeLength (p.drop prevrawlensize)
  return { prevrawlensize, prevrawlen, lensize, len, headersize := prevrawlensize + lensize, encoding }

/-- `e.headersize + e.len`, in unsigned int. -/
def ZlEntry.rawlen (e : ZlEntry) : Nat := (e.headersize + e.len) % 2 ^ 32

def zipTryEncoding (entry : List UInt8) : Option (Int × UInt8) :=
  if 32 ≤ entry.length ∨ entry.length = 0 then none
  else (string2ll entry).map fun value =>
    (value,
      if 0 ≤ value ∧ value ≤ 12 then zipIntImmMin + UInt8.ofNat value.toNat
      else if -2 ^ 7 ≤ value ∧ value ≤ 2 ^ 7 - 1 then zipInt8B
      else if -2 ^ 15 ≤ value ∧ value ≤ 2 ^ 15 - 1 then zipInt16B
      else if -2 ^ 23 ≤ value ∧ value ≤ 2 ^ 23 - 1 then zipInt24B
      else if -2 ^ 31 ≤ value ∧ value ≤ 2 ^ 31 - 1 then zipInt32B
      else zipInt64B)

/-- The bytes of a signed integer of the given width in bytes. -/
def intBytes (width : Nat) (value : Int) : List UInt8 := leBytes width (BitVec.ofInt (8 * width) value).toNat

def zipSaveInteger (value : Int) (encoding : UInt8) : Option (List UInt8) :=
  if encoding = zipInt8B then some (intBytes 1 value)
  else if encoding = zipInt16B then some (intBytes 2 value)
  else if encoding = zipInt24B then some ((intBytes 4 (value * 256)).drop 1)
  else if encoding = zipInt32B then some (intBytes 4 value)
  else if encoding = zipInt64B then some (intBytes 8 value)
  else if zipIntImmMin ≤ encoding ∧ encoding ≤ zipIntImmMax then some []
  else none

def loadInt (width : Nat) (p : List UInt8) : Option Int :=
  (load width p).map fun n => (BitVec.ofNat (8 * width) n).toInt

def zipLoadInteger (p : List UInt8) (encoding : UInt8) : Option Int :=
  if encoding = zipInt8B then loadInt 1 p
  else if encoding = zipInt16B then loadInt 2 p
  else if encoding = zipInt32B then loadInt 4 p
  else if encoding = zipInt24B then
    (load 3 p).map fun n => ((BitVec.ofNat 32 (n * 256)).sshiftRight 8).toInt
  else if encoding = zipInt64B then loadInt 8 p
  else if zipIntImmMin ≤ encoding ∧ encoding ≤ zipIntImmMax then some ((encoding &&& 0x0f).toNat - 1)
  else none

def ziplistBytes (zl : List UInt8) : Option Nat := load 4 zl

def ziplistTailOffset (zl : List UInt8) : Option Nat := load 4 (zl.drop 4)

def ziplistLength (zl : List UInt8) : Option Nat := load 2 (zl.drop 8)

/-- `ZIPLIST_TAIL_OFFSET(zl) = offset`, in 32 bits. -/
def setTailOffset (zl : List UInt8) (offset : Int) : Option (List UInt8) :=
  store zl 4 (leBytes 4 (offset % 2 ^ 32).toNat)

def ziplistIncrLength (zl : List UInt8) (incr : Int) : Option (List UInt8) := do
  let length ← ziplistLength zl
  if length < uint16Max then store zl 8 (leBytes 2 (((length : Int) + incr) % 2 ^ 16).toNat) else return zl

def ziplistNew : List UInt8 :=
  leBytes 4 (ziplistHeaderSize + 1) ++ leBytes 4 ziplistHeaderSize ++ leBytes 2 0 ++ [zipEnd]

def indexForward (zl : List UInt8) : Nat → Nat → Option (Nat × Int)
  | 0, p => do return (p, if (← zl[p]?) = zipEnd then 0 else -1)
  | index + 1, p => do
    if (← zl[p]?) = zipEnd then return (p, index + 1)
    let rawlen ← zipRawEntryLength (zl.drop p)
    indexForward zl index (p + rawlen)

def indexBackward (zl : List UInt8) : Nat → Nat → Nat → Option (Nat × Int)
  | 0, p, prevlen => some (p, if 0 < prevlen then -1 else 0)
  | index + 1, p, prevlen =>
    if 0 < prevlen then
      if prevlen ≤ p then do
        let (_, before) ← zipDecodePrevlen (zl.drop (p - prevlen))
        indexBackward zl index (p - prevlen) before
      else none
    else some (p, index + 1)

/-- The inner `none` is the result NULL. -/
def ziplistIndex (zl : List UInt8) (index : Int) : Option (Option Nat) := do
  let (p, index) ←
    if index < 0 then do
      let p ← ziplistTailOffset zl
      if (← zl[p]?) = zipEnd then pure (p, -index - 1)
      else do
        let (_, prevlen) ← zipDecodePrevlen (zl.drop p)
        indexBackward zl (-index - 1).toNat p prevlen
    else indexForward zl index.toNat ziplistHeaderSize
  return if (← zl[p]?) = zipEnd ∨ 0 < index then none else some p

/-- The inner `none` is the result NULL. -/
def ziplistNext (zl : List UInt8) (p : Nat) : Option (Option Nat) := do
  if (← zl[p]?) = zipEnd then return none
  let rawlen ← zipRawEntryLength (zl.drop p)
  return if (← zl[p + rawlen]?) = zipEnd then none else some (p + rawlen)

def ziplistPrev (zl : List UInt8) (p : Nat) : Option (Option Nat) := do
  if (← zl[p]?) = zipEnd then
    let tail ← ziplistTailOffset zl
    return if (← zl[tail]?) = zipEnd then none else some tail
  else if p = ziplistHeaderSize then return none
  else
    let (_, prevlen) ← zipDecodePrevlen (zl.drop p)
    if 0 < prevlen ∧ prevlen ≤ p then return some (p - prevlen) else none

inductive ZiplistValue where
  | str (bytes : List UInt8)
  | int (value : Int)
deriving DecidableEq

/-- The inner `none` is the result 0. -/
def ziplistGet (zl : List UInt8) (p : Option Nat) : Option (Option ZiplistValue) :=
  match p with
  | none => some none
  | some p => do
    if (← zl[p]?) = zipEnd then return none
    let entry ← zipEntry (zl.drop p)
    if zipIsStr entry.encoding then
      if p + entry.headersize + entry.len ≤ zl.length then
        return some (.str ((zl.drop (p + entry.headersize)).take entry.len))
      else none
    else
      let value ← zipLoadInteger (zl.drop (p + entry.headersize)) entry.encoding
      return some (.int value)

/-- A `size_t` difference. One that wraps is a count that no block has room for. -/
def sizeDiff (a b : Nat) : Option Nat := if b ≤ a then some (a - b) else none

section Resizing

variable (junk : List UInt8 → Nat → UInt8)

/-- `len` is an unsigned int. -/
def ziplistResize (zl : List UInt8) (len : Nat) : Option (List UInt8) := do
  let len := len % 2 ^ 32
  let zl ← store (realloc junk zl len) 0 (leBytes 4 len)
  store zl ((len + (2 ^ 32 - 1)) % 2 ^ 32) [zipEnd]

def ziplistGrowPrevlen (zl : List UInt8) (curlen np prevrawlensize rawlen : Nat) : Option (List UInt8) := do
  let rawlensize := (zipPrevEncodeLength rawlen).length
  let extra := rawlensize - prevrawlensize
  let zl ← ziplistResize junk zl (curlen + extra)
  let tail ← ziplistTailOffset zl
  let zl ← if tail ≠ np then setTailOffset zl (tail + extra) else some zl
  let count ← sizeDiff curlen (np + prevrawlensize + 1)
  let zl ← memmove zl (np + rawlensize) (np + prevrawlensize) count
  store zl np (zipPrevEncodeLength rawlen)

/-- The `while (p[0] != ZIP_END)` loop; every round but the last moves `p` on. -/
def ziplistCascadeLoop : Nat → List UInt8 → Nat → Nat → Option (List UInt8)
  | 0, _, _, _ => none
  | fuel + 1, zl, curlen, p => do
    if (← zl[p]?) = zipEnd then return zl
    let cur ← zipEntry (zl.drop p)
    let rawlensize := (zipPrevEncodeLength cur.rawlen).length
    let np := p + cur.rawlen
    if (← zl[np]?) = zipEnd then return zl
    let next ← zipEntry (zl.drop np)
    if next.prevrawlen = cur.rawlen then return zl
    if next.prevrawlensize < rawlensize then
      let zl ← ziplistGrowPrevlen junk zl curlen np next.prevrawlensize cur.rawlen
      ziplistCascadeLoop fuel zl (curlen + (rawlensize - next.prevrawlensize)) np
    else if rawlensize < next.prevrawlensize then store zl np (zipPrevEncodeLengthForceLarge cur.rawlen)
    else store zl np (zipPrevEncodeLength cur.rawlen)

def ziplistCascadeUpdate (zl : List UInt8) (p : Nat) : Option (List UInt8) := do
  let curlen ← ziplistBytes zl
  ziplistCascadeLoop junk (zl.length + 1) zl curlen p

def skipEntries (zl : List UInt8) : Nat → Nat → Option (Nat × Nat)
  | 0, p => some (p, 0)
  | num + 1, p => do
    if (← zl[p]?) = zipEnd then return (p, 0)
    let rawlen ← zipRawEntryLength (zl.drop p)
    let (p, deleted) ← skipEntries zl num (p + rawlen)
    return (p, deleted + 1)

def moveBack (p : Nat) (nextdiff : Int) : Option Nat :=
  if 0 ≤ p - nextdiff then some (p - nextdiff).toNat else none

def ziplistCloseGap (zl : List UInt8) (first p totlen prevrawlen : Nat) : Option (List UInt8 × Int) := do
  let nextdiff ← zipPrevLenByteDiff (zl.drop p) prevrawlen
  let p ← moveBack p nextdiff
  let zl ← store zl p (zipPrevEncodeLength prevrawlen)
  let offset ← ziplistTailOffset zl
  let zl ← setTailOffset zl (offset - totlen)
  let tail ← zipEntry (zl.drop p)
  let offset ← ziplistTailOffset zl
  let zl ← if (← zl[p + tail.rawlen]?) ≠ zipEnd then setTailOffset zl (offset + nextdiff) else some zl
  let count ← sizeDiff (← ziplistBytes zl) (p + 1)
  let zl ← memmove zl first p count
  return (zl, nextdiff)

def ziplistDeleteEntries (zl : List UInt8) (first num : Nat) : Option (List UInt8) := do
  let entry ← zipEntry (zl.drop first)
  let (p, deleted) ← skipEntries zl num first
  let totlen := (p - first) % 2 ^ 32
  if totlen = 0 then return zl
  let (zl, nextdiff) ←
    if (← zl[p]?) ≠ zipEnd then ziplistCloseGap zl first p totlen entry.prevrawlen
    else do
      let zl ← setTailOffset zl (first - entry.prevrawlen)
      pure (zl, 0)
  let size := (← ziplistBytes zl) - totlen + nextdiff
  let zl ← ziplistResize junk zl (size % 2 ^ 32).toNat
  let zl ← ziplistIncrLength zl (-deleted)
  if nextdiff ≠ 0 then ziplistCascadeUpdate junk zl first else return zl

def insertPrevlen (zl : List UInt8) (p : Nat) : Option Nat := do
  if (← zl[p]?) ≠ zipEnd then
    let (_, prevlen) ← zipDecodePrevlen (zl.drop p)
    return prevlen
  let ptail ← ziplistTailOffset zl
  if (← zl[ptail]?) ≠ zipEnd then zipRawEntryLength (zl.drop ptail) else return 0

def ziplistMakeGap (zl : List UInt8) (curlen p reqlen : Nat) (nextdiff : Int) : Option (List UInt8) := do
  let src ← moveBack p nextdiff
  let count := (curlen : Int) - p - 1 + nextdiff
  if count < 0 then none
  let zl ← memmove zl (p + reqlen) src count.toNat
  let zl ← store zl (p + reqlen) (zipPrevEncodeLength (reqlen % 2 ^ 32))
  let offset ← ziplistTailOffset zl
  let zl ← setTailOffset zl (offset + reqlen)
  let tail ← zipEntry (zl.drop (p + reqlen))
  let offset ← ziplistTailOffset zl
  if (← zl[p + (reqlen + tail.headersize + tail.len)]?) ≠ zipEnd then setTailOffset zl (offset + nextdiff) else some zl

def ziplistInsert (zl : List UInt8) (p : Nat) (s : List UInt8) : Option (List UInt8) := do
  let curlen ← ziplistBytes zl
  let prevlen ← insertPrevlen zl p
  let encoded := zipTryEncoding s
  let encoding := (encoded.map Prod.snd).getD 0
  let payload ← match encoded with
    | some (value, encoding) => zipSaveInteger value encoding
    | none => some s
  let size := match encoded with
    | some (_, encoding) => zipIntSize encoding
    | none => s.length
  let reqlen := size + (zipPrevEncodeLength prevlen).length + (zipEncodeLength encoding s.length).length
  let nextdiff ← if (← zl[p]?) ≠ zipEnd then zipPrevLenByteDiff (zl.drop p) (reqlen % 2 ^ 32) else some 0
  let zl ← ziplistResize junk zl (((curlen + reqlen : Nat) + nextdiff) % 2 ^ 64).toNat
  let zl ← if (← zl[p]?) ≠ zipEnd then ziplistMakeGap zl curlen p reqlen nextdiff else setTailOffset zl p
  let zl ← if nextdiff ≠ 0 then ziplistCascadeUpdate junk zl (p + reqlen) else some zl
  let zl ← store zl p (zipPrevEncodeLength prevlen ++ zipEncodeLength encoding s.length ++ payload)
  ziplistIncrLength zl 1

/-- At the head or at `ZIPLIST_ENTRY_END`. -/
def ziplistPush (zl s : List UInt8) (head : Bool) : Option (List UInt8) := do
  let bytes ← ziplistBytes zl
  ziplistInsert junk zl (if head then ziplistHeaderSize else bytes - 1) s

def ziplistDelete (zl : List UInt8) (p : Nat) : Option (List UInt8) := ziplistDeleteEntries junk zl p 1

end Resizing

end

/-! The ziplist as the sequence of its entries: what `ziplist.c` promises its callers. A pointer
is the number of entries before it, and the end mark is the length of the sequence. -/

abbrev Entries := List ZiplistValue

def entryOf (s : List UInt8) : ZiplistValue :=
  match zipTryEncoding s with
  | some (value, _) => .int value
  | none => .str s

namespace Entries

/-- NULL is none. -/
def index (zl : Entries) (i : Int) : Option Nat :=
  if 0 ≤ i then if i.toNat < zl.length then some i.toNat else none
  else if -i ≤ zl.length then some (zl.length - (-i).toNat) else none

def next (zl : Entries) (p : Nat) : Option Nat := if p + 1 < zl.length then some (p + 1) else none

/-- `ziplistGet`; none is the result 0. -/
def get (zl : Entries) (p : Nat) : Option ZiplistValue := zl[p]?

def insert (zl : Entries) (p : Nat) (s : List UInt8) : Entries := zl.take p ++ entryOf s :: zl.drop p

def push (zl : Entries) (s : List UInt8) (head : Bool) : Entries := insert zl (if head then 0 else zl.length) s

def delete (zl : Entries) (p : Nat) : Entries := zl.eraseIdx p

end Entries

/-- `vencoding` and `vll`: not tried yet (0), no integer (UCHAR_MAX), or the integer. -/
inductive FindEncoding where
  | untried
  | string
  | int (vll : Int)
deriving DecidableEq

def tryFindEncoding (vstr : List UInt8) : FindEncoding → FindEncoding
  | .untried =>
    match zipTryEncoding vstr with
    | some (vll, _) => .int vll
    | none => .string
  | tried => tried

def findMatches (vstr : List UInt8) (vencoding : FindEncoding) : ZiplistValue → Bool × FindEncoding
  | .str bytes => (bytes == vstr, vencoding)
  | .int value =>
    let vencoding := tryFindEncoding vstr vencoding
    (vencoding == .int value, vencoding)

def findLoop (vstr : List UInt8) (skip : Nat) : Nat → FindEncoding → Entries → Option Nat
  | _, _, [] => none
  | 0, vencoding, entry :: rest =>
    let (found, vencoding) := findMatches vstr vencoding entry
    if found then some 0 else (findLoop vstr skip skip vencoding rest).map (· + 1)
  | skipcnt + 1, vencoding, _ :: rest => (findLoop vstr skip skipcnt vencoding rest).map (· + 1)

def Entries.find (zl : Entries) (p : Nat) (vstr : List UInt8) (skip : Nat) : Option Nat :=
  (findLoop vstr skip 0 .untried (zl.drop p)).map (p + ·)

def ziplistDecode (zl : List UInt8) (p : Nat) : Option (ZiplistValue × Nat) := do
  let prevlensize ← zipDecodePrevlensize (zl.drop p)
  let (encoding, lensize, len) ← zipDecodeLength (zl.drop (p + prevlensize))
  let q := p + prevlensize + lensize
  if zipIsStr encoding then
    if q + len ≤ zl.length then return (.str ((zl.drop q).take len), q + len) else none
  else
    let value ← zipLoadInteger (zl.drop q) encoding
    return (.int value, q + len)

def ziplistCompare (zl : List UInt8) (p : Nat) (sstr : List UInt8) : Option Bool := do
  if (← zl[p]?) = zipEnd then return false
  let entry ← zipEntry (zl.drop p)
  if zipIsStr entry.encoding then
    if entry.len = sstr.length then
      if p + entry.headersize + sstr.length ≤ zl.length then return (zl.drop (p + entry.headersize)).take sstr.length == sstr else none
    else return false
  else
    match zipTryEncoding sstr with
    | some (sval, _) =>
      let zval ← zipLoadInteger (zl.drop (p + entry.headersize)) entry.encoding
      return zval == sval
    | none => return false

/-- The `while (p[0] != ZIP_END)` loop. `skipcnt` is an int that counts down modulo 2^32. -/
def ziplistFindLoop (zl vstr : List UInt8) (skip : Nat) : Nat → Nat → FindEncoding → Nat → Option (Option Nat)
  | 0, _, _, _ => none
  | fuel + 1, skipcnt, vencoding, p => do
    if (← zl[p]?) = zipEnd then return none
    let (value, next) ← ziplistDecode zl p
    match skipcnt with
    | 0 =>
      let (found, vencoding) := findMatches vstr vencoding value
      if found then return some p
      ziplistFindLoop zl vstr skip fuel skip vencoding next
    | skipcnt + 1 => ziplistFindLoop zl vstr skip fuel skipcnt vencoding next

/-- The inner none is the result NULL. -/
def ziplistFind (zl : List UInt8) (p : Nat) (vstr : List UInt8) (skip : Nat) : Option (Option Nat) :=
  ziplistFindLoop zl vstr skip (zl.length + 1) 0 .untried p

end Cplusplus.Redis
