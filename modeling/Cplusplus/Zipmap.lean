import Cplusplus.Library.Bytes

/-! `zipmap.c`: a map of strings in one block. A pointer is an offset, and what is read at it is the list
after it; the computations are on unsigned ints. A result of `none` is an access outside the block. -/

namespace Cplusplus.Redis.Zipmap
open Bytes

abbrev Text := List UInt8

def uint (n : Nat) : Nat := n % 2 ^ 32

def uintSub (a b : Nat) : Nat := uint (a + (2 ^ 32 - uint b))

def zipmapBigLen : Nat := 254

def zipmapEnd : UInt8 := 255

def zipmapValueMaxFree : Nat := 4

def lenBytes (l : Nat) : Nat := if l < zipmapBigLen then 1 else 5

def zipmapNew : List UInt8 := [0, zipmapEnd]

def zipmapDecodeLength (p : List UInt8) : Option Nat := do
  let len ← p[0]?
  if len.toNat < zipmapBigLen then some len.toNat else load 4 (p.drop 1)

def zipmapEncodeLength (len : Nat) : List UInt8 := if len < zipmapBigLen then [UInt8.ofNat len] else 254 :: leBytes 4 len

def sameKey (p key : List UInt8) : Option Bool := if key.length ≤ p.length then some (p.take key.length == key) else none

/-- `key != NULL && k == NULL && l == klen && !memcmp(p+llen,key,l)` -/
def keyFound (key : Option Text) (k : Option Nat) (l : Nat) (p : List UInt8) : Option Bool :=
  match key with
  | none => some false
  | some key => if k = none ∧ l = key.length then sameKey p key else some false

/-- `while(*p != ZIPMAP_END)`: the key that was found and the total length. Without `whole` the first key
ends the loop. -/
def lookupLoop (zm : List UInt8) (key : Option Text) (whole : Bool) : Nat → Nat → Option Nat → Option (Option Nat × Nat)
  | 0, _, _ => none
  | fuel + 1, p, k => do
    if (← (zm.drop p)[0]?) = zipmapEnd then some (k, uint (uint p + 1))
    else
      let l ← zipmapDecodeLength (zm.drop p)
      let found ← keyFound key k l (zm.drop (p + lenBytes l))
      if found ∧ !whole then some (some p, 0)
      else
        let k := if found then some p else k
        let p := p + uint (lenBytes l + l)
        let l ← zipmapDecodeLength (zm.drop p)
        let p := p + lenBytes l
        let free ← (zm.drop p)[0]?
        lookupLoop zm key whole fuel (p + uint (l + 1 + free.toNat)) k

def zipmapLookupRaw (zm : List UInt8) (key : Option Text) (whole : Bool) : Option (Option Nat × Nat) :=
  lookupLoop zm key whole zm.length 1 none

def zipmapRequiredLength (klen vlen : Nat) : Nat :=
  let l := uint (klen + vlen + 3)
  let l := if zipmapBigLen ≤ klen then uint (l + 4) else l
  if zipmapBigLen ≤ vlen then uint (l + 4) else l

def zipmapRawKeyLength (p : List UInt8) : Option Nat := do
  let l ← zipmapDecodeLength p
  some (uint (lenBytes l + l))

def zipmapRawValueLength (p : List UInt8) : Option Nat := do
  let l ← zipmapDecodeLength p
  let used := lenBytes l
  let free ← p[used]?
  some (uint (used + uint (free.toNat + 1 + l)))

def zipmapRawEntryLength (p : List UInt8) : Option Nat := do
  let l ← zipmapRawKeyLength p
  let v ← zipmapRawValueLength (p.drop l)
  some (uint (l + v))

section
variable (junk : List UInt8 → Nat → UInt8)

def zipmapResize (zm : List UInt8) (len : Nat) : Option (List UInt8) :=
  if len = 0 then none else store (realloc junk zm len) (len - 1) [zipmapEnd]

/-- `if (zm[0] < ZIPMAP_BIGLEN)`, with what is done to the number of keys. -/
def countKeys (change : UInt8 → UInt8) (zm : List UInt8) : Option (List UInt8) := do
  let count ← zm[0]?
  if count.toNat < zipmapBigLen then store zm 0 [change count] else some zm

structure Place where
  zm : List UInt8
  p : Nat
  zmlen : Nat
  freelen : Nat

def makePlace (zm : List UInt8) (k : Option Nat) (zmlen reqlen : Nat) : Option Place :=
  match k with
  | none => do
    let zm ← zipmapResize junk zm (uint (zmlen + reqlen))
    if zmlen = 0 then none
    else
      let zm ← countKeys (· + 1) zm
      some ⟨zm, zmlen - 1, uint (zmlen + reqlen), reqlen⟩
  | some p => do
    let freelen ← zipmapRawEntryLength (zm.drop p)
    if freelen < reqlen then
      let offset := uint p
      let zm ← zipmapResize junk zm (uint (uintSub zmlen freelen + reqlen))
      let p := offset
      let zm ← memmove zm (p + reqlen) (p + freelen) (uintSub zmlen (uint (offset + freelen + 1)))
      some ⟨zm, p, uint (uintSub zmlen freelen + reqlen), reqlen⟩
    else some ⟨zm, p, zmlen, freelen⟩

/-- The block is cut when too much of the place is left empty: the block, the place, and `vempty`. -/
def cutPlace (place : Place) (reqlen : Nat) : Option (List UInt8 × Nat × Nat) :=
  let empty := uintSub place.freelen reqlen
  if zipmapValueMaxFree ≤ empty then do
    let offset := uint place.p
    let zm ← memmove place.zm (place.p + reqlen) (place.p + place.freelen) (uintSub place.zmlen (uint (offset + place.freelen + 1)))
    let zm ← zipmapResize junk zm (uintSub place.zmlen empty)
    some (zm, offset, 0)
  else some (place.zm, place.p, empty)

/-- "Just write the key + value and we are done." -/
def writeEntry (zm : List UInt8) (p : Nat) (key val : Text) (vempty : Nat) : Option (List UInt8) := do
  let zm ← store zm p (zipmapEncodeLength key.length)
  let p := p + lenBytes key.length
  let zm ← store zm p key
  let p := p + key.length
  let zm ← store zm p (zipmapEncodeLength val.length)
  let p := p + lenBytes val.length
  let zm ← store zm p [UInt8.ofNat vempty]
  store zm (p + 1) val

def zipmapSet (zm : List UInt8) (key val : Text) : Option (List UInt8 × Bool) := do
  let reqlen := zipmapRequiredLength key.length val.length
  let found ← zipmapLookupRaw zm (some key) true
  let place ← makePlace junk zm found.1 found.2 reqlen
  let cut ← cutPlace junk place reqlen
  let zm ← writeEntry cut.1 cut.2.1 key val cut.2.2
  some (zm, found.1.isSome)

def zipmapDel (zm : List UInt8) (key : Text) : Option (List UInt8 × Bool) := do
  let found ← zipmapLookupRaw zm (some key) true
  match found.1 with
  | none => some (zm, false)
  | some p =>
    let freelen ← zipmapRawEntryLength (zm.drop p)
    -- a difference of pointers makes the sum a long; less than nothing is a size that no block has
    if found.2 < p + freelen + 1 then none
    else
      let zm ← memmove zm p (p + freelen) (found.2 - (p + freelen + 1))
      let zm ← zipmapResize junk zm (uintSub found.2 freelen)
      let zm ← countKeys (· - 1) zm
      some (zm, true)

end

def zipmapGet (zm : List UInt8) (key : Text) : Option (Option (Nat × Nat)) := do
  let found ← zipmapLookupRaw zm (some key) false
  match found.1 with
  | none => some none
  | some p =>
    let p := p + (← zipmapRawKeyLength (zm.drop p))
    let vlen ← zipmapDecodeLength (zm.drop p)
    some (some (p + lenBytes vlen + 1, vlen))

def zipmapExists (zm : List UInt8) (key : Text) : Option Bool := do
  let found ← zipmapLookupRaw zm (some key) false
  some found.1.isSome

def zipmapNext (zm : List UInt8) (p : Nat) : Option (Option Nat) := do
  if (← (zm.drop p)[0]?) = zipmapEnd then some none
  else
    let p := p + (← zipmapRawKeyLength (zm.drop p))
    let p := p + (← zipmapRawValueLength (zm.drop p))
    some (some p)

/-- `while((p = zipmapNext(p,NULL,NULL,NULL,NULL)) != NULL)` -/
def lenLoop (zm : List UInt8) : Nat → Nat → Nat → Option Nat
  | 0, _, _ => none
  | fuel + 1, p, len => do
    match ← zipmapNext zm p with
    | none => some len
    | some p => lenLoop zm fuel p (uint (len + 1))

def zipmapLen (zm : List UInt8) : Option (List UInt8 × Nat) := do
  let count ← zm[0]?
  if count.toNat < zipmapBigLen then some (zm, count.toNat)
  else
    let len ← lenLoop zm zm.length 1 0
    if len < zipmapBigLen then
      let zm ← store zm 0 [UInt8.ofNat len]
      some (zm, len)
    else some (zm, len)

def zipmapBlobLen (zm : List UInt8) : Option Nat := do
  let found ← zipmapLookupRaw zm none true
  some found.2

end Cplusplus.Redis.Zipmap
