import Cplusplus.Ziplist

/-! The integer set of `intset.c`: the encoding, the length and the block of bytes behind
them. A result of `none` is an access outside the block. -/

namespace Cplusplus.Redis
open Bytes

inductive IntsetEnc where
  | int16
  | int32
  | int64
deriving DecidableEq

def IntsetEnc.size : IntsetEnc → Nat
  | .int16 => 2
  | .int32 => 4
  | .int64 => 8

structure Intset where
  encoding : IntsetEnc
  length : Nat
  contents : List UInt8

def intsetValueEncoding (v : Int) : IntsetEnc :=
  if v < -2 ^ 31 ∨ 2 ^ 31 - 1 < v then .int64
  else if v < -2 ^ 15 ∨ 2 ^ 15 - 1 < v then .int32
  else .int16

def intsetGetEncoded (is : Intset) (pos : Nat) (enc : IntsetEnc) : Option Int :=
  loadInt enc.size (is.contents.drop (pos * enc.size))

def intsetGetPos (is : Intset) (pos : Nat) : Option Int := intsetGetEncoded is pos is.encoding

def intsetSetPos (is : Intset) (pos : Nat) (value : Int) : Option Intset := do
  let contents ← store is.contents (pos * is.encoding.size) (intBytes is.encoding.size value)
  return { is with contents }

def intsetNew : Intset where
  encoding := .int16
  length := 0
  contents := []

def intsetSearchLoop (is : Intset) (value : Int) : Nat → Int → Int → Int → Int → Option (Int × Int × Int)
  | 0, _, _, _, _ => none
  | fuel + 1, min, max, mid, cur =>
    if min ≤ max then do
      let mid := (min + max) / 2
      let cur ← intsetGetPos is mid.toNat
      if cur < value then intsetSearchLoop is value fuel (mid + 1) max mid cur
      else if value < cur then intsetSearchLoop is value fuel min (mid - 1) mid cur
      else return (min, mid, cur)
    else return (min, mid, cur)

def intsetSearch (is : Intset) (value : Int) : Option (Bool × Nat) := do
  if is.length = 0 then return (false, 0)
  if (← intsetGetPos is (is.length - 1)) < value then return (false, is.length)
  if value < (← intsetGetPos is 0) then return (false, 0)
  let (min, mid, cur) ← intsetSearchLoop is value (is.length + 1) 0 (is.length - 1) (-1) (-1)
  return if value = cur then (true, mid.toNat) else (false, min.toNat)

section Resizing

variable (junk : List UInt8 → Nat → UInt8)

def intsetResize (is : Intset) (len : Nat) : Intset :=
  { is with contents := realloc junk is.contents (len % 2 ^ 32 * is.encoding.size % 2 ^ 32) }

def intsetUpgradeLoop (curenc : IntsetEnc) (shift : Nat) : Nat → Intset → Option Intset
  | 0, is => some is
  | length + 1, is => do
    let value ← intsetGetEncoded is length curenc
    let is ← intsetSetPos is (length + shift) value
    intsetUpgradeLoop curenc shift length is

def intsetUpgradeAndAdd (is : Intset) (value : Int) : Option Intset := do
  let curenc := is.encoding
  let length := is.length
  let shift := if value < 0 then 1 else 0
  let is := intsetResize junk { is with encoding := intsetValueEncoding value } (is.length + 1)
  let is ← intsetUpgradeLoop curenc shift length is
  let is ← intsetSetPos is (if shift = 1 then 0 else is.length) value
  return { is with length := (is.length + 1) % 2 ^ 32 }

def intsetMoveTail (is : Intset) (start target : Nat) : Option Intset := do
  let bytes := (is.length - start) * is.encoding.size % 2 ^ 32
  let contents ← memmove is.contents (target * is.encoding.size) (start * is.encoding.size) bytes
  return { is with contents }

def intsetAdd (is : Intset) (value : Int) : Option (Intset × Bool) := do
  if is.encoding.size < (intsetValueEncoding value).size then
    let is ← intsetUpgradeAndAdd junk is value
    return (is, true)
  let (found, pos) ← intsetSearch is value
  if found then return (is, false)
  let length := is.length
  let is := intsetResize junk is (length + 1)
  let is ← if pos < length then intsetMoveTail is pos (pos + 1) else some is
  let is ← intsetSetPos is pos value
  return ({ is with length := (length + 1) % 2 ^ 32 }, true)

def intsetRemove (is : Intset) (value : Int) : Option (Intset × Bool) := do
  if (intsetValueEncoding value).size ≤ is.encoding.size then
    let (found, pos) ← intsetSearch is value
    if found then
      let len := is.length
      let is ← if pos < len - 1 then intsetMoveTail is (pos + 1) pos else some is
      let is := intsetResize junk is (len - 1)
      return ({ is with length := len - 1 }, true)
    else return (is, false)
  else return (is, false)

end Resizing

def intsetFind (is : Intset) (value : Int) : Option Bool :=
  if (intsetValueEncoding value).size ≤ is.encoding.size then (intsetSearch is value).map Prod.fst else some false

/-- The inner `none` is the result 0. -/
def intsetGet (is : Intset) (pos : Nat) : Option (Option Int) :=
  if pos < is.length then (intsetGetPos is pos).map some else some none

def intsetLen (is : Intset) : Nat := is.length

end Cplusplus.Redis
