import Cplusplus.OutputBuffer
import Cplusplus.Zskiplist

/-! String objects of `object.c` in the heap: how they are encoded, decoded and compared. A result
of none is a bad pointer or a failed assertion. -/

namespace Cplusplus.Redis.StringObjects
open OutputBuffer (Value Sds encodingEmbstrSizeLimit createStringObject)
open References

def sharedIntegers : Nat := 10000

inductive MaxmemoryPolicy where
  | volatileLru
  | volatileTtl
  | volatileRandom
  | allkeysLru
  | allkeysRandom
  | noEviction
deriving DecidableEq

structure Server where
  maxmemory : Nat
  maxmemoryPolicy : MaxmemoryPolicy
  integers : Nat → Nat

abbrev Objects := Heap Value

def string2l (s : List UInt8) : Option Int := string2ll s

def sdsRemoveFreeSpace (s : Sds) : Sds := { s with free := 0, block := 8 + s.buf.length + 1 }

/-- The LRU field of an object is needed, so it is not shared. -/
def Server.sharesIntegers (server : Server) : Bool :=
  server.maxmemory = 0 || (server.maxmemoryPolicy ≠ .volatileLru && server.maxmemoryPolicy ≠ .allkeysLru)

def encodeInteger (server : Server) (objects : Objects) (o : Nat) (value : Int) : Option (Objects × Nat) := do
  if server.sharesIntegers ∧ 0 ≤ value ∧ value < sharedIntegers then
    let objects ← objects.decrRef o
    let objects ← objects.incrRef (server.integers value.toNat)
    return (objects, server.integers value.toNat)
  else
    let objects ← objects.write o (.int (BitVec.ofInt 64 value))
    return (objects, o)

def encodeText (objects : Objects) (o : Nat) (value : Value) (text : List UInt8) : Option (Objects × Nat) := do
  match value with
  | .raw (some s) =>
    if text.length ≤ encodingEmbstrSizeLimit then
      let (objects, emb) := objects.alloc (.embstr text)
      let objects ← objects.decrRef o
      return (objects, emb)
    else if text.length / 10 < s.free.toNat then
      let objects ← objects.write o (.raw (some (sdsRemoveFreeSpace s)))
      return (objects, o)
    else return (objects, o)
  | _ => return (objects, o)

/-- An object that other places refer to is left alone. -/
def encodeString (server : Server) (objects : Objects) (o refcount : Nat) (value : Value) (text : List UInt8) : Option (Objects × Nat) :=
  if 1 < refcount then some (objects, o)
  else
    match if text.length ≤ 21 then string2l text else none with
    | some number => encodeInteger server objects o number
    | none => encodeText objects o value text

def tryObjectEncoding (server : Server) (objects : Objects) (o : Nat) : Option (Objects × Nat) := do
  let cell ← objects.get o
  match cell.value with
  | .int _ => return (objects, o)
  | value => encodeString server objects o cell.refcount value (← value.text)

def getDecodedObject (objects : Objects) (o : Nat) : Option (Objects × Nat) := do
  let cell ← objects.get o
  match cell.value with
  | .int value => return objects.alloc (createStringObject (ll2string 32 value.toInt))
  | _ =>
    let objects ← objects.incrRef o
    return (objects, o)

def comparedText : Value → Option (List UInt8)
  | .int value => some (ll2string 128 value.toInt)
  | value => value.text

/-- The difference of the lengths is returned as an int. -/
def compareTexts (astr bstr : List UInt8) : Int :=
  let cmp := memcmp astr bstr
  if cmp = 0 then (BitVec.ofInt 32 ((astr.length : Int) - bstr.length)).toInt else cmp

def compareStringObjects (objects : Objects) (a b : Nat) : Option Int := do
  if a = b then return 0
  let astr ← comparedText (← objects.get a).value
  let bstr ← comparedText (← objects.get b).value
  return compareTexts astr bstr

def equalStringObjects (objects : Objects) (a b : Nat) : Option Bool := do
  match (← objects.get a).value, (← objects.get b).value with
  | .int v, .int w => return v = w
  | _, _ =>
    let cmp ← compareStringObjects objects a b
    return cmp = 0

end Cplusplus.Redis.StringObjects
