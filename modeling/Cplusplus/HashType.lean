import Cplusplus.SetType

/-! The hash type of `t_hash.c` over its two encodings. A ziplist is the sequence of its entries;
a result of none is a failed assertion or a fault of the table. -/

namespace Cplusplus.Redis

def tryObjectEncoding : StringObject → StringObject
  | .sds text =>
    if text.length ≤ 21 then
      match string2ll text with
      | some value => .int (BitVec.ofInt 64 value)
      | none => .sds text
    else .sds text
  | .int value => .int value

abbrev HashDict := Dict (List UInt8) StringObject

inductive HashObject where
  | ziplist (zl : Entries)
  | ht (ptr : HashDict)

def createHashObject : HashObject := .ziplist []

def ziplistObject : ZiplistValue → StringObject
  | .str vstr => .sds vstr
  | .int vll => createStringObjectFromLongLong vll

def hashTypeLength : HashObject → Nat
  | .ziplist zl => zl.length / 2
  | .ht ptr => ptr.dictSize

def hashTypeFindField (zl : Entries) (field : List UInt8) : Option Nat :=
  (zl.index 0).bind fun fptr => zl.find fptr field 1

/-- The inner none is the result -1. -/
def hashTypeGetFromZiplist (zl : Entries) (field : StringObject) : Option (Option ZiplistValue) :=
  match hashTypeFindField zl (getDecodedObject field) with
  | none => some none
  | some fptr => do
    let vptr ← zl.next fptr
    let value ← zl.get vptr
    return some value

section Operations

variable (hash : List UInt8 → BitVec 32)

def hashTypeGetObject (o : HashObject) (field : StringObject) : Option (HashObject × Option StringObject) :=
  match o with
  | .ziplist zl => do
    let value ← hashTypeGetFromZiplist zl field
    return (.ziplist zl, value.map ziplistObject)
  | .ht ptr => do
    let (ptr, de) ← dictFind hash ptr (getDecodedObject field)
    return (.ht ptr, de.map DictEntry.val)

def hashTypeExists (o : HashObject) (field : StringObject) : Option (HashObject × Bool) :=
  match o with
  | .ziplist zl => do
    let value ← hashTypeGetFromZiplist zl field
    return (.ziplist zl, value.isSome)
  | .ht ptr => do
    let (ptr, de) ← dictFind hash ptr (getDecodedObject field)
    return (.ht ptr, de.isSome)

/-- The `while (hashTypeNext(hi) != REDIS_ERR)` loop of `hashTypeConvertZiplist` from the pointer
`fptr` on; `addr` are the addresses of the new entries. -/
def hashTypeConvertLoop (canResize : Bool) (addr : Nat → Nat) (zl : Entries) : Nat → Option Nat → HashDict → Option HashDict
  | _, none, dict => some dict
  | 0, some _, _ => none
  | fuel + 1, some fptr, dict => do
    let vptr ← zl.next fptr
    let field := tryObjectEncoding (ziplistObject (← zl.get fptr))
    let value := tryObjectEncoding (ziplistObject (← zl.get vptr))
    match ← dictAdd hash canResize dict (addr fptr) (getDecodedObject field) value with
    | (dict, .ok) => hashTypeConvertLoop canResize addr zl fuel (zl.next vptr) dict
    | (_, .err) => none

/-- To REDIS_ENCODING_HT. -/
def hashTypeConvertZiplist (canResize : Bool) (addr : Nat → Nat) (zl : Entries) : Option HashDict :=
  hashTypeConvertLoop hash canResize addr zl (zl.length + 1) (zl.index 0) dictCreate

def hashTypeTryConversion (hashMaxZiplistValue : Nat) (canResize : Bool) (addr : Nat → Nat) (o : HashObject)
    (argv : List StringObject) : Option HashObject :=
  match o with
  | .ht ptr => some (.ht ptr)
  | .ziplist zl =>
    let long : StringObject → Bool
      | .sds text => decide (hashMaxZiplistValue < text.length)
      | .int _ => false
    if argv.any long then (hashTypeConvertZiplist hash canResize addr zl).map .ht else some (.ziplist zl)

def hashTypeSetZiplist (zl : Entries) (field value : List UInt8) : Option (Entries × Bool) :=
  match hashTypeFindField zl field with
  | some fptr => do
    let vptr ← zl.next fptr
    return ((zl.delete vptr).insert vptr value, true)
  | none => some ((zl.push field false).push value false, false)

def hashTypeSet (hashMaxZiplistEntries : Nat) (canResize : Bool) (addr : Nat → Nat) (o : HashObject)
    (field value : StringObject) : Option (HashObject × Bool) :=
  match o with
  | .ziplist zl => do
    let (zl, update) ← hashTypeSetZiplist zl (getDecodedObject field) (getDecodedObject value)
    if hashMaxZiplistEntries < hashTypeLength (.ziplist zl) then
      let dict ← hashTypeConvertZiplist hash canResize addr zl
      return (.ht dict, update)
    return (.ziplist zl, update)
  | .ht ptr => do
    let (ptr, inserted) ← dictReplace hash canResize ptr (addr 0) (getDecodedObject field) value
    return (.ht ptr, !inserted)

def hashTypeDelete (canResize : Bool) (o : HashObject) (field : StringObject) : Option (HashObject × Bool) :=
  match o with
  | .ziplist zl =>
    match hashTypeFindField zl (getDecodedObject field) with
    | some fptr => some (.ziplist ((zl.delete fptr).delete fptr), true)
    | none => some (.ziplist zl, false)
  | .ht ptr => do
    match ← dictGenericDelete hash ptr (getDecodedObject field) with
    | (ptr, .ok) =>
      if htNeedsResize ptr then
        let (ptr, _) ← dictResize canResize ptr
        return (.ht ptr, true)
      return (.ht ptr, true)
    | (ptr, .err) => return (.ht ptr, false)

end Operations

end Cplusplus.Redis
