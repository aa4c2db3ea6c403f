import Cplusplus.Dict
import Cplusplus.Intset

/-! The set type of `t_set.c` over its two encodings, and the string objects that are its
members. A result of `none` is a failed assertion or a fault of the structure below. -/

namespace Cplusplus.Redis

open Function (update)

/-- A string object by its encoding. RAW and EMBSTR differ in where the text lies only. -/
inductive StringObject where
  | sds (text : List UInt8)
  | int (value : BitVec 64)
deriving DecidableEq

def getDecodedObject : StringObject → List UInt8
  | .sds text => text
  | .int value => ll2string 32 value.toInt

/-- The value where the result is REDIS_OK. -/
def isObjectRepresentableAsLongLong : StringObject → Option Int
  | .sds text => string2ll text
  | .int value => some value.toInt

def createStringObjectFromLongLong (value : Int) : StringObject := .int (BitVec.ofInt 64 value)

def dictSdsKeyCompare (key1 key2 : List UInt8) : Bool :=
  if key1.length ≠ key2.length then false else key1 = key2

def dictEncObjKeyCompare : StringObject → StringObject → Bool
  | .int value1, .int value2 => value1 = value2
  | key1, key2 => dictSdsKeyCompare (getDecodedObject key1) (getDecodedObject key2)

/-- The table of `setDictType`. A key is the text of the key object, which is what hash and
comparison look at; the object stands in the place of the value, which is NULL. -/
abbrev SetDict := Dict (List UInt8) StringObject

inductive SetObject where
  | ht (ptr : SetDict)
  | intset (ptr : Intset)

def setTypeCreate (value : StringObject) : SetObject :=
  if (isObjectRepresentableAsLongLong value).isSome then .intset intsetNew else .ht dictCreate

def setTypeSize : SetObject → Nat
  | .ht ptr => ptr.dictSize
  | .intset ptr => intsetLen ptr

def redisHtMinfill : Nat := 10

def htNeedsResize (dict : SetDict) : Bool :=
  let size := dict.ht0.size + dict.ht1.size
  let used := dict.dictSize
  size ≠ 0 ∧ used ≠ 0 ∧ dictHtInitialSize < size ∧ used * 100 / size < redisHtMinfill

section Operations

variable (hash : List UInt8 → BitVec 32) (junk : List UInt8 → Nat → UInt8)

/-- The `while(setTypeNext(...) != -1)` loop of `setTypeConvert`; `addr` are the addresses of
the new entries, and a failed `dictAdd` is a failed assertion. -/
def setTypeConvertLoop (canResize : Bool) (addr : Nat → Nat) (ptr : Intset) : Nat → Nat → SetDict → Option SetDict
  | 0, _, _ => none
  | fuel + 1, ii, d => do
    match ← intsetGet ptr ii with
    | none => return d
    | some intele =>
      let element := createStringObjectFromLongLong intele
      match ← dictAdd hash canResize d (addr ii) (getDecodedObject element) element with
      | (d, .ok) => setTypeConvertLoop canResize addr ptr fuel (ii + 1) d
      | (_, .err) => none

def setTypeConvert (canResize : Bool) (addr : Nat → Nat) (ptr : Intset) : Option SetDict := do
  let (d, _) ← dictExpand dictCreate (intsetLen ptr)
  setTypeConvertLoop hash canResize addr ptr (intsetLen ptr + 1) 0 d

def setTypeAdd (setMaxIntsetEntries : Nat) (canResize : Bool) (addr : Nat → Nat) (subject : SetObject)
    (value : StringObject) : Option (SetObject × Bool) :=
  match subject with
  | .ht ptr => do
    let (ptr, status) ← dictAdd hash canResize ptr (addr 0) (getDecodedObject value) value
    return (.ht ptr, status = .ok)
  | .intset ptr =>
    match isObjectRepresentableAsLongLong value with
    | some llval => do
      let (ptr, success) ← intsetAdd junk ptr llval
      if success ∧ setMaxIntsetEntries < intsetLen ptr then
        let ptr ← setTypeConvert hash canResize addr ptr
        return (.ht ptr, true)
      return (.intset ptr, success)
    | none => do
      let d ← setTypeConvert hash canResize addr ptr
      match ← dictAdd hash canResize d (addr (intsetLen ptr)) (getDecodedObject value) value with
      | (d, .ok) => return (.ht d, true)
      | (_, .err) => none

def setTypeRemove (canResize : Bool) (setobj : SetObject) (value : StringObject) : Option (SetObject × Bool) :=
  match setobj with
  | .ht ptr => do
    match ← dictGenericDelete hash ptr (getDecodedObject value) with
    | (ptr, .ok) =>
      if htNeedsResize ptr then
        let (ptr, _) ← dictResize canResize ptr
        return (.ht ptr, true)
      return (.ht ptr, true)
    | (ptr, .err) => return (.ht ptr, false)
  | .intset ptr =>
    match isObjectRepresentableAsLongLong value with
    | some llval => do
      let (ptr, success) ← intsetRemove junk ptr llval
      return (.intset ptr, success)
    | none => return (.intset ptr, false)

def setTypeIsMember (subject : SetObject) (value : StringObject) : Option (SetObject × Bool) :=
  match subject with
  | .ht ptr => do
    let (ptr, found) ← dictFind hash ptr (getDecodedObject value)
    return (.ht ptr, found.isSome)
  | .intset ptr =>
    match isObjectRepresentableAsLongLong value with
    | some llval => (intsetFind ptr llval).map fun found => (.intset ptr, found)
    | none => some (.intset ptr, false)

end Operations

/-! SINTER, SUNION and SDIFF of `t_set.c` and their STORE forms. The clock stands still in a
command, so a key is there or missing for all of its lookups. -/

section
inductive DbObject where
  | set (obj : SetObject)
  | other

abbrev SetDb := List UInt8 → Option DbObject

/-- No two keys share an object, so its key stands for the pointer to it; `none` is NULL. -/
abbrev SetPointer := Option (List UInt8)

inductive SetReply where
  | wrongtypeerr
  | integer (value : Nat)
  | multibulk (length : Int) (elements : List (List UInt8))

inductive SetElement where
  | intset (llele : Int)
  | ht (objele : StringObject)

def SetElement.object : SetElement → StringObject
  | .intset llele => createStringObjectFromLongLong llele
  | .ht objele => objele

def dictElements (d : SetDict) : List StringObject :=
  let entries := (List.range d.ht0.size).flatMap d.ht0.table ++
    if d.isRehashing then (List.range d.ht1.size).flatMap d.ht1.table else []
  entries.map DictEntry.val

def intsetElements (ptr : Intset) : Nat → Nat → Option (List SetElement)
  | 0, _ => none
  | fuel + 1, ii => do
    match ← intsetGet ptr ii with
    | none => return []
    | some llele => return .intset llele :: (← intsetElements ptr fuel (ii + 1))

def setTypeElements : SetObject → Option (List SetElement)
  | .ht ptr => some ((dictElements ptr).map .ht)
  | .intset ptr => intsetElements ptr (ptr.length + 1) 0

def SetDb.object (db : SetDb) (set : SetPointer) : Option SetObject := do
  match ← db (← set) with
  | .set obj => return obj
  | .other => none

def SetDb.size (db : SetDb) (set : SetPointer) : Nat := ((db.object set).map setTypeSize).getD 0

/-- The difference of two values of type unsigned long, returned as an int. -/
def sizeDifference (size1 size2 : Nat) : Int := ((BitVec.ofNat 64 size1 - BitVec.ofNat 64 size2).setWidth 32).toInt

def qsortCompareSetsByCardinality (db : SetDb) (s1 s2 : SetPointer) : Int := sizeDifference (db.size s1) (db.size s2)

def qsortCompareSetsByRevCardinality (db : SetDb) (s1 s2 : SetPointer) : Int := sizeDifference (db.size s2) (db.size s1)

structure SetServer where
  dictGenHashFunction : List UInt8 → BitVec 32
  junk : List UInt8 → Nat → UInt8
  setMaxIntsetEntries : Nat
  canResize : Bool
  addr : SetObject → Nat → Nat
  qsort : (SetPointer → SetPointer → Int) → List SetPointer → List SetPointer

variable (server : SetServer)

def addToSet (dstset : SetObject) (ele : StringObject) : Option (SetObject × Bool) :=
  setTypeAdd server.dictGenHashFunction server.junk server.setMaxIntsetEntries server.canResize (server.addr dstset) dstset ele

def SetDb.isMember (db : SetDb) (set : SetPointer) (ele : StringObject) : Option (SetDb × Bool) := do
  let key ← set
  let (obj, found) ← setTypeIsMember server.dictGenHashFunction (← db.object set) ele
  return (update db key (some (.set obj)), found)

/-- The end of the STORE forms. -/
def storeSet (db : SetDb) (dstkey : List UInt8) (dstset : SetObject) : SetDb × SetReply :=
  let db := update db dstkey none
  if 0 < setTypeSize dstset then (update db dstkey (some (.set dstset)), .integer (setTypeSize dstset))
  else (db, .integer 0)

def sinterTest (db : SetDb) (set : SetPointer) : SetElement → Option (SetDb × Bool)
  | .intset intobj => do
    match ← db.object set with
    | .intset ptr => return (db, ← intsetFind ptr intobj)
    | .ht _ => db.isMember server set (createStringObjectFromLongLong intobj)
  | .ht eleobj => do
    match eleobj, ← db.object set with
    | .int value, .intset ptr =>
      if !(← intsetFind ptr value.toInt) then return (db, false)
      db.isMember server set eleobj
    | _, _ => db.isMember server set eleobj

def sinterTestAll (first : SetPointer) (ele : SetElement) : List SetPointer → SetDb → Option (SetDb × Bool)
  | [], db => some (db, true)
  | set :: sets, db =>
    if set = first then sinterTestAll first ele sets db
    else do
      let (db, found) ← sinterTest server db set ele
      if found then sinterTestAll first ele sets db else return (db, false)

def sinterLoop {α : Type} (emit : α → SetElement → Option α) (first : SetPointer) (sets : List SetPointer) :
    List SetElement → SetDb → α → Option (SetDb × α)
  | [], db, out => some (db, out)
  | ele :: elements, db, out => do
    let (db, found) ← sinterTestAll server first ele sets db
    let out ← if found then emit out ele else some out
    sinterLoop emit first sets elements db out

def emitReply (replies : List (List UInt8)) : SetElement → Option (List (List UInt8))
  | .intset intobj => some (replies ++ [ll2string 64 intobj])
  | .ht eleobj => some (replies ++ [getDecodedObject eleobj])

def emitStore (dstset : SetObject) (ele : SetElement) : Option SetObject := (addToSet server dstset ele.object).map Prod.fst

inductive SetLookup where
  | missing
  | wrongtype
  | sets (sets : List SetPointer)

def sinterLookup (db : SetDb) : List (List UInt8) → SetLookup
  | [] => .sets []
  | key :: setkeys =>
    match db key with
    | none => .missing
    | some .other => .wrongtype
    | some (.set _) =>
      match sinterLookup db setkeys with
      | .sets sets => .sets (some key :: sets)
      | failed => failed

def sinterGenericCommand (db : SetDb) (setkeys : List (List UInt8)) (dstkey : Option (List UInt8)) :
    Option (SetDb × SetReply) :=
  match sinterLookup db setkeys with
  | .wrongtype => some (db, .wrongtypeerr)
  | .missing =>
    match dstkey with
    | some dstkey => some (update db dstkey none, .integer 0)
    | none => some (db, .multibulk 0 [])
  | .sets sets =>
    match server.qsort (qsortCompareSetsByCardinality db) sets with
    | [] => none
    | first :: sets => do
      let elements ← setTypeElements (← db.object first)
      match dstkey with
      | none =>
        let (db, replies) ← sinterLoop server emitReply first sets elements db []
        return (db, .multibulk replies.length replies)
      | some dstkey =>
        let (db, dstset) ← sinterLoop server (emitStore server) first sets elements db (.intset intsetNew)
        return storeSet db dstkey dstset

inductive SetOp where
  | union
  | diff
deriving DecidableEq

/-- A NULL stands for a missing key; `none` is a key of another type. -/
def sunionDiffLookup (db : SetDb) : List (List UInt8) → Option (List SetPointer)
  | [] => some []
  | key :: setkeys => do
    match db key with
    | none => return none :: (← sunionDiffLookup db setkeys)
    | some .other => none
    | some (.set _) => return some key :: (← sunionDiffLookup db setkeys)

/-- The counter is an int: there is no result when it overflows. -/
def increment (cardinality : Int) : Option Int := if cardinality < 2 ^ 31 - 1 then some (cardinality + 1) else none

def diffAlgo (db : SetDb) (sets : List SetPointer) (first : SetPointer) : Nat :=
  let present := sets.filter Option.isSome
  let algoOneWork := (present.map fun _ => db.size first).sum / 2
  let algoTwoWork := (present.map db.size).sum
  if algoOneWork ≤ algoTwoWork then 1 else 2

def addElements : List SetElement → SetObject → Int → Option (SetObject × Int)
  | [], dstset, cardinality => some (dstset, cardinality)
  | ele :: elements, dstset, cardinality => do
    let (dstset, added) ← addToSet server dstset ele.object
    let cardinality ← if added then increment cardinality else some cardinality
    addElements elements dstset cardinality

def removeElements : List SetElement → SetObject → Int → Option (SetObject × Int)
  | [], dstset, cardinality => some (dstset, cardinality)
  | ele :: elements, dstset, cardinality => do
    let (dstset, removed) ← setTypeRemove server.dictGenHashFunction server.junk server.canResize dstset ele.object
    removeElements elements dstset (if removed then cardinality - 1 else cardinality)

def unionLoop (db : SetDb) : List SetPointer → SetObject → Int → Option (SetObject × Int)
  | [], dstset, cardinality => some (dstset, cardinality)
  | none :: sets, dstset, cardinality => unionLoop db sets dstset cardinality
  | set :: sets, dstset, cardinality => do
    let elements ← setTypeElements (← db.object set)
    let (dstset, cardinality) ← addElements server elements dstset cardinality
    unionLoop db sets dstset cardinality

def diffTestAll (first : SetPointer) (ele : StringObject) : List SetPointer → SetDb → Option (SetDb × Bool)
  | [], db => some (db, true)
  | none :: sets, db => diffTestAll first ele sets db
  | set :: sets, db =>
    if set = first then some (db, false)
    else do
      let (db, found) ← db.isMember server set ele
      if found then return (db, false) else diffTestAll first ele sets db

def diffLoopOne (first : SetPointer) (sets : List SetPointer) :
    List SetElement → SetDb → SetObject → Int → Option (SetDb × SetObject × Int)
  | [], db, dstset, cardinality => some (db, dstset, cardinality)
  | ele :: elements, db, dstset, cardinality => do
    match ← diffTestAll server first ele.object sets db with
    | (db, true) =>
      let (dstset, _) ← addToSet server dstset ele.object
      diffLoopOne first sets elements db dstset (← increment cardinality)
    | (db, false) => diffLoopOne first sets elements db dstset cardinality

def diffLoopTwo (db : SetDb) : List SetPointer → SetObject → Int → Option (SetObject × Int)
  | [], dstset, cardinality => some (dstset, cardinality)
  | none :: sets, dstset, cardinality => diffLoopTwo db sets dstset cardinality
  | set :: sets, dstset, cardinality => do
    let elements ← setTypeElements (← db.object set)
    let (dstset, cardinality) ← removeElements server elements dstset cardinality
    if cardinality = 0 then return (dstset, cardinality) else diffLoopTwo db sets dstset cardinality

def sunionDiffCompute (db : SetDb) (op : SetOp) : List SetPointer → Option (SetDb × SetObject × Int)
  | [] => none
  | first :: sets =>
    match op, first with
    | .union, _ => do
      let (dstset, cardinality) ← unionLoop server db (first :: sets) (.intset intsetNew) 0
      return (db, dstset, cardinality)
    | .diff, none => some (db, .intset intsetNew, 0)
    | .diff, some _ => do
      let elements ← setTypeElements (← db.object first)
      if diffAlgo db (first :: sets) first = 1 then
        diffLoopOne server first (server.qsort (qsortCompareSetsByRevCardinality db) sets) elements db (.intset intsetNew) 0
      else
        let (dstset, cardinality) ← addElements server elements (.intset intsetNew) 0
        if cardinality = 0 then return (db, dstset, cardinality)
        let (dstset, cardinality) ← diffLoopTwo server db sets dstset cardinality
        return (db, dstset, cardinality)

def sunionDiffGenericCommand (db : SetDb) (setkeys : List (List UInt8)) (dstkey : Option (List UInt8)) (op : SetOp) :
    Option (SetDb × SetReply) :=
  match sunionDiffLookup db setkeys with
  | none => some (db, .wrongtypeerr)
  | some sets => do
    let (db, dstset, cardinality) ← sunionDiffCompute server db op sets
    match dstkey with
    | none =>
      let elements ← setTypeElements dstset
      return (db, .multibulk cardinality (elements.map fun ele => getDecodedObject ele.object))
    | some dstkey => return storeSet db dstkey dstset

end

end Cplusplus.Redis

/-! SRANDMEMBER with a count, in `t_set.c`. The temporary tables are the lists of their keys, as an
iterator would meet them; which entry `dictGetRandomKey` comes to is a choice like that of `rand()`. -/

namespace Cplusplus.Redis.Srandmember

structure Random where
  next : Nat → Nat
  fair {n r : Nat} (i : Nat) : r < n → ∃ j, i ≤ j ∧ next j % n = r

abbrev Keys := List StringObject

def dictAdd (d : Keys) (key : StringObject) : Keys × Bool :=
  if d.any (dictEncObjKeyCompare key) then (d, false) else (key :: d, true)

def dictDelete (d : Keys) (key : StringObject) : Keys := d.eraseP (dictEncObjKeyCompare key)

def dictGetRandomKey (d : Keys) (choice : Nat) : Option StringObject := d[choice % d.length]?

def setTypeRandomElement (set : SetObject) (choice : Nat) : Option SetElement := do
  let elements ← setTypeElements set
  elements[choice % elements.length]?

section
variable (random : Random)

/-- CASE 1: `while(count--)` -/
def sampleLoop (set : SetObject) : Nat → Nat → List (List UInt8) → Option (List (List UInt8))
  | 0, _, replies => some replies
  | count + 1, i, replies => do
    let ele ← setTypeRandomElement set (random.next i)
    sampleLoop set count (i + 1) (← emitReply replies ele)

/-- CASE 2: SUNION of the one set. The cardinality is an int. -/
def unionOne : List SetElement → Keys → Int → Option (Keys × Int)
  | [], dstset, cardinality => some (dstset, cardinality)
  | ele :: elements, dstset, cardinality => do
    let (dstset, added) := dictAdd dstset ele.object
    unionOne elements dstset (← if added then increment cardinality else some cardinality)

/-- CASE 3: all the elements, where a failed `dictAdd` is a failed assertion. -/
def fillLoop : List SetElement → Keys → Option Keys
  | [], d => some d
  | ele :: elements, d =>
    match dictAdd d ele.object with
    | (d, true) => fillLoop elements d
    | (_, false) => none

def removeLoop : Nat → Nat → Keys → Option Keys
  | 0, _, d => some d
  | left + 1, i, d => do
    let de ← dictGetRandomKey d (random.next i)
    removeLoop left (i + 1) (dictDelete d de)

/-- CASE 4: `while(added < count)`, where `added` is the size of the table. There is no result while
the loop has not come to its end. -/
def insertLoop (set : SetObject) (count : Nat) : Nat → Nat → Keys → Option Keys
  | 0, _, _ => none
  | fuel + 1, i, d =>
    if d.length < count then do
      let ele ← setTypeRandomElement set (random.next i)
      insertLoop set count fuel (i + 1) (dictAdd d ele.object).1
    else some d

/-- The command once the count is parsed and the set is found. `count` and `size` are unsigned longs,
and a length is replied as a long. -/
def srandmemberWithCountCommand (set : SetObject) (l : BitVec 64) (fuel : Nat) : Option SetReply := do
  let uniq := !l.slt 0
  let count := if uniq then (l.setWidth 32).setWidth 64 else -l
  let size := setTypeSize set
  if count = 0 then return .multibulk 0 []
  else if !uniq then
    let replies ← sampleLoop random set count.toNat 0 []
    return .multibulk count.toInt replies
  else if size ≤ count.toNat then
    let (dstset, cardinality) ← unionOne (← setTypeElements set) [] 0
    return .multibulk cardinality (dstset.map getDecodedObject)
  else if size < (count * 3).toNat then
    let d ← fillLoop (← setTypeElements set) []
    if d.length ≠ size then none
    let d ← removeLoop random (size - count.toNat) 0 d
    return .multibulk count.toInt (d.map getDecodedObject)
  else
    let d ← insertLoop random set count.toNat fuel 0 []
    return .multibulk count.toInt (d.map getDecodedObject)

end

end Cplusplus.Redis.Srandmember
