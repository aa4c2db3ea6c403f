import Cplusplus.Library.Binary64
import Cplusplus.Pqsort
import Cplusplus.ReadOnlySlave
import Cplusplus.SetType

/-! The SORT command of `sort.c`. A key that has expired is not in the database, and no key expires during the
command. Notifications and the count of changes are left out. -/

namespace Cplusplus.Redis.Sort
open CheckAof (strcasecmp cString)
open Pqsort (TotalPreorder TotalPreorderOn pqsort)
open ReadOnlySlave (getLongFromObject)

abbrev Bytes := List UInt8

structure SortedSet where
  ranked : List StringObject
  iterated : List StringObject
  same : iterated.Perm ranked

inductive Collection where
  | list (elements : List StringObject)
  | set (elements : List StringObject)
  | zset (zobj : SortedSet)

inductive Value where
  | string (o : StringObject)
  | hash (fields : Bytes → Option StringObject)
  | collection (c : Collection)

abbrev Keyspace := Bytes → Option Value

inductive Reply where
  | wrongtypeerr
  | syntaxerr
  | notInteger
  | deniedInCluster (option : Bytes)
  | notDouble
  | multiBulk (len : Nat) (bulks : List (Option Bytes))
  | integer (value : Nat)

inductive Fault where
  | outOfMemory
  /-- An access outside of the vector. -/
  | outside
  | assertion
  | fuel

def memcmp : Bytes → Bytes → Int
  | x :: a, y :: b => if x = y then memcmp a b else (x.toNat : Int) - y.toNat
  | _, _ => 0

def compareStringObjects (a b : Bytes) : Int := if memcmp a b = 0 then (a.length : Int) - b.length else memcmp a b

/-- `strstr(s, "->")` -/
def findArrow : Bytes → Option Nat
  | x :: y :: s => if x = 45 ∧ y = 62 then some 0 else (findArrow (y :: s)).map (· + 1)
  | _ => none

structure Pattern where
  front : Bytes
  postfix_ : Bytes
  field : Option Bytes

def splitPattern (spat : Bytes) : Option Pattern :=
  let front := (cString spat).takeWhile (· ≠ 42)
  if front.length = (cString spat).length then none
  else
    let rest := spat.drop (front.length + 1)
    match findArrow (cString rest) with
    | none => some ⟨front, rest, none⟩
    | some f => if rest.getD (f + 2) 0 ≠ 0 then some ⟨front, rest.take f, some (rest.drop (f + 2))⟩ else some ⟨front, rest, none⟩

def lookupKeyByPattern (db : Keyspace) (spat : Bytes) (subst : StringObject) : Option StringObject :=
  if cString spat = [35] then some subst
  else do
    let pattern ← splitPattern spat
    let o ← db (pattern.front ++ getDecodedObject subst ++ pattern.postfix_)
    match pattern.field, o with
    | some field, .hash fields => fields field
    | none, .string o => some o
    | _, _ => none

structure SortObject where
  obj : StringObject
  score : Binary64
  cmpobj : Option Bytes

/-- What `strtod` returns: the number, where it stops, and whether it sets `errno` to ERANGE. -/
structure Strtod where
  value : Binary64
  eptr : Nat
  erange : Bool

/-- The functions of the C library, and the conversion of a long to a double. A text that is collated ends at its NUL. -/
structure Libc where
  strtod : Bytes → Strtod
  toDouble : BitVec 64 → Binary64
  strcoll : Bytes → Bytes → Int
  qsort : (SortObject → SortObject → Int) → List SortObject → List SortObject
  number : ∀ value, (toDouble value).isNaN = false
  collates : TotalPreorder strcoll
  permutes : ∀ cmp vector, (qsort cmp vector).Perm vector
  sorts : ∀ valid cmp vector, (∀ x ∈ vector, valid x) → TotalPreorderOn valid cmp → (qsort cmp vector).Pairwise fun x y => cmp x y ≤ 0

/-- `erange` tells if `errno` is ERANGE. -/
structure Options where
  desc : Bool
  alpha : Bool
  limitStart : Int64
  limitCount : Int64
  storekey : Option Bytes
  sortby : Option Bytes
  dontsort : Bool
  operations : List Bytes
  erange : Bool

/-- The order of STORE does not depend on the locale. -/
def collate (libc : Libc) (o : Options) (a b : Bytes) : Int :=
  if o.storekey.isSome then compareStringObjects a b else libc.strcoll (cString a) (cString b)

/-- A compare object that is NULL comes first. -/
def compareOptional {β : Type} (cmp : β → β → Int) : Option β → Option β → Int
  | none, none => 0
  | none, some _ => -1
  | some _, none => 1
  | some a, some b => cmp a b

def compareAscending (libc : Libc) (o : Options) (so1 so2 : SortObject) : Int :=
  if o.alpha = false then
    if so2.score.lt so1.score then 1
    else if so1.score.lt so2.score then -1
    else compareStringObjects (getDecodedObject so1.obj) (getDecodedObject so2.obj)
  else if o.sortby.isSome then compareOptional (collate libc o) so1.cmpobj so2.cmpobj
  else collate libc o (getDecodedObject so1.obj) (getDecodedObject so2.obj)

def sortCompare (libc : Libc) (o : Options) (so1 so2 : SortObject) : Int :=
  if o.desc then -compareAscending libc o so1 so2 else compareAscending libc o so1 so2

def ascName : Bytes := [97, 115, 99]

def descName : Bytes := [100, 101, 115, 99]

def alphaName : Bytes := [97, 108, 112, 104, 97]

def limitName : Bytes := [108, 105, 109, 105, 116]

def storeName : Bytes := [115, 116, 111, 114, 101]

def byName : Bytes := [98, 121]

def getName : Bytes := [103, 101, 116]

def parseArgument (clusterEnabled : Bool) (o : Options) (word arg : Bytes) : Except Reply Options :=
  if strcasecmp word storeName then .ok { o with storekey := some arg }
  else if strcasecmp word byName then
    if 42 ∈ cString arg then
      if clusterEnabled then .error (.deniedInCluster byName) else .ok { o with sortby := some arg }
    else .ok { o with sortby := some arg, dontsort := true }
  else if strcasecmp word getName then
    if clusterEnabled then .error (.deniedInCluster getName) else .ok { o with operations := o.operations ++ [arg] }
  else .error .syntaxerr

/-- LIMIT clears `errno`. -/
def parseLimit (o : Options) (start count : Bytes) : Except Reply Options :=
  match getLongFromObject start, getLongFromObject count with
  | some start, some count => .ok { o with limitStart := Int64.ofInt start, limitCount := Int64.ofInt count, erange := false }
  | _, _ => .error .notInteger

def parseOptions (clusterEnabled : Bool) (o : Options) : List Bytes → Except Reply Options
  | [] => .ok o
  | [word] =>
    if strcasecmp word ascName then .ok { o with desc := false }
    else if strcasecmp word descName then .ok { o with desc := true }
    else if strcasecmp word alphaName then .ok { o with alpha := true }
    else .error .syntaxerr
  | word :: arg :: args =>
    if strcasecmp word ascName then parseOptions clusterEnabled { o with desc := false } (arg :: args)
    else if strcasecmp word descName then parseOptions clusterEnabled { o with desc := true } (arg :: args)
    else if strcasecmp word alphaName then parseOptions clusterEnabled { o with alpha := true } (arg :: args)
    else if strcasecmp word limitName then
      match args with
      | [] => .error .syntaxerr
      | count :: args => do
        let o ← parseLimit o arg count
        parseOptions clusterEnabled o args
    else do
      let o ← parseArgument clusterEnabled o word arg
      parseOptions clusterEnabled o args

def initialOptions (erange : Bool) : Options := ⟨false, false, 0, -1, none, none, false, [], erange⟩

def forceAlpha (o : Options) (lua : Bool) : Collection → Options
  | .set _ => if o.dontsort ∧ (o.storekey.isSome ∨ lua) then { o with dontsort := false, alpha := true, sortby := none } else o
  | _ => o

/-- A value of type int. -/
def int (x : Int) : Int := x.bmod (2 ^ 32)

/-- A value of type long; a sum that overflows wraps around. -/
def long (x : Int) : Int := x.bmod (2 ^ 64)

structure Range where
  start : Int
  end_ : Int

def limit (o : Options) (vectorlen : Int) : Range :=
  let start := if o.limitStart < 0 then 0 else o.limitStart.toInt
  let end_ := if o.limitCount < 0 then int (vectorlen - 1) else long (start + o.limitCount.toInt - 1)
  let r : Range := if vectorlen ≤ start then ⟨int (vectorlen - 1), int (vectorlen - 2)⟩ else ⟨start, end_⟩
  if vectorlen ≤ r.end_ then { r with end_ := int (vectorlen - 1) } else r

def Collection.length : Collection → Nat
  | .list elements => elements.length
  | .set elements => elements.length
  | .zset zobj => zobj.iterated.length

def zslGetElementByRank (ranked : List StringObject) (rank : Int) : Option StringObject :=
  if 0 < rank then ranked[(rank - 1).toNat]? else none

def walk (ranked : List StringObject) (desc : Bool) : Nat → Int → Except Fault (List StringObject)
  | 0, _ => .ok []
  | rangelen + 1, rank =>
    match zslGetElementByRank ranked rank with
    | none => .error .assertion
    | some ele => (walk ranked desc rangelen (if desc then rank - 1 else rank + 1)).map (ele :: ·)

def fill (elements : List StringObject) (vectorlen : Int) : Except Fault (List StringObject) :=
  if vectorlen < 0 then .error .outOfMemory else if vectorlen = elements.length then .ok elements else .error .outside

structure Loaded where
  vector : List StringObject
  range : Range
  vectorlen : Int

def load (o : Options) (c : Collection) : Except Fault Loaded :=
  let vectorlen := int c.length
  let r := limit o vectorlen
  match c with
  | .list elements => (fill elements vectorlen).map (⟨·, r, vectorlen⟩)
  | .set elements => (fill elements vectorlen).map (⟨·, r, vectorlen⟩)
  | .zset zobj =>
    if o.dontsort then
      let vectorlen := if r.start ≠ 0 ∨ r.end_ ≠ int (vectorlen - 1) then int (long (r.end_ - r.start + 1)) else vectorlen
      if vectorlen < 0 then .error .outOfMemory
      else
        let zsetlen : Int := zobj.iterated.length
        let rank := if o.desc then (if 0 < r.start then zsetlen - r.start else zsetlen) else (if 0 < r.start then r.start + 1 else 1)
        (walk zobj.ranked o.desc vectorlen.toNat rank).map (⟨·, ⟨0, long (r.end_ - r.start)⟩, vectorlen⟩)
    else (fill zobj.iterated vectorlen).map (⟨·, r, vectorlen⟩)

def byval (db : Keyspace) (o : Options) (obj : StringObject) : Option StringObject :=
  match o.sortby with
  | some sortby => lookupKeyByPattern db sortby obj
  | none => some obj

/-- A number as a weight, if it is one. ERANGE may have been set before. -/
def weightError (libc : Libc) (erange : Bool) : StringObject → Bool
  | .sds text =>
    text.getD (libc.strtod text).eptr 0 ≠ 0 || (erange || (libc.strtod text).erange) || (libc.strtod text).value.isNaN
  | .int _ => false

def weight (libc : Libc) : StringObject → Binary64
  | .sds text => (libc.strtod text).value
  | .int value => libc.toDouble value

/-- `errno` after a weight. -/
def errnoAfter (libc : Libc) (erange : Bool) : StringObject → Bool
  | .sds text => erange || (libc.strtod text).erange
  | .int _ => erange

def sortObject (libc : Libc) (db : Keyspace) (o : Options) (obj : StringObject) : SortObject :=
  if o.dontsort then ⟨obj, .zero, none⟩
  else
    match byval db o obj with
    | none => ⟨obj, .zero, none⟩
    | some value =>
      if o.alpha then ⟨obj, .zero, if o.sortby.isSome then some (getDecodedObject value) else none⟩ else ⟨obj, weight libc value, none⟩

def conversionError (libc : Libc) (db : Keyspace) (o : Options) : Bool → List StringObject → Bool
  | _, [] => false
  | erange, obj :: vector =>
    match if o.dontsort ∨ o.alpha then none else byval db o obj with
    | none => conversionError libc db o erange vector
    | some value => weightError libc erange value || conversionError libc db o (errnoAfter libc erange value) vector

def partialSort (cmp : SortObject → SortObject → Int) (vector : List SortObject) (start end_ : Int) : Except Fault (List SortObject) :=
  match vector with
  | [] => .ok []
  | x :: _ =>
    match pqsort cmp 16 ⟨fun i => vector.getD i x⟩ vector.length start end_ with
    | none => .error .fuel
    | some m => .ok ((List.range vector.length).map m.cell)

def sortVector (libc : Libc) (o : Options) (l : Loaded) (vector : List SortObject) : Except Fault (List SortObject) :=
  if o.dontsort then .ok vector
  else if o.sortby.isSome ∧ (l.range.start ≠ 0 ∨ l.range.end_ ≠ int (l.vectorlen - 1)) then
    partialSort (sortCompare libc o) vector l.range.start l.range.end_
  else .ok (libc.qsort (sortCompare libc o) vector)

/-- The values of an element, none for a nil. -/
def outputs (db : Keyspace) (o : Options) (obj : StringObject) : List (Option StringObject) :=
  if o.operations = [] then [some obj] else o.operations.map fun pattern => lookupKeyByPattern db pattern obj

def elementsFrom (vector : List SortObject) : Nat → Nat → Except Fault (List StringObject)
  | 0, _ => .ok []
  | k + 1, j =>
    match vector[j]? with
    | none => .error .outside
    | some x => (elementsFrom vector k (j + 1)).map (x.obj :: ·)

/-- An unsigned int. -/
def outputlen (o : Options) (r : Range) : Nat :=
  let len := r.end_ - r.start + 1
  ((if o.operations.length ≠ 0 then o.operations.length * len else len) % 2 ^ 32).toNat

def emptyString : StringObject := .sds []

def emit (db : Keyspace) (o : Options) (r : Range) (vector : List SortObject) : Except Fault (Keyspace × Reply) := do
  let elements ← elementsFrom vector (r.end_ - r.start + 1).toNat r.start.toNat
  let values := elements.flatMap (outputs db o)
  match o.storekey with
  | none => .ok (db, .multiBulk (outputlen o r) (values.map fun value => value.map getDecodedObject))
  | some storekey =>
    let sobj := values.map fun value => value.getD emptyString
    .ok (Function.update db storekey (if outputlen o r ≠ 0 then some (.collection (.list sobj)) else none), .integer (outputlen o r))

def sortCollection (libc : Libc) (db : Keyspace) (o : Options) (c : Collection) : Except Fault (Keyspace × Reply) := do
  let l ← load o c
  let vector ← sortVector libc o l (l.vector.map (sortObject libc db o))
  if conversionError libc db o o.erange l.vector then .ok (db, .notDouble) else emit db o l.range vector

/-- `argv` are the arguments after the key. `erange` tells if `errno` is ERANGE at the start. -/
def sortCommand (libc : Libc) (clusterEnabled lua erange : Bool) (db : Keyspace) (key : Bytes) (argv : List Bytes) :
    Except Fault (Keyspace × Reply) :=
  let sorted (c : Collection) : Except Fault (Keyspace × Reply) :=
    match parseOptions clusterEnabled (initialOptions erange) argv with
    | .error reply => .ok (db, reply)
    | .ok o => sortCollection libc db (forceAlpha o lua c) c
  match db key with
  | none => sorted (.list [])
  | some (.collection c) => sorted c
  | some (.string _) => .ok (db, .wrongtypeerr)
  | some (.hash _) => .ok (db, .wrongtypeerr)

end Cplusplus.Redis.Sort
