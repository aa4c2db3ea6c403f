import Mathlib.Algebra.Ring.Nat
import Mathlib.Logic.Function.Basic

/-! The hash table of `dict.c`: two chained tables of power-of-two size, with
the entries moved one bucket at a time from the first to the second. A result of
`none` is undefined behaviour: an access outside a table, a failed assertion, a
NULL dereference or an allocation whose byte count wraps. -/

namespace Cplusplus.Redis

structure DictEntry (K V : Type) where
  addr : Nat
  key : K
  val : V
deriving DecidableEq

structure Dictht (K V : Type) where
  table : Nat → List (DictEntry K V)
  size : Nat
  sizemask : Nat
  used : Nat

/-- `rehashidx` is `none` where the code stores -1. -/
structure Dict (K V : Type) where
  ht0 : Dictht K V
  ht1 : Dictht K V
  rehashidx : Option Nat
  iterators : Nat

inductive Status where
  | ok
  | err
deriving DecidableEq

def dictHtInitialSize : Nat := 4

def longMax : Nat := 2 ^ 63 - 1

def dictForceResizeRatio : Nat := 5

variable {K V : Type}

namespace Dictht

/-- `ht->table[i]`, defined inside the table only. -/
def bucket (t : Dictht K V) (i : Nat) : Option (List (DictEntry K V)) :=
  if i < t.size then some (t.table i) else none

def relink (t : Dictht K V) (i : Nat) (chain : List (DictEntry K V)) (used : Nat) : Dictht K V :=
  { t with table := Function.update t.table i chain, used }

def push (t : Dictht K V) (i : Nat) (entry : DictEntry K V) : Option (Dictht K V) := do
  let chain ← t.bucket i
  return t.relink i (entry :: chain) (t.used + 1)

end Dictht

def dictReset : Dictht K V :=
  { table := fun _ => [], size := 0, sizemask := 0, used := 0 }

def dictCreate : Dict K V :=
  { ht0 := dictReset, ht1 := dictReset, rehashidx := none, iterators := 0 }

namespace Dict

def isRehashing (d : Dict K V) : Bool := d.rehashidx.isSome

def ht (d : Dict K V) (second : Bool) : Dictht K V := if second then d.ht1 else d.ht0

def setHt (d : Dict K V) (second : Bool) (t : Dictht K V) : Dict K V :=
  if second then { d with ht1 := t } else { d with ht0 := t }

def dictSize (d : Dict K V) : Nat := d.ht0.used + d.ht1.used

end Dict

/-- The doubling loop of `_dictNextPower`; 62 doublings of 4 exhaust an unsigned long. -/
def nextPowerFrom (size : Nat) : Nat → Nat → Nat
  | 0, i => i
  | left + 1, i => if size ≤ i then i else nextPowerFrom size left (i * 2)

def dictNextPower (size : Nat) : Nat :=
  if longMax ≤ size then longMax else nextPowerFrom size 62 dictHtInitialSize

/-- `zcalloc(realsize*sizeof(dictEntry*))`: the product is an unsigned long, so
from 2^61 buckets on it no longer is the size of the table. -/
def dictCalloc (realsize : Nat) : Option (Dictht K V) :=
  if realsize * 8 < 2 ^ 64 then
    some { table := fun _ => [], size := realsize, sizemask := realsize - 1, used := 0 }
  else none

def dictExpand (d : Dict K V) (size : Nat) : Option (Dict K V × Status) :=
  let realsize := dictNextPower size
  if d.isRehashing || size < d.ht0.used then some (d, .err)
  else if realsize = d.ht0.size then some (d, .err)
  else do
    let n ← dictCalloc realsize
    if d.ht0.size = 0 then
      return ({ d with ht0 := n }, .ok)
    return ({ d with ht1 := n, rehashidx := some 0 }, .ok)

/-- `minimal` is an int. A negative one is raised to the initial size. -/
def dictResize (canResize : Bool) (d : Dict K V) : Option (Dict K V × Status) :=
  if !canResize || d.isRehashing then some (d, .err)
  else
    let minimal := (BitVec.ofNat 32 d.ht0.used).toInt
    dictExpand d (if minimal < dictHtInitialSize then dictHtInitialSize else minimal.toNat)

section Keyed

variable (hash : K → BitVec 32)

def keySlot (t : Dictht K V) (key : K) : Nat := (hash key).toNat &&& t.sizemask

/-- The inner `while(de)` loop of `dictRehash`: one chain goes to the second table. -/
def moveChain (ht0 ht1 : Dictht K V) : List (DictEntry K V) → Option (Dictht K V × Dictht K V)
  | [] => some (ht0, ht1)
  | de :: next => do
    let ht1 ← ht1.push (keySlot hash ht1 de.key) de
    moveChain { ht0 with used := ht0.used - 1 } ht1 next

inductive Skipped where
  | exhausted (rehashidx : Nat)
  | found (rehashidx : Nat) (emptyVisits : BitVec 32)

/-- `while(table[rehashidx] == NULL)`, with `left` buckets before the end of the table. -/
def skipEmpty (t : Dictht K V) : Nat → Nat → BitVec 32 → Option Skipped
  | 0, _, _ => none
  | left + 1, idx, emptyVisits =>
    match t.bucket idx with
    | none => none
    | some (_ :: _) => some (.found idx emptyVisits)
    | some [] =>
      if emptyVisits - 1#32 = 0#32 then some (.exhausted (idx + 1))
      else skipEmpty t left (idx + 1) (emptyVisits - 1#32)

def rehashLoop : Nat → BitVec 32 → Nat → Dict K V → Option (Dict K V × Bool)
  | 0, _, _, d => some (d, false)
  | n + 1, emptyVisits, idx, d =>
    if d.ht0.used = 0 then some (d, false)
    else do
      match ← skipEmpty d.ht0 (d.ht0.size - idx) idx emptyVisits with
      | .exhausted idx => return ({ d with rehashidx := some idx }, true)
      | .found idx emptyVisits =>
        let (ht0, ht1) ← moveChain hash d.ht0 d.ht1 (d.ht0.table idx)
        rehashLoop n emptyVisits (idx + 1)
          { d with ht0 := ht0.relink idx [] ht0.used, ht1, rehashidx := some (idx + 1) }

/-- `n` is an int: the loop counts it down to zero, and `n*10` wraps. -/
def dictRehash (d : Dict K V) (n : BitVec 32) : Option (Dict K V × Bool) :=
  match d.rehashidx with
  | none => some (d, false)
  | some idx => do
    let (d, exhausted) ← rehashLoop hash n.toNat (n * 10) idx d
    if exhausted then return (d, true)
    if d.ht0.used = 0 then
      return ({ d with ht0 := d.ht1, ht1 := dictReset, rehashidx := none }, false)
    return (d, true)

def dictRehashStep (d : Dict K V) : Option (Dict K V) :=
  if d.iterators = 0 then (dictRehash hash d 1).map Prod.fst else some d

def dictStepIfRehashing (d : Dict K V) : Option (Dict K V) :=
  if d.isRehashing then dictRehashStep hash d else some d

def dictExpandIfNeeded (canResize : Bool) (d : Dict K V) : Option (Dict K V × Status) :=
  if d.isRehashing then some (d, .ok)
  else if d.ht0.size = 0 then dictExpand d dictHtInitialSize
  else if d.ht0.size ≤ d.ht0.used ∧
      (canResize ∨ dictForceResizeRatio < d.ht0.used / d.ht0.size) then
    dictExpand d (d.ht0.used * 2)
  else some (d, .ok)

variable [DecidableEq K]

/-- The search that `dictFind`, `dictGenericDelete` and `_dictKeyIndex` share:
the table and the bucket whose chain holds the key. -/
def dictSearch (d : Dict K V) (key : K) : Option (Option (Bool × Nat)) := do
  let idx := keySlot hash d.ht0 key
  let chain ← d.ht0.bucket idx
  if chain.any (fun he => he.key = key) then return some (false, idx)
  if !d.isRehashing then return none
  let idx := keySlot hash d.ht1 key
  let chain ← d.ht1.bucket idx
  if chain.any (fun he => he.key = key) then return some (true, idx)
  return none

/-- The `unsigned int` index is returned as an `int`: -1 stands for "not to be
added", and an index from 2^31 on comes back negative. -/
def dictKeyIndex (canResize : Bool) (d : Dict K V) (key : K) : Option (Dict K V × Int) := do
  let (d, expanded) ← dictExpandIfNeeded canResize d
  if expanded = .err then return (d, -1)
  match ← dictSearch hash d key with
  | some _ => return (d, -1)
  | none => return (d, (BitVec.ofNat 32 (keySlot hash (d.ht d.isRehashing) key)).toInt)

def dictAddRaw (canResize : Bool) (d : Dict K V) (addr : Nat) (key : K) (val : V) :
    Option (Dict K V × Option (DictEntry K V)) := do
  let d ← dictStepIfRehashing hash d
  let (d, index) ← dictKeyIndex hash canResize d key
  if index = -1 then return (d, none)
  match index with
  | .negSucc _ => none
  | .ofNat i =>
    let entry := { addr, key, val }
    let t ← (d.ht d.isRehashing).push i entry
    return (d.setHt d.isRehashing t, some entry)

def dictAdd (canResize : Bool) (d : Dict K V) (addr : Nat) (key : K) (val : V) :
    Option (Dict K V × Status) := do
  let (d, entry) ← dictAddRaw hash canResize d addr key val
  return (d, if entry.isSome then .ok else .err)

def dictFindSlot (d : Dict K V) (key : K) :
    Option (Dict K V × Option (Bool × Nat × DictEntry K V)) := do
  if d.ht0.size = 0 then return (d, none)
  let d ← dictStepIfRehashing hash d
  match ← dictSearch hash d key with
  | none => return (d, none)
  | some (second, idx) =>
    return (d, (((d.ht second).table idx).find? (fun he => he.key = key)).map fun he =>
      (second, idx, he))

def dictFind (d : Dict K V) (key : K) : Option (Dict K V × Option (DictEntry K V)) := do
  let (d, found) ← dictFindSlot hash d key
  return (d, found.map fun slot => slot.2.2)

def setVal (key : K) (val : V) : List (DictEntry K V) → List (DictEntry K V)
  | [] => []
  | he :: next => if he.key = key then { he with val } :: next else he :: setVal key val next

def dictReplace (canResize : Bool) (d : Dict K V) (addr : Nat) (key : K) (val : V) :
    Option (Dict K V × Bool) := do
  let (d, added) ← dictAdd hash canResize d addr key val
  if added = .ok then return (d, true)
  match ← dictFindSlot hash d key with
  | (_, none) => none
  | (d, some (second, idx, _)) =>
    let t := d.ht second
    return (d.setHt second (t.relink idx (setVal key val (t.table idx)) t.used), false)

def dictGenericDelete (d : Dict K V) (key : K) : Option (Dict K V × Status) := do
  if d.ht0.size = 0 then return (d, .err)
  let d ← dictStepIfRehashing hash d
  match ← dictSearch hash d key with
  | none => return (d, .err)
  | some (second, idx) =>
    let t := d.ht second
    let chain := (t.table idx).eraseP (fun he => he.key = key)
    return (d.setHt second (t.relink idx chain (t.used - 1)), .ok)

end Keyed

def revLoop : Nat → Nat → BitVec 64 → BitVec 64 → BitVec 64
  | 0, _, _, v => v
  | rounds + 1, s, mask, v =>
    let s := s / 2
    let mask := mask ^^^ (mask <<< s)
    revLoop rounds s mask (((v >>> s) &&& mask) ||| ((v <<< s) &&& ~~~mask))

def rev (v : BitVec 64) : BitVec 64 := revLoop 6 64 (~~~0#64) v

def scanAdvance (m0 v : BitVec 64) : BitVec 64 := rev (rev (v ||| ~~~m0) + 1#64)

def scanExpansions (t1 : Dictht K V) (m0 m1 : BitVec 64) :
    Nat → BitVec 64 → Option (BitVec 64 × List (DictEntry K V))
  | 0, _ => none
  | fuel + 1, v => do
    let chain ← t1.bucket (v &&& m1).toNat
    let v := (((v ||| m0) + 1#64) &&& ~~~m0) ||| (v &&& m0)
    if v &&& (m0 ^^^ m1) = 0#64 then return (v, chain)
    let (v, rest) ← scanExpansions t1 m0 m1 fuel v
    return (v, chain ++ rest)

def Dictht.mask (t : Dictht K V) : BitVec 64 := BitVec.ofNat 64 t.sizemask

def dictScan (d : Dict K V) (v : BitVec 64) : Option (BitVec 64 × List (DictEntry K V)) := do
  if d.dictSize = 0 then return (0#64, [])
  if !d.isRehashing then
    let chain ← d.ht0.bucket (v &&& d.ht0.mask).toNat
    return (scanAdvance d.ht0.mask v, chain)
  let t0 := if d.ht1.size < d.ht0.size then d.ht1 else d.ht0
  let t1 := if d.ht1.size < d.ht0.size then d.ht0 else d.ht1
  let chain ← t0.bucket (v &&& t0.mask).toNat
  let (v, rest) ← scanExpansions t1 t0.mask t1.mask t1.size v
  return (scanAdvance t0.mask v, chain ++ rest)

structure DictIterator where
  table : Bool
  index : Int
  entry : Option Nat
  nextEntry : Option Nat

def dictGetSafeIterator : DictIterator :=
  { table := false, index := -1, entry := none, nextEntry := none }

def chainFrom (addr : Nat) : List (DictEntry K V) → Option (List (DictEntry K V))
  | [] => none
  | he :: next => if he.addr = addr then some (he :: next) else chainFrom addr next

def Dict.chains (d : Dict K V) : List (List (DictEntry K V)) :=
  (List.range d.ht0.size).map d.ht0.table ++ (List.range d.ht1.size).map d.ht1.table

/-- Follows a pointer to a live entry; `none` for a dangling one. -/
def Dict.follow (d : Dict K V) (addr : Nat) : Option (List (DictEntry K V)) :=
  d.chains.findSome? (chainFrom addr)

/-- The branch of `dictNext` that leaves a finished chain: the next bucket, in the
second table after the first one, or `none` at the end of the iteration. -/
def nextBucket (d : Dict K V) (iter : DictIterator) :
    Option (DictIterator × Option (List (DictEntry K V))) := do
  let index := iter.index + 1
  if (d.ht iter.table).size ≤ index then
    if d.isRehashing && !iter.table then
      let chain ← d.ht1.bucket 0
      return ({ iter with table := true, index := 0 }, some chain)
    return ({ iter with index }, none)
  let chain ← (d.ht iter.table).bucket index.toNat
  return ({ iter with index }, some chain)

/-- The end of a round: an entry is returned, the end of a chain goes round `again`,
and NULL is returned after the last bucket. -/
def dictNextReturn (again : DictIterator → Option (Dict K V × DictIterator × Option (DictEntry K V)))
    (d : Dict K V) (iter : DictIterator) :
    Option (List (DictEntry K V)) → Option (Dict K V × DictIterator × Option (DictEntry K V))
  | none => some (d, { iter with entry := none }, none)
  | some [] => again { iter with entry := none }
  | some (he :: next) =>
    some (d, { iter with entry := some he.addr, nextEntry := next.head?.map (·.addr) }, some he)

def dictNextLoop : Nat → Dict K V → DictIterator →
    Option (Dict K V × DictIterator × Option (DictEntry K V))
  | 0, _, _ => none
  | fuel + 1, d, iter => do
    let (d, iter, chain) ←
      match iter.entry with
      | none => do
        let started := iter.index = -1 ∧ iter.table = false
        let d := if started then { d with iterators := d.iterators + 1 } else d
        let (iter, chain) ← nextBucket d iter
        pure (d, iter, chain)
      | some _ =>
        match iter.nextEntry with
        | none => some (d, iter, some [])
        | some addr => do
          let chain ← d.follow addr
          pure (d, iter, some chain)
    dictNextReturn (dictNextLoop fuel d) d iter chain

def dictNext (d : Dict K V) (iter : DictIterator) :
    Option (Dict K V × DictIterator × Option (DictEntry K V)) :=
  dictNextLoop (d.ht0.size + d.ht1.size + 2) d iter

end Cplusplus.Redis
