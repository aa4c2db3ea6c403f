import Cplusplus.Library.Binary64

/-! The skiplist of `t_zset.c`. Nodes live in a heap; a pointer is an address. A
result of `none` is an access to a node or a level that does not exist, or a failed
assertion. What `zslRandomLevel` returns and the address that `zmalloc` returns are
arguments. -/

namespace Cplusplus.Redis

def zskiplistMaxlevel : Nat := 32

def memcmp : List UInt8 → List UInt8 → Int
  | x :: xs, y :: ys => if x = y then memcmp xs ys else (x.toNat : Int) - y.toNat
  | _, _ => 0

/-- On the strings of the two objects. The difference of the lengths fits in an int
because a string has at most 512 MB. -/
def compareStringObjects (a b : List UInt8) : Int :=
  let cmp := memcmp a b
  if cmp = 0 then (a.length : Int) - b.length else cmp

def equalStringObjects (a b : List UInt8) : Bool := compareStringObjects a b = 0

structure ZskiplistLevel where
  forward : Option Nat
  span : Nat

/-- `obj` is NULL in the header only. -/
structure ZskiplistNode where
  obj : Option (List UInt8)
  score : Binary64
  backward : Option Nat
  level : List ZskiplistLevel

abbrev ZslHeap := Nat → Option ZskiplistNode

structure Zskiplist where
  heap : ZslHeap
  header : Nat
  tail : Option Nat
  length : Nat
  level : Nat

/-- A value of type unsigned int. -/
def uint (n : Int) : Nat := (n % 2 ^ 32).toNat

def ulongModulus : Nat := 2 ^ 64

def levelAt (heap : ZslHeap) (x i : Nat) : Option ZskiplistLevel := (heap x).bind fun node => node.level[i]?

def setLevel (heap : ZslHeap) (x i : Nat) (level : ZskiplistLevel) : Option ZslHeap := do
  let node ← heap x
  if i < node.level.length then
    return fun y => if y = x then some { node with level := node.level.set i level } else heap y
  else none

def setBackward (heap : ZslHeap) (x : Nat) (backward : Option Nat) : Option ZslHeap := do
  let node ← heap x
  return fun y => if y = x then some { node with backward } else heap y

/-- The levels are assigned before they are read. -/
def zslCreateNode (level : Nat) (score : Binary64) (obj : Option (List UInt8)) : ZskiplistNode where
  obj := obj
  score := score
  backward := none
  level := List.replicate level { forward := none, span := 0 }

def zslCreate (header : Nat) : Zskiplist where
  heap := fun x => if x = header then some (zslCreateNode zskiplistMaxlevel Binary64.zero none) else none
  header := header
  tail := none
  length := 0
  level := 1

section Search

/-- The condition of a search, without the test that `forward` is not NULL: it is given
the rank so far, the span and the node at `forward`. -/
abbrev ZslGuard := Nat → Nat → Option ZskiplistNode → Option Bool

variable (guard : ZslGuard) (modulus : Nat) (heap : ZslHeap)

/-- The inner `while` loop at the level `i`. -/
def zslWalk (i : Nat) : Nat → Nat → Nat → Option (Nat × Nat)
  | 0, _, _ => none
  | fuel + 1, x, rank => do
    let l ← levelAt heap x i
    match l.forward with
    | none => return (x, rank)
    | some y =>
      if ← guard rank l.span (heap y) then zslWalk i fuel y ((rank + l.span) % modulus) else return (x, rank)

def zslDescend (fuel : Nat) : Nat → Nat → Nat → Option (List (Nat × Nat))
  | 0, _, _ => some []
  | i + 1, x, rank => do
    let (x, rank) ← zslWalk guard modulus heap i fuel x rank
    let path ← zslDescend fuel i x rank
    return path ++ [(x, rank)]

end Search

def sortsBefore (score : Binary64) (obj : List UInt8) : ZslGuard := fun _ _ node => do
  let node ← node
  if node.score.lt score then return true
  if node.score.eq score then
    let other ← node.obj
    return compareStringObjects other obj < 0
  else return false

def sortsNotAfter (score : Binary64) (obj : List UInt8) : ZslGuard := fun _ _ node => do
  let node ← node
  if node.score.lt score then return true
  if node.score.eq score then
    let other ← node.obj
    return compareStringObjects other obj ≤ 0
  else return false

def zslEachLevel {α : Type} (body : Nat → α → ZslHeap → Option ZslHeap) : Nat → List α → ZslHeap → Option ZslHeap
  | _, [], heap => some heap
  | i, item :: items, heap => do
    let heap ← body i item heap
    zslEachLevel body (i + 1) items heap

def zslOpenLevel (length i : Nat) (entry : Nat × Nat) (heap : ZslHeap) : Option ZslHeap := do
  let l ← levelAt heap entry.1 i
  setLevel heap entry.1 i { l with span := uint length }

def zslLinkLevel (x level rank0 i : Nat) (entry : Nat × Nat) (heap : ZslHeap) : Option ZslHeap := do
  let (update, rank) := entry
  let l ← levelAt heap update i
  if i < level then
    let heap ← setLevel heap x i { forward := l.forward, span := uint (l.span - (rank0 - rank)) }
    setLevel heap update i { forward := some x, span := uint (rank0 - rank + 1) }
  else setLevel heap update i { l with span := uint (l.span + 1) }

def zslLinkBack (heap : ZslHeap) (tail next backward : Option Nat) : Option (ZslHeap × Option Nat) :=
  match next with
  | some next => do
    let heap ← setBackward heap next backward
    return (heap, tail)
  | none => some (heap, backward)

def zslInsert (zsl : Zskiplist) (x level : Nat) (score : Binary64) (obj : List UInt8) : Option Zskiplist := do
  if score.isNaN then none
  let path ← zslDescend (sortsBefore score obj) (2 ^ 32) zsl.heap (zsl.length + 1) zsl.level zsl.header 0
  -- there are none of these unless `level > zsl->level`
  let opened := List.replicate (level - zsl.level) (zsl.header, 0)
  let heap ← zslEachLevel (zslOpenLevel zsl.length) zsl.level opened zsl.heap
  let path := path ++ opened
  let (update, rank0) ← path[0]?
  let heap : ZslHeap := fun y => if y = x then some (zslCreateNode level score (some obj)) else heap y
  let heap ← zslEachLevel (zslLinkLevel x level rank0) 0 path heap
  let heap ← setBackward heap x (if update = zsl.header then none else some update)
  let l ← levelAt heap x 0
  let (heap, tail) ← zslLinkBack heap zsl.tail l.forward (some x)
  return { zsl with heap, tail, length := (zsl.length + 1) % ulongModulus, level := max zsl.level level }

def zslUnlinkLevel (x i update : Nat) (heap : ZslHeap) : Option ZslHeap := do
  let l ← levelAt heap update i
  if l.forward = some x then
    let out ← levelAt heap x i
    setLevel heap update i { forward := out.forward, span := uint (l.span + out.span - 1) }
  else setLevel heap update i { l with span := uint (l.span - 1) }

/-- `while(zsl->level > 1 && zsl->header->level[zsl->level-1].forward == NULL) zsl->level--` -/
def zslLowerLevel (heap : ZslHeap) (header : Nat) : Nat → Option Nat
  | 0 => some 0
  | 1 => some 1
  | level + 2 => do
    let l ← levelAt heap header (level + 1)
    if l.forward = none then zslLowerLevel heap header (level + 1) else return level + 2

def zslDeleteNode (zsl : Zskiplist) (x : Nat) (update : List Nat) : Option Zskiplist := do
  let heap ← zslEachLevel (zslUnlinkLevel x) 0 (update.take zsl.level) zsl.heap
  let node ← heap x
  let l ← levelAt heap x 0
  let (heap, tail) ← zslLinkBack heap zsl.tail l.forward node.backward
  let level ← zslLowerLevel heap zsl.header zsl.level
  return { zsl with
    heap := fun y => if y = x then none else heap y
    tail, level
    length := (zsl.length + (ulongModulus - 1)) % ulongModulus }

def zslAfterSearch (zsl : Zskiplist) (path : List (Nat × Nat)) : Option (Option Nat) := do
  let (x, _) ← path[0]?
  let l ← levelAt zsl.heap x 0
  return l.forward

def zslDelete (zsl : Zskiplist) (score : Binary64) (obj : List UInt8) : Option (Zskiplist × Bool) := do
  let path ← zslDescend (sortsBefore score obj) ulongModulus zsl.heap (zsl.length + 1) zsl.level zsl.header 0
  match ← zslAfterSearch zsl path with
  | none => return (zsl, false)
  | some x =>
    let node ← zsl.heap x
    if score.eq node.score then
      let other ← node.obj
      if equalStringObjects other obj then
        let zsl ← zslDeleteNode zsl x (path.map Prod.fst)
        return (zsl, true)
      else return (zsl, false)
    else return (zsl, false)

/-- The loop that deletes nodes while they are in range. The elements are those that are
deleted from the dict, in order; their number is `removed`. -/
def zslDeleteWhile (inRange : Nat → ZskiplistNode → Bool) (update : List Nat) :
    Nat → Zskiplist → Option Nat → Nat → Option (Zskiplist × List (List UInt8))
  | _, zsl, none, _ => some (zsl, [])
  | 0, _, some _, _ => none
  | fuel + 1, zsl, some x, traversed => do
    let node ← zsl.heap x
    if inRange traversed node then
      let l ← levelAt zsl.heap x 0
      let obj ← node.obj
      let zsl ← zslDeleteNode zsl x update
      let (zsl, removed) ← zslDeleteWhile inRange update fuel zsl l.forward (traversed + 1)
      return (zsl, obj :: removed)
    else return (zsl, [])

structure Zrangespec where
  min : Binary64
  max : Binary64
  minex : Bool
  maxex : Bool

def zslDeleteRangeByScore (zsl : Zskiplist) (range : Zrangespec) : Option (Zskiplist × List (List UInt8)) := do
  let guard : ZslGuard := fun _ _ node =>
    node.map fun node => if range.minex then node.score.le range.min else node.score.lt range.min
  let path ← zslDescend guard ulongModulus zsl.heap (zsl.length + 1) zsl.level zsl.header 0
  let first ← zslAfterSearch zsl path
  let inRange := fun _ node => if range.maxex then node.score.lt range.max else node.score.le range.max
  zslDeleteWhile inRange (path.map Prod.fst) (zsl.length + 1) zsl first 0

/-- `start` and `stop` are unsigned ints. -/
def zslDeleteRangeByRank (zsl : Zskiplist) (start stop : Nat) : Option (Zskiplist × List (List UInt8)) := do
  let guard : ZslGuard := fun traversed span _ => some ((traversed + span) % ulongModulus < start)
  let path ← zslDescend guard ulongModulus zsl.heap (zsl.length + 1) zsl.level zsl.header 0
  let first ← zslAfterSearch zsl path
  let (_, traversed) ← path[0]?
  zslDeleteWhile (fun traversed _ => traversed ≤ stop) (path.map Prod.fst) (zsl.length + 1) zsl first (traversed + 1)

def zslRankFrom (zsl : Zskiplist) (score : Binary64) (obj : List UInt8) : Nat → Nat → Nat → Option Nat
  | 0, _, _ => some 0
  | i + 1, x, rank => do
    let (x, rank) ← zslWalk (sortsNotAfter score obj) ulongModulus zsl.heap i (zsl.length + 1) x rank
    let node ← zsl.heap x
    match node.obj with
    | some other => if equalStringObjects other obj then return rank else zslRankFrom zsl score obj i x rank
    | none => zslRankFrom zsl score obj i x rank

def zslGetRank (zsl : Zskiplist) (score : Binary64) (obj : List UInt8) : Option Nat :=
  zslRankFrom zsl score obj zsl.level zsl.header 0

/-- The loop of `zslGetElementByRank` over the levels below `i`; the inner `none` is NULL. -/
def zslElementFrom (zsl : Zskiplist) (wanted : Nat) : Nat → Nat → Nat → Option (Option Nat)
  | 0, _, _ => some none
  | i + 1, x, traversed => do
    let guard : ZslGuard := fun traversed span _ => some ((traversed + span) % ulongModulus ≤ wanted)
    let (x, traversed) ← zslWalk guard ulongModulus zsl.heap i (zsl.length + 1) x traversed
    if traversed = wanted then return some x else zslElementFrom zsl wanted i x traversed

def zslGetElementByRank (zsl : Zskiplist) (rank : Nat) : Option (Option Nat) :=
  zslElementFrom zsl rank zsl.level zsl.header 0

end Cplusplus.Redis
