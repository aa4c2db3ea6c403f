import Cplusplus.Dict
import Cplusplus.Ziplist
import Cplusplus.Zskiplist

/-! Ranges of scores of `t_zset.c`. The dict of a sorted set maps the elements to their scores. -/

namespace Cplusplus.Redis

def zslValueGteMin (value : Binary64) (spec : Zrangespec) : Bool := if spec.minex then spec.min.lt value else spec.min.le value

def zslValueLteMax (value : Binary64) (spec : Zrangespec) : Bool := if spec.maxex then value.lt spec.max else value.le spec.max

def scoreRangeEmpty (range : Zrangespec) : Bool := range.max.lt range.min || (range.min.eq range.max && (range.minex || range.maxex))

def zslScore (zsl : Zskiplist) (x : Nat) : Option Binary64 := (zsl.heap x).map ZskiplistNode.score

def zslIsInRange (zsl : Zskiplist) (range : Zrangespec) : Option Bool := do
  if scoreRangeEmpty range then return false
  match zsl.tail with
  | none => return false
  | some x =>
    if !zslValueGteMin (← zslScore zsl x) range then return false
    match (← levelAt zsl.heap zsl.header 0).forward with
    | none => return false
    | some x => return zslValueLteMax (← zslScore zsl x) range

def scoreBelow (range : Zrangespec) : ZslGuard := fun _ _ node => node.map fun node => !zslValueGteMin node.score range

def scoreNotAbove (range : Zrangespec) : ZslGuard := fun _ _ node => node.map fun node => zslValueLteMax node.score range

/-- The inner `none` is NULL. -/
def zslFirstInRange (zsl : Zskiplist) (range : Zrangespec) : Option (Option Nat) := do
  if !(← zslIsInRange zsl range) then return none
  let path ← zslDescend (scoreBelow range) ulongModulus zsl.heap (zsl.length + 1) zsl.level zsl.header 0
  let x ← (← zslAfterSearch zsl path)
  return if zslValueLteMax (← zslScore zsl x) range then some x else none

def zslLastInRange (zsl : Zskiplist) (range : Zrangespec) : Option (Option Nat) := do
  if !(← zslIsInRange zsl range) then return none
  let path ← zslDescend (scoreNotAbove range) ulongModulus zsl.heap (zsl.length + 1) zsl.level zsl.header 0
  let (x, _) ← path[0]?
  return if zslValueGteMin (← zslScore zsl x) range then some x else none

section Dict

variable {V : Type} (hash : List UInt8 → BitVec 32)

def dictDeleteElements (dict : Dict (List UInt8) V) : List (List UInt8) → Option (Dict (List UInt8) V)
  | [] => some dict
  | obj :: objs => do
    let (dict, _) ← dictGenericDelete hash dict obj
    dictDeleteElements dict objs

/-- The skiplist, the dict and `removed`. An element leaves the dict when its node is unlinked;
neither structure sees the other. -/
def zslDeleteRangeByScoreDict (zsl : Zskiplist) (range : Zrangespec) (dict : Dict (List UInt8) V) :
    Option (Zskiplist × Dict (List UInt8) V × Nat) := do
  let (zsl, removed) ← zslDeleteRangeByScore zsl range
  let dict ← dictDeleteElements hash dict removed
  return (zsl, dict, removed.length)

end Dict

/-! Lexicographic ranges of `t_zset.c`. The two shared objects that stand for the infinite
bounds have contents of their own, which `compareStringObjects` compares. -/

inductive RangeObject where
  /-- `REDIS_ENCODING_INT` -/
  | int (value : Int)
  | raw (bytes : List UInt8)

inductive LexBound where
  | minstring
  | maxstring
  | string (bytes : List UInt8)

/-- The contents of a bound; those of the shared objects are "minstring" and "maxstring". -/
def LexBound.content : LexBound → List UInt8
  | .minstring => [109, 105, 110, 115, 116, 114, 105, 110, 103]
  | .maxstring => [109, 97, 120, 115, 116, 114, 105, 110, 103]
  | .string bytes => bytes

structure Zlexrangespec where
  min : LexBound
  max : LexBound
  minex : Bool
  maxex : Bool

def zslParseLexRangeItem (item : List UInt8) : Option (LexBound × Bool) :=
  let c := item.getD 0 0
  if c = 43 then if item.getD 1 0 ≠ 0 then none else some (.maxstring, false)
  else if c = 45 then if item.getD 1 0 ≠ 0 then none else some (.minstring, false)
  else if c = 40 then some (.string (item.drop 1), true)
  else if c = 91 then some (.string (item.drop 1), false)
  else none

def zslParseLexRange : RangeObject → RangeObject → Option Zlexrangespec
  | .raw min, .raw max => do
    let (min, minex) ← zslParseLexRangeItem min
    let (max, maxex) ← zslParseLexRangeItem max
    return { min, max, minex, maxex }
  | _, _ => none

def compareStringObjectsForLexRange : LexBound → LexBound → Int
  | .minstring, .minstring | .maxstring, .maxstring => 0
  | .minstring, _ | _, .maxstring => -1
  | .maxstring, _ | _, .minstring => 1
  | .string a, .string b => compareStringObjects a b

def zslLexValueGteMin (value : List UInt8) (spec : Zlexrangespec) : Bool :=
  if spec.minex then 0 < compareStringObjectsForLexRange (.string value) spec.min
  else 0 ≤ compareStringObjectsForLexRange (.string value) spec.min

def zslLexValueLteMax (value : List UInt8) (spec : Zlexrangespec) : Bool :=
  if spec.maxex then compareStringObjectsForLexRange (.string value) spec.max < 0
  else compareStringObjectsForLexRange (.string value) spec.max ≤ 0

def lexRangeEmpty (range : Zlexrangespec) : Bool :=
  1 < compareStringObjectsForLexRange range.min range.max ||
    (compareStringObjects range.min.content range.max.content = 0 && (range.minex || range.maxex))

def zslObj (zsl : Zskiplist) (x : Nat) : Option (List UInt8) := (zsl.heap x).bind ZskiplistNode.obj

def zslIsInLexRange (zsl : Zskiplist) (range : Zlexrangespec) : Option Bool := do
  if lexRangeEmpty range then return false
  match zsl.tail with
  | none => return false
  | some x =>
    if !zslLexValueGteMin (← zslObj zsl x) range then return false
    match (← levelAt zsl.heap zsl.header 0).forward with
    | none => return false
    | some x => return zslLexValueLteMax (← zslObj zsl x) range

def lexBelow (range : Zlexrangespec) : ZslGuard := fun _ _ node => do return !zslLexValueGteMin (← (← node).obj) range

def lexNotAbove (range : Zlexrangespec) : ZslGuard := fun _ _ node => do return zslLexValueLteMax (← (← node).obj) range

def zslFirstInLexRange (zsl : Zskiplist) (range : Zlexrangespec) : Option (Option Nat) := do
  if !(← zslIsInLexRange zsl range) then return none
  let path ← zslDescend (lexBelow range) ulongModulus zsl.heap (zsl.length + 1) zsl.level zsl.header 0
  let x ← (← zslAfterSearch zsl path)
  return if zslLexValueLteMax (← zslObj zsl x) range then some x else none

def zslLastInLexRange (zsl : Zskiplist) (range : Zlexrangespec) : Option (Option Nat) := do
  if !(← zslIsInLexRange zsl range) then return none
  let path ← zslDescend (lexNotAbove range) ulongModulus zsl.heap (zsl.length + 1) zsl.level zsl.header 0
  let (x, _) ← path[0]?
  return if zslLexValueGteMin (← zslObj zsl x) range then some x else none

def zslDeleteRangeByLex (zsl : Zskiplist) (range : Zlexrangespec) : Option (Zskiplist × List (List UInt8)) := do
  let path ← zslDescend (lexBelow range) ulongModulus zsl.heap (zsl.length + 1) zsl.level zsl.header 0
  let first ← zslAfterSearch zsl path
  let inRange := fun _ (node : ZskiplistNode) => node.obj.any fun obj => zslLexValueLteMax obj range
  zslDeleteWhile inRange (path.map Prod.fst) (zsl.length + 1) zsl first 0

def ziplistGetObject (zl : List UInt8) (p : Nat) : Option (List UInt8) := do
  match ← (← ziplistGet zl (some p)) with
  | .str bytes => return bytes
  | .int value => return ll2string 128 value

def zzlIsInLexRange (zl : List UInt8) (range : Zlexrangespec) : Option Bool := do
  if lexRangeEmpty range then return false
  match ← ziplistIndex zl (-2) with
  | none => return false
  | some p =>
    if !zslLexValueGteMin (← ziplistGetObject zl p) range then return false
    let p ← (← ziplistIndex zl 0)
    return zslLexValueLteMax (← ziplistGetObject zl p) range

def zzlFirstFrom (zl : List UInt8) (range : Zlexrangespec) : Nat → Option Nat → Option (Option Nat)
  | _, none => some none
  | 0, some _ => none
  | fuel + 1, some eptr => do
    let value ← ziplistGetObject zl eptr
    if zslLexValueGteMin value range then return if zslLexValueLteMax value range then some eptr else none
    let sptr ← (← ziplistNext zl eptr)
    zzlFirstFrom zl range fuel (← ziplistNext zl sptr)

def zzlFirstInLexRange (zl : List UInt8) (range : Zlexrangespec) : Option (Option Nat) := do
  let eptr ← ziplistIndex zl 0
  if !(← zzlIsInLexRange zl range) then return none
  zzlFirstFrom zl range (zl.length + 1) eptr

def zzlLastFrom (zl : List UInt8) (range : Zlexrangespec) : Nat → Option Nat → Option (Option Nat)
  | _, none => some none
  | 0, some _ => none
  | fuel + 1, some eptr => do
    let value ← ziplistGetObject zl eptr
    if zslLexValueLteMax value range then return if zslLexValueGteMin value range then some eptr else none
    match ← ziplistPrev zl eptr with
    | none => return none
    | some sptr => zzlLastFrom zl range fuel (some (← (← ziplistPrev zl sptr)))

def zzlLastInLexRange (zl : List UInt8) (range : Zlexrangespec) : Option (Option Nat) := do
  let eptr ← ziplistIndex zl (-2)
  if !(← zzlIsInLexRange zl range) then return none
  zzlLastFrom zl range (zl.length + 1) eptr

section
variable (junk : List UInt8 → Nat → UInt8)

def zzlDeleteWhileLex (range : Zlexrangespec) : Nat → List UInt8 → Nat → Option (List UInt8 × Nat)
  | 0, _, _ => none
  | fuel + 1, zl, eptr => do
    match ← ziplistNext zl eptr with
    | none => return (zl, 0)
    | some _ =>
      if zslLexValueLteMax (← ziplistGetObject zl eptr) range then
        let zl ← ziplistDelete junk zl eptr
        let zl ← ziplistDelete junk zl eptr
        let (zl, num) ← zzlDeleteWhileLex range fuel zl eptr
        return (zl, num + 1)
      else return (zl, 0)

def zzlDeleteRangeByLex (zl : List UInt8) (range : Zlexrangespec) : Option (List UInt8 × Nat) := do
  match ← zzlFirstInLexRange zl range with
  | none => return (zl, 0)
  | some eptr => zzlDeleteWhileLex junk range (zl.length + 1) zl eptr

end

end Cplusplus.Redis
