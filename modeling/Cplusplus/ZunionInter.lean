import Cplusplus.Db
import Cplusplus.Library.Extended
import Cplusplus.ReadOnlySlave
import Mathlib.Algebra.Order.Field.Rat

/-! ZUNIONSTORE and ZINTERSTORE. A score is an exact rational, an infinity or NaN. Every encoding of a set
or a sorted set says which elements it holds, and with which scores. -/

namespace Cplusplus.Redis.ZunionInter
open CheckAof (strcasecmp)
open ReadOnlySlave (argument getLongFromObject)

abbrev Bytes := List UInt8

abbrev Double := Extended ℚ

inductive Value where
  | set (members : List Bytes)
  | zset (elements : List (Bytes × Double))
  | other

abbrev Keyspace := Key → Option Value

structure Source where
  key : Key
  weight : Double

inductive Aggregate where
  | sum
  | min
  | max

inductive Op where
  | union
  | inter

def zuiElements (db : Keyspace) (op : Source) : List (Bytes × Double) :=
  match db op.key with
  | some (.set members) => members.map fun ele => (ele, Extended.one)
  | some (.zset elements) => elements
  | _ => []

def zuiLength (db : Keyspace) (op : Source) : Nat := (zuiElements db op).length

def zuiFind (db : Keyspace) (op : Source) (ele : Bytes) : Option Double :=
  match db op.key with
  | some (.set members) => if members.contains ele then some Extended.one else none
  | some (.zset elements) => elements.lookup ele
  | _ => none

def zuiCompareByCardinality (db : Keyspace) (s1 s2 : Source) : Int := (zuiLength db s1 : Int) - zuiLength db s2

/-- `qsort` does not say in which order equal sources come. -/
structure Qsort where
  sort : (Source → Source → Int) → List Source → List Source
  perm : ∀ compare src, (sort compare src).Perm src
  sorted : ∀ (length : Source → Nat) src, (sort (fun s1 s2 => (length s1 : Int) - length s2) src).Pairwise fun s1 s2 => length s1 ≤ length s2

def zunionInterAggregate (aggregate : Aggregate) (target val : Double) : Double :=
  match aggregate with
  | .sum =>
    let target := target.add val
    if target.isNaN then Extended.zero else target
  | .min => if val.lt target then val else target
  | .max => if target.lt val then val else target

/-- The score of an element of one source, before others are aggregated. -/
def weightedScore (src : Source) (score : Double) : Double :=
  let score := src.weight.mul score
  if score.isNaN then Extended.zero else score

/-- The loop over the other sources; none if one of them does not hold the element. -/
def interScore (db : Keyspace) (aggregate : Aggregate) (first : Source) (ele : Bytes) (own : Double) : List Source → Double → Option Double
  | [], score => some score
  | src :: rest, score =>
    if src.key = first.key then interScore db aggregate first ele own rest (zunionInterAggregate aggregate score (own.mul src.weight))
    else
      match zuiFind db src ele with
      | some value => interScore db aggregate first ele own rest (zunionInterAggregate aggregate score (value.mul src.weight))
      | none => none

def zinter (db : Keyspace) (aggregate : Aggregate) : List Source → List (Bytes × Double)
  | [] => []
  | first :: rest =>
    if zuiLength db first = 0 then []
    else (zuiElements db first).filterMap fun e =>
      (interScore db aggregate first e.1 e.2 rest (weightedScore first e.2)).map fun score => (e.1, score)

def accumulate (aggregate : Aggregate) (accumulator : List (Bytes × Double)) (ele : Bytes) (score : Double) : List (Bytes × Double) :=
  match accumulator.lookup ele with
  | none => accumulator ++ [(ele, score)]
  | some target => accumulator.map fun e => if e.1 = ele then (ele, zunionInterAggregate aggregate target score) else e

def zunion (db : Keyspace) (aggregate : Aggregate) (src : List Source) : List (Bytes × Double) :=
  src.foldl (fun accumulator src =>
    (zuiElements db src).foldl (fun accumulator e => accumulate aggregate accumulator e.1 (weightedScore src e.2)) accumulator) []

inductive Reply where
  | atLeastOneKey
  | notInteger
  | syntaxerr
  | wrongtype
  | notFloat
  | integer (value : Nat)

structure Server where
  qsort : Qsort
  getDouble : Bytes → Option { d : Double // d ≠ .nan }

def zunionInterStore (qsort : Qsort) (op : Op) (db : Keyspace) (dstkey : Key) (src : List Source) (aggregate : Aggregate) : Keyspace × Reply :=
  let src := qsort.sort (zuiCompareByCardinality db) src
  let dstzset :=
    match op with
    | .inter => zinter db aggregate src
    | .union => zunion db aggregate src
  if dstzset.length ≠ 0 then (Function.update db dstkey (some (.zset dstzset)), .integer dstzset.length)
  else (Function.update db dstkey none, .integer 0)

/-- The sources with the default weight; none if a value is of another type. -/
def readSources (db : Keyspace) : List Key → Option (List Source)
  | [] => some []
  | key :: keys =>
    match db key with
    | some .other => none
    | _ => (readSources db keys).map fun src => { key, weight := Extended.one } :: src

def readWeights (server : Server) : List Bytes → List Source → Option (List Source)
  | text :: texts, src :: rest =>
    match server.getDouble text with
    | none => none
    | some weight => (readWeights server texts rest).map fun rest => { src with weight := weight.1 } :: rest
  | _, _ => some []

def aggregateOfName (name : Bytes) : Option Aggregate :=
  if strcasecmp name [115, 117, 109] then some .sum
  else if strcasecmp name [109, 105, 110] then some .min
  else if strcasecmp name [109, 97, 120] then some .max
  else none

def weightsName : Bytes := [119, 101, 105, 103, 104, 116, 115]

def aggregateName : Bytes := [97, 103, 103, 114, 101, 103, 97, 116, 101]

def readOptions (server : Server) (src : List Source) (aggregate : Aggregate) (remaining : List Bytes) :
    Except Reply (List Source × Aggregate) :=
  match remaining with
  | [] => .ok (src, aggregate)
  | word :: rest =>
    if src.length + 1 ≤ (word :: rest).length ∧ strcasecmp word weightsName then
      match readWeights server rest src with
      | none => .error .notFloat
      | some src => readOptions server src aggregate (rest.drop src.length)
    else
      match rest with
      | [] => .error .syntaxerr
      | name :: rest =>
        if strcasecmp word aggregateName then
          match aggregateOfName name with
          | none => .error .syntaxerr
          | some aggregate => readOptions server src aggregate rest
        else .error .syntaxerr
termination_by remaining.length

def zunionInterGenericCommand (server : Server) (db : Keyspace) (argv : List Bytes) (op : Op) : Keyspace × Reply :=
  match getLongFromObject (argument argv 2) with
  | none => (db, .notInteger)
  | some setnum =>
    if setnum < 1 then (db, .atLeastOneKey)
    else if (argv.length : Int) - 3 < setnum then (db, .syntaxerr)
    else
      match readSources db ((argv.drop 3).take setnum.toNat) with
      | none => (db, .wrongtype)
      | some src =>
        match readOptions server src .sum ((argv.drop 3).drop setnum.toNat) with
        | .error reply => (db, reply)
        | .ok (src, aggregate) => zunionInterStore server.qsort op db (argument argv 1) src aggregate

def zunionstoreCommand (server : Server) (db : Keyspace) (argv : List Bytes) : Keyspace × Reply :=
  zunionInterGenericCommand server db argv .union

def zinterstoreCommand (server : Server) (db : Keyspace) (argv : List Bytes) : Keyspace × Reply :=
  zunionInterGenericCommand server db argv .inter

end Cplusplus.Redis.ZunionInter
