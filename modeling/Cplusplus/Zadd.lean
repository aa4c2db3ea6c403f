import Cplusplus.CheckAof
import Cplusplus.Db
import Cplusplus.Library.Binary64

/-! ZADD and ZINCRBY. Both encodings of a sorted set map its elements to their scores. A key that has
expired is not in the database. -/

namespace Cplusplus.Redis.Zadd
open CheckAof (strcasecmp isspace)

abbrev Bytes := List UInt8

/-- What `strtod` returns: the number, where it stops, and `errno`. -/
structure Strtod where
  value : Binary64
  eptr : Nat
  erange : Bool
  einval : Bool

structure Server where
  zsetMaxZiplistEntries : Nat
  zsetMaxZiplistValue : Nat
  strtod : Bytes → Strtod
  add : Binary64 → Binary64 → Binary64

structure Flags where
  incr : Bool
  nx : Bool
  xx : Bool
  ch : Bool

structure Zset where
  /-- The encoding is REDIS_ENCODING_SKIPLIST. -/
  skiplist : Bool
  elements : List (Bytes × Binary64)

inductive Value where
  | zset (zobj : Zset)
  | other

abbrev Keyspace := Key → Option Value

inductive Reply where
  | syntaxerr
  | notCompatible
  | singlePair
  | notFloat
  | wrongtype
  | nanerr
  | nullbulk
  | integer (value : Nat)
  | double (score : Binary64)

inductive Fault where
  | outside

abbrev Outcome := Except Fault (Keyspace × Reply)

/-- `HUGE_VAL` or `-HUGE_VAL` -/
def isHuge (d : Binary64) : Bool := d.magnitude = 0x7ff0000000000000

def getDoubleFromObject (server : Server) (o : Bytes) : Option Binary64 :=
  let r := server.strtod o
  if isspace (o.getD 0 0) ∨ o.getD r.eptr 0 ≠ 0 ∨ (r.erange ∧ (isHuge r.value ∨ r.value.eq Binary64.zero)) ∨ r.einval ∨ r.value.isNaN then none
  else some r.value

def nxName : Bytes := [110, 120]

def xxName : Bytes := [120, 120]

def chName : Bytes := [99, 104]

def incrName : Bytes := [105, 110, 99, 114]

def zaddOption (opt : Bytes) (flags : Flags) : Option Flags :=
  if strcasecmp opt nxName then some { flags with nx := true }
  else if strcasecmp opt xxName then some { flags with xx := true }
  else if strcasecmp opt chName then some { flags with ch := true }
  else if strcasecmp opt incrName then some { flags with incr := true }
  else none

def zaddOptions : List Bytes → Flags → Nat → Flags × Nat
  | [], flags, scoreidx => (flags, scoreidx)
  | opt :: argv, flags, scoreidx =>
    match zaddOption opt flags with
    | none => (flags, scoreidx)
    | some flags => zaddOptions argv flags (scoreidx + 1)

def argument (argv : List Bytes) (j : Nat) : Except Fault Bytes :=
  match argv[j]? with
  | none => .error .outside
  | some o => .ok o

/-- `scores[j]`, and the ones behind it; `none` is an error in one of them. -/
def zaddScores (server : Server) (argv : List Bytes) (scoreidx : Nat) : (elements j : Nat) → Except Fault (Option (List Binary64))
  | 0, _ => .ok (some [])
  | elements + 1, j => do
    match getDoubleFromObject server (← argument argv (scoreidx + j * 2)) with
    | none => return none
    | some score => return (← zaddScores server argv scoreidx elements (j + 1)).map fun scores => score :: scores

structure Progress where
  zobj : Zset
  score : Binary64
  added : Nat
  updated : Nat
  processed : Nat

def zsetFind (zobj : Zset) (ele : Bytes) : Option Binary64 := zobj.elements.lookup ele

def zsetUpdate (zobj : Zset) (ele : Bytes) (score : Binary64) : Zset :=
  { zobj with elements := (ele, score) :: zobj.elements.filter fun e => e.1 ≠ ele }

def zsetInsert (server : Server) (zobj : Zset) (ele : Bytes) (score : Binary64) : Zset where
  skiplist := zobj.skiplist || server.zsetMaxZiplistEntries < zobj.elements.length + 1 || server.zsetMaxZiplistValue < ele.length
  elements := (ele, score) :: zobj.elements

/-- The body of the loop; true is the error of a score that is not a number. -/
def zaddElement (server : Server) (flags : Flags) (state : Progress) (score : Binary64) (ele : Bytes) : Progress × Bool :=
  match zsetFind state.zobj ele with
  | some curscore =>
    if flags.nx then ({ state with score }, false)
    else
      let score := if flags.incr then server.add score curscore else score
      if flags.incr ∧ score.isNaN then ({ state with score }, true)
      else if score.eq curscore then ({ state with score, processed := state.processed + 1 }, false)
      else
        ({ state with zobj := zsetUpdate state.zobj ele score, score, updated := state.updated + 1, processed := state.processed + 1 }, false)
  | none =>
    if flags.xx then ({ state with score }, false)
    else ({ state with zobj := zsetInsert server state.zobj ele score, score, added := state.added + 1, processed := state.processed + 1 }, false)

def zaddLoop (server : Server) (flags : Flags) (argv : List Bytes) (scoreidx : Nat) :
    List Binary64 → (j : Nat) → Progress → Except Fault (Progress × Bool)
  | [], _, state => .ok (state, false)
  | score :: scores, j, state => do
    let ele ← argument argv (scoreidx + 1 + j * 2)
    let (state, nan) := zaddElement server flags state score ele
    if nan then return (state, true)
    zaddLoop server flags argv scoreidx scores (j + 1) state

def zaddReply (flags : Flags) (state : Progress) : Reply :=
  if flags.incr then if state.processed ≠ 0 then .double state.score else .nullbulk
  else .integer (if flags.ch then state.added + state.updated else state.added)

def zaddStart (zobj : Zset) : Progress := { zobj, score := Binary64.zero, added := 0, updated := 0, processed := 0 }

def zaddCreate (server : Server) (argv : List Bytes) (scoreidx : Nat) : Except Fault Zset :=
  if server.zsetMaxZiplistEntries = 0 then return { skiplist := true, elements := [] }
  else do
    let ele ← argument argv (scoreidx + 1)
    return { skiplist := server.zsetMaxZiplistValue < ele.length, elements := [] }

def zaddRun (server : Server) (flags : Flags) (db : Keyspace) (key : Key) (argv : List Bytes) (scoreidx : Nat) (scores : List Binary64)
    (zobj : Zset) : Outcome := do
  let (state, nan) ← zaddLoop server flags argv scoreidx scores 0 (zaddStart zobj)
  return (Function.update db key (some (.zset state.zobj)), if nan then .nanerr else zaddReply flags state)

def zaddGenericCommand (server : Server) (flags : Flags) (db : Keyspace) (argv : List Bytes) : Outcome := do
  let key ← argument argv 1
  let (flags, scoreidx) := zaddOptions (argv.drop 2) flags 2
  let elements := argv.length - scoreidx
  if elements % 2 ≠ 0 then return (db, .syntaxerr)
  let elements := elements / 2
  if flags.nx ∧ flags.xx then return (db, .notCompatible)
  if flags.incr ∧ 1 < elements then return (db, .singlePair)
  match ← zaddScores server argv scoreidx elements 0 with
  | none => return (db, .notFloat)
  | some scores =>
    match db key with
    | none =>
      if flags.xx then return (db, zaddReply flags (zaddStart { skiplist := false, elements := [] }))
      let zobj ← zaddCreate server argv scoreidx
      zaddRun server flags db key argv scoreidx scores zobj
    | some (.zset zobj) => zaddRun server flags db key argv scoreidx scores zobj
    | some .other => return (db, .wrongtype)

def zaddCommand (server : Server) (db : Keyspace) (argv : List Bytes) : Outcome :=
  zaddGenericCommand server { incr := false, nx := false, xx := false, ch := false } db argv

def zincrbyCommand (server : Server) (db : Keyspace) (argv : List Bytes) : Outcome :=
  zaddGenericCommand server { incr := true, nx := false, xx := false, ch := false } db argv

end Cplusplus.Redis.Zadd
