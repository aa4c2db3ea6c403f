import Cplusplus.Db
import Cplusplus.Library.Decimal
import Cplusplus.ReadOnlySlave

/-! `feedAppendOnlyFile` of `aof.c`, with the commands that set an expire. What is appended is a
list of argument vectors. The commands whose effect is that of their arguments on the dataset are
a parameter, and so are scripts. -/

namespace Cplusplus.Redis.AofFeed

section
open CheckAof (Argv strtol)
open ReadOnlySlave (argument getLongFromObject)

inductive Value (O : Type) where
  | string (text : List UInt8)
  | object (o : O)
deriving DecidableEq

abbrev Dbs (O : Type) := Nat → Db (Value O)

structure Env where
  now : Int
  loading : Bool
  masterhost : Bool

structure Config where
  commands : List UInt8 → Option Command
  dbnum : Nat
  clusterEnabled : Bool
  positive : 0 < dbnum
  /-- `dbnum` is an int. -/
  fits : dbnum < 2 ^ 31

structure Aof (O : Type) where
  dbs : Dbs O
  selectedDb : Int
  appended : List Argv

/-- A `long long` that overflows wraps around. -/
def wrap (x : Int) : Int := Int.bmod x (2 ^ 64)

def setName : List UInt8 := [83, 69, 84]

def delName : List UInt8 := [68, 69, 76]

def selectName : List UInt8 := [83, 69, 76, 69, 67, 84]

def pexpireatName : List UInt8 := [80, 69, 88, 80, 73, 82, 69, 65, 84]

def catAppendOnlyExpireAtCommand (env : Env) (cmd : Command) (key seconds : List UInt8) : Argv :=
  let when := (strtol seconds).1
  let when := if cmd = .expire ∨ cmd = .setex ∨ cmd = .expireat then wrap (when * 1000) else when
  let when := if cmd = .expire ∨ cmd = .pexpire ∨ cmd = .setex ∨ cmd = .psetex then wrap (when + env.now) else when
  [pexpireatName, key, ll2string 32 when]

/-- The vectors for a command, without the SELECT. -/
def translate (env : Env) (cmd : Command) (argv : Argv) : List Argv :=
  if cmd = .expire ∨ cmd = .pexpire ∨ cmd = .expireat then
    [catAppendOnlyExpireAtCommand env cmd (argument argv 1) (argument argv 2)]
  else if cmd = .setex ∨ cmd = .psetex then
    [[setName, argument argv 1, argument argv 3], catAppendOnlyExpireAtCommand env cmd (argument argv 1) (argument argv 2)]
  else [argv]

variable {O : Type}

def feedAppendOnlyFile (env : Env) (cmd : Command) (dictid : Nat) (argv : Argv) (s : Aof O) : Aof O :=
  let select := if (dictid : Int) ≠ s.selectedDb then [[selectName, Decimal.decimal dictid]] else []
  { s with selectedDb := dictid, appended := s.appended ++ (select ++ translate env cmd argv) }

def setDb (s : Aof O) (dbid : Nat) (db : Db (Value O)) : Aof O := { s with dbs := Function.update s.dbs dbid db }

def propagateExpire (env : Env) (dbid : Nat) (key : Key) (s : Aof O) : Aof O :=
  feedAppendOnlyFile env .del dbid [delName, key] s

def expireIfNeeded (env : Env) (dbid : Nat) (key : Key) (s : Aof O) : Aof O :=
  let when := (s.dbs dbid).getExpire key
  if when < 0 then s
  else if env.loading then s
  else if env.masterhost then s
  else if env.now ≤ when then s
  else setDb (propagateExpire env dbid key s) dbid ((s.dbs dbid).delete key)

def lookupKeyWrite (env : Env) (dbid : Nat) (key : Key) (s : Aof O) : Aof O × Option (Value O) :=
  let s := expireIfNeeded env dbid key s
  (s, (s.dbs dbid).lookupKey key)

def setKey (env : Env) (dbid : Nat) (key : Key) (val : Value O) (s : Aof O) : Option (Aof O) := do
  let s := expireIfNeeded env dbid key s
  let db ← (s.dbs dbid).set key val
  some (setDb s dbid db)

/-- The state after `cmd->proc`, the database of the client, whether `server.dirty` grew, and the
command with its vector as it was rewritten. -/
structure Done (O : Type) where
  s : Aof O
  dbid : Nat
  dirty : Bool
  cmd : Command
  argv : Argv

/-- The options of SET. -/
structure SetOptions where
  nx : Bool := false
  xx : Bool := false
  expire : Option (List UInt8) := none
  seconds : Bool := true
deriving DecidableEq

def isOption (letter : UInt8) (a : List UInt8) : Bool :=
  lower (a.getD 0 0) = letter && lower (a.getD 1 0) = 120 && a.getD 2 0 = 0

/-- The loop of `setCommand`, or none for a syntax error. -/
def setOptions : List (List UInt8) → SetOptions → Option SetOptions
  | [], options => some options
  | a :: rest, options =>
    if isOption 110 a then setOptions rest { options with nx := true }
    else if isOption 120 a then setOptions rest { options with xx := true }
    else
      match rest with
      | [] => none
      | next :: rest =>
        if isOption 101 a then setOptions rest { options with seconds := true, expire := some next }
        else if isOption 112 a then setOptions rest { options with seconds := false, expire := some next }
        else none

/-- The time to live in milliseconds. The result is none for an error, and for no expire the
inner option is. -/
def timeToLive (expire : Option (List UInt8)) (seconds : Bool) : Option (Option Int) :=
  match expire with
  | none => some none
  | some text =>
    match getLongFromObject text with
    | none => none
    | some milliseconds =>
      if milliseconds ≤ 0 then none
      else some (some (if seconds then wrap (milliseconds * 1000) else milliseconds))

def SetOptions.applies (options : SetOptions) (found : Option (Value O)) : Bool :=
  !((options.nx && found.isSome) || (options.xx && found.isNone))

def setAndExpire (env : Env) (key : Key) (val : Value O) (milliseconds : Option Int) (dbid : Nat) (s : Aof O) :
    Option (Aof O) := do
  let s ← setKey env dbid key val s
  match milliseconds with
  | none => some s
  | some milliseconds =>
    let db ← (s.dbs dbid).setExpire key (wrap (env.now + milliseconds))
    some (setDb s dbid db)

def setGenericCommand (env : Env) (options : SetOptions) (cmd : Command) (argv : Argv) (key val : List UInt8) (dbid : Nat)
    (s : Aof O) : Option (Done O) :=
  match timeToLive options.expire options.seconds with
  | none => some ⟨s, dbid, false, cmd, argv⟩
  | some milliseconds =>
    let (s, found) := if options.nx || options.xx then lookupKeyWrite env dbid key s else (s, none)
    if options.applies found then do
      let s ← setAndExpire env key (.string val) milliseconds dbid s
      some ⟨s, dbid, true, cmd, argv⟩
    else some ⟨s, dbid, false, cmd, argv⟩

def setCommand (env : Env) (cmd : Command) (argv : Argv) (dbid : Nat) (s : Aof O) : Option (Done O) :=
  match setOptions (argv.drop 3) {} with
  | none => some ⟨s, dbid, false, cmd, argv⟩
  | some options => setGenericCommand env options cmd argv (argument argv 1) (argument argv 2) dbid s

def setnxCommand (env : Env) (cmd : Command) (argv : Argv) (dbid : Nat) (s : Aof O) : Option (Done O) :=
  setGenericCommand env { nx := true } cmd argv (argument argv 1) (argument argv 2) dbid s

def setexCommand (env : Env) (cmd : Command) (argv : Argv) (dbid : Nat) (s : Aof O) : Option (Done O) :=
  setGenericCommand env { expire := some (argument argv 2) } cmd argv (argument argv 1) (argument argv 3) dbid s

def psetexCommand (env : Env) (cmd : Command) (argv : Argv) (dbid : Nat) (s : Aof O) : Option (Done O) :=
  setGenericCommand env { expire := some (argument argv 2), seconds := false } cmd argv (argument argv 1) (argument argv 3) dbid s

def expireTime (basetime : Int) (seconds : Bool) (when : Int) : Int :=
  wrap ((if seconds then wrap (when * 1000) else when) + basetime)

def expireGenericCommand (env : Env) (basetime : Int) (seconds : Bool) (cmd : Command) (argv : Argv) (dbid : Nat) (s : Aof O) :
    Option (Done O) :=
  match getLongFromObject (argument argv 2) with
  | none => some ⟨s, dbid, false, cmd, argv⟩
  | some when =>
    let when := expireTime basetime seconds when
    let key := argument argv 1
    let (s, found) := lookupKeyWrite env dbid key s
    if found.isNone then some ⟨s, dbid, false, cmd, argv⟩
    else if when ≤ env.now && !env.loading && !env.masterhost then
      some ⟨setDb s dbid ((s.dbs dbid).delete key), dbid, true, .del, [delName, key]⟩
    else do
      let db ← (s.dbs dbid).setExpire key when
      some ⟨setDb s dbid db, dbid, true, cmd, argv⟩

def expireCommand (env : Env) := expireGenericCommand (O := O) env env.now true

def expireatCommand (env : Env) := expireGenericCommand (O := O) env 0 true

def pexpireCommand (env : Env) := expireGenericCommand (O := O) env env.now false

def pexpireatCommand (env : Env) := expireGenericCommand (O := O) env 0 false

def persistCommand (cmd : Command) (argv : Argv) (dbid : Nat) (s : Aof O) : Option (Done O) :=
  let key := argument argv 1
  if ((s.dbs dbid).lookupKey key).isNone then some ⟨s, dbid, false, cmd, argv⟩
  else do
    let db ← (s.dbs dbid).removeExpire key
    some ⟨setDb s dbid db, dbid, ((s.dbs dbid).expires.lookup key).isSome, cmd, argv⟩

def delKeys (env : Env) (dbid : Nat) : List Key → Aof O → Bool → Aof O × Bool
  | [], s, deleted => (s, deleted)
  | key :: keys, s, deleted =>
    let s := expireIfNeeded env dbid key s
    let present := ((s.dbs dbid).lookupKey key).isSome
    delKeys env dbid keys (setDb s dbid ((s.dbs dbid).delete key)) (deleted || present)

def delCommand (env : Env) (cmd : Command) (argv : Argv) (dbid : Nat) (s : Aof O) : Option (Done O) :=
  let (s, deleted) := delKeys env dbid argv.tail s false
  some ⟨s, dbid, deleted, cmd, argv⟩

def selectCommand (config : Config) (cmd : Command) (argv : Argv) (dbid : Nat) (s : Aof O) : Option (Done O) :=
  match getLongFromObject (argument argv 1) with
  | none => some ⟨s, dbid, false, cmd, argv⟩
  | some id =>
    if config.clusterEnabled ∧ id ≠ 0 then some ⟨s, dbid, false, cmd, argv⟩
    else if (id.bmod (2 ^ 32)) < 0 ∨ config.dbnum ≤ id.bmod (2 ^ 32) then some ⟨s, dbid, false, cmd, argv⟩
    else some ⟨s, (id.bmod (2 ^ 32)).toNat, false, cmd, argv⟩

/-- What is not modelled. The value is the sum of a float and its increment, `payload` the object
of a DUMP. A command of `effect` changes the dataset as its arguments and the dataset tell, after
it has checked the expires of `touched`; the result is none if `server.dirty` stays. A command of
`rewritten` leaves another command in its place. Expires are those of keys that exist. -/
structure Others (O : Type) where
  incrByFloat : Option (List UInt8) → List UInt8 → Option (List UInt8)
  payload : List UInt8 → Option (Value O)
  touched : Command → Argv → Dbs O → Nat → List (Nat × Key)
  effect : Command → Argv → Dbs O → Nat → Option (Dbs O)
  rewritten : Env → Command → Argv → Dbs O → Nat → Option Argv
  script : Env → Argv → Dbs O → Nat → Option (Dbs O)
  effect_sound : ∀ cmd argv dbs dbid dbs', (∀ i, (dbs i).Sound) → effect cmd argv dbs dbid = some dbs' → ∀ i, (dbs' i).Sound
  script_sound : ∀ env argv dbs dbid dbs', (∀ i, (dbs i).Sound) → script env argv dbs dbid = some dbs' → ∀ i, (dbs' i).Sound

def Config.hasDb (config : Config) (dbid : Nat) : Bool := dbid < config.dbnum && (!config.clusterEnabled || dbid = 0)

variable (config : Config) (others : Others O)

def incrbyfloatCommand (env : Env) (cmd : Command) (argv : Argv) (dbid : Nat) (s : Aof O) : Option (Done O) :=
  let key := argument argv 1
  let (s, o) := lookupKeyWrite env dbid key s
  let same : Done O := ⟨s, dbid, false, cmd, argv⟩
  let store (text : Option (List UInt8)) : Option (Done O) :=
    match others.incrByFloat text (argument argv 2) with
    | none => some same
    | some new => do
      let db ← if o.isSome then (s.dbs dbid).overwrite key (.string new) else (s.dbs dbid).add key (.string new)
      some ⟨setDb s dbid db, dbid, true, .set, (argv.set 0 setName).set 2 new⟩
  match o with
  | some (.object _) => some same
  | some (.string text) => store (some text)
  | none => store none

def replaceName : List UInt8 := [114, 101, 112, 108, 97, 99, 101]

def restoreObject (env : Env) (cmd : Command) (argv : Argv) (replace : Bool) (dbid : Nat) (s : Aof O) : Option (Done O) :=
  let key := argument argv 1
  match getLongFromObject (argument argv 2), others.payload (argument argv 3) with
  | some ttl, some obj =>
    if ttl < 0 then some ⟨s, dbid, false, cmd, argv⟩
    else do
      let db := if replace then (s.dbs dbid).delete key else s.dbs dbid
      let db ← db.add key obj
      let db ← if ttl = 0 then some db else db.setExpire key (wrap (env.now + ttl))
      some ⟨setDb s dbid db, dbid, true, cmd, argv⟩
  | _, _ => some ⟨s, dbid, false, cmd, argv⟩

def restoreCommand (env : Env) (cmd : Command) (argv : Argv) (dbid : Nat) (s : Aof O) : Option (Done O) :=
  if !(argv.drop 4).all (CheckAof.strcasecmp · replaceName) then some ⟨s, dbid, false, cmd, argv⟩
  else
    let replace := !(argv.drop 4).isEmpty
    let (s, found) := if replace then (s, none) else lookupKeyWrite env dbid (argument argv 1) s
    if found.isSome then some ⟨s, dbid, false, cmd, argv⟩ else restoreObject others env cmd argv replace dbid s

def touch (env : Env) (keys : List (Nat × Key)) (s : Aof O) : Aof O :=
  keys.foldl (fun s (dbid, key) => if config.hasDb dbid then expireIfNeeded env dbid key s else s) s

def otherCommand (env : Env) (cmd : Command) (argv : Argv) (dbid : Nat) (s : Aof O) : Done O :=
  let s := touch config env (others.touched cmd argv s.dbs dbid) s
  match others.effect cmd argv s.dbs dbid with
  | none => ⟨s, dbid, false, cmd, argv⟩
  | some dbs => ⟨{ s with dbs := dbs }, dbid, true, cmd, argv⟩

/-- SPOP becomes SREM, HINCRBYFLOAT becomes HSET, a pop that need not wait becomes LPOP or RPOP,
and MIGRATE becomes DEL. The new command does what the old one did. -/
def rewrittenCommand (env : Env) (cmd : Command) (argv : Argv) (dbid : Nat) (s : Aof O) : Option (Done O) :=
  let s := touch config env (others.touched cmd argv s.dbs dbid) s
  match others.rewritten env cmd argv s.dbs dbid with
  | none => some ⟨s, dbid, false, cmd, argv⟩
  | some argv =>
    match config.commands (argv.headD []) with
    | some .del => delCommand env .del argv dbid s
    | some .srem => some (otherCommand config others env .srem argv dbid s)
    | some .hset => some (otherCommand config others env .hset argv dbid s)
    | some .lpop => some (otherCommand config others env .lpop argv dbid s)
    | some .rpop => some (otherCommand config others env .rpop argv dbid s)
    | _ => none

/-- EVALSHA is taken as the EVAL that it is rewritten to. -/
def scriptCommand (env : Env) (cmd : Command) (argv : Argv) (dbid : Nat) (s : Aof O) : Done O :=
  let s := touch config env (others.touched cmd argv s.dbs dbid) s
  match others.script env argv s.dbs dbid with
  | none => ⟨s, dbid, false, cmd, argv⟩
  | some dbs => ⟨{ s with dbs := dbs }, dbid, true, cmd, argv⟩

/-- `cmd->proc`. What MULTI, EXEC and DISCARD do to the client is left out. -/
def proc (env : Env) (cmd : Command) (argv : Argv) (dbid : Nat) (s : Aof O) : Option (Done O) :=
  match cmd with
  | .set => setCommand env cmd argv dbid s
  | .setnx => setnxCommand env cmd argv dbid s
  | .setex => setexCommand env cmd argv dbid s
  | .psetex => psetexCommand env cmd argv dbid s
  | .expire => expireCommand env cmd argv dbid s
  | .expireat => expireatCommand env cmd argv dbid s
  | .pexpire => pexpireCommand env cmd argv dbid s
  | .pexpireat => pexpireatCommand env cmd argv dbid s
  | .persist => persistCommand cmd argv dbid s
  | .del => delCommand env cmd argv dbid s
  | .select => selectCommand config cmd argv dbid s
  | .incrbyfloat => incrbyfloatCommand others env cmd argv dbid s
  | .restore | .restoreAsking => restoreCommand others env cmd argv dbid s
  | .spop | .hincrbyfloat | .blpop | .brpop | .migrate => rewrittenCommand config others env cmd argv dbid s
  | .eval | .evalsha => some (scriptCommand config others env cmd argv dbid s)
  | .multi | .exec | .discard => some ⟨s, dbid, false, cmd, argv⟩
  | _ => some (otherCommand config others env cmd argv dbid s)

structure Live (O : Type) where
  aof : Aof O
  selected : Nat → Nat

def Done.propagate (env : Env) (done : Done O) : Aof O :=
  if done.dirty then feedAppendOnlyFile env done.cmd done.dbid done.argv done.s else done.s

def Config.accepts (config : Config) (argv : Argv) : Option Command :=
  match config.commands (argv.headD []) with
  | none => none
  | some cmd =>
    let arity := (redisCommandTable cmd).arity
    let argc : Int := argv.length
    if (0 < arity && arity ≠ argc) || argc < -arity then none else some cmd

inductive Event where
  /-- A client sends a command, or EXEC runs it. -/
  | command (client : Nat) (now : Int) (masterhost : Bool) (argv : Argv)
  /-- MULTI or EXEC around the commands of a transaction. -/
  | mark (client : Nat) (argv : Argv)
  | expired (now : Int) (dbid : Nat) (key : Key)
  | evicted (dbid : Nat) (key : Key)

/-- The clock of an event that reads none is left open. -/
def liveStep (s : Live O) : Event → Option (Live O)
  | .command client now masterhost argv =>
    match config.accepts argv with
    | none => some s
    | some cmd => do
      let env : Env := ⟨now, false, masterhost⟩
      let done ← proc config others env cmd argv (s.selected client) s.aof
      some ⟨done.propagate env, Function.update s.selected client done.dbid⟩
  | .mark client argv =>
    match config.accepts argv with
    | some .multi => some { s with aof := feedAppendOnlyFile ⟨0, false, false⟩ .multi (s.selected client) argv s.aof }
    | some .exec => some { s with aof := feedAppendOnlyFile ⟨0, false, false⟩ .exec (s.selected client) argv s.aof }
    | _ => some s
  | .expired now dbid key =>
    let db := s.aof.dbs dbid
    match db.expires.lookup key with
    | none => some s
    | some t =>
      if config.hasDb dbid && t < now then
        some { s with aof := setDb (propagateExpire ⟨now, false, false⟩ dbid key s.aof) dbid (db.delete key) }
      else some s
  | .evicted dbid key =>
    let db := s.aof.dbs dbid
    if config.hasDb dbid && (db.lookupKey key).isSome then
      some { s with aof := setDb (propagateExpire ⟨0, false, false⟩ dbid key s.aof) dbid (db.delete key) }
    else some s

def liveRun : List Event → Live O → Option (Live O)
  | [], s => some s
  | event :: events, s => (liveStep config others s event).bind (liveRun events)

def Live.start : Live O := ⟨⟨fun _ => Db.empty, -1, []⟩, fun _ => 0⟩

def loadCommand (now : Int) (masterhost : Bool) (state : Dbs O × Nat) (argv : Argv) : Option (Dbs O × Nat) := do
  let cmd ← config.commands (argv.headD [])
  let done ← proc config others ⟨now, true, masterhost⟩ cmd argv state.2 ⟨state.1, -1, []⟩
  some (done.s.dbs, done.dbid)

def replay (clock : Nat → Int) (masterhost : Bool) : List Argv → Dbs O × Nat → Option (Dbs O × Nat)
  | [], state => some state
  | argv :: argvs, state =>
    (loadCommand config others (clock 0) masterhost state argv).bind (replay (fun i => clock (i + 1)) masterhost argvs)

/-- A SET with EX or PX that takes effect. -/
def timedSet (env : Env) (argv : Argv) (dbid : Nat) (s : Aof O) : Bool :=
  match setOptions (argv.drop 3) {} with
  | none => false
  | some options =>
    let found := (lookupKeyWrite env dbid (argument argv 1) s).2
    (timeToLive options.expire options.seconds).any Option.isSome && options.applies found

/-- An INCRBYFLOAT of a key with an expire that takes effect. -/
def incrementsTimed (env : Env) (argv : Argv) (dbid : Nat) (s : Aof O) : Bool :=
  let key := argument argv 1
  let (s, o) := lookupKeyWrite env dbid key s
  match o with
  | some (.string text) => ((s.dbs dbid).expires.lookup key).isSome && (others.incrByFloat (some text) (argument argv 2)).isSome
  | _ => false

/-- A RESTORE with a time to live that takes effect. -/
def timedRestore (env : Env) (argv : Argv) (dbid : Nat) (s : Aof O) : Bool :=
  (argv.drop 4).all (CheckAof.strcasecmp · replaceName) && (others.payload (argument argv 3)).isSome &&
    (getLongFromObject (argument argv 2)).any (0 < ·) &&
    (!(argv.drop 4).isEmpty || (lookupKeyWrite env dbid (argument argv 1) s).2.isNone)

def Absolute (env : Env) (cmd : Command) (argv : Argv) (dbid : Nat) (s : Aof O) : Prop :=
  match cmd with
  | .set => timedSet env argv dbid s = false
  | .incrbyfloat => incrementsTimed others env argv dbid s = false
  | .restore | .restoreAsking => timedRestore others env argv dbid s = false
  | .eval | .evalsha =>
    let dbs := (touch config env (others.touched cmd argv s.dbs dbid) s).dbs
    ∀ later : Env, others.script later argv dbs dbid = others.script env argv dbs dbid
  | _ => True

def Event.Absolute (s : Live O) : Event → Prop
  | .command client now masterhost argv =>
    ∀ cmd, config.accepts argv = some cmd → AofFeed.Absolute config others ⟨now, false, masterhost⟩ cmd argv (s.selected client) s.aof
  | _ => True

def AbsoluteRun : List Event → Live O → Prop
  | [], _ => True
  | event :: events, s => event.Absolute config others s ∧ ∀ next, liveStep config others s event = some next → AbsoluteRun events next

def Agree (now : Int) (live loaded : Dbs O) : Prop :=
  ∀ dbid key, (∀ when, (live dbid).expires.lookup key = some when → now ≤ when) →
    (loaded dbid).dict.lookup key = (live dbid).dict.lookup key ∧ (loaded dbid).expires.lookup key = (live dbid).expires.lookup key

end

/-! The commands of `t_string.c` and `db.c` that set an expire, with the time that their argument
asks for. The clock is read when a command starts and again when the time is stored. -/

section
open CheckAof (Argv)
open ReadOnlySlave (argument getLongFromObject)

inductive ExpireCommand where
  | set
  | setex
  | psetex
  | expire
  | pexpire
  | expireat
  | pexpireat
deriving DecidableEq

variable {O : Type}

structure ExpireRequest (O : Type) where
  command : ExpireCommand
  start : Int
  env : Env
  argv : Argv
  dbid : Nat
  s : Aof O

namespace ExpireRequest

def run (r : ExpireRequest O) : Option (Done O) :=
  match r.command with
  | .set => setCommand r.env .set r.argv r.dbid r.s
  | .setex => setexCommand r.env .setex r.argv r.dbid r.s
  | .psetex => psetexCommand r.env .psetex r.argv r.dbid r.s
  | .expire => expireGenericCommand r.env r.start true .expire r.argv r.dbid r.s
  | .pexpire => expireGenericCommand r.env r.start false .pexpire r.argv r.dbid r.s
  | .expireat => expireGenericCommand r.env 0 true .expireat r.argv r.dbid r.s
  | .pexpireat => expireGenericCommand r.env 0 false .pexpireat r.argv r.dbid r.s

def key (r : ExpireRequest O) : Key := argument r.argv 1

/-- The argument that is the time, and whether it is in seconds. A SET need not have one. -/
def timeArgument (r : ExpireRequest O) : Option (List UInt8 × Bool) :=
  match r.command with
  | .set => (setOptions (r.argv.drop 3) {}).bind fun options => options.expire.map fun text => (text, options.seconds)
  | .setex | .expire | .expireat => some (argument r.argv 2, true)
  | .psetex | .pexpire | .pexpireat => some (argument r.argv 2, false)

def relative (r : ExpireRequest O) : Bool := r.command ≠ .expireat ∧ r.command ≠ .pexpireat

def deletes (r : ExpireRequest O) : Bool :=
  match r.command with
  | .set | .setex | .psetex => false
  | .expire | .pexpire | .expireat | .pexpireat => !r.env.loading && !r.env.masterhost

def origin (r : ExpireRequest O) : Int :=
  match r.command with
  | .set | .setex | .psetex => r.env.now
  | .expire | .pexpire => r.start
  | .expireat | .pexpireat => 0

end ExpireRequest

/-- The time that is so far from the origin, without any overflow. -/
def timeFrom (origin : Int) (seconds : Bool) (amount : Int) : Int := origin + if seconds then amount * 1000 else amount

structure AcceptedExpire (O : Type) extends ExpireRequest O where
  text : List UInt8
  seconds : Bool
  amount : Int
  done : Done O
  timed : toExpireRequest.timeArgument = some (text, seconds)
  read : getLongFromObject text = some amount
  answered : toExpireRequest.run = some done
  changed : done.dirty = true

namespace AcceptedExpire

def exactTime (a : AcceptedExpire O) : Int := timeFrom a.origin a.seconds a.amount

def ahead (a : AcceptedExpire O) : Bool := a.relative && 0 < a.amount

def database (a : AcceptedExpire O) : Db (Value O) := a.done.s.dbs a.dbid

/-- The key has the time that was asked for, or was deleted as that time is over. What is to live
for some time is there, with a time that is not over. -/
def Exact (a : AcceptedExpire O) : Prop :=
  (a.database.expires.lookup a.key = some a.exactTime ∧ (a.database.lookupKey a.key).isSome = true ∧
      (a.ahead = true → a.env.now < a.exactTime)) ∨
    (a.database.lookupKey a.key = none ∧ a.exactTime ≤ a.env.now ∧ a.ahead = false)

/-- The time is a `long long`, or the key is to be deleted and the time is over also after it wrapped
around. A positive time to live is not over before it is compared with the clock. -/
def Representable (a : AcceptedExpire O) : Prop :=
  ((-2 ^ 63 ≤ a.exactTime ∧ a.exactTime < 2 ^ 63) ∨
      (a.deletes = true ∧ a.exactTime ≤ a.env.now ∧ a.exactTime.bmod (2 ^ 64) ≤ a.env.now)) ∧
    (a.ahead = true → a.env.now < a.exactTime)

instance (a : AcceptedExpire O) : Decidable a.Representable := by
  unfold Representable
  infer_instance

end AcceptedExpire

end

end Cplusplus.Redis.AofFeed
