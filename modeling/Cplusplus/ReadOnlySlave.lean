import Cplusplus.CheckAof

/-! The ways in which a command comes to the dataset: a request, EXEC, a script, and the service
of a blocked client. SLAVEOF and CONFIG SET change the role in between. What the other commands
do is a parameter. -/

namespace Cplusplus.Redis.ReadOnlySlave
open Cplusplus.Redis.CheckAof (strcasecmp isspace strtol strtolSign digitsValue)

/-- `masterhost` is none for NULL. -/
structure Role where
  masterhost : Option (List UInt8)
  masterport : Int
  replSlaveRo : Bool
deriving DecidableEq

def Role.readOnly (role : Role) : Bool := role.masterhost.isSome && role.replSlaveRo

structure SlaveState (D : Type) where
  data : D
  role : Role
  blocked : List Nat
  /-- REDIS_CLOSE_AFTER_REPLY of the clients that were unblocked by force. -/
  closing : List Nat

def argument (argv : List (List UInt8)) (i : Nat) : List UInt8 := argv.getD i []

/-- ERANGE is an overflow of the digits. -/
def getLongFromObject (s : List UInt8) : Option Int :=
  let (negative, digits) := strtolSign (s.dropWhile isspace)
  let value := digitsValue (digits.takeWhile isDigit)
  if isspace (s.headD 0) ∨ (strtol s).2.headD 0 ≠ 0 ∨ (if negative then 2 ^ 63 < value else 2 ^ 63 ≤ value) then none
  else some (strtol s).1

variable {D R : Type}

def disconnectAllBlockedClients (s : SlaveState D) : SlaveState D :=
  { s with blocked := [], closing := s.closing ++ s.blocked }

def replicationSetMaster (s : SlaveState D) (ip : List UInt8) (port : Int) : SlaveState D :=
  disconnectAllBlockedClients { s with role := { s.role with masterhost := some ip, masterport := port } }

def replicationUnsetMaster (s : SlaveState D) : SlaveState D := { s with role := { s.role with masterhost := none } }

def slaveofCommand (clusterEnabled : Bool) (s : SlaveState D) (argv : List (List UInt8)) : SlaveState D :=
  if clusterEnabled then s
  else if strcasecmp (argument argv 1) [110, 111] && strcasecmp (argument argv 2) [111, 110, 101] then replicationUnsetMaster s
  else
    match getLongFromObject (argument argv 2) with
    | none => s
    | some port =>
      match s.role.masterhost with
      | some host =>
        if strcasecmp host (argument argv 1) && s.role.masterport == port then s
        else replicationSetMaster s (argument argv 1) port
      | none => replicationSetMaster s (argument argv 1) port

def yesnotoi (s : List UInt8) : Option Bool :=
  if strcasecmp s [121, 101, 115] then some true else if strcasecmp s [110, 111] then some false else none

def slaveReadOnlyOption : List UInt8 := [115, 108, 97, 118, 101, 45, 114, 101, 97, 100, 45, 111, 110, 108, 121]

/-- CONFIG SET of the one option that is modelled. -/
def configCommand (s : SlaveState D) (argv : List (List UInt8)) : SlaveState D :=
  if strcasecmp (argument argv 1) [115, 101, 116] && argv.length == 4 && strcasecmp (argument argv 2) slaveReadOnlyOption then
    match yesnotoi (argument argv 3) with
    | some yn => { s with role := { s.role with replSlaveRo := yn } }
    | none => s
  else s

inductive LuaError where
  | noArguments | unknownCommand | arity | noscript | randomDirty | roslave | bgsave | oom | nonLocal
deriving DecidableEq

inductive LuaScript (R : Type) where
  | done
  | call (argv : List (List UInt8)) (next : Except LuaError R → LuaScript R)

/-- What the commands do to the dataset of an instance in a role. On a read-only slave, where
expired keys are not deleted, a command that is neither a write command nor administrative
changes nothing. PFCOUNT is the exception: it stores the cardinality that it computed, if the
cached one is stale. -/
structure DataCommands (D R : Type) where
  outcome : Role → D → Int → Client → MultiCmd → Outcome D
  reply : Role → D → MultiCmd → R
  /-- The script of EVAL or EVALSHA. -/
  script : D → MultiCmd → LuaScript R
  stale : D → List (List UInt8) → Bool
  /-- BLPOP, BRPOP and BRPOPLPUSH find no element. -/
  blocks : D → MultiCmd → Bool
  serve : D → Nat → D
  keeps : ∀ role data dirty c mc, role.readOnly = true → mc.cmd.hasFlag 'w' = false → mc.cmd.hasFlag 'a' = false →
    mc.cmd ≠ .pfcount → (outcome role data dirty c mc).data = data
  keepsCache : ∀ role data dirty c mc, role.readOnly = true → mc.cmd = .pfcount → stale data mc.argv = false →
    (outcome role data dirty c mc).data = data

inductive Path where
  | request
  | exec
  | script
  | served
deriving DecidableEq

structure Access (D : Type) where
  master : Bool
  path : Path
  mc : MultiCmd
  role : Role
  before : D
  after : D

structure SlaveServer (D : Type) where
  state : SlaveState D
  log : List (Access D)

def SlaveServer.access (s : SlaveServer D) (master : Bool) (path : Path) (mc : MultiCmd) (after : SlaveState D) : SlaveServer D :=
  { state := after, log := s.log ++ [⟨master, path, mc, s.state.role, s.state.data, after.data⟩] }

/-- A command other than EVAL and EVALSHA. -/
def runCommand (commands : DataCommands D R) (env : ServerState) (path : Path) (dirty : Int) (c : Client) (s : SlaveServer D)
    (mc : MultiCmd) : SlaveServer D :=
  match mc.cmd with
  | .slaveof => s.access c.master path mc (slaveofCommand env.clusterEnabled s.state mc.argv)
  | .config => s.access c.master path mc (configCommand s.state mc.argv)
  | _ => s.access c.master path mc { s.state with data := (commands.outcome s.state.role s.state.data dirty c mc).data }

def luaRefusal (env : ServerState) (role : Role) (caller : Client) (randomDirty writeDirty : Bool) (argv : List (List UInt8)) :
    Except LuaError Command :=
  if argv.length = 0 then .error .noArguments
  else
    match env.commands (argument argv 0) with
    | none => .error .unknownCommand
    | some cmd =>
      let arity := (redisCommandTable cmd).arity
      let argc : Int := argv.length
      if (0 < arity && arity ≠ argc) || argc < -arity then .error .arity
      else if cmd.hasFlag 's' then .error .noscript
      else if cmd.hasFlag 'w' && randomDirty then .error .randomDirty
      else if cmd.hasFlag 'w' && role.readOnly && !env.loading && !caller.master then .error .roslave
      else if cmd.hasFlag 'w' && env.stopWritesOnBgsaveErr && env.saveParams && !env.lastbgsaveOk then .error .bgsave
      else if env.maxmemory && !writeDirty && cmd.hasFlag 'm' && !env.freeMemoryOk then .error .oom
      else if env.clusterEnabled && !caller.master && !env.nodeIsMyself then .error .nonLocal
      else .ok cmd

/-- The script runs to its end, each call on the state that the calls before it left. -/
def luaRun (commands : DataCommands D R) (env : ServerState) (dirty : Int) (caller : Client) :
    LuaScript R → (randomDirty writeDirty : Bool) → SlaveServer D → SlaveServer D
  | .done, _, _, s => s
  | .call argv next, randomDirty, writeDirty, s =>
    match luaRefusal env s.state.role caller randomDirty writeDirty argv with
    | .error error => luaRun commands env dirty caller (next (.error error)) randomDirty writeDirty s
    | .ok cmd =>
      luaRun commands env dirty caller (next (.ok (commands.reply s.state.role s.state.data ⟨cmd, argv⟩)))
        (randomDirty || cmd.hasFlag 'R') (writeDirty || cmd.hasFlag 'w')
        (runCommand commands env .script dirty caller s ⟨cmd, argv⟩)

/-- `cmd->proc` for the commands that `call` runs. The flag REDIS_MULTI is still set while EXEC
runs the queue. -/
def slaveProcs (commands : DataCommands D R) (env : ServerState) : Procs (SlaveServer D) := fun s dirty c mc =>
  let outcome := commands.outcome s.state.role s.state.data dirty c mc
  { mc := outcome.mc
    data :=
      if mc.cmd = .eval ∨ mc.cmd = .evalsha then
        luaRun commands env dirty c (commands.script s.state.data mc) false false s
      else runCommand commands env (if c.multi then .exec else .request) dirty c s mc
    dirty := outcome.dirty
    forceAof := outcome.forceAof
    forceRepl := outcome.forceRepl
    pubsub := outcome.pubsub
    authenticated := outcome.authenticated
    closeAfterReply := outcome.closeAfterReply }

def Role.inState (role : Role) (env : ServerState) : ServerState :=
  { env with masterhost := role.masterhost.isSome, replSlaveRo := role.replSlaveRo }

inductive SlaveEvent where
  | request (id : Nat) (env : ServerState) (argv : List (List UInt8))
  | serve (id : Nat)
  | touch (id : Nat)
  | connect (id : Nat) (master : Bool)

def blocksOn (commands : DataCommands D R) (env : ServerState) (data : D) (c : Client) (argv : List (List UInt8)) : Bool :=
  match env.commands (argument argv 0) with
  | some cmd =>
    (cmd = .blpop || cmd = .brpop || cmd = .brpoplpush) && !c.multi && (refusal env c cmd argv).isNone && !isQuit argv &&
      commands.blocks data ⟨cmd, argv⟩
  | none => false

def World.mapState (w : World (SlaveServer D)) (f : SlaveState D → SlaveState D) : World (SlaveServer D) :=
  { w with server := { w.server with data := { w.server.data with state := f w.server.data.state } } }

def slaveStep (commands : DataCommands D R) (w : World (SlaveServer D)) (event : SlaveEvent) : World (SlaveServer D) :=
  let s := w.server.data
  match event with
  | .request id env argv =>
    if s.state.closing.contains id || s.state.blocked.contains id then w
    else
      let env := s.state.role.inState env
      let after := worldStep (slaveProcs commands env) w (.request id env argv)
      if blocksOn commands env s.state.data (w.clients id) argv && !(w.clients id).closeAfterReply then
        World.mapState after fun state => { state with blocked := state.blocked ++ [id] }
      else after
  | .serve id =>
    if s.state.blocked.contains id then
      let after := { s.state with data := commands.serve s.state.data id, blocked := s.state.blocked.erase id }
      { w with server := { w.server with
          data := s.access (w.clients id).master .served ⟨.blpop, []⟩ after } }
    else w
  | .touch id => { w with clients := Function.update w.clients id { w.clients id with dirtyCas := true } }
  | .connect id master =>
    let fresh := World.mapState w fun state => { state with
      blocked := state.blocked.filter (· != id), closing := state.closing.filter (· != id) }
    { fresh with clients := Function.update w.clients id { master := master } }

def slaveStart (data : D) (role : Role) : World (SlaveServer D) where
  server := ⟨⟨⟨data, role, [], []⟩, []⟩, 0, [], 0⟩
  clients _ := {}

def slaveRun (commands : DataCommands D R) (w : World (SlaveServer D)) (events : List SlaveEvent) : World (SlaveServer D) :=
  events.foldl (slaveStep commands) w

end Cplusplus.Redis.ReadOnlySlave
