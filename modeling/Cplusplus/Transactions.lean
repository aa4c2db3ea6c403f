import Cplusplus.CommandTable
import Mathlib.Logic.Function.Basic

/-! `processCommand`, `call` and `propagate` of `redis.c`, and `multi.c`. What the commands
do to the dataset is a parameter. Which keys a client watches is left open: it can be
touched at any time. -/

namespace Cplusplus.Redis

structure MultiCmd where
  cmd : Command
  argv : List (List UInt8)
deriving DecidableEq

structure Client where
  multi : Bool := false
  dirtyCas : Bool := false
  dirtyExec : Bool := false
  pubsub : Bool := false
  master : Bool := false
  closeAfterReply : Bool := false
  authenticated : Bool := false
  commands : List MultiCmd := []
deriving DecidableEq

def queueMultiCommand (c : Client) (mc : MultiCmd) : Client := { c with commands := c.commands ++ [mc] }

def discardTransaction (c : Client) : Client :=
  { c with multi := false, dirtyCas := false, dirtyExec := false, commands := [] }

def flagTransaction (c : Client) : Client := if c.multi then { c with dirtyExec := true } else c

structure ServerState where
  commands : List UInt8 → Option Command
  requirepass : Bool := false
  clusterEnabled : Bool := false
  clusterOk : Bool := true
  nodeIsMyself : Bool := true
  maxmemory : Bool := false
  freeMemoryOk : Bool := true
  stopWritesOnBgsaveErr : Bool := false
  saveParams : Bool := false
  lastbgsaveOk : Bool := true
  aofLastWriteOk : Bool := true
  masterhost : Bool := false
  replMinSlavesToWrite : Nat := 0
  replMinSlavesMaxLag : Nat := 0
  replGoodSlavesCount : Nat := 0
  replSlaveRo : Bool := true
  replConnected : Bool := true
  replServeStaleData : Bool := true
  loading : Bool := false
  luaTimedout : Bool := false

inductive Refusal where
  | unknownCommand | arity | noauth | clusterDown | redirect | oom | misconf | noreplicas | roslave | pubsub
  | masterdown | loading | slowscript
deriving DecidableEq

def Refusal.flags : Refusal → Bool
  | .roslave | .pubsub | .loading => false
  | _ => true

def lower (b : UInt8) : UInt8 := if 65 ≤ b ∧ b ≤ 90 then b + 32 else b

def firstLetter (argv : List (List UInt8)) : UInt8 := lower ((argv.getD 1 []).getD 0 0)

def refusal (server : ServerState) (c : Client) (cmd : Command) (argv : List (List UInt8)) : Option Refusal :=
  let arity := (redisCommandTable cmd).arity
  let argc : Int := argv.length
  let write := cmd.hasFlag 'w'
  let redirects := server.clusterEnabled && !c.master &&
    !(!(redisCommandTable cmd).getkeysProc && (redisCommandTable cmd).firstkey = 0)
  if (0 < arity && arity ≠ argc) || argc < -arity then some .arity
  else if server.requirepass && !c.authenticated && cmd ≠ .auth then some .noauth
  else if redirects && !server.clusterOk then some .clusterDown
  else if redirects && !server.nodeIsMyself then some .redirect
  else if server.maxmemory && cmd.hasFlag 'm' && !server.freeMemoryOk then some .oom
  else if ((server.stopWritesOnBgsaveErr && server.saveParams && !server.lastbgsaveOk) || !server.aofLastWriteOk) &&
      !server.masterhost && (write || cmd = .ping) then some .misconf
  else if !server.masterhost && server.replMinSlavesToWrite ≠ 0 && server.replMinSlavesMaxLag ≠ 0 && write &&
      server.replGoodSlavesCount < server.replMinSlavesToWrite then some .noreplicas
  else if server.masterhost && server.replSlaveRo && !c.master && write then some .roslave
  else if c.pubsub && cmd ≠ .ping && cmd ≠ .subscribe && cmd ≠ .unsubscribe && cmd ≠ .psubscribe &&
      cmd ≠ .punsubscribe then some .pubsub
  else if server.masterhost && !server.replConnected && !server.replServeStaleData && !cmd.hasFlag 't' then some .masterdown
  else if server.loading && !cmd.hasFlag 'l' then some .loading
  else if server.luaTimedout && cmd ≠ .auth && cmd ≠ .replconf &&
      !(cmd = .shutdown && argv.length = 2 && firstLetter argv = 110) &&
      !(cmd = .script && argv.length = 2 && firstLetter argv = 107) then some .slowscript
  else none

/-- A call of `propagate`, with its targets. `tx` numbers the calls of EXEC, `changes` is
`dirty > 0`. -/
inductive Propagated where
  | multi (tx : Nat)
  | exec (tx : Nat)
  | command (tx : Option Nat) (mc : MultiCmd) (aof repl changes : Bool)
deriving DecidableEq

/-- The dataset, `server.dirty`, what was propagated, and the number of calls of EXEC. -/
structure Server (S : Type) where
  data : S
  dirty : Int
  propagated : List Propagated
  execs : Nat

/-- What a command does: its argument vector may be rewritten, it may change the dataset
and `server.dirty`, force its propagation, and set flags of the client. A script runs its
commands without `REDIS_CALL_PROPAGATE`. -/
structure Outcome (S : Type) where
  mc : MultiCmd
  data : S
  dirty : Int
  forceAof : Bool := false
  forceRepl : Bool := false
  pubsub : Bool
  authenticated : Bool
  closeAfterReply : Bool := false

abbrev Procs (S : Type) := S → Int → Client → MultiCmd → Outcome S

inductive Reply where
  | error (refusal : Refusal)
  | ok
  | queued
  | execAbort
  | nullMultiBulk
  | multiBulk (count : Nat)
  | commandError
  | other

section Calls

variable {S : Type} (procs : Procs S)

/-- The client after a command other than EXEC, DISCARD, MULTI and WATCH. -/
def afterProc (c : Client) (mc : MultiCmd) (outcome : Outcome S) : Client :=
  { c with
    dirtyCas := if mc.cmd = .unwatch then false else c.dirtyCas
    pubsub := outcome.pubsub
    authenticated := outcome.authenticated
    closeAfterReply := c.closeAfterReply || outcome.closeAfterReply }

def call (tx : Option Nat) (server : Server S) (c : Client) (mc : MultiCmd) : Server S × Client :=
  let outcome := procs server.data server.dirty c mc
  let changes := decide (0 < outcome.dirty - server.dirty)
  let aof := outcome.forceAof || changes
  let repl := outcome.forceRepl || changes
  let item := if aof || repl then [Propagated.command tx outcome.mc aof repl changes] else []
  ({ server with data := outcome.data, dirty := outcome.dirty, propagated := server.propagated ++ item },
    afterProc c mc outcome)

/-- The loop over the queued commands, with `must_propagate`. -/
def execCommands (tx : Nat) : List MultiCmd → Bool → Server S → Client → Bool × Server S × Client
  | [], must, server, c => (must, server, c)
  | mc :: rest, must, server, c =>
    let first := !must && !mc.cmd.hasFlag 'r'
    let server := if first then { server with propagated := server.propagated ++ [.multi tx] } else server
    let (server, c) := call procs (some tx) server c mc
    execCommands tx rest (must || first) server c

def execCommand (server : Server S) (c : Client) : Server S × Client × Reply :=
  if !c.multi then (server, c, .commandError)
  else if c.dirtyCas || c.dirtyExec then
    (server, discardTransaction c, if c.dirtyExec then .execAbort else .nullMultiBulk)
  else
    let (must, after, c') := execCommands procs server.execs c.commands false { server with execs := server.execs + 1 } c
    (if must then { after with dirty := after.dirty + 1 } else after, discardTransaction c', .multiBulk c.commands.length)

/-- `call` of EXEC. -/
def callExec (server : Server S) (c : Client) : Server S × Client × Reply :=
  let (after, c', reply) := execCommand procs server c
  let item := if 0 < after.dirty - server.dirty then [Propagated.exec server.execs] else []
  ({ after with propagated := after.propagated ++ item }, c', reply)

def multiCommand (c : Client) : Client × Reply := if c.multi then (c, .commandError) else ({ c with multi := true }, .ok)

def discardCommand (c : Client) : Client × Reply := if c.multi then (discardTransaction c, .ok) else (c, .commandError)

def watchCommand (c : Client) : Client × Reply := if c.multi then (c, .commandError) else (c, .ok)

/-- QUIT is handled before the lookup. -/
def isQuit (argv : List (List UInt8)) : Bool := (argv.getD 0 []).map lower = [113, 117, 105, 116]

def processCommand (state : ServerState) (server : Server S) (c : Client) (argv : List (List UInt8)) :
    Server S × Client × Reply :=
  if isQuit argv then (server, { c with closeAfterReply := true }, .ok)
  else
    match state.commands (argv.getD 0 []) with
    | none => (server, flagTransaction c, .error .unknownCommand)
    | some cmd =>
      match refusal state c cmd argv with
      | some exit => (server, if exit.flags then flagTransaction c else c, .error exit)
      | none =>
        if c.multi && cmd ≠ .exec && cmd ≠ .discard && cmd ≠ .multi && cmd ≠ .watch then
          (server, queueMultiCommand c ⟨cmd, argv⟩, .queued)
        else
          match cmd with
          | .exec => callExec procs server c
          | .discard => (server, discardCommand c)
          | .multi => (server, multiCommand c)
          | .watch => (server, watchCommand c)
          | cmd =>
            let (server, c) := call procs none server c ⟨cmd, argv⟩
            (server, c, .other)

structure World (S : Type) where
  server : Server S
  clients : Nat → Client

inductive Event where
  | request (id : Nat) (state : ServerState) (argv : List (List UInt8))
  | touch (id : Nat)
  | connect (id : Nat) (master : Bool)

def worldStep (w : World S) : Event → World S
  | .request id state argv =>
    if (w.clients id).closeAfterReply then w
    else
      let (server, c, _) := processCommand procs state w.server (w.clients id) argv
      ⟨server, Function.update w.clients id c⟩
  | .touch id => ⟨w.server, Function.update w.clients id { w.clients id with dirtyCas := true }⟩
  | .connect id master => ⟨w.server, Function.update w.clients id { master := master }⟩

def worldRun (w : World S) (events : List Event) : World S := events.foldl (worldStep procs) w

end Calls

end Cplusplus.Redis
