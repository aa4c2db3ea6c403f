import Cplusplus.ReplicationBacklog

/-! The full resynchronisation of `replication.c` and `rdb.c`, as the master sees it: SYNC and
PSYNC, the children that save the dataset, and the stream of commands. What a command does to the
dataset is a parameter, and the bytes of the backlog are left out. -/

namespace Cplusplus.Redis.FullResync
open CheckAof (Argv catAppendOnlyGenericCommand strtol)
open Replication (fullresyncLine)

/-- What is put into the stream. The service commands, PING and REPLCONF GETACK, are sent for the
database that was selected last. -/
inductive Item where
  | select (dictid : Nat)
  | command (argv : Argv)
  | service (argv : Argv)
deriving DecidableEq

def selectName : List UInt8 := [83, 69, 76, 69, 67, 84]

def Item.text : Item → List UInt8
  | .select dictid => catAppendOnlyGenericCommand [selectName, Decimal.decimal dictid]
  | .command argv => catAppendOnlyGenericCommand argv
  | .service argv => catAppendOnlyGenericCommand argv

structure Piece where
  item : Item
  base : Int
deriving DecidableEq

def Piece.offsets (piece : Piece) : List Int := (List.range piece.item.text.length).map fun i : Nat => piece.base + 1 + i

def context (dbid : Nat) : List Item → Nat
  | [] => dbid
  | .select dictid :: items => context dictid items
  | _ :: items => context dbid items

def decode (dbid : Nat) : List Item → List (Nat × Argv)
  | [] => []
  | .select dictid :: items => decode dictid items
  | .command argv :: items => (dbid, argv) :: decode dbid items
  | .service _ :: items => decode dbid items

def syncReadLine (s : List UInt8) : List UInt8 :=
  let line := s.takeWhile (· ≠ 10)
  if line.getLast? = some 13 then line.dropLast else line

/-- What follows the first space. -/
def afterSpace (s : List UInt8) : Option (List UInt8) :=
  match s.dropWhile (· ≠ 32) with
  | [] => none
  | _ :: rest => some rest

def fullresyncName : List UInt8 := [43, 70, 85, 76, 76, 82, 69, 83, 89, 78, 67]

/-- `repl_master_initial_offset` after the reply to PSYNC. -/
def slaveTryPartialResynchronization (reply : List UInt8) : Int :=
  let reply := syncReadLine reply
  if reply.take 11 = fullresyncName then
    match afterSpace reply with
    | none => -1
    | some runid =>
      match afterSpace runid with
      | none => -1
      | some offset => if runid.length - offset.length - 1 = 40 then (strtol offset).1 else -1
  else -1

/-- "0123456789abcdef" -/
def hexCharset : List UInt8 := [48, 49, 50, 51, 52, 53, 54, 55, 56, 57, 97, 98, 99, 100, 101, 102]

def IsRunid (runid : List UInt8) : Prop := runid.length = 40 ∧ ∀ c ∈ runid, c ∈ hexCharset

inductive ReplState where
  | waitBgsaveStart
  | waitBgsaveEnd
  | sendBulk
  | online
deriving DecidableEq

/-- The bytes of the stream that the master wrote and that the slave read, whether the slave has
loaded the RDB, and its offsets. -/
structure Link where
  sent : Nat := 0
  received : Nat := 0
  loaded : Bool := false
  replMasterInitialOffset : Int
  reploff : Int := 0

/-- `full` tells a full resynchronisation from a continued one, and `announced` is the offset of
the +FULLRESYNC line. `payload` is the RDB file that was opened or the RDB that a child wrote to
the socket, and `stream` all that was added to the output buffer. -/
structure Slave (D : Type) where
  id : Nat
  replstate : ReplState
  replPutOnlineOnAck : Bool
  full : Bool
  announced : Option Int
  payload : Option D
  stream : List Piece
  link : Link

inductive ChildType where
  | disk
  | socket
deriving DecidableEq

structure ChildExit where
  ok : Bool
  received : Nat → Bool

/-- `ids` are the clients that a child with socket target writes to. A child that has ended is
kept until its handler runs. -/
structure Child (D : Type) where
  type : ChildType
  snapshot : D
  ids : List Nat
  exit : Option ChildExit

structure Master (D : Type) where
  data : D
  log : List (Nat × Argv)
  slaves : List (Slave D)
  child : Option (Child D)
  rdbFile : Option D
  slaveseldb : Int
  masterReplOffset : Int
  replBacklog : Bool
  replDisklessSync : Bool

variable {D : Type}

def Slave.waits (s : Slave D) : Bool := s.replstate = .waitBgsaveStart

def Slave.accumulates (s : Slave D) : Bool := s.replstate = .waitBgsaveEnd

/-- A slave that waits for a BGSAVE to start waits for its end. -/
def begun (s : Slave D) : Slave D := if s.waits then { s with replstate := .waitBgsaveEnd } else s

def feedItem (m : Master D) (item : Item) (fed : Slave D → Bool) : Master D :=
  { m with
    masterReplOffset := if m.replBacklog then m.masterReplOffset + item.text.length else m.masterReplOffset
    slaves := m.slaves.map fun s => if fed s then { s with stream := s.stream ++ [⟨item, m.masterReplOffset⟩] } else s }

def replicationFeedSlaves (m : Master D) (dictid : Int) (item : Item) : Master D :=
  if !m.replBacklog && m.slaves.isEmpty then m
  else
    let m := if m.slaveseldb ≠ dictid then feedItem m (.select dictid.toNat) fun _ => true else m
    feedItem { m with slaveseldb := dictid } item fun s => !s.waits

/-- The result is false for REDIS_ERR. -/
def rdbSaveBackground (m : Master D) (forks : Bool) : Master D × Bool :=
  if m.child.isSome || !forks then (m, false) else ({ m with child := some ⟨.disk, m.data, [], none⟩ }, true)

def rdbSaveToSlavesSockets (m : Master D) (pipes forks : Bool) : Master D × Bool :=
  if m.child.isSome || !pipes then (m, false)
  else
    let ids := (m.slaves.filter Slave.waits).map Slave.id
    let m := { m with slaves := m.slaves.map begun }
    if forks then ({ m with child := some ⟨.socket, m.data, ids, none⟩ }, true) else (m, false)

def startBgsaveForReplication (m : Master D) (pipes forks : Bool) : Master D × Bool :=
  if m.replDisklessSync then rdbSaveToSlavesSockets m pipes forks else rdbSaveBackground m forks

/-- The turn of the loop for a slave, or none if it is freed. `opens` tells whether the RDB file
can be sent to the client. -/
def updateSlave (type : ChildType) (ok : Bool) (opens : Nat → Bool) (rdbFile : Option D) (s : Slave D) : Option (Slave D) :=
  match s.replstate with
  | .waitBgsaveStart => some { s with replstate := .waitBgsaveEnd }
  | .waitBgsaveEnd =>
    match type with
    | .socket => some { s with replstate := .online, replPutOnlineOnAck := true }
    | .disk => if ok && opens s.id then rdbFile.map fun file => { s with replstate := .sendBulk, payload := some file } else none
  | _ => some s

def updateSlavesWaitingBgsave (m : Master D) (type : ChildType) (ok : Bool) (opens : Nat → Bool) (pipes forks : Bool) : Master D :=
  let startbgsave := m.slaves.any Slave.waits
  let m := { m with slaves := m.slaves.filterMap (updateSlave type ok opens m.rdbFile) }
  if startbgsave then
    let (m, started) := startBgsaveForReplication m pipes forks
    if started then m else { m with slaves := m.slaves.filter fun s => !s.waits }
  else m

/-- A slave that waits for the child goes on if the child wrote the whole RDB to it. -/
def transferred (child : Child D) (exit : ChildExit) (s : Slave D) : Option (Slave D) :=
  if s.accumulates then
    if exit.ok && exit.received s.id && child.ids.contains s.id then some { s with payload := some child.snapshot } else none
  else some s

def backgroundSaveDoneHandler (m : Master D) (opens : Nat → Bool) (pipes forks : Bool) : Master D :=
  match m.child with
  | none => m
  | some child =>
    match child.exit with
    | none => m
    | some exit =>
      let m := { m with child := none }
      match child.type with
      | .disk => updateSlavesWaitingBgsave m .disk exit.ok opens pipes forks
      | .socket =>
        let m := { m with slaves := m.slaves.filterMap (transferred child exit) }
        updateSlavesWaitingBgsave m .socket exit.ok opens pipes forks

def childExit (m : Master D) (exit : ChildExit) : Master D :=
  match m.child with
  | none => m
  | some child =>
    if child.exit.isSome then m
    else
      { m with
        child := some { child with exit := some exit }
        rdbFile := if child.type = .disk && exit.ok then some child.snapshot else m.rdbFile }

def replicationCron (m : Master D) (aofChild pipes forks : Bool) : Master D :=
  if m.child.isNone && !aofChild && m.slaves.any Slave.waits then
    let (m, started) := startBgsaveForReplication m pipes forks
    if started then { m with slaves := m.slaves.map begun } else m
  else m

def attach (m : Master D) (c : Slave D) : Master D :=
  let m := { m with slaveseldb := -1, slaves := m.slaves ++ [c] }
  if m.slaves.length = 1 && !m.replBacklog then { m with replBacklog := true, masterReplOffset := m.masterReplOffset + 1 } else m

/-- The client of SYNC, or of a PSYNC that needs a full resynchronisation. -/
def newSlave (m : Master D) (runid : List UInt8) (id : Nat) (psync : Bool) : Slave D :=
  let offset := if m.replBacklog then m.masterReplOffset else m.masterReplOffset + 1
  { id := id
    replstate := .waitBgsaveStart
    replPutOnlineOnAck := false
    full := true
    announced := if psync then some offset else none
    payload := none
    stream := []
    link := { replMasterInitialOffset := if psync then slaveTryPartialResynchronization (fullresyncLine runid offset) else -1 } }

/-- `forks` is for the BGSAVE that is started at once. -/
def syncCommand (m : Master D) (runid : List UInt8) (id : Nat) (psync forks : Bool) : Master D :=
  if m.slaves.any fun s => s.id = id then m
  else
    let c := newSlave m runid id psync
    match m.child with
    | some child =>
      match child.type with
      | .disk =>
        match m.slaves.find? Slave.accumulates with
        | some slave => attach m { c with stream := slave.stream, replstate := .waitBgsaveEnd }
        | none => attach m c
      | .socket => attach m c
    | none =>
      if m.replDisklessSync then attach m c
      else
        let (m, started) := startBgsaveForReplication m true forks
        if started then attach m { c with replstate := .waitBgsaveEnd } else m

inductive Event where
  | sync (id : Nat) (psync forks : Bool)
  /-- A PSYNC that is continued from the backlog, whose bytes are left out. -/
  | continued (id : Nat)
  | command (dictid : Nat) (argv : Argv)
  /-- FLUSHALL, where `saved` tells that there are save points and `rdbSave` succeeds. -/
  | flushall (dictid : Nat) (argv : Argv) (saved : Bool)
  | service (argv : Argv)
  /-- BGSAVE, or a save point that is reached. -/
  | bgsave (forks : Bool)
  | childExit (exit : ChildExit)
  | childDone (opens : Nat → Bool) (pipes forks : Bool)
  | cron (aofChild pipes forks : Bool)
  | bulkSent (id : Nat)
  | ack (id : Nat)
  /-- The slave has loaded the RDB. -/
  | loaded (id : Nat)
  | write (id n : Nat)
  | read (id n : Nat)
  | freeClient (id : Nat)
  | freeReplicationBacklog
  | configDiskless (value : Bool)

def Master.update (m : Master D) (id : Nat) (f : Slave D → Slave D) : Master D :=
  { m with slaves := m.slaves.map fun s => if s.id = id then f s else s }

def Slave.offsets (s : Slave D) : List Int := s.stream.flatMap Piece.offsets

def putSlaveOnline (s : Slave D) : Slave D :=
  if s.replstate = .sendBulk then { s with replstate := .online, replPutOnlineOnAck := false } else s

def writeToSlave (n : Nat) (s : Slave D) : Slave D :=
  if s.replstate = .online && !s.replPutOnlineOnAck then
    { s with link := { s.link with sent := min (s.link.sent + n) s.offsets.length } }
  else s

/-- `readSyncBulkPayload` at the end of the RDB. -/
def loadPayload (s : Slave D) : Slave D :=
  if s.replstate = .online && !s.link.loaded then
    { s with link := { s.link with loaded := true, reploff := s.link.replMasterInitialOffset } }
  else s

def readFromMaster (n : Nat) (s : Slave D) : Slave D :=
  let nread := min n (s.link.sent - s.link.received)
  if s.link.loaded then
    { s with link := { s.link with received := s.link.received + nread, reploff := s.link.reploff + nread } }
  else s

variable (execute : D → Nat × Argv → D) (runid : List UInt8)

def run (m : Master D) (command : Nat × Argv) : Master D := { m with data := execute m.data command, log := m.log ++ [command] }

def step (m : Master D) : Event → Master D
  | .sync id psync forks => syncCommand m runid id psync forks
  | .continued id =>
    if m.replBacklog && !m.slaves.any fun s => s.id = id then
      { m with slaves := m.slaves ++ [⟨id, .online, false, false, none, none, [], { replMasterInitialOffset := -1 }⟩] }
    else m
  | .command dictid argv => replicationFeedSlaves (run execute m (dictid, argv)) dictid (.command argv)
  | .flushall dictid argv saved =>
    let m := run execute m (dictid, argv)
    let m := childExit m ⟨false, fun _ => false⟩
    let m := if saved then { m with rdbFile := some m.data } else m
    replicationFeedSlaves m dictid (.command argv)
  | .service argv => replicationFeedSlaves m m.slaveseldb (.service argv)
  | .bgsave forks => (rdbSaveBackground m forks).1
  | .childExit exit => childExit m exit
  | .childDone opens pipes forks => backgroundSaveDoneHandler m opens pipes forks
  | .cron aofChild pipes forks => replicationCron m aofChild pipes forks
  | .bulkSent id => m.update id putSlaveOnline
  | .ack id => m.update id fun s => if s.replstate = .online then { s with replPutOnlineOnAck := false } else s
  | .loaded id => m.update id loadPayload
  | .write id n => m.update id (writeToSlave n)
  | .read id n => m.update id (readFromMaster n)
  | .freeClient id => { m with slaves := m.slaves.filter fun s => s.id ≠ id }
  | .freeReplicationBacklog => if m.slaves.isEmpty then { m with replBacklog := false } else m
  | .configDiskless value => { m with replDisklessSync := value }

def runEvents (m : Master D) (events : List Event) : Master D := events.foldl (step execute runid) m

def Master.start (data : D) (diskless : Bool) : Master D := ⟨data, [], [], none, none, -1, 0, false, diskless⟩

def Follows (start : D) (log : List (Nat × Argv)) (snapshot : D) (stream : List Piece) : Prop :=
  ∃ before after, log = before ++ after ∧ snapshot = before.foldl execute start ∧ decode 0 (stream.map Piece.item) = after

def Child.Serves (child : Child D) (s : Slave D) : Prop := child.type = .disk ∨ s.id ∈ child.ids

/-- Slaves that are online got a snapshot and the commands after it, and those that wait for the
end of a BGSAVE have a child that serves them. -/
def Exact (start : D) (m : Master D) : Prop :=
  ∀ s ∈ m.slaves,
    (s.full = true → s.replstate = .online → ∃ snapshot, s.payload = some snapshot ∧ Follows execute start m.log snapshot s.stream) ∧
    (s.replstate = .waitBgsaveEnd → ∃ child, m.child = some child ∧ child.Serves s)

/-- The BGSAVE that slaves wait for can be started where their states were changed before, and
FLUSHALL does not save over the file of a child that has ended. -/
def Event.Clean (m : Master D) : Event → Prop
  | .childDone _ _ forks =>
    (∃ child exit, m.child = some child ∧ child.exit = some exit) → m.slaves.any Slave.waits = true →
      m.replDisklessSync = false ∧ forks = true
  | .cron aofChild pipes forks =>
    m.child.isNone = true → aofChild = false → m.slaves.any Slave.waits = true → m.replDisklessSync = true → pipes = true → forks = true
  | .flushall _ _ saved =>
    saved = true → ∀ child exit, m.child = some child → child.exit = some exit → exit.ok = true → m.slaves.any Slave.accumulates = false
  | _ => True

/-- After a full resynchronisation that announced an offset, `reploff` is `master_repl_offset` at
the last byte that was received. -/
def OffsetsAgree (m : Master D) : Prop :=
  ∀ s ∈ m.slaves, s.full = true → s.announced.isSome = true → s.link.loaded = true → 0 < s.link.received →
    s.offsets[s.link.received - 1]? = some s.link.reploff

/-- Nothing is fed while a client of PSYNC waits for its BGSAVE to start, and a client of PSYNC
that copies an output buffer copies an empty one. The offset that is announced is a `long long`. -/
def Event.Aligned (m : Master D) : Event → Prop
  | .sync _ psync _ =>
    psync = true → m.masterReplOffset + 1 < 2 ^ 63 ∧
      ∀ child, m.child = some child → child.type = .disk → ∀ s ∈ m.slaves.find? Slave.accumulates, s.stream = []
  | .command _ _ | .flushall _ _ _ | .service _ => ∀ s ∈ m.slaves, s.waits = true → s.announced = none
  | _ => True

def Meets (condition : Master D → Event → Prop) : Master D → List Event → Prop
  | _, [] => True
  | m, event :: events => condition m event ∧ Meets condition (step execute runid m event) events

end Cplusplus.Redis.FullResync
