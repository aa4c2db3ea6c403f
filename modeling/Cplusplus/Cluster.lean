import Mathlib.Algebra.Ring.Nat
import Mathlib.Data.List.AList
import Mathlib.Data.List.FinRange

/-! The node table of `cluster.c`: nodes with their slots, masters and slaves, as packets and commands
change them. Nodes live at addresses. The contents of a freed node stay until the memory is used again. -/

namespace Cplusplus.Redis.Cluster

/-- REDIS_CLUSTER_SLOTS -/
abbrev Slot := Fin 16384

@[irreducible] def allSlots : List Slot := List.finRange 16384

/-- REDIS_NODE_MASTER, REDIS_NODE_SLAVE and REDIS_NODE_HANDSHAKE are the flags that matter here. -/
structure ClusterNode (Addr Name : Type) where
  name : Name
  master : Bool
  slave : Bool
  handshake : Bool
  configEpoch : Nat
  slots : Slot → Bool
  numslots : Nat
  slaves : List Addr
  slaveof : Option Addr

/-- `importing` and `migrating` are `importing_slots_from` and `migrating_slots_to`, `keys` counts the keys of a
slot. -/
structure ClusterState (Addr Name : Type) where
  heap : Addr → ClusterNode Addr Name
  allocated : Addr → Bool
  nodes : AList fun _ : Name => Addr
  myself : Addr
  currentEpoch : Nat
  slots : Slot → Option Addr
  importing : Slot → Option Addr
  migrating : Slot → Option Addr
  keys : Slot → Nat

/-- The assertions, and a NULL that is used as a node. -/
inductive Fault where
  | clusterDelSlot
  | clusterSetMaster
  | dictDelete
  | nullPointer
deriving DecidableEq

variable {Addr Name : Type} [DecidableEq Addr] [LinearOrder Name]

def ClusterState.modify (c : ClusterState Addr Name) (a : Addr) (change : ClusterNode Addr Name → ClusterNode Addr Name) :
    ClusterState Addr Name := { c with heap := Function.update c.heap a (change (c.heap a)) }

def ClusterNode.setSlotBit (n : ClusterNode Addr Name) (slot : Slot) : ClusterNode Addr Name :=
  { n with slots := Function.update n.slots slot true, numslots := if n.slots slot then n.numslots else n.numslots + 1 }

def ClusterNode.clearSlotBit (n : ClusterNode Addr Name) (slot : Slot) : ClusterNode Addr Name :=
  { n with slots := Function.update n.slots slot false, numslots := if n.slots slot then n.numslots - 1 else n.numslots }

def clusterAddSlot (c : ClusterState Addr Name) (n : Addr) (slot : Slot) : ClusterState Addr Name :=
  match c.slots slot with
  | some _ => c
  | none => { c.modify n (·.setSlotBit slot) with slots := Function.update c.slots slot (some n) }

def clusterDelSlot (c : ClusterState Addr Name) (slot : Slot) : Except Fault (ClusterState Addr Name) :=
  match c.slots slot with
  | none => .ok c
  | some n =>
    if (c.heap n).slots slot then .ok { c.modify n (·.clearSlotBit slot) with slots := Function.update c.slots slot none }
    else .error .clusterDelSlot

def clusterDelNodeSlots (c : ClusterState Addr Name) (n : Addr) : Except Fault (ClusterState Addr Name) :=
  allSlots.foldlM (fun c slot => if (c.heap n).slots slot then clusterDelSlot c slot else .ok c) c

def clusterCloseAllSlots (c : ClusterState Addr Name) : ClusterState Addr Name :=
  { c with importing := fun _ => none, migrating := fun _ => none }

/-- The count is an unsigned int. -/
def countKeysInSlot (c : ClusterState Addr Name) (slot : Slot) : Nat := c.keys slot % 2 ^ 32

def delKeysInSlot (c : ClusterState Addr Name) (slot : Slot) : ClusterState Addr Name :=
  { c with keys := Function.update c.keys slot 0 }

def ClusterState.dbEmpty (c : ClusterState Addr Name) : Bool := allSlots.all fun slot => c.keys slot = 0

def ClusterNode.removeSlave (n : ClusterNode Addr Name) (slave : Addr) : ClusterNode Addr Name :=
  { n with slaves := n.slaves.erase slave }

def ClusterNode.addSlave (n : ClusterNode Addr Name) (slave : Addr) : ClusterNode Addr Name :=
  if slave ∈ n.slaves then n else { n with slaves := n.slaves ++ [slave] }

def ClusterState.leaveMaster (c : ClusterState Addr Name) (n : Addr) : ClusterState Addr Name :=
  match (c.heap n).slaveof with
  | none => c
  | some master => c.modify master (·.removeSlave n)

def clusterLookupNode (c : ClusterState Addr Name) (name : Name) : Option Addr := c.nodes.lookup name

def clusterAddNode (c : ClusterState Addr Name) (n : Addr) : ClusterState Addr Name :=
  match c.nodes.lookup (c.heap n).name with
  | some _ => c
  | none => { c with nodes := c.nodes.insert (c.heap n).name n }

structure Fresh (Addr Name : Type) where
  addr : Addr
  name : Name

/-- A node in handshake state, as `clusterStartHandshake` and a MEET packet add it. -/
def startHandshake (c : ClusterState Addr Name) (fresh : Fresh Addr Name) : ClusterState Addr Name :=
  if c.allocated fresh.addr = true ∨ c.nodes.lookup fresh.name ≠ none then c
  else
    clusterAddNode
      { c with
        heap := Function.update c.heap fresh.addr ⟨fresh.name, false, false, true, 0, fun _ => false, 0, [], none⟩
        allocated := Function.update c.allocated fresh.addr true }
      fresh.addr

def freeClusterNode (c : ClusterState Addr Name) (n : Addr) : Except Fault (ClusterState Addr Name) :=
  let c :=
    if (c.heap n).master then (c.heap n).slaves.foldl (fun c slave => c.modify slave fun x => { x with slaveof := none }) c else c
  let c := if (c.heap n).slave then c.leaveMaster n else c
  match c.nodes.lookup (c.heap n).name with
  | none => .error .dictDelete
  | some _ => .ok { c with nodes := c.nodes.erase (c.heap n).name, allocated := Function.update c.allocated n false }

def ClusterState.forgetSlot (c : ClusterState Addr Name) (delnode : Addr) (slot : Slot) : Except Fault (ClusterState Addr Name) :=
  let c :=
    { c with
      importing := if c.importing slot = some delnode then Function.update c.importing slot none else c.importing
      migrating := if c.migrating slot = some delnode then Function.update c.migrating slot none else c.migrating }
  if c.slots slot = some delnode then clusterDelSlot c slot else .ok c

def clusterDelNode (c : ClusterState Addr Name) (delnode : Addr) : Except Fault (ClusterState Addr Name) := do
  let c ← allSlots.foldlM (fun c slot => c.forgetSlot delnode slot) c
  freeClusterNode c delnode

def clusterRenameNode (c : ClusterState Addr Name) (n : Addr) (newname : Name) : Except Fault (ClusterState Addr Name) :=
  match c.nodes.lookup (c.heap n).name with
  | none => .error .dictDelete
  | some _ =>
    .ok (clusterAddNode ({ c with nodes := c.nodes.erase (c.heap n).name }.modify n fun x => { x with name := newname }) n)

def clusterSetNodeAsMaster (c : ClusterState Addr Name) (n : Addr) : ClusterState Addr Name :=
  if (c.heap n).master then c
  else (c.leaveMaster n).modify n fun x => { x with slave := false, master := true, slaveof := none }

def clusterSetMaster (c : ClusterState Addr Name) (n : Addr) : Except Fault (ClusterState Addr Name) :=
  if n = c.myself ∨ (c.heap c.myself).numslots ≠ 0 then .error .clusterSetMaster
  else
    let c :=
      if (c.heap c.myself).master then clusterCloseAllSlots (c.modify c.myself fun x => { x with master := false, slave := true })
      else c.leaveMaster c.myself
    .ok ((c.modify c.myself fun x => { x with slaveof := some n }).modify n (·.addSlave c.myself))

def clusterGetMaxEpoch (c : ClusterState Addr Name) : Nat :=
  max ((c.nodes.entries.map fun entry => (c.heap entry.2).configEpoch).foldl max 0) c.currentEpoch

def ClusterState.bumpEpoch (c : ClusterState Addr Name) : ClusterState Addr Name :=
  { c.modify c.myself fun x => { x with configEpoch := (c.currentEpoch + 1) % 2 ^ 64 } with currentEpoch := (c.currentEpoch + 1) % 2 ^ 64 }

def clusterBumpConfigEpochWithoutConsensus (c : ClusterState Addr Name) : ClusterState Addr Name :=
  if (c.heap c.myself).configEpoch = 0 ∨ (c.heap c.myself).configEpoch ≠ clusterGetMaxEpoch c then c.bumpEpoch else c

def ClusterState.collides (c : ClusterState Addr Name) (sender : Addr) : Bool :=
  (c.heap sender).configEpoch = (c.heap c.myself).configEpoch && (c.heap sender).master && (c.heap c.myself).master &&
    (c.heap c.myself).name < (c.heap sender).name

def clusterHandleConfigEpochCollision (c : ClusterState Addr Name) (sender : Addr) : ClusterState Addr Name :=
  if c.collides sender then c.bumpEpoch else c

structure Rebinding (Addr Name : Type) where
  state : ClusterState Addr Name
  newmaster : Bool
  dirty : List Slot

def Rebinding.claim (r : Rebinding Addr Name) (sender : Addr) (senderConfigEpoch : Nat) (curmaster : Option Addr) (slot : Slot) :
    Except Fault (Rebinding Addr Name) :=
  let c := r.state
  if c.slots slot = some sender then .ok r
  else if c.importing slot ≠ none then .ok r
  else if (c.slots slot).all fun owner => (c.heap owner).configEpoch < senderConfigEpoch then do
    let after ← clusterDelSlot c slot
    .ok
      { state := clusterAddSlot after sender slot
        newmaster := r.newmaster || c.slots slot = curmaster
        dirty := if c.slots slot = some c.myself ∧ countKeysInSlot c slot ≠ 0 ∧ sender ≠ c.myself then slot :: r.dirty else r.dirty }
  else .ok r

def ClusterState.curmaster (c : ClusterState Addr Name) : Option Addr :=
  if (c.heap c.myself).master then some c.myself else (c.heap c.myself).slaveof

/-- The end of `clusterUpdateSlotsConfigWith`: `curmaster` may be NULL. -/
def Rebinding.finish (r : Rebinding Addr Name) (sender : Addr) (curmaster : Option Addr) : Except Fault (ClusterState Addr Name) :=
  let flush := r.dirty.foldl delKeysInSlot r.state
  if r.newmaster then
    match curmaster with
    | none => .error .nullPointer
    | some curmaster => if (r.state.heap curmaster).numslots = 0 then clusterSetMaster r.state sender else .ok flush
  else .ok flush

def clusterUpdateSlotsConfigWith (c : ClusterState Addr Name) (sender : Addr) (senderConfigEpoch : Nat) (slots : Slot → Bool) :
    Except Fault (ClusterState Addr Name) :=
  if sender = c.myself then .ok c
  else do
    let r ← allSlots.foldlM
      (fun r slot => if slots slot then Rebinding.claim r sender senderConfigEpoch c.curmaster slot else .ok r) ⟨c, false, []⟩
    r.finish sender c.curmaster

def clusterFailoverReplaceYourMaster (c : ClusterState Addr Name) : Except Fault (ClusterState Addr Name) :=
  match (c.heap c.myself).slaveof with
  | none => .ok c
  | some oldmaster =>
    if (c.heap c.myself).master then .ok c
    else
      allSlots.foldlM
        (fun c slot =>
          if (c.heap oldmaster).slots slot then do
            let c ← clusterDelSlot c slot
            .ok (clusterAddSlot c c.myself slot)
          else .ok c)
        (clusterSetNodeAsMaster c c.myself)

/-- The header of a packet. `slaveof` is none for REDIS_NODE_NULL_NAME. -/
structure Header (Name : Type) where
  sender : Name
  currentEpoch : UInt64
  configEpoch : UInt64
  myslots : Slot → Bool
  slaveof : Option Name
  master : Bool
  slave : Bool

/-- A PING, PONG or MEET comes with the handshakes that it starts. -/
inductive Message (Addr Name : Type) where
  | ping (handshakes : List (Fresh Addr Name))
  | meet (fresh : Fresh Addr Name) (handshakes : List (Fresh Addr Name))
  | update (about : Name) (configEpoch : UInt64) (slots : Slot → Bool)
  | other

def ClusterState.learn (c : ClusterState Addr Name) (hdr : Header Name) (sender : Addr) : ClusterState Addr Name :=
  if (c.heap sender).handshake then c
  else
    { c.modify sender fun x => { x with configEpoch := max x.configEpoch hdr.configEpoch.toNat } with
      currentEpoch := max c.currentEpoch hdr.currentEpoch.toNat }

def ClusterState.senderConfigEpoch (c : ClusterState Addr Name) (hdr : Header Name) (sender : Addr) : Nat :=
  if (c.heap sender).handshake then 0 else hdr.configEpoch.toNat

/-- The handshakes of the gossip section. No random name is the one of the sender. -/
def clusterProcessGossipSection (c : ClusterState Addr Name) (hdr : Header Name) (handshakes : List (Fresh Addr Name)) :
    ClusterState Addr Name :=
  (handshakes.filter fun fresh => fresh.name ≠ hdr.sender).foldl startHandshake c

def ClusterState.demote (c : ClusterState Addr Name) (sender : Addr) : Except Fault (ClusterState Addr Name) := do
  if (c.heap sender).master then
    let c ← clusterDelNodeSlots c sender
    .ok (c.modify sender fun x => { x with master := false, slave := true, slaves := [] })
  else .ok c

def ClusterState.switchRole (c : ClusterState Addr Name) (hdr : Header Name) (sender : Addr) : Except Fault (ClusterState Addr Name) :=
  match hdr.slaveof with
  | none => .ok (clusterSetNodeAsMaster c sender)
  | some name => do
    let master := clusterLookupNode c name
    let c ← c.demote sender
    match master with
    | none => .ok c
    | some master =>
      if (c.heap sender).slaveof = some master then .ok c
      else .ok (((c.leaveMaster sender).modify master (·.addSlave sender)).modify sender fun x => { x with slaveof := some master })

def ClusterState.dirtySlots (c : ClusterState Addr Name) (hdr : Header Name) (sender : Addr) : Bool :=
  allSlots.any fun slot => (c.heap sender).slots slot != hdr.myslots slot

def ClusterState.updateSlots (c : ClusterState Addr Name) (hdr : Header Name) (sender : Addr) (epoch : Nat) :
    Except Fault (ClusterState Addr Name) :=
  if (c.heap sender).master && c.dirtySlots hdr sender then clusterUpdateSlotsConfigWith c sender epoch hdr.myslots else .ok c

def ClusterState.checkCollision (c : ClusterState Addr Name) (sender : Addr) (epoch : Nat) : ClusterState Addr Name :=
  if (c.heap c.myself).master && (c.heap sender).master && epoch = (c.heap c.myself).configEpoch then
    clusterHandleConfigEpochCollision c sender
  else c

/-- What a PING, PONG or MEET does once the sender is known. -/
def ClusterState.processConfig (c : ClusterState Addr Name) (hdr : Header Name) (sender : Addr) (epoch : Nat)
    (handshakes : List (Fresh Addr Name)) : Except Fault (ClusterState Addr Name) := do
  let c ← c.switchRole hdr sender
  let c ← c.updateSlots hdr sender epoch
  .ok (clusterProcessGossipSection (c.checkCollision sender epoch) hdr handshakes)

/-- A PING, PONG or MEET of an unknown sender. The handshake with it may come to an end. -/
def ClusterState.processUnknown (c : ClusterState Addr Name) (link : Option Addr) (hdr : Header Name) :
    Except Fault (ClusterState Addr Name) :=
  match link with
  | none => .ok c
  | some node =>
    if (c.heap node).handshake then do
      let c ← clusterRenameNode c node hdr.sender
      .ok (c.modify node fun x =>
        { x with handshake := false, master := x.master || hdr.master, slave := x.slave || hdr.slave })
    else .ok c

/-- A PING, PONG or MEET of a known sender. A link of another node has no say. -/
def ClusterState.processKnown (c : ClusterState Addr Name) (link : Option Addr) (hdr : Header Name) (sender : Addr)
    (handshakes : List (Fresh Addr Name)) : Except Fault (ClusterState Addr Name) :=
  let epoch := c.senderConfigEpoch hdr sender
  let c := c.learn hdr sender
  match link with
  | none => c.processConfig hdr sender epoch handshakes
  | some node =>
    if (c.heap node).handshake then clusterDelNode c node
    else if (c.heap node).name ≠ hdr.sender then .ok c
    else c.processConfig hdr sender epoch handshakes

def ClusterState.processUpdate (c : ClusterState Addr Name) (about : Name) (configEpoch : Nat) (slots : Slot → Bool) :
    Except Fault (ClusterState Addr Name) :=
  match clusterLookupNode c about with
  | none => .ok c
  | some n =>
    if (c.heap n).configEpoch ≥ configEpoch then .ok c
    else
      let c := if (c.heap n).slave then clusterSetNodeAsMaster c n else c
      clusterUpdateSlotsConfigWith (c.modify n fun x => { x with configEpoch := configEpoch }) n configEpoch slots

/-- `link` is the node of the link that the packet came by, none for one that the sender opened. -/
def clusterProcessPacket (c : ClusterState Addr Name) (link : Option Addr) (hdr : Header Name) (message : Message Addr Name) :
    Except Fault (ClusterState Addr Name) :=
  match clusterLookupNode c hdr.sender, message with
  | some sender, .ping handshakes => c.processKnown link hdr sender handshakes
  | some sender, .meet _ handshakes => c.processKnown link hdr sender handshakes
  | some sender, .update about configEpoch slots => (c.learn hdr sender).processUpdate about configEpoch.toNat slots
  | some sender, .other => .ok (c.learn hdr sender)
  | none, .ping _ => c.processUnknown link hdr
  | none, .meet fresh handshakes => (clusterProcessGossipSection c hdr (fresh :: handshakes)).processUnknown link hdr
  | none, .update _ _ _ => .ok c
  | none, .other => .ok c

/-- The last arguments of CLUSTER SETSLOT. -/
inductive SetSlot (Name : Type) where
  | migrating (name : Name)
  | importing (name : Name)
  | stable
  | node (name : Name)

/-- The check of CLUSTER ADDSLOTS and DELSLOTS: the slots are free or busy, and are not given twice. -/
def slotsAccepted (c : ClusterState Addr Name) (del : Bool) (slots : List Slot) : Bool :=
  (slots.all fun slot => (c.slots slot).isSome = del) && decide slots.Nodup

/-- CLUSTER ADDSLOTS and DELSLOTS -/
def clusterSlotsCommand (c : ClusterState Addr Name) (del : Bool) (slots : List Slot) : Except Fault (ClusterState Addr Name) :=
  if slotsAccepted c del slots then
    allSlots.foldlM
      (fun c slot =>
        if slot ∈ slots then
          let c := { c with importing := Function.update c.importing slot none }
          if del then clusterDelSlot c slot else .ok (clusterAddSlot c c.myself slot)
        else .ok c)
      c
  else .ok c

def clusterFlushSlotsCommand (c : ClusterState Addr Name) : Except Fault (ClusterState Addr Name) :=
  if c.dbEmpty then clusterDelNodeSlots c c.myself else .ok c

def clusterSetSlotNode (c : ClusterState Addr Name) (slot : Slot) (n : Addr) : Except Fault (ClusterState Addr Name) := do
  if c.slots slot = some c.myself ∧ n ≠ c.myself ∧ countKeysInSlot c slot ≠ 0 then .ok c
  else
    let c := if countKeysInSlot c slot = 0 then { c with migrating := Function.update c.migrating slot none } else c
    let c :=
      if n = c.myself ∧ c.importing slot ≠ none then
        { clusterBumpConfigEpochWithoutConsensus c with importing := Function.update c.importing slot none }
      else c
    let c ← clusterDelSlot c slot
    .ok (clusterAddSlot c n slot)

def clusterSetSlotCommand (c : ClusterState Addr Name) (slot : Slot) (action : SetSlot Name) : Except Fault (ClusterState Addr Name) :=
  match action with
  | .migrating name =>
    match clusterLookupNode c name with
    | none => .ok c
    | some n => .ok (if c.slots slot = some c.myself then { c with migrating := Function.update c.migrating slot (some n) } else c)
  | .importing name =>
    match clusterLookupNode c name with
    | none => .ok c
    | some n => .ok (if c.slots slot = some c.myself then c else { c with importing := Function.update c.importing slot (some n) })
  | .stable =>
    .ok { c with importing := Function.update c.importing slot none, migrating := Function.update c.migrating slot none }
  | .node name =>
    match clusterLookupNode c name with
    | none => .ok c
    | some n => clusterSetSlotNode c slot n

def clusterForgetCommand (c : ClusterState Addr Name) (name : Name) : Except Fault (ClusterState Addr Name) :=
  match clusterLookupNode c name with
  | none => .ok c
  | some n =>
    if n = c.myself then .ok c
    else if (c.heap c.myself).slave = true ∧ (c.heap c.myself).slaveof = some n then .ok c
    else clusterDelNode c n

def clusterReplicateCommand (c : ClusterState Addr Name) (name : Name) : Except Fault (ClusterState Addr Name) :=
  match clusterLookupNode c name with
  | none => .ok c
  | some n =>
    if n = c.myself then .ok c
    else if (c.heap n).slave then .ok c
    else if (c.heap c.myself).master = true ∧ ((c.heap c.myself).numslots ≠ 0 ∨ c.dbEmpty = false) then .ok c
    else clusterSetMaster c n

/-- CLUSTER FAILOVER TAKEOVER -/
def clusterTakeoverCommand (c : ClusterState Addr Name) : Except Fault (ClusterState Addr Name) :=
  if (c.heap c.myself).master = true ∨ (c.heap c.myself).slaveof = none then .ok c
  else clusterFailoverReplaceYourMaster (clusterBumpConfigEpochWithoutConsensus c)

/-- CLUSTER SET-CONFIG-EPOCH -/
def clusterSetConfigEpochCommand (c : ClusterState Addr Name) (epoch : Nat) : ClusterState Addr Name :=
  if 2 ^ 63 ≤ epoch then c
  else if c.nodes.entries.length > 1 then c
  else if (c.heap c.myself).configEpoch ≠ 0 then c
  else { c.modify c.myself fun x => { x with configEpoch := epoch } with currentEpoch := max c.currentEpoch epoch }

def ClusterState.forgetOther (c : ClusterState Addr Name) (name : Name) : Except Fault (ClusterState Addr Name) :=
  match c.nodes.lookup name with
  | none => .ok c
  | some n => if n = c.myself then .ok c else clusterDelNode c n

def clusterReset (c : ClusterState Addr Name) (order : List Name) (newname : Option Name) : Except Fault (ClusterState Addr Name) := do
  let c := if (c.heap c.myself).slave then { clusterSetNodeAsMaster c c.myself with keys := fun _ => 0 } else c
  let c ← allSlots.foldlM clusterDelSlot (clusterCloseAllSlots c)
  let c ← order.foldlM ClusterState.forgetOther c
  match newname with
  | none => .ok c
  | some newname => clusterRenameNode ({ c with currentEpoch := 0 }.modify c.myself fun x => { x with configEpoch := 0 }) c.myself newname

def clusterResetCommand (c : ClusterState Addr Name) (order : List Name) (newname : Option Name) :
    Except Fault (ClusterState Addr Name) :=
  if (c.heap c.myself).master = true ∧ c.dbEmpty = false then .ok c else clusterReset c order newname

/-- `failoverWon` and `migrate` are what `clusterHandleSlaveFailover` and `clusterHandleSlaveMigration` do in the end,
`handshakeTimeout` is the cleanup of `clusterCron`. Clients and the master change the keys, and the memory of a freed node
may change. -/
inductive Event (Addr Name : Type) where
  | packet (link : Option Addr) (hdr : Header Name) (message : Message Addr Name)
  | meet (fresh : Fresh Addr Name)
  | slots (del : Bool) (slots : List Slot)
  | flushSlots
  | setSlot (slot : Slot) (action : SetSlot Name)
  | forget (name : Name)
  | replicate (name : Name)
  | takeover
  | setConfigEpoch (epoch : Nat)
  | reset (order : List Name) (newname : Option Name)
  | failoverWon (epoch : UInt64)
  | migrate (name : Name)
  | handshakeTimeout (name : Name)
  | setKeys (keys : Slot → Nat)
  | scribble (a : Addr) (contents : ClusterNode Addr Name)

def ClusterState.linked (c : ClusterState Addr Name) (link : Option Addr) : Bool :=
  link.all fun node => c.nodes.lookup (c.heap node).name = some node

def ClusterState.migrateTo (c : ClusterState Addr Name) (name : Name) : Except Fault (ClusterState Addr Name) :=
  match c.nodes.lookup name with
  | none => .ok c
  | some target =>
    if (c.heap c.myself).slave = true ∧ (c.heap c.myself).slaveof ≠ none ∧ (c.heap target).slave = false ∧
        (c.heap target).numslots > 0 then
      clusterSetMaster c target
    else .ok c

def ClusterState.failoverWon (c : ClusterState Addr Name) (epoch : Nat) : Except Fault (ClusterState Addr Name) :=
  if (c.heap c.myself).master = true ∨ (c.heap c.myself).slaveof = none then .ok c
  else clusterFailoverReplaceYourMaster (c.modify c.myself fun x => { x with configEpoch := max x.configEpoch epoch })

def ClusterState.handshakeTimeout (c : ClusterState Addr Name) (name : Name) : Except Fault (ClusterState Addr Name) :=
  match c.nodes.lookup name with
  | none => .ok c
  | some n => if (c.heap n).handshake = true ∧ n ≠ c.myself then clusterDelNode c n else .ok c

/-- What cannot happen changes nothing: a link of no node, an iteration that leaves out nodes, a random name that is in use. -/
def step (c : ClusterState Addr Name) : Event Addr Name → Except Fault (ClusterState Addr Name)
  | .packet link hdr message => if c.linked link then clusterProcessPacket c link hdr message else .ok c
  | .meet fresh => .ok (startHandshake c fresh)
  | .slots del slots => clusterSlotsCommand c del slots
  | .flushSlots => clusterFlushSlotsCommand c
  | .setSlot slot action => clusterSetSlotCommand c slot action
  | .forget name => clusterForgetCommand c name
  | .replicate name => clusterReplicateCommand c name
  | .takeover => clusterTakeoverCommand c
  | .setConfigEpoch epoch => .ok (clusterSetConfigEpochCommand c epoch)
  | .reset order newname =>
    if (c.nodes.keys.all fun name => name ∈ order) ∧ newname.all fun name => c.nodes.lookup name = none then
      clusterResetCommand c order newname
    else .ok c
  | .failoverWon epoch => c.failoverWon epoch.toNat
  | .migrate name => c.migrateTo name
  | .handshakeTimeout name => c.handshakeTimeout name
  | .setKeys keys => .ok { c with keys := keys }
  | .scribble a contents => .ok (if c.allocated a then c else { c with heap := Function.update c.heap a contents })

/-- A run ends with the first fault. -/
def run (c : ClusterState Addr Name) (events : List (Event Addr Name)) : Except Fault (ClusterState Addr Name) := events.foldlM step c

def clusterInit (memory : Addr → ClusterNode Addr Name) (myself : Addr) (name : Name) : ClusterState Addr Name where
  heap := Function.update memory myself ⟨name, true, false, false, 0, fun _ => false, 0, [], none⟩
  allocated a := a = myself
  nodes := AList.singleton name myself
  myself := myself
  currentEpoch := 0
  slots _ := none
  importing _ := none
  migrating _ := none
  keys _ := 0

end Cplusplus.Redis.Cluster
