import Cplusplus.Library.Run
import Mathlib.Algebra.Ring.Nat
import Mathlib.Data.List.Nodup

/-! The failover elections of `cluster.c`: a fixed set of masters that serve slots and that every
node knows, and their slaves. What a node table says of the other nodes (roles, failures, slots)
changes with any packet. Epochs are `uint64_t`, times are in milliseconds. -/

namespace Cplusplus.Redis.ClusterFailover

variable {Master Slave : Type} [DecidableEq Master] [DecidableEq Slave]

structure Deployment (Master : Type) where
  masters : List Master
  complete : ∀ master, master ∈ masters
  clusterNodeTimeout : Int

/-- A FAILOVER_AUTH_REQUEST. `myslots` are the slots of the slave's master. -/
structure Request (Slave : Type) where
  node : Slave
  currentEpoch : Nat
  configEpoch : Nat
  myslots : List (Fin 16384)
  forceAck : Bool

/-- A vote that was granted, and the FAILOVER_AUTH_ACK that reports it. -/
structure Vote (Master Slave : Type) where
  master : Master
  node : Slave
  epoch : Nat
deriving DecidableEq

structure MasterView (Master Slave : Type) where
  isMaster : Slave → Bool
  slaveof : Slave → Option Master
  failed : Master → Bool
  slotEpoch : Fin 16384 → Option Nat
  maxEpoch : UInt64

structure MasterNode (Master Slave : Type) where
  currentEpoch : Nat
  lastVoteEpoch : Nat
  votedTime : Master → Int
  view : MasterView Master Slave
  saveConfig : Bool
  savedEpoch : Nat
  savedVote : Nat

def MasterView.outdated (v : MasterView Master Slave) (request : Request Slave) : Bool :=
  request.myslots.any fun slot =>
    match v.slotEpoch slot with
    | none => false
    | some epoch => request.configEpoch < epoch

def clusterSendFailoverAuthIfNeeded (d : Deployment Master) (now : Int) (n : MasterNode Master Slave) (request : Request Slave) :
    MasterNode Master Slave × Option Nat :=
  if request.currentEpoch < n.currentEpoch then (n, none)
  else if n.lastVoteEpoch = n.currentEpoch then (n, none)
  else
    match n.view.slaveof request.node with
    | none => (n, none)
    | some master =>
      if n.view.isMaster request.node ∨ n.view.failed master = false ∧ request.forceAck = false then (n, none)
      else if now - n.votedTime master < d.clusterNodeTimeout * 2 then (n, none)
      else if n.view.outdated request then (n, none)
      else
        ({ n with lastVoteEpoch := n.currentEpoch, votedTime := Function.update n.votedTime master now }, some n.currentEpoch)

def MasterNode.learn (n : MasterNode Master Slave) (epoch : Nat) : MasterNode Master Slave :=
  { n with currentEpoch := max n.currentEpoch epoch }

def MasterNode.clusterSaveConfig (n : MasterNode Master Slave) : MasterNode Master Slave :=
  { n with saveConfig := false, savedEpoch := max n.currentEpoch n.view.maxEpoch.toNat, savedVote := n.lastVoteEpoch }

def MasterNode.clusterBeforeSleep (n : MasterNode Master Slave) : MasterNode Master Slave :=
  if n.saveConfig then n.clusterSaveConfig else n

def MasterNode.restart (n : MasterNode Master Slave) : MasterNode Master Slave :=
  { n with currentEpoch := n.savedEpoch, lastVoteEpoch := n.savedVote, votedTime := fun _ => 0, saveConfig := false }

/-- `slaveof` is none for a master. `mfEnd` stands for `mf_end != 0`. `dataTooOld` is the check of
`data_age`. -/
structure SlaveView (Master : Type) where
  slaveof : Option Master
  failed : Master → Bool
  slots : Master → List (Fin 16384)
  masterConfigEpoch : Master → Nat
  mfEnd : Bool
  mfCanStart : Bool
  dataTooOld : Bool
  maxEpoch : UInt64

structure SlaveNode (Master : Type) where
  currentEpoch : Nat
  configEpoch : Nat
  failoverAuthTime : Int
  failoverAuthCount : Nat
  failoverAuthSent : Bool
  failoverAuthRank : Nat
  failoverAuthEpoch : Nat
  view : SlaveView Master
  saveConfig : Bool
  savedEpoch : Nat

def Deployment.authTimeout (d : Deployment Master) : Int := max (d.clusterNodeTimeout * 2) 2000

def Deployment.authRetryTime (d : Deployment Master) : Int := d.authTimeout * 2

def Deployment.neededQuorum (d : Deployment Master) : Nat := d.masters.length / 2 + 1

def SlaveView.toReplace (v : SlaveView Master) : Option Master :=
  v.slaveof.filter fun master =>
    (v.failed master || v.mfEnd && v.mfCanStart) && !(v.slots master).isEmpty && (!v.dataTooOld || v.mfEnd && v.mfCanStart)

def SlaveNode.schedule (n : SlaveNode Master) (now : Int) (rank random : Nat) : SlaveNode Master :=
  { n with
    failoverAuthTime := if n.view.mfEnd then now else now + 500 + (random % 500 : Nat) + rank * 1000
    failoverAuthCount := 0
    failoverAuthSent := false
    failoverAuthRank := if n.view.mfEnd then 0 else rank }

def SlaveNode.updateRank (n : SlaveNode Master) (rank : Nat) : SlaveNode Master :=
  if n.failoverAuthSent = false ∧ n.view.mfEnd = false ∧ n.failoverAuthRank < rank then
    { n with failoverAuthTime := n.failoverAuthTime + (rank - n.failoverAuthRank : Nat) * 1000, failoverAuthRank := rank }
  else n

def SlaveNode.start (n : SlaveNode Master) : SlaveNode Master :=
  { n with
    currentEpoch := (n.currentEpoch + 1) % 2 ^ 64
    failoverAuthEpoch := (n.currentEpoch + 1) % 2 ^ 64
    failoverAuthSent := true
    saveConfig := true }

def clusterRequestFailoverAuth (n : SlaveNode Master) (self : Slave) (master : Master) : Request Slave :=
  ⟨self, n.currentEpoch, n.view.masterConfigEpoch master, n.view.slots master, n.view.mfEnd⟩

def SlaveNode.clusterSaveConfig (n : SlaveNode Master) : SlaveNode Master :=
  { n with saveConfig := false, savedEpoch := max n.currentEpoch n.view.maxEpoch.toNat }

def SlaveNode.clusterBeforeSleep (n : SlaveNode Master) : SlaveNode Master :=
  if n.saveConfig then n.clusterSaveConfig else n

def clusterFailoverReplaceYourMaster (n : SlaveNode Master) : SlaveNode Master :=
  ({ n with view := { n.view with slaveof := none, mfEnd := false, mfCanStart := false } } : SlaveNode Master).clusterSaveConfig

inductive Outcome (Slave : Type) where
  | nothing
  | asked (request : Request Slave)
  | won (epoch : Nat)

def clusterHandleSlaveFailover (d : Deployment Master) (now : Int) (self : Slave) (rank random : Nat) (n : SlaveNode Master) :
    SlaveNode Master × Outcome Slave :=
  let authAge := now - n.failoverAuthTime
  match n.view.toReplace with
  | none => (n, .nothing)
  | some master =>
    if authAge > d.authRetryTime then (n.schedule now rank random, .nothing)
    else
      let n := n.updateRank rank
      if now < n.failoverAuthTime then (n, .nothing)
      else if authAge > d.authTimeout then (n, .nothing)
      else if n.failoverAuthSent = false then (n.start, .asked (clusterRequestFailoverAuth n.start self master))
      else if n.failoverAuthCount ≥ d.neededQuorum then
        (clusterFailoverReplaceYourMaster { n with configEpoch := max n.configEpoch n.failoverAuthEpoch }, .won n.failoverAuthEpoch)
      else (n, .nothing)

def SlaveNode.starts (n : SlaveNode Master) (d : Deployment Master) (now : Int) (rank : Nat) : Prop :=
  n.view.toReplace ≠ none ∧ now - n.failoverAuthTime ≤ d.authTimeout ∧ (n.updateRank rank).failoverAuthTime ≤ now ∧
    n.failoverAuthSent = false

def SlaveNode.retries (n : SlaveNode Master) (d : Deployment Master) (now : Int) : Prop := now - n.failoverAuthTime > d.authRetryTime

/-- `clusterProcessPacket` for a FAILOVER_AUTH_ACK. -/
def SlaveNode.acknowledge (n : SlaveNode Master) (epoch : Nat) : SlaveNode Master :=
  { n with
    currentEpoch := max n.currentEpoch epoch
    failoverAuthCount := if epoch ≥ n.failoverAuthEpoch then n.failoverAuthCount + 1 else n.failoverAuthCount }

def SlaveNode.restart (n : SlaveNode Master) : SlaveNode Master :=
  { n with
    currentEpoch := n.savedEpoch
    failoverAuthTime := 0
    failoverAuthCount := 0
    failoverAuthSent := false
    failoverAuthRank := 0
    failoverAuthEpoch := 0
    saveConfig := false }

structure Cluster (Master Slave : Type) where
  now : Int
  masters : Master → MasterNode Master Slave
  slaves : Slave → SlaveNode Master
  requests : List (Request Slave)
  acks : List (Vote Master Slave)
  votes : List (Vote Master Slave)
  wins : List (Slave × Nat)

/-- A request may reach each master at any time or never, an ack arrives once or is lost. Any other
packet may change what the node table says. -/
inductive Event (Master Slave : Type) where
  | wait (time : Nat)
  | masterPacket (master : Master) (currentEpoch : UInt64) (view : MasterView Master Slave) (save : Bool)
  | masterSleep (master : Master)
  | masterCrash (master : Master)
  | slavePacket (slave : Slave) (currentEpoch : UInt64) (view : SlaveView Master) (save : Bool)
  | slaveSleep (slave : Slave)
  | slaveCrash (slave : Slave)
  | cron (slave : Slave) (rank random : Nat)
  | request (master : Master) (index : Nat)
  | ack (index : Nat)
  | lose (index : Nat)

def Cluster.setMaster (c : Cluster Master Slave) (master : Master) (n : MasterNode Master Slave) : Cluster Master Slave :=
  { c with masters := Function.update c.masters master n }

def Cluster.setSlave (c : Cluster Master Slave) (slave : Slave) (n : SlaveNode Master) : Cluster Master Slave :=
  { c with slaves := Function.update c.slaves slave n }

def Cluster.cron (c : Cluster Master Slave) (d : Deployment Master) (slave : Slave) (rank random : Nat) : Cluster Master Slave :=
  let (n, outcome) := clusterHandleSlaveFailover d c.now slave rank random (c.slaves slave)
  let c := c.setSlave slave n.clusterBeforeSleep
  match outcome with
  | .nothing => c
  | .asked request => { c with requests := request :: c.requests }
  | .won epoch => { c with wins := (slave, epoch) :: c.wins }

def Cluster.vote (c : Cluster Master Slave) (d : Deployment Master) (master : Master) (request : Request Slave) : Cluster Master Slave :=
  let (n, granted) := clusterSendFailoverAuthIfNeeded d c.now ((c.masters master).learn request.currentEpoch) request
  let c := c.setMaster master n
  match granted with
  | none => c
  | some epoch => { c with acks := ⟨master, request.node, epoch⟩ :: c.acks, votes := ⟨master, request.node, epoch⟩ :: c.votes }

def step (d : Deployment Master) (c : Cluster Master Slave) : Event Master Slave → Cluster Master Slave
  | .wait time => { c with now := c.now + time }
  | .masterPacket master epoch view save =>
    c.setMaster master { (c.masters master).learn epoch.toNat with view, saveConfig := (c.masters master).saveConfig || save }
  | .masterSleep master => c.setMaster master (c.masters master).clusterBeforeSleep
  | .masterCrash master => c.setMaster master (c.masters master).restart
  | .slavePacket slave epoch view save =>
    c.setSlave slave
      { c.slaves slave with
        currentEpoch := max (c.slaves slave).currentEpoch epoch.toNat, view, saveConfig := (c.slaves slave).saveConfig || save }
  | .slaveSleep slave => c.setSlave slave (c.slaves slave).clusterBeforeSleep
  | .slaveCrash slave => c.setSlave slave (c.slaves slave).restart
  | .cron slave rank random => c.cron d slave rank random
  | .request master index =>
    match c.requests[index]? with
    | none => c
    | some request => c.vote d master request
  | .ack index =>
    match c.acks[index]? with
    | none => c
    | some ack => { c.setSlave ack.node ((c.slaves ack.node).acknowledge ack.epoch) with acks := c.acks.eraseIdx index }
  | .lose index => { c with acks := c.acks.eraseIdx index }

def run (d : Deployment Master) (c : Cluster Master Slave) (events : List (Event Master Slave)) : Cluster Master Slave :=
  events.foldl (step d) c

structure Start (Master Slave : Type) where
  now : Int
  currentEpoch : Master → UInt64
  lastVoteEpoch : Master → UInt64
  valid : ∀ master, lastVoteEpoch master ≤ currentEpoch master
  masterView : Master → MasterView Master Slave
  slaveEpoch : Slave → UInt64
  configEpoch : Slave → UInt64
  slaveView : Slave → SlaveView Master

def Start.cluster (s : Start Master Slave) : Cluster Master Slave where
  now := s.now
  masters master :=
    ⟨(s.currentEpoch master).toNat, (s.lastVoteEpoch master).toNat, fun _ => 0, s.masterView master, false,
      (s.currentEpoch master).toNat, (s.lastVoteEpoch master).toNat⟩
  slaves slave :=
    ⟨(s.slaveEpoch slave).toNat, (s.configEpoch slave).toNat, 0, 0, false, 0, 0, s.slaveView slave, false, (s.slaveEpoch slave).toNat⟩
  requests := []
  acks := []
  votes := []
  wins := []

def OneVote (c : Cluster Master Slave) : Prop := (c.votes.map fun vote => (vote.master, vote.epoch)).Nodup

def OneWinner (c : Cluster Master Slave) : Prop :=
  ∀ slave other epoch, (slave, epoch) ∈ c.wins → (other, epoch) ∈ c.wins → slave = other

/-- A master restarts only with its last vote, or with a current epoch above it. Between two
elections an ack is counted only if the count is still to be reset. A new election does not wrap the
current epoch. -/
def Event.Safe (d : Deployment Master) (c : Cluster Master Slave) : Event Master Slave → Prop
  | .masterCrash master =>
    (c.masters master).savedVote = (c.masters master).lastVoteEpoch ∨ (c.masters master).lastVoteEpoch < (c.masters master).savedEpoch
  | .ack index =>
    ∀ ack, c.acks[index]? = some ack → (c.slaves ack.node).failoverAuthSent = false →
      (c.slaves ack.node).failoverAuthEpoch ≤ ack.epoch → (c.slaves ack.node).retries d c.now
  | .cron slave rank _ => (c.slaves slave).starts d c.now rank → (c.slaves slave).currentEpoch + 1 < 2 ^ 64
  | _ => True

end Cplusplus.Redis.ClusterFailover
