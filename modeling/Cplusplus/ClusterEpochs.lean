import Mathlib.Algebra.Ring.Nat
import Mathlib.Order.Lattice.Nat

/-! The collisions of configuration epochs in `cluster.c`, for a fixed set of masters that know
each other and serve different slots. A node is named by its ID. Epochs are `uint64_t`. -/

namespace Cplusplus.Redis.ClusterEpochs

variable {Id : Type} [LinearOrder Id]

/-- What a PING or PONG header says about its sender. -/
structure Header (Id : Type) where
  sender : Id
  currentEpoch : Nat
  configEpoch : Nat
deriving DecidableEq

structure Node (Id : Type) where
  currentEpoch : Nat
  configEpoch : Nat
  known : Id → Nat

def Node.collides (n : Node Id) (myself sender : Id) : Bool := n.known sender = n.configEpoch && myself < sender

def clusterHandleConfigEpochCollision (n : Node Id) (myself sender : Id) : Node Id :=
  if n.collides myself sender then
    { n with currentEpoch := (n.currentEpoch + 1) % 2 ^ 64, configEpoch := (n.currentEpoch + 1) % 2 ^ 64 }
  else n

def Node.learn (n : Node Id) (hdr : Header Id) : Node Id :=
  { n with
    currentEpoch := max n.currentEpoch hdr.currentEpoch
    known := Function.update n.known hdr.sender (max (n.known hdr.sender) hdr.configEpoch) }

/-- `clusterProcessPacket` for PING and PONG. -/
def clusterProcessPacket (n : Node Id) (myself : Id) (hdr : Header Id) : Node Id :=
  let n := n.learn hdr
  if hdr.configEpoch = n.configEpoch then clusterHandleConfigEpochCollision n myself hdr.sender else n

def Node.bumps (n : Node Id) (myself : Id) (hdr : Header Id) : Bool :=
  hdr.configEpoch = n.configEpoch && (n.learn hdr).collides myself hdr.sender

structure Collision (Id : Type) where
  node : Id
  sender : Id
  epoch : Nat
  newEpoch : Nat
deriving DecidableEq

structure Cluster (Id : Type) where
  nodes : Id → Node Id
  sent : List (Header Id)
  processed : Id → List (Header Id)
  collisions : List (Collision Id)

def Cluster.header (c : Cluster Id) (i : Id) : Header Id := ⟨i, (c.nodes i).currentEpoch, (c.nodes i).configEpoch⟩

/-- A header may be delivered to any node, late, more than once, or never. -/
inductive Event (Id : Type) where
  | send (sender : Id)
  | deliver (receiver : Id) (index : Nat)

def Cluster.deliver (c : Cluster Id) (i : Id) (hdr : Header Id) : Cluster Id :=
  let after := clusterProcessPacket (c.nodes i) i hdr
  { c with
    nodes := Function.update c.nodes i after
    processed := Function.update c.processed i (hdr :: c.processed i)
    collisions :=
      if (c.nodes i).bumps i hdr then ⟨i, hdr.sender, (c.nodes i).configEpoch, after.configEpoch⟩ :: c.collisions
      else c.collisions }

def step (c : Cluster Id) : Event Id → Cluster Id
  | .send sender => { c with sent := c.sent ++ [c.header sender] }
  | .deliver receiver index =>
    match c.sent[index]? with
    | none => c
    | some hdr => if hdr.sender = receiver then c else c.deliver receiver hdr

def run (c : Cluster Id) (events : List (Event Id)) : Cluster Id := events.foldl step c

structure Start (Id : Type) where
  currentEpoch : Id → UInt64
  configEpoch : Id → UInt64
  known : Id → Id → UInt64
  valid : ∀ i j, known i j ≤ configEpoch j

def clusterLoadConfig [Fintype Id] (s : Start Id) (i : Id) : Node Id where
  currentEpoch := max (s.currentEpoch i).toNat (max (s.configEpoch i).toNat (Finset.univ.sup fun j => (s.known i j).toNat))
  configEpoch := (s.configEpoch i).toNat
  known j := (s.known i j).toNat

def Start.cluster [Fintype Id] (s : Start Id) : Cluster Id := ⟨clusterLoadConfig s, [], fun _ => [], []⟩

def Informed (c : Cluster Id) : Prop := ∀ i j, i ≠ j → c.header j ∈ c.processed i

def Distinct (c : Cluster Id) : Prop := Function.Injective fun i => (c.nodes i).configEpoch

def Cluster.bumps (c : Cluster Id) (i : Id) : Nat := c.collisions.countP fun collision => collision.node = i

/-- An event gives a new epoch to a node only in a collision with a node with a greater ID. -/
def SmallerMoves (c : Cluster Id) (event : Event Id) : Prop :=
  ∀ i, ((step c event).nodes i).configEpoch ≠ (c.nodes i).configEpoch →
    ∃ index hdr, event = .deliver i index ∧ c.sent[index]? = some hdr ∧ hdr.configEpoch = (c.nodes i).configEpoch ∧ i < hdr.sender

/-- A node that takes a new epoch does not wrap its current epoch. -/
def Event.NoWrap (c : Cluster Id) : Event Id → Prop
  | .send _ => True
  | .deliver receiver index =>
    ∀ hdr, c.sent[index]? = some hdr → (c.nodes receiver).bumps receiver hdr = true →
      max (c.nodes receiver).currentEpoch hdr.currentEpoch + 1 < 2 ^ 64

def Meets (condition : Cluster Id → Event Id → Prop) : Cluster Id → List (Event Id) → Prop
  | _, [] => True
  | c, event :: events => condition c event ∧ Meets condition (step c event) events

end Cplusplus.Redis.ClusterEpochs
