import Mathlib.Data.List.Sort
import Mathlib.Data.Rat.Floor

/-! The resharding plan of `redis-trib.rb`: how many slots each source gives, and which. Fractions
are exact. -/

namespace Cplusplus.RedisTrib

structure Source where
  slots : List Nat
  nodup : slots.Nodup

def totSlots (nodes : List Source) : Nat := (nodes.map fun s => s.slots.length).sum

/-- What is asked for: no slot belongs to two sources, and they have as many slots as they shall give. -/
structure Request where
  nodes : List Source
  disjoint : nodes.Pairwise fun a b => a.slots.Disjoint b.slots
  numslots : Nat
  enough : numslots ≤ totSlots nodes

/-- A result of `sources.sort`. Sources of one size can come in any order. -/
structure Sorted (nodes : List Source) where
  sources : List Source
  perm : sources.Perm nodes
  bigger : sources.Pairwise fun a b => b.slots.length ≤ a.slots.length

def share (numslots sourceTotSlots : Nat) (s : Source) (i : Nat) : Int :=
  let n : Rat := numslots / sourceTotSlots * s.slots.length
  if i = 0 then ⌈n⌉ else ⌊n⌋

def moveSlots (numslots : Nat) (s : Source) (n : Int) (moved : List (Source × Nat)) : List (Source × Nat) :=
  ((s.slots.insertionSort (· ≤ ·)).take n.toNat).foldl
    (fun moved slot => if moved.length < numslots then moved ++ [(s, slot)] else moved) moved

/-- One source with its index. A division by no slots at all raises an exception, which is no result. -/
def moveShare (numslots sourceTotSlots : Nat) (moved : List (Source × Nat)) (entry : Source × Nat) : Option (List (Source × Nat)) :=
  if sourceTotSlots = 0 then none else some (moveSlots numslots entry.1 (share numslots sourceTotSlots entry.1 entry.2) moved)

def computeReshardTable {nodes : List Source} (sorted : Sorted nodes) (numslots : Nat) : Option (List (Source × Nat)) :=
  sorted.sources.zipIdx.foldlM (moveShare numslots (totSlots sorted.sources)) []

/-- As many different slots as were asked for, each with a source that owns it. -/
structure Planned (nodes : List Source) (numslots : Nat) (moved : List (Source × Nat)) : Prop where
  count : moved.length = numslots
  distinct : (moved.map Prod.snd).Nodup
  owned : ∀ entry ∈ moved, entry.1 ∈ nodes ∧ entry.2 ∈ entry.1.slots

def remainder (numslots : Nat) (nodes : List Source) (size : Nat) : Nat := numslots * size % totSlots nodes

def largest (nodes : List Source) : Nat := (nodes.map fun s => s.slots.length).foldr max 0

/-- The remainders come to no more than the total number of slots, and to nothing where the largest
source has none. -/
def Divides (nodes : List Source) (numslots : Nat) : Prop :=
  (totSlots nodes = 0 → nodes = []) ∧
    (nodes.map fun s => remainder numslots nodes s.slots.length).sum ≤
      if remainder numslots nodes (largest nodes) = 0 then 0 else totSlots nodes

/-! The plan for a new cluster in `redis-trib.rb`: the masters, their slots and their replicas.
Fractions are exact. A method of `nil` raises an exception, which is no result. -/

structure Node where
  name : List UInt8
  host : List UInt8
deriving DecidableEq

def clusterHashSlots : Nat := 16384

def addHost (ips : List (List UInt8 × List Node)) (n : Node) : List (List UInt8 × List Node) :=
  match ips with
  | [] => [(n.host, [n])]
  | (ip, nodes) :: ips => if ip = n.host then (ip, nodes ++ [n]) :: ips else (ip, nodes) :: addHost ips n

structure Round where
  ips : List (List UInt8 × List Node)
  interleaved : List Node
  stop : Bool

def takeRound (nodesCount : Nat) (interleaved : List Node) (stop : Bool) : List (List UInt8 × List Node) → Round
  | [] => ⟨[], interleaved, stop⟩
  | (ip, []) :: ips =>
    let round := takeRound nodesCount interleaved (stop || interleaved.length == nodesCount) ips
    { round with ips := (ip, []) :: round.ips }
  | (ip, n :: nodes) :: ips =>
    let round := takeRound nodesCount (interleaved ++ [n]) stop ips
    { round with ips := (ip, nodes) :: round.ips }

def interleave (nodesCount : Nat) : Nat → List (List UInt8 × List Node) → List Node → Option (List Node)
  | 0, _, _ => none
  | fuel + 1, ips, interleaved =>
    let round := takeRound nodesCount interleaved false ips
    if round.stop then some round.interleaved else interleave nodesCount fuel round.ips round.interleaved

def roundHalf (x : Rat) : Int := if 0 ≤ x then ⌊x + 1 / 2⌋ else ⌈x - 1 / 2⌉

def lastSlot (mastersCount masternum : Nat) (first : Int) (cursor slotsPerNode : Rat) : Int :=
  let last := roundHalf (cursor + slotsPerNode - 1)
  let last := if last > clusterHashSlots ∨ masternum = mastersCount - 1 then (clusterHashSlots : Int) - 1 else last
  if last < first then first else last

def addSlots (mastersCount : Nat) (slotsPerNode : Rat) (masternum : Nat) (first : Int) (cursor : Rat) : List Node → List (Node × Int × Int)
  | [] => []
  | n :: masters =>
    let last := lastSlot mastersCount masternum first cursor slotsPerNode
    (n, first, last) :: addSlots mastersCount slotsPerNode (masternum + 1) (last + 1) (cursor + slotsPerNode) masters

inductive Assign where
  | requested | unused
deriving DecidableEq

structure Spare where
  interleaved : List Node
  nodesCount : Nat
  replicas : List (Node × List UInt8)

def assignReplica (m : Node) (spare : Spare) : Option Spare :=
  match spare.interleaved.find? fun n => n.host ≠ m.host with
  | some node => some ⟨spare.interleaved.filter (· ≠ node), spare.nodesCount - 1, spare.replicas ++ [(node, m.name)]⟩
  | none =>
    match spare.interleaved with
    | [] => none
    | node :: rest => some ⟨rest, spare.nodesCount - 1, spare.replicas ++ [(node, m.name)]⟩

def assignReplicas (assign : Assign) (m : Node) : Nat → Spare → Option Spare
  | 0, spare => some spare
  | todo + 1, spare =>
    if spare.nodesCount = 0 then some spare
    else (assignReplica m spare).bind fun spare => if assign = .unused then some spare else assignReplicas assign m todo spare

structure Plan where
  masters : List Node
  slots : List (Node × Int × Int)
  replicas : List (Node × List UInt8)

structure Create where
  nodes : List Node
  distinct : (nodes.map Node.name).Nodup
  replicas : Nat
  masters : 3 ≤ nodes.length / (replicas + 1)

def Create.mastersCount (create : Create) : Nat := create.nodes.length / (create.replicas + 1)

def Create.select (create : Create) (fuel : Nat) : Option (List Node × List Node) :=
  (interleave create.nodes.length fuel (create.nodes.foldl addHost []) []).map fun interleaved =>
    (interleaved.take create.mastersCount, interleaved.drop create.mastersCount)

def assignAll (masters : List Node) (replicas : Nat) (spare : Spare) : Option Spare :=
  [Assign.requested, .unused].foldlM (fun spare assign => masters.foldlM (fun spare m => assignReplicas assign m replicas spare) spare) spare

def Create.allocSlots (create : Create) (fuel : Nat) : Option Plan :=
  (create.select fuel).bind fun (masters, interleaved) =>
    (assignAll masters create.replicas ⟨interleaved, create.nodes.length - masters.length, []⟩).map fun spare =>
      ⟨masters, addSlots create.mastersCount (clusterHashSlots / create.mastersCount) 0 0 0 masters, spare.replicas⟩

def slotRange (first last : Int) : List Int := (List.range (last + 1 - first).toNat).map fun k : Nat => first + (k : Int)

/-- The slots of the masters are all slots, each once. A node is a master or the replica of one
master, and each master has the replicas that were asked for. -/
structure Allocated (create : Create) (plan : Plan) : Prop where
  owners : plan.slots.map Prod.fst = plan.masters
  slots : (plan.slots.flatMap fun entry => slotRange entry.2.1 entry.2.2).Perm (slotRange 0 (clusterHashSlots - 1))
  nodes : (plan.masters ++ plan.replicas.map Prod.fst).Perm create.nodes
  replicated : ∀ entry ∈ plan.replicas, entry.2 ∈ plan.masters.map Node.name
  enough : ∀ m ∈ plan.masters, create.replicas ≤ (plan.replicas.map Prod.snd).count m.name

/-- There is a slot for each master, and a master for each node that is left over. -/
def Create.Fits (create : Create) : Prop :=
  create.mastersCount ≤ clusterHashSlots ∧ create.nodes.length % (create.replicas + 1) ≤ create.mastersCount

end Cplusplus.RedisTrib
