import Cplusplus.Library.Clockwise
import Cplusplus.Library.Decimal

/-! `hashring/consistent.h`. The hash function and the text of a node are parameters. A hash is a
number, and the hash of a string is taken up to its first zero byte. -/

namespace Cplusplus.Consistent
open Clockwise (lowerBound Before)

structure HashRing (Node : Type) where
  ring : Finmap fun _ : Nat => Node
  replicas : Nat
  hash : List UInt8 → Nat

variable {Node : Type} (stringify : Node → List UInt8)

def HashRing.point (h : HashRing Node) (node : Node) (r : Nat) : Nat :=
  h.hash ((stringify node ++ Decimal.decimal r).takeWhile (· ≠ 0))

def HashRing.addNode (h : HashRing Node) (node : Node) : HashRing Node × Option Nat :=
  (List.range h.replicas).foldl (fun (h, _) r => ({ h with ring := h.ring.insert (h.point stringify node r) node },
    some (h.point stringify node r))) (h, none)

def HashRing.removeNode (h : HashRing Node) (node : Node) : HashRing Node :=
  (List.range h.replicas).foldl (fun h r => { h with ring := h.ring.erase (h.point stringify node r) }) h

def HashRing.getNode (h : HashRing Node) (key : List UInt8) : Option Node :=
  (lowerBound h.ring (h.hash (key.takeWhile (· ≠ 0)))).bind fun it => h.ring.lookup it

inductive Op (Node : Type) where
  | addNode (node : Node)
  | removeNode (node : Node)

def step (h : HashRing Node) : Op Node → HashRing Node
  | .addNode node => (h.addNode stringify node).1
  | .removeNode node => h.removeNode stringify node

def run (replicas : Nat) (hash : List UInt8 → Nat) (ops : List (Op Node)) : HashRing Node :=
  ops.foldl (step stringify) ⟨∅, replicas, hash⟩

def HashRing.points (h : HashRing Node) (node : Node) : List Nat := (List.range h.replicas).map (h.point stringify node)

/-- A point that RemoveNode erases belongs to the node, or the next point that is left belongs to
the node of the erased one. -/
def HashRing.OwnPoints (h : HashRing Node) (node : Node) : Prop :=
  ∀ p ∈ h.points stringify node, ∀ other, h.ring.lookup p = some other → other ≠ node →
    ∃ q, q ∉ h.points stringify node ∧ h.ring.lookup q = some other ∧
      ∀ q', q' ∉ h.points stringify node → q' ∈ h.ring → Before p q q'

end Cplusplus.Consistent
