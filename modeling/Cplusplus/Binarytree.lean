import Mathlib.Data.Tree.Basic
import Mathlib.Logic.Function.Basic
import Mathlib.Order.Lattice

/-! `binarytree.h`: a node is the number of its memory, and NULL is none. An access where no node is,
or a walk without an end, has no result. -/

namespace Cplusplus.Binarytree

abbrev Shape (T : Type) := BinaryTree T

structure TreeNode (T : Type) where
  data : T
  lchild : Option Nat
  rchild : Option Nat

abbrev Memory (T : Type) := Nat → Option (TreeNode T)

/-- `count` nodes were made, and none is given back. -/
structure BinaryTree (T : Type) where
  root : Option Nat
  memory : Memory T
  count : Nat

variable {T : Type}

def BinaryTree.empty : BinaryTree T := ⟨none, fun _ => none, 0⟩

section
variable [LinearOrder T] (x : T) (node : Nat)

def forward (p : TreeNode T) : Option Nat := if p.data > x then p.lchild else p.rchild

def relink (back : TreeNode T) : TreeNode T :=
  if back.data > x then { back with lchild := some node } else { back with rchild := some node }

def addLoop : Nat → Memory T → Option Nat → Option (Memory T)
  | _, memory, none => some memory
  | 0, _, some _ => none
  | fuel + 1, memory, some p =>
    (memory p).bind fun back => addLoop fuel (Function.update memory p (some (relink x node back))) (forward x back)

end

def addNode [LinearOrder T] (t : BinaryTree T) (x : T) : Option (BinaryTree T) :=
  let memory := Function.update t.memory t.count (some ⟨x, none, none⟩)
  match t.root with
  | none => some ⟨some t.count, memory, t.count + 1⟩
  | some root => (addLoop x t.count (t.count + 1) memory (some root)).map fun memory => ⟨some root, memory, t.count + 1⟩

def preOrderFrom (memory : Memory T) : Nat → Option Nat → Option (List T)
  | _, none => some []
  | 0, some _ => none
  | fuel + 1, some p =>
    (memory p).bind fun node =>
      (preOrderFrom memory fuel node.lchild).bind fun left =>
        (preOrderFrom memory fuel node.rchild).map fun right => node.data :: left ++ right

def preOrder (t : BinaryTree T) : Option (List T) := preOrderFrom t.memory (t.count + 1) t.root

def build [LinearOrder T] (values : List T) : Option (BinaryTree T) := values.foldlM addNode .empty

inductive Holds (memory : Memory T) : Option Nat → Shape T → Prop
  | nil : Holds memory none .nil
  | node {p : Nat} {n : TreeNode T} {left right : Shape T} : memory p = some n → Holds memory n.lchild left →
      Holds memory n.rchild right → Holds memory (some p) (.node n.data left right)

def values : Shape T → List T
  | .nil => []
  | .node value left right => value :: values left ++ values right

def Ordered [LinearOrder T] : Shape T → Prop
  | .nil => True
  | .node value left right =>
    (∀ v ∈ values left, v < value) ∧ (∀ v ∈ values right, ¬ v < value) ∧ Ordered left ∧ Ordered right

def Searchable [LinearOrder T] (t : BinaryTree T) (inserted : List T) : Prop :=
  ∃ tree, Holds t.memory t.root tree ∧ preOrder t = some (values tree) ∧ (values tree).Perm inserted ∧ Ordered tree

def OneEachSide [LinearOrder T] : List T → Prop
  | [] => True
  | first :: rest => (rest.filter (· < first)).length ≤ 1 ∧ (rest.filter fun v => ¬ v < first).length ≤ 1

end Cplusplus.Binarytree
