import Mathlib.Data.List.Count

/-! Objects with a count of references, and the owners that hold the references. An object
with a single owner can be changed in place: nobody else sees the change. -/

namespace Cplusplus.References

variable {α : Type}

structure Cell (α : Type) where
  value : α
  refcount : Nat
deriving DecidableEq

/-- An address is a place in the list, and a cell that was freed is none. -/
abbrev Heap (α : Type) := List (Option (Cell α))

def Heap.get (heap : Heap α) (addr : Nat) : Option (Cell α) := heap[addr]?.join

def Heap.alloc (heap : Heap α) (value : α) : Heap α × Nat := (heap ++ [some ⟨value, 1⟩], heap.length)

def Heap.write (heap : Heap α) (addr : Nat) (value : α) : Option (Heap α) :=
  (heap.get addr).map fun cell => heap.set addr (some { cell with value := value })

def Heap.incrRef (heap : Heap α) (addr : Nat) : Option (Heap α) :=
  (heap.get addr).map fun cell => heap.set addr (some { cell with refcount := cell.refcount + 1 })

def Heap.decrRef (heap : Heap α) (addr : Nat) : Option (Heap α) :=
  (heap.get addr).map fun cell =>
    heap.set addr (if cell.refcount ≤ 1 then none else some { cell with refcount := cell.refcount - 1 })

def Counted (heap : Heap α) (owners : List Nat) : Prop :=
  ∀ addr, match heap.get addr with
    | none => owners.count addr = 0
    | some cell => owners.count addr = cell.refcount ∧ 0 < cell.refcount

variable {heap : Heap α} {owners others : List Nat} {a b : Nat} {cell : Cell α} {value : α}

theorem get_set (present : heap.get a = some cell) (new : Option (Cell α)) :
    Heap.get (heap.set a new) b = if b = a then new else heap.get b := by
  have inside : a < heap.length := by
    by_contra outside
    rw [Heap.get, List.getElem?_eq_none (by omega)] at present
    cases present
  unfold Heap.get
  split
  next same =>
    subst b
    simp [List.getElem?_set_self inside]
  next other => rw [List.getElem?_set_ne (Ne.symm other)]

theorem get_alloc : Heap.get (heap.alloc value).1 b = if b = heap.length then some ⟨value, 1⟩ else heap.get b := by
  unfold Heap.get Heap.alloc
  split
  next same =>
    subst b
    simp
  next other =>
    rcases Nat.lt_or_gt_of_ne other with inside | outside
    · rw [List.getElem?_append_left inside]
    · rw [List.getElem?_eq_none (by simp; omega), List.getElem?_eq_none (by omega)]

theorem get_alloc_self : (heap.alloc value).1.get (heap.alloc value).2 = some ⟨value, 1⟩ := by
  rw [get_alloc, Heap.alloc, if_pos rfl]

theorem get_fresh : heap.get heap.length = none := by simp [Heap.get]

namespace Counted

section
variable (counted : Counted heap owners)
include counted

theorem congr (same : ∀ addr, others.count addr = owners.count addr) : Counted heap others := by
  intro addr
  have old := counted addr
  rwa [← same addr] at old

theorem perm (same : owners.Perm others) : Counted heap others := counted.congr fun addr => (same.count_eq addr).symm

theorem present (member : a ∈ owners) : ∃ cell, heap.get a = some cell := by
  have holds := counted a
  cases found : heap.get a with
  | none =>
    rw [found] at holds
    exact absurd (List.count_pos_iff.mpr member) (by omega)
  | some cell => exact ⟨cell, rfl⟩

theorem refcount (found : heap.get a = some cell) : owners.count a = cell.refcount ∧ 0 < cell.refcount := by
  have holds := counted a
  rwa [found] at holds

theorem fresh_unowned : heap.length ∉ owners := by
  intro member
  obtain ⟨cell, found⟩ := counted.present member
  rw [get_fresh] at found
  cases found

theorem alloc (value : α) : Counted (heap.alloc value).1 ((heap.alloc value).2 :: owners) := by
  intro addr
  have holds := counted addr
  by_cases same : addr = heap.length
  · subst addr
    rw [get_fresh] at holds
    rw [get_alloc, if_pos rfl, Heap.alloc, List.count_cons_self, holds]
    exact ⟨rfl, Nat.one_pos⟩
  · rw [get_alloc, if_neg same, Heap.alloc, List.count_cons_of_ne (Ne.symm same)]
    exact holds

end

def Same (heap after : Heap α) (owners : List Nat) : Prop :=
  ∀ addr ∈ owners, (after.get addr).map Cell.value = (heap.get addr).map Cell.value

theorem same_alloc (counted : Counted heap owners) (value : α) : Same heap (heap.alloc value).1 owners := by
  intro addr member
  rw [get_alloc, if_neg]
  rintro rfl
  exact counted.fresh_unowned member

theorem incrRef (counted : Counted heap owners) (member : a ∈ owners) :
    ∃ after, heap.incrRef a = some after ∧ Counted after (a :: owners) ∧ Same heap after owners := by
  obtain ⟨cell, found⟩ := counted.present member
  refine ⟨_, by rw [Heap.incrRef, found, Option.map_some], ?_, ?_⟩
  · intro addr
    by_cases same : addr = a
    · subst addr
      have counts := counted.refcount found
      rw [get_set found, if_pos rfl, List.count_cons_self, counts.1]
      exact ⟨rfl, Nat.succ_pos _⟩
    · rw [get_set found, if_neg same, List.count_cons_of_ne (Ne.symm same)]
      exact counted addr
  · intro addr _
    rw [get_set found]
    split
    next same =>
      subst addr
      rw [found]
      rfl
    next => rfl

section
variable (counted : Counted heap (a :: owners))
include counted

/-- Giving up a reference is safe for the others, whether it was the last one or not. -/
theorem decrRef : ∃ after, heap.decrRef a = some after ∧ Counted after owners ∧ Same heap after owners := by
  obtain ⟨cell, found⟩ := counted.present List.mem_cons_self
  have counts := counted.refcount found
  rw [List.count_cons_self] at counts
  refine ⟨_, by rw [Heap.decrRef, found, Option.map_some], ?_, ?_⟩
  · intro addr
    by_cases same : addr = a
    · subst addr
      rw [get_set found, if_pos rfl]
      by_cases last : cell.refcount ≤ 1
      · rw [if_pos last]
        show owners.count a = 0
        omega
      · rw [if_neg last]
        show owners.count a = cell.refcount - 1 ∧ 0 < cell.refcount - 1
        omega
    · rw [get_set found, if_neg same]
      have holds := counted addr
      rwa [List.count_cons_of_ne (Ne.symm same)] at holds
  · intro addr member
    rw [get_set found]
    split
    next same =>
      subst addr
      have positive := List.count_pos_iff.mpr member
      rw [if_neg (by omega), found]
      rfl
    next => rfl

/-- The only owner of an object changes it, and the other owners see what they saw. -/
theorem write (sole : a ∉ owners) (value : α) :
    ∃ after, heap.write a value = some after ∧ Counted after (a :: owners) ∧ Same heap after owners ∧
      (after.get a).map Cell.value = some value := by
  obtain ⟨cell, found⟩ := counted.present List.mem_cons_self
  refine ⟨_, by rw [Heap.write, found, Option.map_some], ?_, ?_, by rw [get_set found, if_pos rfl]; rfl⟩
  · intro addr
    have holds := counted addr
    by_cases same : addr = a
    · subst addr
      rw [get_set found, if_pos rfl]
      rwa [found] at holds
    · rw [get_set found, if_neg same]
      exact holds
  · intro addr member
    rw [get_set found, if_neg]
    rintro rfl
    exact sole member

theorem unique (found : heap.get a = some cell) (one : cell.refcount ≤ 1) : a ∉ owners := by
  have counts := counted.refcount found
  rw [List.count_cons_self] at counts
  rw [← List.count_eq_zero]
  omega

end

end Counted

end Cplusplus.References
