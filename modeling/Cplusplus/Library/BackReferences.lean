import Mathlib.Data.List.Basic

/-! Sequences that are stored as pieces: new items, and copies of items some distance back, which
may reach into themselves. -/

namespace Cplusplus.BackReferences

open List

variable {α : Type}

inductive Piece (α : Type) where
  | literal (items : List α)
  | copy (distance count : Nat)

def copyBack (distance : Nat) : Nat → List α → Option (List α)
  | 0, done => some done
  | count + 1, done =>
    if 1 ≤ distance ∧ distance ≤ done.length then
      done[done.length - distance]?.bind fun item => copyBack distance count (done ++ [item])
    else none

def Piece.extend (done : List α) : Piece α → Option (List α)
  | .literal items => some (done ++ items)
  | .copy distance count => copyBack distance count done

def expand (pieces : List (Piece α)) : Option (List α) := pieces.foldlM Piece.extend []

theorem expand_concat {pieces : List (Piece α)} {done : List α} (expands : expand pieces = some done) (piece : Piece α) :
    expand (pieces ++ [piece]) = piece.extend done := by
  rw [expand, foldlM_append, ← expand, expands, Option.bind_eq_bind, Option.bind_some, foldlM_cons]
  exact bind_pure (piece.extend done)

/-- A copy of what really comes next continues the sequence. -/
theorem copyBack_take {whole : List α} {distance : Nat} (back : 1 ≤ distance) (count : Nat) :
    ∀ {start : Nat}, distance ≤ start → start + count ≤ whole.length → (∀ k < count, whole[start - distance + k]? = whole[start + k]?) →
      copyBack distance count (whole.take start) = some (whole.take (start + count)) := by
  induction count with
  | zero => exact fun _ _ _ => rfl
  | succ count ih =>
    intro start far inside same
    have length : (whole.take start).length = start := by
      rw [length_take]
      omega
    have item : (whole.take start)[start - distance]? = some whole[start] := by
      rw [getElem?_take_of_lt (by omega), ← Nat.add_zero (start - distance), same 0 (Nat.succ_pos count), Nat.add_zero, getElem?_eq_getElem]
    rw [copyBack, length, if_pos ⟨back, far⟩, item, Option.bind_some, take_append_getElem,
      ih (by omega) (by omega) fun k less => ?_, Nat.add_right_comm, Nat.add_assoc]
    have later := same (k + 1) (by omega)
    rwa [show start + 1 - distance + k = start - distance + (k + 1) by omega, Nat.add_right_comm start 1 k]

theorem copyBack_length {distance count : Nat} {done after : List α} (copied : copyBack distance count done = some after) :
    after.length = done.length + count := by
  induction count generalizing done with
  | zero =>
    cases copied
    rfl
  | succ count ih =>
    rw [copyBack] at copied
    split at copied
    · obtain ⟨item, _, rest⟩ := Option.bind_eq_some_iff.mp copied
      rw [ih rest, length_append, length_singleton]
      omega
    · cases copied

theorem foldlM_extend_length {pieces : List (Piece α)} {done after : List α} (extends_ : pieces.foldlM Piece.extend done = some after) :
    done.length ≤ after.length := by
  induction pieces generalizing done with
  | nil =>
    cases extends_
    exact Nat.le_refl _
  | cons piece pieces ih =>
    rw [foldlM_cons] at extends_
    obtain ⟨middle, first, rest⟩ := Option.bind_eq_some_iff.mp extends_
    apply Nat.le_trans _ (ih rest)
    cases piece with
    | literal items =>
      cases first
      rw [length_append]
      omega
    | copy distance count => exact (copyBack_length first).symm ▸ Nat.le_add_right done.length count

end Cplusplus.BackReferences
