import Mathlib.Data.List.DropRight
import Mathlib.Algebra.Order.Ring.Nat

/-! Links that skip. The elements of a list have heights; at level `i` every element
that is higher than `i` is linked to the next one that is, or to the end. -/

namespace Cplusplus.SkipLinks

open List

variable {α : Type} (height : α → Nat)
variable {e : α} {A gap rest : List α}

def link (i : Nat) : List α → Option α × Nat
  | [] => (none, 0)
  | e :: rest => if i < height e then (some e, 1) else ((link i rest).1, (link i rest).2 + 1)

def Low (i : Nat) (gap : List α) : Prop := ∀ e ∈ gap, height e ≤ i

def Stops (i : Nat) (before : List α) : Prop := ∀ e ∈ before.getLast?, i < height e

def reach (i : Nat) (before : List α) : List α := before.rdropWhile fun e => height e ≤ i

variable {height} {i : Nat}

@[simp] theorem stops_nil : Stops height i [] := by simp [Stops]

@[simp] theorem stops_concat {init : List α} : Stops height i (init ++ [e]) ↔ i < height e := by
  simp [Stops]

theorem stops_append (X : List α) (nonempty : A ≠ []) : Stops height i (X ++ A) ↔ Stops height i A := by
  obtain ⟨init, e, rfl⟩ : ∃ init e, A = init ++ [e] := ⟨_, _, (dropLast_concat_getLast nonempty).symm⟩
  rw [← append_assoc, stops_concat, stops_concat]

theorem low_nil : Low height i [] := by simp [Low]

theorem low_append : Low height i (gap ++ rest) ↔ Low height i gap ∧ Low height i rest := by
  simp only [Low, mem_append, or_imp, forall_and]

theorem low_cons : Low height i (e :: rest) ↔ height e ≤ i ∧ Low height i rest := by
  simp [Low]

theorem link_low (low : Low height i gap) (rest : List α) :
    link height i (gap ++ rest) = ((link height i rest).1, gap.length + (link height i rest).2) := by
  induction gap with
  | nil => simp
  | cons e gap ih =>
    obtain ⟨short, low⟩ := low_cons.mp low
    rw [cons_append, link, if_neg (Nat.not_lt.mpr short), ih low, length_cons]
    simp only [Prod.mk.injEq, true_and]
    omega

theorem link_end (low : Low height i gap) : link height i gap = (none, gap.length) := by
  have all := link_low low []
  rwa [append_nil] at all

theorem link_found (low : Low height i gap) (high : i < height e) (rest : List α) :
    link height i (gap ++ e :: rest) = (some e, gap.length + 1) := by
  rw [link_low low, link, if_pos high]

variable (height) in
theorem low_or_split (i : Nat) (rest : List α) :
    Low height i rest ∨ ∃ gap e post, rest = gap ++ e :: post ∧ Low height i gap ∧ i < height e := by
  induction rest with
  | nil => exact .inl low_nil
  | cons e rest ih =>
    rcases Nat.lt_or_ge i (height e) with high | short
    · exact .inr ⟨[], e, rest, rfl, low_nil, high⟩
    · rcases ih with low | ⟨gap, f, post, rfl, low, high⟩
      · exact .inl (low_cons.mpr ⟨short, low⟩)
      · exact .inr ⟨e :: gap, f, post, rfl, low_cons.mpr ⟨short, low⟩, high⟩

/-- What a list links to is not changed by what follows the element that is found. -/
theorem link_inside {C : List α} (high : ¬ Low height i C) (rest rest' : List α) : link height i (C ++ rest) = link height i (C ++ rest') := by
  rcases low_or_split height i C with low | ⟨gap, e, post, rfl, low, above⟩
  · exact absurd low high
  · rw [append_assoc, append_assoc, cons_append, cons_append, link_found low above,
      link_found low above]

theorem link_mem (found : (link height i rest).1 = some e) : e ∈ rest := by
  rcases low_or_split height i rest with low | ⟨gap, f, post, rfl, low, high⟩
  · rw [link_end low] at found
    cases found
  · rw [link_found low high] at found
    cases found
    simp

theorem link_none_iff : (link height i rest).1 = none ↔ Low height i rest := by
  rcases low_or_split height i rest with low | ⟨gap, e, post, rfl, low, high⟩
  · rw [link_end low]
    exact iff_of_true rfl low
  · rw [link_found low high, low_append, low_cons]
    exact iff_of_false (Option.some_ne_none e) fun all => Nat.not_le.mpr high all.2.1

theorem reach_concat (before : List α) (e : α) :
    reach height i (before ++ [e]) = if height e ≤ i then reach height i before else before ++ [e] := by
  simp only [reach, rdropWhile_concat, decide_eq_true_eq]

variable (height) in
theorem reach_spec (i : Nat) (before : List α) :
    ∃ gap, before = reach height i before ++ gap ∧ Low height i gap ∧ Stops height i (reach height i before) := by
  induction before using List.reverseRecOn with
  | nil => exact ⟨[], rfl, low_nil, by simp [reach]⟩
  | append_singleton before e ih =>
    obtain ⟨gap, split, low, stops⟩ := ih
    rw [reach_concat]
    split
    next short =>
      refine ⟨gap ++ [e], ?_, ?_, stops⟩
      · rw [← append_assoc, ← split]
      · exact low_append.mpr ⟨low, low_cons.mpr ⟨short, low_nil⟩⟩
    next high =>
      exact ⟨[], by simp, low_nil, stops_concat.mpr (Nat.lt_of_not_le high)⟩

theorem reach_unique (stops : Stops height i A) (low : Low height i gap) : reach height i (A ++ gap) = A := by
  induction gap using List.reverseRecOn with
  | nil =>
    rw [append_nil]
    cases A.eq_nil_or_concat with
    | inl empty => simp [empty, reach]
    | inr more =>
      obtain ⟨init, e, rfl⟩ := more
      rw [concat_eq_append] at stops ⊢
      rw [reach_concat, if_neg (Nat.not_le.mpr (stops_concat.mp stops))]
  | append_singleton gap e ih =>
    obtain ⟨low, short⟩ := low_append.mp low
    rw [← append_assoc, reach_concat, if_pos (low_cons.mp short).1, ih low]

/-- A place on the way to the end is the last one exactly if nothing above the level follows. -/
theorem reach_eq_iff {C : List α} (stops : Stops height i A) : reach height i (A ++ C) = A ↔ Low height i C := by
  refine ⟨fun same => ?_, reach_unique stops⟩
  obtain ⟨gap, split, low, _⟩ := reach_spec height i (A ++ C)
  rw [same] at split
  rwa [append_cancel_left split]

theorem Stops.mono {j : Nat} (stops : Stops height j A) (below : i ≤ j) : Stops height i A :=
  fun e last => Nat.lt_of_le_of_lt below (stops e last)

end Cplusplus.SkipLinks
