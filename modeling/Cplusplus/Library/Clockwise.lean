import Mathlib.Data.Finmap
import Mathlib.Data.Finset.Max

/-! The points of a finite map as a ring: the order in which they are met going up from a position
and around, and the point that is met first. -/

namespace Cplusplus.Clockwise

variable {α β : Type} [LinearOrder α] {h p q r : α}

def Before (h p q : α) : Prop := h ≤ p ∧ q < h ∨ (h ≤ p ↔ h ≤ q) ∧ p ≤ q

theorem Before.antisymm (first : Before h p q) (second : Before h q p) : p = q := by
  unfold Before at first second
  rcases first with ⟨after, wrapped⟩ | ⟨both, le⟩
  · rcases second with ⟨other, -⟩ | ⟨same, -⟩
    · exact absurd wrapped (not_lt.mpr other)
    · exact absurd wrapped (not_lt.mpr (same.mpr after))
  · rcases second with ⟨other, wrapped⟩ | ⟨-, ge⟩
    · exact absurd wrapped (not_lt.mpr (both.mpr other))
    · exact le_antisymm le ge

/-- What comes after `p` from `h` is met from `h` in the order in which it is met from `p`. -/
theorem Before.rotate (first : Before h p r) (order : Before p q r) : Before h q r := by
  unfold Before at *
  grind

variable {look after : α → Option β}

structure Nearest (look : α → Option β) (h p : α) : Prop where
  present : (look p).isSome = true
  first : ∀ q, (look q).isSome = true → Before h p q

theorem Nearest.unique (one : Nearest look h p) (other : Nearest look h q) : p = q :=
  (one.first q other.present).antisymm (other.first p one.present)

theorem Nearest.fewer (nearest : Nearest look h p) (fewer : ∀ q, (after q).isSome = true → (look q).isSome = true)
    (present : (after p).isSome = true) : Nearest after h p :=
  ⟨present, fun q member => nearest.first q (fewer q member)⟩

theorem Nearest.next (nearest : Nearest look h p) (fewer : ∀ q, (after q).isSome = true → (look q).isSome = true)
    (next : Nearest after p q) : Nearest after h q := by
  refine ⟨next.present, fun r member => ?_⟩
  apply Before.rotate (nearest.first r (fewer r member))
  exact next.first r member

theorem nearest_self (present : (look p).isSome = true) : Nearest look p p := by
  refine ⟨present, fun q _ => ?_⟩
  rcases le_or_gt p q with le | lt
  · exact .inr ⟨⟨fun _ => le, fun _ => le_rfl⟩, le⟩
  · exact .inl ⟨le_rfl, lt⟩

def lowerBound (ring : Finmap fun _ : α => β) (h : α) : Option α :=
  match (ring.keys.filter (h ≤ ·)).min with
  | some p => some p
  | none =>
    match ring.keys.min with
    | some p => some p
    | none => none

theorem lookup_isSome {ring : Finmap fun _ : α => β} {q : α} : (ring.lookup q).isSome = true ↔ q ∈ ring.keys := by
  rw [Finmap.lookup_isSome, Finmap.mem_keys]

theorem lowerBound_nearest (ring : Finmap fun _ : α => β) (h : α) :
    (∀ p, lowerBound ring h = some p ↔ Nearest (ring.lookup ·) h p) ∧ (lowerBound ring h = none ↔ ring.keys = ∅) := by
  have found : ∀ p, lowerBound ring h = some p → Nearest (ring.lookup ·) h p := by
    intro p result
    unfold lowerBound at result
    split at result
    next least bound =>
      cases result
      obtain ⟨present, above⟩ := Finset.mem_filter.mp (Finset.mem_of_min bound)
      refine ⟨lookup_isSome.mpr present, fun q member => ?_⟩
      rcases le_or_gt h q with higher | wrapped
      · have le := Finset.min_le_of_eq (Finset.mem_filter.mpr ⟨lookup_isSome.mp member, higher⟩) bound
        exact .inr ⟨⟨fun _ => higher, fun _ => above⟩, le⟩
      · exact .inl ⟨above, wrapped⟩
    next none =>
      have below : ∀ q ∈ ring.keys, q < h := by
        intro q member
        by_contra higher
        have inside := Finset.mem_filter.mpr ⟨member, not_lt.mp higher⟩
        rw [Finset.min_eq_top.mp none] at inside
        cases inside
      split at result
      next least bound =>
        cases result
        have present := Finset.mem_of_min bound
        refine ⟨lookup_isSome.mpr present, fun q member => ?_⟩
        have other := lookup_isSome.mp member
        refine .inr ⟨⟨fun le => ?_, fun le => ?_⟩, Finset.min_le_of_eq other bound⟩
        · exact absurd (below _ present) (not_lt.mpr le)
        · exact absurd (below _ other) (not_lt.mpr le)
      next => cases result
  have missing : lowerBound ring h = none ↔ ring.keys = ∅ := by
    constructor
    · intro result
      unfold lowerBound at result
      split at result
      next => cases result
      next =>
        split at result
        next => cases result
        next none => exact Finset.min_eq_top.mp none
    · intro empty
      unfold lowerBound
      simp [empty]
  refine ⟨fun p => ⟨found p, fun nearest => ?_⟩, missing⟩
  cases result : lowerBound ring h with
  | none =>
    have inside := lookup_isSome.mp nearest.present
    rw [missing.mp result] at inside
    cases inside
  | some q => rw [(found q result).unique nearest]

end Cplusplus.Clockwise
