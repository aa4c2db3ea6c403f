import Mathlib.Data.List.Basic

/-! Patterns of symbol classes and stars over any alphabet, and the sequences they match. -/

namespace Cplusplus.Wildcards

inductive Token (α : Type) where
  | one (accepts : α → Bool)
  | star

variable {α : Type} {tokens : List (Token α)} {symbols : List α} {accepts : α → Bool} {c : α}

def Matches : List (Token α) → List α → Prop
  | [], symbols => symbols = []
  | .one accepts :: tokens, symbols => ∃ c rest, symbols = c :: rest ∧ accepts c = true ∧ Matches tokens rest
  | .star :: tokens, symbols => ∃ front back, symbols = front ++ back ∧ Matches tokens back

theorem matches_one : Matches (.one accepts :: tokens) (c :: symbols) ↔ accepts c = true ∧ Matches tokens symbols := by
  constructor
  · rintro ⟨c', rest, same, accepted, onward⟩
    obtain ⟨rfl, rfl⟩ := List.cons.inj same
    exact ⟨accepted, onward⟩
  · rintro ⟨accepted, onward⟩
    exact ⟨c, symbols, rfl, accepted, onward⟩

theorem not_matches_one_nil : ¬ Matches (.one accepts :: tokens) [] := by
  rintro ⟨c, rest, same, -⟩
  cases same

theorem matches_star_nil : Matches (.star :: tokens) ([] : List α) ↔ Matches tokens [] := by
  constructor
  · rintro ⟨front, back, same, onward⟩
    obtain ⟨-, rfl⟩ := List.append_eq_nil_iff.mp same.symm
    exact onward
  · exact fun onward => ⟨[], [], rfl, onward⟩

theorem matches_star_cons : Matches (.star :: tokens) (c :: symbols) ↔ Matches tokens (c :: symbols) ∨ Matches (.star :: tokens) symbols := by
  constructor
  · rintro ⟨front, back, same, onward⟩
    cases front with
    | nil => exact .inl (same ▸ onward)
    | cons first front =>
      obtain ⟨-, rfl⟩ := List.cons.inj same
      exact .inr ⟨front, back, rfl, onward⟩
  · rintro (onward | ⟨front, back, rfl, onward⟩)
    · exact ⟨[], _, rfl, onward⟩
    · exact ⟨c :: front, back, rfl, onward⟩

theorem matches_star_star : Matches (.star :: .star :: tokens) symbols ↔ Matches (.star :: tokens) symbols := by
  constructor
  · rintro ⟨front, back, rfl, front', back', rfl, onward⟩
    exact ⟨front ++ front', back', (List.append_assoc ..).symm, onward⟩
  · exact fun onward => ⟨[], symbols, rfl, onward⟩

theorem matches_star_end (symbols : List α) : Matches [.star] symbols := ⟨symbols, [], (List.append_nil _).symm, rfl⟩

theorem matches_append {front back : List (Token α)} :
    Matches (front ++ back) symbols ↔ ∃ first last, symbols = first ++ last ∧ Matches front first ∧ Matches back last := by
  induction front generalizing symbols with
  | nil =>
    constructor
    · exact fun onward => ⟨[], symbols, rfl, rfl, onward⟩
    · rintro ⟨first, last, rfl, rfl, onward⟩
      exact onward
  | cons t front ih =>
    cases t with
    | one accepts =>
      constructor
      · rintro ⟨c, rest, rfl, accepted, onward⟩
        obtain ⟨first, last, rfl, before, after⟩ := ih.mp onward
        exact ⟨c :: first, last, rfl, ⟨c, first, rfl, accepted, before⟩, after⟩
      · rintro ⟨_, last, rfl, ⟨c, first, rfl, accepted, before⟩, after⟩
        exact ⟨c, first ++ last, rfl, accepted, ih.mpr ⟨first, last, rfl, before, after⟩⟩
    | star =>
      constructor
      · rintro ⟨skipped, rest, rfl, onward⟩
        obtain ⟨first, last, rfl, before, after⟩ := ih.mp onward
        exact ⟨skipped ++ first, last, (List.append_assoc ..).symm, ⟨skipped, first, rfl, before⟩, after⟩
      · rintro ⟨_, last, rfl, ⟨skipped, first, rfl, before⟩, after⟩
        exact ⟨skipped, first ++ last, List.append_assoc .., ih.mpr ⟨first, last, rfl, before, after⟩⟩

/-- The tokens match a beginning of the sequence, and something is left of it. -/
def Leaves (tokens : List (Token α)) (symbols : List α) : Prop :=
  ∃ front back, symbols = front ++ back ∧ back ≠ [] ∧ Matches tokens front

theorem leaves_nil : Leaves [] symbols ↔ symbols ≠ [] := by
  constructor
  · rintro ⟨front, back, rfl, left, rfl⟩
    exact left
  · exact fun left => ⟨[], symbols, rfl, left, rfl⟩

theorem not_leaves_of_nil : ¬ Leaves tokens [] := by
  rintro ⟨front, back, same, left, -⟩
  exact left (List.append_eq_nil_iff.mp same.symm).2

theorem leaves_one : Leaves (.one accepts :: tokens) (c :: symbols) ↔ accepts c = true ∧ Leaves tokens symbols := by
  constructor
  · rintro ⟨front, back, same, left, c', rest, rfl, accepted, onward⟩
    obtain ⟨rfl, rfl⟩ := List.cons.inj same
    exact ⟨accepted, rest, back, rfl, left, onward⟩
  · rintro ⟨accepted, front, back, rfl, left, onward⟩
    exact ⟨c :: front, back, rfl, left, matches_one.mpr ⟨accepted, onward⟩⟩

theorem leaves_star_cons : Leaves (.star :: tokens) (c :: symbols) ↔ Leaves tokens (c :: symbols) ∨ Leaves (.star :: tokens) symbols := by
  constructor
  · rintro ⟨front, back, same, left, skipped, matched, rfl, onward⟩
    cases skipped with
    | nil => exact .inl ⟨matched, back, same, left, onward⟩
    | cons first skipped =>
      obtain ⟨-, rfl⟩ := List.cons.inj same
      exact .inr ⟨skipped ++ matched, back, rfl, left, skipped, matched, rfl, onward⟩
  · rintro (⟨front, back, same, left, onward⟩ | ⟨front, back, rfl, left, onward⟩)
    · exact ⟨front, back, same, left, [], front, rfl, onward⟩
    · refine ⟨c :: front, back, rfl, left, ?_⟩
      exact matches_star_cons.mpr (.inr onward)

end Cplusplus.Wildcards
