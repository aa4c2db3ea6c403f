import Mathlib.Data.List.Count

/-! Voters that vote at most once in a round. What was voted is a function from voters and
rounds, and votes are only added to it. -/

namespace Cplusplus.Ballots

variable {Voter Round Candidate : Type}

def Extends (ballot later : Voter → Round → Option Candidate) : Prop :=
  ∀ voter round candidate, ballot voter round = some candidate → later voter round = some candidate

theorem Extends.update [DecidableEq Voter] {ballot : Voter → Round → Option Candidate} {voter : Voter}
    {votes : Round → Option Candidate} (kept : ∀ round candidate, ballot voter round = some candidate → votes round = some candidate) :
    Extends ballot (Function.update ballot voter votes) := by
  intro other round candidate voted
  by_cases same : other = voter
  · subst same
    rw [Function.update_self]
    exact kept round candidate voted
  · rw [Function.update_of_ne same]
    exact voted

variable [DecidableEq Candidate]

def votesFor (voters : List Voter) (ballot : Voter → Round → Option Candidate) (round : Round) (candidate : Candidate) : Nat :=
  voters.countP fun voter => ballot voter round = some candidate

def Majority (voters : List Voter) (ballot : Voter → Round → Option Candidate) (round : Round) (candidate : Candidate) : Prop :=
  voters.length / 2 + 1 ≤ votesFor voters ballot round candidate

variable {voters : List Voter} {ballot later : Voter → Round → Option Candidate} {round : Round} {left right : Candidate}

theorem votesFor_mono (extended : Extends ballot later) (voters : List Voter) (round : Round) (candidate : Candidate) :
    votesFor voters ballot round candidate ≤ votesFor voters later round candidate := by
  apply List.countP_mono_left
  intro voter _ voted
  simp only [decide_eq_true_eq] at voted ⊢
  exact extended voter round candidate voted

theorem Majority.mono (extended : Extends ballot later) (majority : Majority voters ballot round left) : Majority voters later round left :=
  Nat.le_trans majority (votesFor_mono extended voters round left)

theorem votesFor_disjoint (different : left ≠ right) (voters : List Voter) (ballot : Voter → Round → Option Candidate)
    (round : Round) : votesFor voters ballot round left + votesFor voters ballot round right ≤ voters.length := by
  induction voters with
  | nil => exact Nat.le_refl 0
  | cons voter voters ih =>
    simp only [votesFor, List.countP_cons, List.length_cons, decide_eq_true_eq] at ih ⊢
    have once : ¬(ballot voter round = some left ∧ ballot voter round = some right) := by
      rintro ⟨first, second⟩
      exact different (Option.some.inj (first.symm.trans second))
    split <;> split <;> first | omega | exact absurd ⟨‹_›, ‹_›⟩ once

/-- Two majorities of one round share a voter, so they are for the same candidate. -/
theorem majority_unique (first : Majority voters ballot round left) (second : Majority voters ballot round right) : left = right := by
  apply Decidable.byContradiction
  intro different
  have disjoint := votesFor_disjoint different voters ballot round
  simp only [Majority] at first second
  omega

end Cplusplus.Ballots
