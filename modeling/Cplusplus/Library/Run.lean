/-! Runs of a partial step function. A step that has no result is a fault of the
program; a run is allowed when every step meets a condition on the state before it. -/

namespace Cplusplus.Run

variable {σ α ρ μ : Type}
variable {step : σ → α → Option (σ × ρ)} {guard : σ → α → Prop} {state : σ}

/-- The state and the results after a list of actions, unless a step faults. -/
def exec (step : σ → α → Option (σ × ρ)) : σ → List α → Option (σ × List ρ)
  | state, [] => some (state, [])
  | state, action :: actions =>
    (step state action).bind fun after =>
      (exec step after.1 actions).map fun last => (last.1, after.2 :: last.2)

def Allowed (step : σ → α → Option (σ × ρ)) (guard : σ → α → Prop) : σ → List α → Prop
  | _, [] => True
  | state, action :: actions =>
    guard state action ∧ ∀ after, step state action = some after → Allowed step guard after.1 actions

def specExec (spec : μ → α → μ × ρ) : μ → List α → μ × List ρ
  | model, [] => (model, [])
  | model, action :: actions =>
    let after := spec model action
    let last := specExec spec after.1 actions
    (last.1, after.2 :: last.2)

/-- Forward simulation: if each allowed step has the result of the specification
and keeps the representation, then so does every allowed run. -/
theorem exec_refines {spec : μ → α → μ × ρ}
    {rep : σ → μ → Prop}
    (simulates : ∀ state model action, rep state model → guard state action →
      ∃ after, step state action = some (after, (spec model action).2) ∧ rep after (spec model action).1)
    (actions : List α) {model : μ} (related : rep state model)
    (allowed : Allowed step guard state actions) :
    ∃ last, exec step state actions = some (last, (specExec spec model actions).2) ∧ rep last (specExec spec model actions).1 := by
  induction actions generalizing state model with
  | nil => exact ⟨state, rfl, related⟩
  | cons action actions ih =>
    obtain ⟨after, taken, kept⟩ := simulates state model action related allowed.1
    obtain ⟨last, rest, final⟩ := ih kept (allowed.2 _ taken)
    exact ⟨last, by simp [exec, taken, rest, specExec], final⟩

/-- An invariant under which allowed steps have results: allowed runs do not fault,
and they keep the invariant. -/
theorem exec_total {invariant : σ → Prop}
    (progress : ∀ state action, invariant state → guard state action → ∃ after, step state action = some after ∧ invariant after.1)
    (actions : List α) (holds : invariant state) (allowed : Allowed step guard state actions) :
    ∃ last results, exec step state actions = some (last, results) ∧ invariant last := by
  induction actions generalizing state with
  | nil => exact ⟨state, [], rfl, holds⟩
  | cons action actions ih =>
    obtain ⟨after, taken, kept⟩ := progress state action holds allowed.1
    obtain ⟨last, results, rest, final⟩ := ih kept (allowed.2 after taken)
    exact ⟨last, after.2 :: results, by simp [exec, taken, rest], final⟩

section
variable (step)

theorem exec_append (first second : List α) (state : σ) : exec step state (first ++ second) = (exec step state first).bind fun middle =>
        (exec step middle.1 second).map fun last => (last.1, middle.2 ++ last.2) := by
  induction first generalizing state with
  | nil => simp [exec]
  | cons action first ih =>
    simp only [List.cons_append, exec]
    cases step state action with
    | none => rfl
    | some after =>
      simp only [Option.bind_some, ih]
      cases exec step after.1 first with
      | none => rfl
      | some middle => simp [Function.comp_def]

theorem exec_map {β : Type} (f : β → α) (actions : List β) (state : σ) :
    exec step state (actions.map f) = exec (fun state action => step state (f action)) state actions := by
  induction actions generalizing state with
  | nil => rfl
  | cons action actions ih => simp only [List.map_cons, exec, ih]

end

instance Allowed.decidable {step : σ → α → Option (σ × ρ)} {guard : σ → α → Prop}
    [∀ state action, Decidable (guard state action)] :
    (state : σ) → (actions : List α) → Decidable (Allowed step guard state actions)
  | _, [] => .isTrue trivial
  | state, action :: actions =>
    match taken : step state action with
    | none => decidable_of_iff (guard state action) (by simp [Allowed, taken])
    | some after =>
      have : Decidable (Allowed step guard after.1 actions) := Allowed.decidable after.1 actions
      decidable_of_iff (guard state action ∧ Allowed step guard after.1 actions) (by simp [Allowed, taken])

theorem Allowed.mono {weaker : σ → α → Prop} (implies : ∀ state action, guard state action → weaker state action)
    {actions : List α} (allowed : Allowed step guard state actions) : Allowed step weaker state actions := by
  induction actions generalizing state with
  | nil => trivial
  | cons action actions ih => exact ⟨implies _ _ allowed.1, fun after taken => ih (allowed.2 after taken)⟩

theorem Allowed.and {left right : σ → α → Prop} {actions : List α} (first : Allowed step left state actions)
    (second : Allowed step right state actions) :
    Allowed step (fun state action => left state action ∧ right state action) state actions := by
  induction actions generalizing state with
  | nil => trivial
  | cons action actions ih =>
    exact ⟨⟨first.1, second.1⟩, fun after taken => ih (first.2 after taken) (second.2 after taken)⟩

/-- Along an allowed run, whatever the invariant says of a step holds of every step. -/
theorem Allowed.of_progress {conclusion : σ → α → Prop} {invariant : σ → Prop}
    (progress : ∀ state action, invariant state → guard state action → ∃ after, step state action = some after ∧ invariant after.1)
    (meets : ∀ state action, invariant state → guard state action → conclusion state action) (actions : List α) (holds : invariant state)
    (allowed : Allowed step guard state actions) : Allowed step conclusion state actions := by
  induction actions generalizing state with
  | nil => trivial
  | cons action actions ih =>
    refine ⟨meets state action holds allowed.1, fun after taken => ?_⟩
    obtain ⟨next, same, kept⟩ := progress state action holds allowed.1
    rw [taken] at same
    cases same
    exact ih kept (allowed.2 after taken)

theorem Allowed.always (actions : List α) (state : σ) : Allowed step (fun _ _ => True) state actions := by
  induction actions generalizing state with
  | nil => trivial
  | cons action actions ih => exact ⟨trivial, fun after _ => ih after.1⟩

def Meets (step : σ → α → σ) (condition : σ → α → Prop) : σ → List α → Prop
  | _, [] => True
  | state, event :: events => condition state event ∧ Meets step condition (step state event) events

theorem Meets.invariant {step : σ → α → σ} {condition : σ → α → Prop} {invariant : σ → Prop}
    (preserves : ∀ state event, invariant state → condition state event → invariant (step state event)) {events : List α}
    (holds : invariant state) (meets : Meets step condition state events) : invariant (events.foldl step state) := by
  induction events generalizing state with
  | nil => exact holds
  | cons event events ih => exact ih (preserves state event holds meets.1) meets.2

/-- Where a step keeps a property exactly under the condition, the property holds in all the states
of a run exactly when all its steps meet the condition. -/
theorem meets_iff_reached {step : σ → α → σ} {condition : σ → α → Prop} {invariant property : σ → Prop}
    (preserves : ∀ state event, invariant state → condition state event → invariant (step state event))
    (exact : ∀ state event, invariant state → (condition state event ↔ property (step state event))) (events : List α)
    (holds : invariant state) (start : property state) :
    Meets step condition state events ↔ ∀ before after, events = before ++ after → property (before.foldl step state) := by
  induction events generalizing state with
  | nil =>
    refine ⟨fun _ before after same => ?_, fun _ => trivial⟩
    obtain ⟨rfl, rfl⟩ := List.nil_eq_append_iff.1 same
    exact start
  | cons event events ih =>
    constructor
    · rintro ⟨first, rest⟩ before after same
      cases before with
      | nil => exact start
      | cons head before =>
        obtain ⟨rfl, tail⟩ := List.cons.inj same
        exact (ih (preserves state event holds first) ((exact state event holds).1 first)).1 rest before after tail
    · intro reached
      have good := reached [event] events rfl
      have first := (exact state event holds).2 good
      refine ⟨first, (ih (preserves state event holds first) good).2 fun before after same => ?_⟩
      exact reached (event :: before) after (congrArg (event :: ·) same)

/-- An invariant under which every step has a result: runs have results, and keep the invariant. -/
theorem foldlM_total {step : σ → α → Option σ} {invariant : σ → Prop}
    (progress : ∀ state event, invariant state → ∃ after, step state event = some after ∧ invariant after) (events : List α)
    (holds : invariant state) : ∃ last, events.foldlM step state = some last ∧ invariant last := by
  induction events generalizing state with
  | nil => exact ⟨state, rfl, holds⟩
  | cons event events ih =>
    obtain ⟨after, taken, kept⟩ := progress state event holds
    obtain ⟨last, rest, final⟩ := ih kept
    refine ⟨last, ?_, final⟩
    rw [List.foldlM_cons, taken]
    exact rest

end Cplusplus.Run
