/-! What holds of a computation that may stop with a fault: its result, if it has one, meets a
postcondition, and a fault that it stops with is an allowed one. -/

namespace Cplusplus.Faults

open List

variable {ε α β : Type}

def Yields (allowed : ε → Prop) (post : α → Prop) : Except ε α → Prop
  | .ok result => post result
  | .error fault => allowed fault

variable {allowed : ε → Prop} {post : α → Prop}

@[simp] theorem yields_ok (result : α) : Yields allowed post (.ok result) ↔ post result := Iff.rfl

theorem Yields.result {x : Except ε α} (yields : Yields allowed post x) {result : α} (same : x = .ok result) : post result := by
  subst same
  exact yields

theorem Yields.fault {x : Except ε α} (yields : Yields allowed post x) {fault : ε} (same : x = .error fault) : allowed fault := by
  subst same
  exact yields

theorem Yields.mono {other : α → Prop} {x : Except ε α} (yields : Yields allowed post x) (implies : ∀ result, post result → other result) :
    Yields allowed other x := by
  cases x with
  | ok result => exact implies result yields
  | error fault => exact yields

theorem Yields.and {other : α → Prop} {x : Except ε α} (first : Yields allowed post x) (second : Yields allowed other x) :
    Yields allowed (fun result => post result ∧ other result) x := by
  cases x with
  | ok result => exact ⟨first, second⟩
  | error fault => exact first

theorem Yields.bind {other : β → Prop} {x : Except ε α} {next : α → Except ε β} (first : Yields allowed post x)
    (rest : ∀ result, post result → Yields allowed other (next result)) : Yields allowed other (x >>= next) := by
  cases x with
  | ok result => exact rest result first
  | error fault => exact first

theorem Yields.foldlM {σ : Type} {round : σ → α → Except ε σ} {invariant : σ → Prop} (items : List α)
    (keeps : ∀ item ∈ items, ∀ state, invariant state → Yields allowed invariant (round state item)) {state : σ} (holds : invariant state) :
    Yields allowed invariant (items.foldlM round state) := by
  induction items generalizing state with
  | nil => exact holds
  | cons item items ih =>
    rw [foldlM_cons]
    apply (keeps item mem_cons_self state holds).bind
    exact fun _ kept => ih (fun other member => keeps other (mem_cons_of_mem _ member)) kept

theorem Yields.foldlM_each {σ : Type} {round : σ → α → Except ε σ} {invariant : σ → Prop} {part : α → σ → Prop} (items : List α)
    (does : ∀ item ∈ items, ∀ state, invariant state →
      Yields allowed (fun after => invariant after ∧ part item after ∧ ∀ other, part other state → part other after) (round state item))
    {state : σ} (holds : invariant state) :
    Yields allowed (fun after => invariant after ∧ (∀ item ∈ items, part item after) ∧ ∀ other, part other state → part other after)
      (items.foldlM round state) := by
  induction items generalizing state with
  | nil => exact ⟨holds, fun _ none => absurd none not_mem_nil, fun _ kept => kept⟩
  | cons item items ih =>
    rw [foldlM_cons]
    apply (does item mem_cons_self state holds).bind
    rintro middle ⟨kept, here, before⟩
    apply (ih (fun other member => does other (mem_cons_of_mem _ member)) kept).mono
    rintro last ⟨final, parts, later⟩
    refine ⟨final, fun other member => ?_, fun other part => later other (before other part)⟩
    rcases mem_cons.mp member with rfl | rest
    · exact later _ here
    · exact parts other rest

theorem foldlM_idle {σ : Type} {round : σ → α → Except ε σ} (items : List α) {state : σ} (idle : ∀ item ∈ items, round state item = .ok state) :
    items.foldlM round state = .ok state := by
  induction items with
  | nil => rfl
  | cons item items ih =>
    rw [foldlM_cons, idle item mem_cons_self]
    exact ih fun other member => idle other (mem_cons_of_mem _ member)

def Meets {σ : Type} (step : σ → α → Except ε σ) (condition : σ → α → Prop) : σ → List α → Prop
  | _, [] => True
  | state, event :: events => condition state event ∧ ∀ after, step state event = .ok after → Meets step condition after events

theorem Meets.yields {σ : Type} {step : σ → α → Except ε σ} {condition : σ → α → Prop} {invariant : σ → Prop}
    (keeps : ∀ state event, invariant state → condition state event → Yields allowed invariant (step state event)) {events : List α} {state : σ}
    (holds : invariant state) (meets : Meets step condition state events) : Yields allowed invariant (events.foldlM step state) := by
  induction events generalizing state with
  | nil => exact holds
  | cons event events ih =>
    rw [foldlM_cons]
    have first := keeps state event holds meets.1
    cases taken : step state event with
    | ok after => exact ih (first.result taken) (meets.2 after taken)
    | error fault => exact first.fault taken

theorem Meets.implies {σ : Type} {step : σ → α → Except ε σ} {condition conclusion : σ → α → Prop} {invariant : σ → Prop}
    (keeps : ∀ state event, invariant state → condition state event → Yields allowed invariant (step state event))
    (concludes : ∀ state event, invariant state → condition state event → conclusion state event) {events : List α} {state : σ}
    (holds : invariant state) (meets : Meets step condition state events) : Meets step conclusion state events := by
  induction events generalizing state with
  | nil => trivial
  | cons event events ih =>
    refine ⟨concludes state event holds meets.1, fun after taken => ?_⟩
    exact ih ((keeps state event holds meets.1).result taken) (meets.2 after taken)

end Cplusplus.Faults
