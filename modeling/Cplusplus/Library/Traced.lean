/-! Computations with a trace of what they did on the way. -/

namespace Cplusplus

structure Traced (ε α : Type) where
  value : α
  trace : List ε

namespace Traced

variable {ε α β : Type}

instance : Monad (Traced ε) where
  pure value := ⟨value, []⟩
  bind x next := ⟨(next x.value).value, x.trace ++ (next x.value).trace⟩

def note (event : ε) (value : α) : Traced ε α := ⟨value, [event]⟩

def when_ (condition : Bool) (x : Traced ε Unit) : Traced ε Unit := if condition then x else pure ()

def each (items : List α) (body : α → Traced ε Unit) : Traced ε Unit := ⟨(), items.flatMap fun item => (body item).trace⟩

def Every (p : ε → Prop) (x : Traced ε α) : Prop := ∀ event ∈ x.trace, p event

variable {p : ε → Prop}

@[simp] theorem every_pure (value : α) : Every p (pure value : Traced ε α) := by
  intro event member
  cases member

@[simp] theorem every_note (event : ε) (value : α) : Every p (note event value) ↔ p event := by
  simp [Every, note]

@[simp] theorem every_bind (x : Traced ε α) (next : α → Traced ε β) : Every p (x >>= next) ↔ Every p x ∧ Every p (next x.value) := by
  constructor
  · intro every
    exact ⟨fun event member => every event (List.mem_append_left _ member), fun event member => every event (List.mem_append_right _ member)⟩
  · rintro ⟨first, rest⟩ event member
    exact (List.mem_append.1 member).elim (first event) (rest event)

@[simp] theorem every_when (condition : Bool) (x : Traced ε Unit) : Every p (when_ condition x) ↔ (condition = true → Every p x) := by
  cases condition with
  | true => exact ⟨fun every _ => every, fun every => every rfl⟩
  | false => exact ⟨fun _ never => absurd never Bool.false_ne_true, fun _ => every_pure ()⟩

@[simp] theorem every_each (items : List α) (body : α → Traced ε Unit) : Every p (each items body) ↔ ∀ item ∈ items, Every p (body item) := by
  constructor
  · intro every item member event inside
    exact every event (List.mem_flatMap.2 ⟨item, member, inside⟩)
  · intro every event member
    obtain ⟨item, inside, here⟩ := List.mem_flatMap.1 member
    exact every item inside event here

@[simp] theorem value_pure (value : α) : (pure value : Traced ε α).value = value := rfl

@[simp] theorem value_note (event : ε) (value : α) : (note event value).value = value := rfl

@[simp] theorem value_bind (x : Traced ε α) (next : α → Traced ε β) : (x >>= next).value = (next x.value).value := rfl

end Traced

end Cplusplus
