/-! A sequence that arrives in blocks of any size, and reading it item by item through a buffer. -/

namespace Cplusplus.Buffered

variable {α : Type}

/-- A way to cut a sequence into blocks. No block is empty, and none is longer than the limit. -/
structure Split (limit : Nat) (whole : List α) where
  blocks : List (List α)
  flatten : blocks.flatten = whole
  nonempty : ∀ block ∈ blocks, block ≠ []
  short : ∀ block ∈ blocks, block.length ≤ limit

/-- What is left of the block that was read last, and the blocks after it. -/
structure Reader (α : Type) where
  buffer : List α
  blocks : List (List α)
  nonempty : ∀ block ∈ blocks, block ≠ []

def Split.reader {limit : Nat} {whole : List α} (split : Split limit whole) : Reader α :=
  ⟨[], split.blocks, split.nonempty⟩

/-- The next item. There is none at the end of the sequence. -/
def Reader.next : Reader α → Option (α × Reader α)
  | ⟨item :: buffer, blocks, nonempty⟩ => some (item, ⟨buffer, blocks, nonempty⟩)
  | ⟨[], (item :: buffer) :: blocks, nonempty⟩ =>
    some (item, ⟨buffer, blocks, fun block member => nonempty block (List.mem_cons_of_mem _ member)⟩)
  | ⟨[], [] :: _, _⟩ => none
  | ⟨[], [], _⟩ => none

def Reader.stream (r : Reader α) : List α := r.buffer ++ r.blocks.flatten

theorem Split.stream {limit : Nat} {whole : List α} (split : Split limit whole) : split.reader.stream = whole := split.flatten

theorem Reader.next_cases (r : Reader α) : (r.next = none ∧ r.stream = []) ∨
    ∃ item rest, r.next = some (item, rest) ∧ r.stream = item :: rest.stream := by
  obtain ⟨buffer, blocks, nonempty⟩ := r
  cases buffer with
  | cons item buffer => exact .inr ⟨item, _, rfl, rfl⟩
  | nil =>
    cases blocks with
    | nil => exact .inl ⟨rfl, rfl⟩
    | cons block blocks =>
      cases block with
      | nil => exact absurd rfl (nonempty [] List.mem_cons_self)
      | cons item block => exact .inr ⟨item, _, rfl, rfl⟩

end Cplusplus.Buffered
