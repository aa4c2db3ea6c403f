import Cplusplus.Minicrt

/-! The heap of `malloc.c` keeps its invariant in a run exactly when malloc takes no block: the
branch without a split does not return the block, and a split makes the remainder too large. -/

namespace Cplusplus.Minicrt

variable {p : Platform} {base : Nat} {size : Nat}

def initial (base : Nat) : State := ⟨miniCrtHeapInit base, []⟩

def firstHeader : HeapHeader := ⟨.free, heapSize, 0, 0⟩

theorem initial_lookup (base : Nat) : (miniCrtHeapInit base).mem.lookup base = some firstHeader := Finmap.lookup_insert _

theorem malloc_initial (some_ : size ≠ 0) (there : base ≠ 0) : malloc p size (miniCrtHeapInit base) =
      if p.wrap (size + p.headerSize * 2) < heapSize then
        (split p size (if p.wrap (size + p.headerSize) < heapSize ∧ heapSize ≤ p.wrap (size + p.headerSize * 2) then
          (miniCrtHeapInit base).set base { firstHeader with type := .used } else miniCrtHeapInit base) base).map
            fun h => (h, p.addrAdd base p.headerSize)
      else
        some (if p.wrap (size + p.headerSize) < heapSize ∧ heapSize ≤ p.wrap (size + p.headerSize * 2) then
          (miniCrtHeapInit base).set base { firstHeader with type := .used } else miniCrtHeapInit base, 0) := by
  have fuel : (miniCrtHeapInit base).mem.keys.card + 1 = 1 + 1 := rfl
  have ended : ∀ h : Heap, mallocLoop p size 1 h 0 = some (h, 0) := fun _ => rfl
  unfold malloc
  rw [if_neg some_, fuel, mallocLoop, if_neg (show (miniCrtHeapInit base).listHead ≠ 0 from there)]
  rw [show (miniCrtHeapInit base).listHead = base from rfl, initial_lookup, Option.bind_some]
  rw [if_neg (show firstHeader.type ≠ .used by decide)]
  simp only [firstHeader, ended]
  rfl

theorem malloc_refused (refused : Refused p size) (there : base ≠ 0) :
    malloc p size (miniCrtHeapInit base) = some (miniCrtHeapInit base, 0) := by
  by_cases zero : size = 0
  · rw [malloc, if_pos zero]
  · obtain ⟨one, two⟩ := refused.resolve_left zero
    rw [malloc_initial zero there, if_neg (not_lt.mpr two), if_neg fun near => not_lt.mpr one near.1]

theorem malloc_near_fit (some_ : size ≠ 0) (there : base ≠ 0) (above : p.wrap (size + p.headerSize) < heapSize)
    (near : heapSize ≤ p.wrap (size + p.headerSize * 2)) :
    malloc p size (miniCrtHeapInit base) = some ((miniCrtHeapInit base).set base { firstHeader with type := .used }, 0) := by
  rw [malloc_initial some_ there, if_neg (not_lt.mpr near), if_pos ⟨above, near⟩]

theorem malloc_split (some_ : size ≠ 0) (there : base ≠ 0) (room : p.wrap (size + p.headerSize * 2) < heapSize) :
    malloc p size (miniCrtHeapInit base) = (split p size (miniCrtHeapInit base) base).map fun h => (h, p.addrAdd base p.headerSize) := by
  rw [malloc_initial some_ there, if_pos room, if_neg fun near => not_le.mpr room near.2]

theorem Invariant.first {s : State} {blocks : List (Nat × HeapHeader)} (invariant : Invariant p base s blocks) :
    ∃ b rest, s.heap.mem.lookup base = some b ∧ blocks = (base, b) :: rest ∧ p.headerSize ≤ b.size ∧
      (rest = [] ∧ b.next = 0 ∧ base + b.size = base + heapSize ∨
        b.next = base + b.size ∧ Tiled p s.heap.mem (base + heapSize) base (base + b.size) rest) := by
  cases invariant.tiled with
  | final found _ last size end_ => exact ⟨_, [], found, rfl, size, .inl ⟨rfl, last, end_⟩⟩
  | cons found _ next size rest => exact ⟨_, _, found, rfl, size, .inr ⟨next, rest⟩⟩

theorem near_fit_breaks (live : List (Nat × Nat)) (none : live = []) (blocks : List (Nat × HeapHeader)) :
    ¬ Invariant p base ⟨(miniCrtHeapInit base).set base { firstHeader with type := .used }, live⟩ blocks := by
  intro invariant
  subst none
  obtain ⟨b, rest, found, rfl, -⟩ := invariant.first
  have same : ((miniCrtHeapInit base).set base { firstHeader with type := .used }).mem.lookup base =
      some { firstHeader with type := .used } := Finmap.lookup_insert _
  obtain rfl := Option.some.inj (found.symm.trans same)
  obtain ⟨size, member⟩ := (invariant.used _ List.mem_cons_self).mp rfl
  cases member

def restSize (p : Platform) (size : Nat) : Nat := unsigned (p.wrap (heapSize - p.wrap (size - p.headerSize)))

theorem split_initial (base size : Nat) : ∃ h, split p size (miniCrtHeapInit base) base = some h ∧
      (∃ b, h.mem.lookup base = some b ∧ b.size = unsigned (p.wrap (size + p.headerSize)) ∧
        b.next = p.addrAdd base (p.wrap (size + p.headerSize))) ∧
      (p.addrAdd base (p.wrap (size + p.headerSize)) ≠ base →
        h.mem.lookup (p.addrAdd base (p.wrap (size + p.headerSize))) = some ⟨.free, restSize p size, 0, base⟩) := by
  unfold split
  simp only [initial_lookup, Option.bind_eq_bind, Option.bind_some]
  by_cases same : p.addrAdd base (p.wrap (size + p.headerSize)) = base
  · rw [same, Heap.set, Finmap.lookup_insert]
    exact ⟨_, rfl, ⟨_, Finmap.lookup_insert _, rfl, rfl⟩, fun other => absurd rfl other⟩
  · rw [Heap.set, Finmap.lookup_insert_of_ne _ (Ne.symm same), initial_lookup]
    refine ⟨_, rfl, ⟨_, Finmap.lookup_insert _, rfl, rfl⟩, fun _ => ?_⟩
    rw [Heap.set, Finmap.lookup_insert_of_ne _ same, Finmap.lookup_insert]
    rfl

/-- The arithmetic of a split of the whole heap: an address that wraps, a block that is smaller
than its header, or a remainder that is too large. -/
theorem split_arithmetic (low : 4096 ≤ base) (high : base + heapSize ≤ p.word) (bound : size < 2 ^ 32)
    (room : p.wrap (size + p.headerSize * 2) < heapSize) :
    unsigned (p.wrap (size + p.headerSize)) < p.headerSize ∨ unsigned (p.wrap (size + p.headerSize)) ≠ heapSize ∧
        (p.addrAdd base (p.wrap (size + p.headerSize)) = base + unsigned (p.wrap (size + p.headerSize)) →
          unsigned (p.wrap (size + p.headerSize)) + restSize p size ≠ heapSize) := by
  unfold restSize Platform.addrAdd Platform.wrap unsigned heapSize at *
  cases p with
  | linux64 =>
    simp only [Platform.word, Platform.headerSize] at *
    omega
  | win32 =>
    simp only [Platform.word, Platform.headerSize] at *
    omega

theorem split_breaks (low : 4096 ≤ base) (high : base + heapSize ≤ p.word) (bound : size < 2 ^ 32)
    (room : p.wrap (size + p.headerSize * 2) < heapSize) {h : Heap} (done : split p size (miniCrtHeapInit base) base = some h)
    (live : List (Nat × Nat)) (blocks : List (Nat × HeapHeader)) : ¬ Invariant p base ⟨h, live⟩ blocks := by
  intro invariant
  obtain ⟨h', result, ⟨b, found, size_, next⟩, remainder⟩ := @split_initial p base size
  rw [done] at result
  cases result
  obtain ⟨b', rest, first, -, fits, shape⟩ := invariant.first
  obtain rfl := Option.some.inj (first.symm.trans found)
  rcases split_arithmetic low high bound room with small | ⟨whole, sum⟩
  · omega
  · rcases shape with ⟨-, -, all⟩ | ⟨follows, tail⟩
    · omega
    · have here : p.addrAdd base (p.wrap (size + p.headerSize)) = base + unsigned (p.wrap (size + p.headerSize)) := by
        rw [← next, follows, size_]
      have large : 0 < unsigned (p.wrap (size + p.headerSize)) := by
        have positive : 0 < p.headerSize := by cases p <;> decide
        omega
      have second := remainder (by omega)
      rw [here] at second
      rw [size_] at tail
      cases tail with
      | final found' _ _ _ last =>
        obtain rfl := Option.some.inj (found'.symm.trans second)
        exact sum here (by simp only at last; omega)
      | cons found' _ next' _ _ =>
        obtain rfl := Option.some.inj (found'.symm.trans second)
        simp only at next'
        omega

theorem initial_invariant (base : Nat) : Invariant p base (initial base) [(base, firstHeader)] := by
  refine ⟨rfl, .final (initial_lookup base) rfl rfl ?_ rfl, .singleton _, fun block member => ?_, fun q member => ?_, .nil⟩
  · cases p <;> decide
  · obtain rfl := List.mem_singleton.mp member
    refine ⟨fun used => ?_, fun ⟨_, inside⟩ => ?_⟩
    · cases used
    · cases inside
  · cases member

def Op.Quiet (p : Platform) : Op → Prop
  | .malloc size => Refused p size.toNat
  | .free _ => True

theorem step_malloc (size : UInt32) : step p (initial base) (.malloc size) =
      (malloc p size.toNat (miniCrtHeapInit base)).map fun (heap, ptr) => ⟨heap, if ptr = 0 then [] else [(ptr, size.toNat)]⟩ := rfl

theorem step_quiet (there : base ≠ 0) {op : Op} (quiet : op.Quiet p) : step p (initial base) op = some (initial base) := by
  cases op with
  | malloc size =>
    rw [step_malloc, malloc_refused quiet there]
    rfl
  | free ptr => rfl

theorem step_breaks (low : 4096 ≤ base) (high : base + heapSize ≤ p.word) {op : Op} (loud : ¬ op.Quiet p) {s : State}
    (done : step p (initial base) op = some s) (blocks : List (Nat × HeapHeader)) : ¬ Invariant p base s blocks := by
  have there : base ≠ 0 := by omega
  cases op with
  | free ptr => exact absurd trivial loud
  | malloc size =>
    have bound : size.toNat < 2 ^ 32 := size.toNat_lt
    have taken : size.toNat ≠ 0 ∧ (heapSize ≤ p.wrap (size.toNat + p.headerSize) → ¬ heapSize ≤ p.wrap (size.toNat + p.headerSize * 2)) := by
      simpa only [Op.Quiet, Refused, not_or, not_and] using loud
    obtain ⟨some_, room⟩ := taken
    rw [step_malloc] at done
    rcases Nat.lt_or_ge (p.wrap (size.toNat + p.headerSize * 2)) heapSize with splits | near
    · rw [malloc_split some_ there splits, Option.map_map] at done
      obtain ⟨h, result, rfl⟩ := Option.map_eq_some_iff.mp done
      exact split_breaks low high bound splits result _ blocks
    · have above : p.wrap (size.toNat + p.headerSize) < heapSize := by
        by_contra large
        exact room (not_lt.mp large) near
      rw [malloc_near_fit some_ there above near] at done
      cases done
      exact near_fit_breaks _ rfl blocks

/-- The invariant holds in every state of a run exactly when malloc finds no block for any size
that is asked for. -/
theorem heap_invariant_holds (p : Platform) {base : Nat} (low : 4096 ≤ base) (high : base + heapSize ≤ p.word) (ops : List Op) :
    Holds p base ops ↔ ∀ size, Op.malloc size ∈ ops → Refused p size.toNat := by
  have there : base ≠ 0 := by omega
  induction ops with
  | nil =>
    refine ⟨(fun _ size member => by cases member), fun _ done nothing => ?_⟩
    obtain rfl := List.prefix_nil.mp nothing
    exact ⟨initial base, _, rfl, initial_invariant base⟩
  | cons op ops ih =>
    have shift : op.Quiet p → ∀ done, run p base (op :: done) = run p base done := by
      intro quiet done
      unfold run
      rw [List.foldlM_cons, show (⟨miniCrtHeapInit base, []⟩ : State) = initial base from rfl, step_quiet there quiet]
      rfl
    constructor
    · intro holds
      have quiet : op.Quiet p := by
        by_contra loud
        obtain ⟨s, blocks, result, invariant⟩ := holds [op] ⟨ops, rfl⟩
        have first : step p (initial base) op = some s := by
          rw [← result]
          simp [run, initial]
        exact step_breaks low high loud first blocks invariant
      have later : Holds p base ops := by
        intro done start
        obtain ⟨s, blocks, result, invariant⟩ := holds (op :: done) ((List.prefix_cons_inj op).mpr start)
        rw [shift quiet] at result
        exact ⟨s, blocks, result, invariant⟩
      intro size member
      rcases List.mem_cons.mp member with rfl | member
      · exact quiet
      · exact ih.mp later size member
    · intro refused done start
      have quiet : op.Quiet p := by
        cases op with
        | malloc size => exact refused size List.mem_cons_self
        | free ptr => trivial
      cases done with
      | nil => exact ⟨initial base, _, rfl, initial_invariant base⟩
      | cons first done =>
        obtain ⟨rfl, rest⟩ := List.cons_prefix_cons.mp start
        rw [shift quiet]
        exact ih.mpr (fun size member => refused size (List.mem_cons_of_mem _ member)) done rest

theorem heap_invariant_holds_refused :
    Holds .linux64 4096 [.malloc 33554432, .malloc 0] ↔
      ∀ size, Op.malloc size ∈ [.malloc 33554432, .malloc 0] → Refused .linux64 size.toNat :=
  heap_invariant_holds .linux64 (by decide) (by decide) _

/-- After malloc(100) the two blocks end 48 bytes behind the heap. -/
theorem first_split_breaks_heap : ¬ Holds .linux64 4096 [.malloc 100] := by
  intro holds
  obtain ⟨s, blocks, result, invariant⟩ := holds [.malloc 100] (List.prefix_refl _)
  have done : step .linux64 (initial 4096) (.malloc 100) = some s := by
    rw [← result]
    simp [run, initial]
  refine step_breaks (by decide) (by decide) ?_ done blocks invariant
  rintro (zero | ⟨-, room⟩)
  · exact absurd zero (by decide)
  · exact absurd room (by decide)

end Cplusplus.Minicrt
