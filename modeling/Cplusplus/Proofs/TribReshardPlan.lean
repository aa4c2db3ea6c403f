import Cplusplus.RedisTrib

/-! Whether the rounded shares come to the number that was asked for. The remainders of the shares
decide it, and only the first source rounds up. -/

namespace Cplusplus.RedisTrib

open List

variable {numslots total : Nat}

theorem share_rest {i : Nat} (s : Source) (later : i ≠ 0) : share numslots total s i = (numslots * s.slots.length / total : Nat) := by
  have fraction : (numslots : Rat) / total * s.slots.length = ((numslots * s.slots.length : Nat) : Rat) / (total : Nat) := by
    rw [Nat.cast_mul, div_mul_eq_mul_div]
  unfold share
  rw [if_neg later, fraction, Rat.floor_natCast_div_natCast, Int.natCast_ediv]

theorem share_first (positive : 0 < total) (s : Source) : share numslots total s 0 =
      (numslots * s.slots.length / total + if numslots * s.slots.length % total = 0 then 0 else 1 : Nat) := by
  have fraction : (numslots : Rat) / total * s.slots.length = ((numslots * s.slots.length : Nat) : Rat) / (total : Nat) := by
    rw [Nat.cast_mul, div_mul_eq_mul_div]
  have above : (0 : Rat) < total := Nat.cast_pos.2 positive
  have parts := Nat.div_add_mod (numslots * s.slots.length) total
  have bound := Nat.mod_lt (numslots * s.slots.length) positive
  unfold share
  rw [if_pos rfl, fraction, Int.ceil_eq_iff, lt_div_iff₀ above, div_le_iff₀ above]
  generalize numslots * s.slots.length = product at parts bound ⊢
  generalize product / total = quotient at parts ⊢
  generalize product % total = rest at parts bound ⊢
  subst parts
  split
  next none =>
    subst none
    push_cast
    constructor <;> nlinarith
  next some =>
    have least : (1 : Rat) ≤ rest := by exact_mod_cast Nat.one_le_iff_ne_zero.2 some
    have most : (rest : Rat) ≤ total := by exact_mod_cast bound.le
    push_cast
    constructor <;> nlinarith

theorem sum_div_mod (numslots total : Nat) (sizes : List Nat) :
    total * (sizes.map fun size => numslots * size / total).sum + (sizes.map fun size => numslots * size % total).sum =
      numslots * sizes.sum := by
  induction sizes with
  | nil => rfl
  | cons size sizes ih =>
    have first := Nat.div_add_mod (numslots * size) total
    simp only [map_cons, sum_cons, Nat.mul_add]
    omega

def given (numslots total : Nat) (entry : Source × Nat) : List (Source × Nat) :=
  ((entry.1.slots.insertionSort (· ≤ ·)).take (share numslots total entry.1 entry.2).toNat).map (Prod.mk entry.1)

theorem moveSlots_eq (numslots total : Nat) (s : Source) (i : Nat) (moved : List (Source × Nat)) :
    moveSlots numslots s (share numslots total s i) moved = moved ++ (given numslots total (s, i)).take (numslots - moved.length) := by
  unfold moveSlots given
  simp only
  generalize (s.slots.insertionSort (· ≤ ·)).take (share numslots total s i).toNat = slots
  induction slots generalizing moved with
  | nil => simp
  | cons slot slots ih =>
    rw [foldl_cons, ih]
    split
    next room =>
      obtain ⟨more, left⟩ : ∃ more, numslots - moved.length = more + 1 := ⟨numslots - moved.length - 1, by omega⟩
      have next : numslots - (moved ++ [(s, slot)]).length = more := by
        rw [length_append, length_singleton]
        omega
      rw [next, left, map_cons, take_succ_cons, append_assoc, singleton_append]
    next full =>
      have none : numslots - moved.length = 0 := by omega
      rw [none, take_zero, take_zero]

/-- The loop over the sources gives their slots up to the number that was asked for. -/
theorem foldlM_given (positive : total ≠ 0) (entries : List (Source × Nat)) (moved : List (Source × Nat)) :
    entries.foldlM (moveShare numslots total) moved =
      some (moved ++ (entries.flatMap (given numslots total)).take (numslots - moved.length)) := by
  induction entries generalizing moved with
  | nil => simp
  | cons entry entries ih =>
    have first : moveShare numslots total moved entry = some (moved ++ (given numslots total entry).take (numslots - moved.length)) := by
      unfold moveShare
      rw [if_neg positive, moveSlots_eq]
    rw [foldlM_cons, first, Option.bind_eq_bind, Option.bind_some, ih, flatMap_cons, take_append, append_assoc]
    congr 2
    rw [append_cancel_left_eq]
    congr 1
    rw [length_append, length_take]
    omega

theorem computeReshardTable_eq {nodes : List Source} (sorted : Sorted nodes) (numslots : Nat) (positive : totSlots sorted.sources ≠ 0) :
    computeReshardTable sorted numslots = some ((sorted.sources.zipIdx.flatMap (given numslots (totSlots sorted.sources))).take numslots) := by
  unfold computeReshardTable
  rw [foldlM_given positive, nil_append, length_nil, Nat.sub_zero]

theorem given_owned {nodes : List Source} {m : Nat} {entry : Source × Nat}
    (member : entry ∈ (nodes.zipIdx m).flatMap (given numslots total)) : entry.1 ∈ nodes ∧ entry.2 ∈ entry.1.slots := by
  obtain ⟨origin, inside, taken⟩ := mem_flatMap.1 member
  obtain ⟨slot, chosen, rfl⟩ := List.mem_map.1 taken
  exact ⟨(fst_mem_of_mem_zipIdx inside : origin.1 ∈ nodes), (mem_insertionSort _).1 (mem_of_mem_take chosen)⟩

theorem given_distinct {nodes : List Source} (m : Nat) (disjoint : nodes.Pairwise fun a b => a.slots.Disjoint b.slots) :
    (((nodes.zipIdx m).flatMap (given numslots total)).map Prod.snd).Nodup := by
  induction nodes generalizing m with
  | nil => exact nodup_nil
  | cons s nodes ih =>
    obtain ⟨apart, rest⟩ := pairwise_cons.1 disjoint
    rw [zipIdx_cons, flatMap_cons, map_append, nodup_append]
    have own : ((given numslots total (s, m)).map Prod.snd) = (s.slots.insertionSort (· ≤ ·)).take (share numslots total s m).toNat := by
      unfold given
      rw [List.map_map]
      exact List.map_id _
    refine ⟨?_, ih (m + 1) rest, ?_⟩
    · rw [own]
      exact ((perm_insertionSort _ _).nodup_iff.2 s.nodup).sublist (take_sublist _ _)
    · rintro slot first other second rfl
      rw [own] at first
      obtain ⟨entry, inside, rfl⟩ := List.mem_map.1 second
      obtain ⟨source, owned⟩ := given_owned inside
      exact apart entry.1 source ((mem_insertionSort _).1 (mem_of_mem_take first)) owned

theorem given_length (s : Source) (i : Nat) (small : (share numslots total s i).toNat ≤ s.slots.length) :
    (given numslots total (s, i)).length = (share numslots total s i).toNat := by
  unfold given
  rw [length_map, length_take, length_insertionSort, Nat.min_eq_left small]

theorem given_rest (enough : numslots ≤ total) (nodes : List Source) {m : Nat} (later : 0 < m) :
    ((nodes.zipIdx m).flatMap (given numslots total)).length = (nodes.map fun s => numslots * s.slots.length / total).sum := by
  induction nodes generalizing m with
  | nil => rfl
  | cons s nodes ih =>
    have value := @share_rest numslots total _ s (Nat.ne_of_gt later)
    have small : numslots * s.slots.length / total ≤ s.slots.length := Nat.div_le_of_le_mul (Nat.mul_le_mul_right _ enough)
    rw [zipIdx_cons, flatMap_cons, length_append, ih (Nat.succ_pos m), given_length s m (by rw [value]; exact small), value]
    rfl

theorem given_all (positive : 0 < total) (enough : numslots ≤ total) (s : Source) (nodes : List Source) :
    (((s :: nodes).zipIdx).flatMap (given numslots total)).length =
      ((s :: nodes).map fun s => numslots * s.slots.length / total).sum + if numslots * s.slots.length % total = 0 then 0 else 1 := by
  have value := @share_first numslots total positive s
  have parts := Nat.div_add_mod (numslots * s.slots.length) total
  have most := Nat.mul_le_mul_right s.slots.length enough
  have small : (numslots * s.slots.length / total + if numslots * s.slots.length % total = 0 then 0 else 1) ≤ s.slots.length := by
    split
    · exact Nat.div_le_of_le_mul most
    · have less : numslots * s.slots.length / total < s.slots.length := by
        apply Nat.lt_of_mul_lt_mul_left (a := total)
        omega
      omega
  rw [zipIdx_cons, flatMap_cons, length_append, given_rest enough nodes (Nat.succ_pos 0),
    given_length s 0 (by rw [value]; exact small), value, map_cons, sum_cons, Int.toNat_natCast]
  omega

variable {nodes : List Source}

section
variable (sorted : Sorted nodes)

theorem Sorted.totSlots_eq : totSlots sorted.sources = totSlots nodes := (sorted.perm.map fun s : Source => s.slots.length).sum_eq

theorem Sorted.largest_eq {s : Source} {rest : List Source} (first : sorted.sources = s :: rest) : largest nodes = s.slots.length := by
  have bigger := sorted.bigger
  have perm := sorted.perm
  rw [first] at bigger perm
  have bound : ∀ sizes : List Nat, (∀ size ∈ sizes, size ≤ s.slots.length) → sizes.foldr max 0 ≤ s.slots.length := by
    intro sizes
    induction sizes with
    | nil => exact fun _ => Nat.zero_le _
    | cons size sizes ih => exact fun each => Nat.max_le.2 ⟨each size mem_cons_self, ih fun _ member => each _ (mem_cons_of_mem _ member)⟩
  have reached : ∀ sizes : List Nat, s.slots.length ∈ sizes → s.slots.length ≤ sizes.foldr max 0 := by
    intro sizes
    induction sizes with
    | nil => exact fun none => absurd none not_mem_nil
    | cons size sizes ih =>
      intro member
      obtain same | member := mem_cons.1 member
      · exact same ▸ Nat.le_max_left _ _
      · exact Nat.le_trans (ih member) (Nat.le_max_right _ _)
  unfold largest
  apply Nat.le_antisymm
  · apply bound
    intro size member
    obtain ⟨node, inside, rfl⟩ := List.mem_map.1 member
    obtain rfl | later := mem_cons.1 (perm.mem_iff.2 inside)
    · exact Nat.le_refl _
    · exact (pairwise_cons.1 bigger).1 node later
  · exact reached _ (List.mem_map_of_mem (perm.mem_iff.1 mem_cons_self))

theorem given_enough (positive : 0 < totSlots nodes) (enough : numslots ≤ totSlots nodes) :
    numslots ≤ (sorted.sources.zipIdx.flatMap (given numslots (totSlots nodes))).length ↔
      (nodes.map fun s => remainder numslots nodes s.slots.length).sum ≤
        if remainder numslots nodes (largest nodes) = 0 then 0 else totSlots nodes := by
  have same := sorted.totSlots_eq
  cases first : sorted.sources with
  | nil =>
    rw [first] at same
    exact absurd same.symm (Nat.ne_of_gt positive)
  | cons s rest =>
    have sizes := (sorted.perm.map fun s => numslots * s.slots.length % totSlots nodes).sum_eq
    have parts := sum_div_mod numslots (totSlots nodes) (sorted.sources.map fun s => s.slots.length)
    rw [List.map_map, List.map_map] at parts
    have whole : (sorted.sources.map fun s => s.slots.length).sum = totSlots nodes := same
    rw [whole] at parts
    rw [given_all positive enough s rest, sorted.largest_eq first, ← first]
    unfold remainder
    rw [← sizes]
    simp only [Function.comp_def] at parts
    generalize (sorted.sources.map fun s => numslots * s.slots.length / totSlots nodes).sum = quotients at parts ⊢
    generalize (sorted.sources.map fun s => numslots * s.slots.length % totSlots nodes).sum = remainders at parts ⊢
    have scaled : ∀ more, numslots ≤ quotients + more ↔ remainders ≤ totSlots nodes * more := by
      intro more
      rw [← Nat.mul_le_mul_left_iff positive, Nat.mul_add, Nat.mul_comm _ numslots, ← parts]
      omega
    rw [scaled]
    split
    · rw [Nat.mul_zero]
    · rw [Nat.mul_one]

end

/-- For every order in which the sort can leave the sources: the plan is as asked for exactly when
the remainders of the shares come to no more than the first source makes up for. -/
theorem reshard_plan (asked : Request) (sorted : Sorted asked.nodes) :
    (∃ moved, computeReshardTable sorted asked.numslots = some moved ∧ Planned asked.nodes asked.numslots moved) ↔
      Divides asked.nodes asked.numslots := by
  obtain ⟨nodes, disjoint, numslots, enough⟩ := asked
  simp only at sorted ⊢
  have same := sorted.totSlots_eq
  rcases Nat.eq_zero_or_pos (totSlots nodes) with zero | positive
  · cases sources : sorted.sources with
    | nil =>
      have none : nodes = [] := by simpa [sources] using sorted.perm.symm
      subst none
      have few : numslots = 0 := by
        rw [zero] at enough
        omega
      subst few
      refine iff_of_true ⟨[], ?_, ⟨rfl, nodup_nil, fun _ member => absurd member not_mem_nil⟩⟩ ⟨fun _ => rfl, Nat.zero_le _⟩
      unfold computeReshardTable
      rw [sources]
      rfl
    | cons s rest =>
      have some : nodes ≠ [] := by
        rintro rfl
        exact absurd (sources ▸ sorted.perm.eq_nil) (cons_ne_nil _ _)
      refine iff_of_false ?_ fun divides => some (divides.1 zero)
      rintro ⟨moved, done, _⟩
      unfold computeReshardTable at done
      rw [same, sources, zipIdx_cons, foldlM_cons, moveShare, if_pos zero] at done
      exact absurd done (Option.some_ne_none _).symm
  · have plan := computeReshardTable_eq sorted numslots (by omega)
    rw [same] at plan
    have listed := given_enough sorted positive enough
    have apart : sorted.sources.Pairwise fun a b => a.slots.Disjoint b.slots :=
      (sorted.perm.pairwise_iff disjoint_symm).2 disjoint
    constructor
    · rintro ⟨moved, done, planned⟩
      refine ⟨fun zero => absurd zero (Nat.ne_of_gt positive), listed.1 ?_⟩
      have count := planned.count
      rw [← Option.some.inj (plan.symm.trans done), length_take] at count
      omega
    · rintro ⟨_, small⟩
      refine ⟨_, plan, ?_, ?_, ?_⟩
      · rw [length_take, Nat.min_eq_left (listed.2 small)]
      · rw [map_take]
        exact (given_distinct 0 apart).sublist (take_sublist _ _)
      · intro entry member
        obtain ⟨source, owned⟩ := given_owned (mem_of_mem_take member)
        exact ⟨sorted.perm.mem_iff.1 source, owned⟩

def threeSources : List Source := [⟨[0, 1, 2], by decide⟩, ⟨[3, 4, 5], by decide⟩, ⟨[6, 7, 8], by decide⟩]

theorem threeSources_disjoint : threeSources.Pairwise fun a b => a.slots.Disjoint b.slots := by
  simp [threeSources, List.Disjoint]

/-- Three nodes of three slots each: for 8 slots the shares are 3, 2 and 2. -/
theorem eight_of_nine : ¬ ∀ (asked : Request) (sorted : Sorted asked.nodes),
    ∃ moved, computeReshardTable sorted asked.numslots = some moved ∧ Planned asked.nodes asked.numslots moved := by
  intro always
  obtain ⟨moved, done, planned⟩ := always ⟨threeSources, threeSources_disjoint, 8, by decide⟩ ⟨threeSources, .refl _, by decide⟩
  have plan := computeReshardTable_eq (⟨threeSources, .refl _, by decide⟩ : Sorted threeSources) 8 (by decide)
  have size : (threeSources.zipIdx.flatMap (given 8 (totSlots threeSources))).length = 7 := given_all (by decide) (by decide) _ _
  have count := planned.count
  rw [← Option.some.inj (plan.symm.trans done), length_take, size] at count
  exact absurd count (by decide)

end Cplusplus.RedisTrib
