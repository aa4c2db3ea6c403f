import Cplusplus.Proofs.HllCommands

/-! Strings that the check of the commands accepts may hold any opcodes. The loops stay
inside the string and below the last register for exactly these: every opcode is complete
and no run of a value passes the last register. -/

namespace Cplusplus.Redis.Hll

open List Option

/-- No run of a value passes the last register; the registers are counted as an `int`. -/
def ValsInside : List Opcode → Nat → Prop
  | [], _ => True
  | op :: ops, idx => (op.value ≠ 0 → idx + op.runlen ≤ hllRegisters) ∧ ValsInside ops ((idx + op.runlen) % 2 ^ 32)

def DecodesInside (p : List UInt8) : Prop := ∃ ops, AllValid ops ∧ p = encode ops ∧ ValsInside ops 0

theorem value_lt {op : Opcode} (valid : op.Valid) : op.value < 64 := by
  cases op with
  | zero | xzero => exact Nat.zero_lt_succ 63
  | val value len => exact Nat.lt_of_le_of_lt valid.1.2 (by decide)

section Loops

variable {σ : Type} {set : Nat → Nat → σ → Option σ} {ok : σ → Prop} {view : σ → Nat → Nat} {update : Nat → Nat → Nat}

section
variable (pointwise : Pointwise set ok view update)
include pointwise

section
variable (outside : ∀ idx val state, ok state → hllRegisters ≤ idx → set idx val state = none)
include outside

theorem run_passes {val : Nat} (positive : 1 ≤ val)
    (small : val < 64) : ∀ (runlen idx : Nat) (state : σ), ok state → 0 < runlen → hllRegisters < idx + runlen →
      hllRunRegisters set idx runlen val state = none := by
  intro runlen
  induction runlen with
  | zero => exact fun _ _ _ empty => absurd empty (Nat.lt_irrefl 0)
  | succ runlen ih =>
    intro idx state good _ passes
    rcases Nat.lt_or_ge idx hllRegisters with inside | beyond
    · obtain ⟨state₁, first, good₁, _⟩ := pointwise.defined idx val state good inside positive small
      simp only [hllRunRegisters, first, bind_eq_bind, bind_some]
      exact ih (idx + 1) state₁ good₁ (by omega) (by omega)
    · simp only [hllRunRegisters, outside idx val state good beyond, bind_eq_bind, bind_none]

/-- A loop over runs has a result exactly if no run of a value passes the last register. -/
theorem runOps_inside : ∀ (ops : List Opcode) (idx : Nat) (state : σ), AllValid ops → ok state →
      (ValsInside ops idx → ∃ idx' state', runOps (runBody set) ops idx state = some (idx', state') ∧ ok state') ∧
      (¬ ValsInside ops idx → runOps (runBody set) ops idx state = none) := by
  intro ops
  induction ops with
  | nil => exact fun idx state _ good => ⟨fun _ => ⟨idx, state, rfl, good⟩, fun no => absurd trivial no⟩
  | cons op ops ih =>
    intro idx state valid good
    obtain ⟨fits, valid⟩ := allValid_cons.mp valid
    by_cases passes : op.value ≠ 0 ∧ hllRegisters < idx + op.runlen
    · have faults : runBody set idx op.runlen op.value state = none := by
        rw [runBody, if_neg passes.1]
        exact run_passes pointwise outside (Nat.pos_of_ne_zero passes.1) (value_lt fits) _ _ _ good (runlen_pos fits) passes.2
      refine ⟨fun inside => absurd (inside.1 passes.1) (Nat.not_le.mpr passes.2), fun _ => ?_⟩
      rw [runOps, faults, bind_none]
    · have fine : op.value ≠ 0 → idx + op.runlen ≤ hllRegisters := by
        intro nonzero
        exact Nat.not_lt.mp fun more => passes ⟨nonzero, more⟩
      obtain ⟨state₁, body, good₁⟩ : ∃ state₁, runBody set idx op.runlen op.value state = some state₁ ∧ ok state₁ := by
        by_cases zero : op.value = 0
        · exact ⟨state, if_pos zero, good⟩
        · obtain ⟨state₁, ran, good₁, _⟩ := pointwise.run (Nat.pos_of_ne_zero zero) (value_lt fits) op.runlen idx state good
            (fine zero)
          exact ⟨state₁, by rw [runBody, if_neg zero, ran], good₁⟩
      obtain ⟨some_, none_⟩ := ih ((idx + op.runlen) % 2 ^ 32) state₁ valid good₁
      rw [runOps, body, bind_some]
      exact ⟨fun inside => some_ inside.2, fun no => none_ fun rest => no ⟨fine, rest⟩⟩

end

theorem runs_inside
    (outside : ∀ idx val state, ok state → hllRegisters ≤ idx → set idx val state = none) (p : List UInt8) (state : σ) (good : ok state) :
    (DecodesInside p → ∃ idx state', hllSparseRuns (runBody set) p 0 state = some (idx, state') ∧ ok state') ∧
    (¬ DecodesInside p → hllSparseRuns (runBody set) p 0 state = none) := by
  constructor
  · rintro ⟨ops, valid, rfl, inside⟩
    obtain ⟨idx, state', ran, good'⟩ := (runOps_inside pointwise outside ops 0 state valid good).1 inside
    have parsed := hllSparseRuns_encode (runBody set) ops valid [] 0 state
    rw [append_nil, ran, bind_some] at parsed
    exact ⟨idx, state', parsed, good'⟩
  · intro no
    obtain ⟨ops, rest, valid, rfl, half⟩ := parse p
    rw [hllSparseRuns_encode _ ops valid]
    rcases half with rfl | ⟨b, rfl, isXzero⟩
    · rw [append_nil] at no
      rw [(runOps_inside pointwise outside ops 0 state valid good).2 fun inside => no ⟨ops, valid, rfl, inside⟩, bind_none]
    · cases runOps (runBody set) ops 0 state with
      | none => rfl
      | some last => simp only [bind_some, hllSparseRuns, not_zero_of_xzero isXzero, isXzero, Bool.false_eq_true, if_false,
          if_true]

end

end Loops

variable {o : List UInt8}

theorem dense_outside {i v : Nat} (ok : DenseOk o) (outside : hllRegisters ≤ i) : hllDenseSetRegister o i v = none := by
  have length : (o.drop hllHdrSize ++ [0])[i * 6 / 8 + 1]? = none := by
    apply getElem?_eq_none
    rw [length_append, length_drop, ok, length_singleton]
    unfold hllDenseSize hllHdrSize hllRegisters at *
    omega
  have missing : PackedBits.set 6 (o.drop hllHdrSize ++ [0]) i v = none := by
    rw [PackedBits.set, length]
    cases (o.drop hllHdrSize ++ [0])[i * 6 / 8]? <;> rfl
  rw [hllDenseSetRegister, missing]
  rfl

theorem toDense_inside (encoding : hllEncoding o = some hllSparse) (header : hllHdrSize ≤ o.length) :
    (DecodesInside (o.drop hllHdrSize) → ∃ result, hllSparseToDense o = some result ∧ ∀ dense, result = some dense → DenseOk dense) ∧
    (¬ DecodesInside (o.drop hllHdrSize) → hllSparseToDense o = none) := by
  obtain ⟨empty, front, _⟩ := denseFrom_spec header
  have outside : ∀ idx val dense, DenseOk dense ∧ dense.take hllHdrSize = (o.take hllHdrSize).set 4 hllDense →
      hllRegisters ≤ idx → hllDenseSetRegister dense idx val = none := fun _ _ _ ok beyond => dense_outside ok.1 beyond
  obtain ⟨some_, none_⟩ := runs_inside (dense_pointwise ((o.take hllHdrSize).set 4 hllDense)) outside (o.drop hllHdrSize)
    (hllDenseFrom o) ⟨empty, front⟩
  have notDense : ¬ hllSparse = hllDense := dense_ne_sparse.symm
  constructor
  · intro inside
    obtain ⟨idx, dense, ran, ok⟩ := some_ inside
    unfold runBody at ran
    refine ⟨if idx ≠ hllRegisters then none else some dense, ?_, ?_⟩
    · simp only [hllSparseToDense, encoding, notDense, if_false, ran, bind_eq_bind, bind_some]
      rfl
    · intro dense' same
      split at same
      next => cases same
      next => exact some.inj same ▸ ok.1
  · intro no
    have ran := none_ no
    unfold runBody at ran
    simp only [hllSparseToDense, encoding, notDense, if_false, ran, bind_eq_bind, bind_some, bind_none]

theorem maxRegister_outside {i val : Nat} {max_ : List Nat} (length : max_.length = hllRegisters) (beyond : hllRegisters ≤ i) :
    hllMaxRegister i val max_ = none := by
  rw [hllMaxRegister, getElem?_eq_none (by rwa [length])]
  rfl

theorem merge_inside (encoding : hllEncoding o = some hllSparse) {max_ : List Nat}
    (length : max_.length = hllRegisters) : hllMerge max_ o ≠ none ↔ DecodesInside (o.drop hllHdrSize) := by
  have outside : ∀ i val (max_ : List Nat), max_.length = hllRegisters → hllRegisters ≤ i → hllMaxRegister i val max_ = none :=
    fun _ _ _ => maxRegister_outside
  obtain ⟨some_, none_⟩ := runs_inside max_pointwise outside (o.drop hllHdrSize) max_ length
  have notDense : ¬ hllSparse = hllDense := dense_ne_sparse.symm
  constructor
  · intro total
    apply Classical.byContradiction
    intro no
    have ran := none_ no
    unfold runBody at ran
    apply total
    simp only [hllMerge, encoding, notDense, if_false, ran, bind_eq_bind, bind_some, bind_none]
  · intro inside
    obtain ⟨idx, max', ran, _⟩ := some_ inside
    unfold runBody at ran
    simp only [hllMerge, encoding, notDense, if_false, ran, bind_eq_bind, bind_some]
    exact some_ne_none _

def zerosBytes (len : Nat) : Nat := if len = 0 then 0 else if 64 < len then 2 else 1

def splitBytes (op : Opcode) (offset : Nat) : Nat :=
  if op.value = 0 then zerosBytes offset + 1 + zerosBytes (op.runlen - 1 - offset)
  else (if offset = 0 then 0 else 1) + 1 + if op.runlen - 1 - offset = 0 then 0 else 1

def Outgrows (maxBytes length : Nat) (op : Opcode) (offset count : Nat) : Prop :=
  op.value < count ∧ op.bytes.length < splitBytes op offset ∧ maxBytes < length + (splitBytes op offset - op.bytes.length)

def AddsInside (maxBytes length : Nat) (p : List UInt8) (count index : Nat) : Prop :=
  if 32 < count then DecodesInside p
  else p = [] ∨ ∃ pre op rest, AllValid pre ∧ op.Valid ∧ p = encode pre ++ (op.bytes ++ rest) ∧
    (expand pre).length ≤ index ∧ index < (expand pre).length + op.runlen ∧
    (Outgrows maxBytes length op (index - (expand pre).length) count → DecodesInside p)

theorem zeros_length (len : Nat) : (hllSparseZeros len).length = zerosBytes len := by
  rw [hllSparseZeros, zerosBytes]
  split
  next => rfl
  next => split <;> rfl

theorem split_length {op : Opcode} {index first : Nat} (count : Nat) (from_ : first ≤ index) (inside : index < first + op.runlen) :
    (hllSparseSplit index first op.runlen op.value count).length = splitBytes op (index - first) := by
  have last : first + op.runlen - 1 - index = op.runlen - 1 - (index - first) := by omega
  have first_ : (index = first) = (index - first = 0) := by
    rw [eq_iff_iff]
    omega
  have last_ : (index = first + op.runlen - 1) = (op.runlen - 1 - (index - first) = 0) := by
    rw [eq_iff_iff]
    omega
  rw [hllSparseSplit, splitBytes]
  split
  next => rw [length_append, length_cons, zeros_length, zeros_length, last, Nat.add_right_comm, Nat.add_assoc]
  next =>
    simp only [ne_eq, first_, last_, last]
    split <;> split <;> simp_all

theorem locate_beyond (index : Nat) (rest : List UInt8) : ∀ (ops : List Opcode) (p : Nat) (prev : Option Nat) (first span : Nat),
    AllValid ops → first + (expand ops).length ≤ index →
    ∃ prev' span', hllSparseLocate index (encode ops ++ rest) p prev first span =
      hllSparseLocate index rest (p + (encode ops).length) prev' (first + (expand ops).length) span' ∧
      (ops ≠ [] → 0 < span') ∧ (ops = [] → span' = span) := by
  intro ops
  induction ops with
  | nil => exact fun p prev first span _ _ => ⟨prev, span, rfl, fun no => absurd rfl no, fun _ => rfl⟩
  | cons op ops ih =>
    intro p prev first span valid beyond
    obtain ⟨fits, valid⟩ := allValid_cons.mp valid
    rw [expand_cons, length_append, length_replicate] at beyond ⊢
    obtain ⟨prev', span', rest_, more, same⟩ := ih (p + op.bytes.length) (some p) (first + op.runlen) op.runlen valid (by omega)
    refine ⟨prev', span', ?_, fun _ => ?_, fun no => by cases no⟩
    · rw [encode_cons, append_assoc, locate_opcode fits, if_neg (by omega), rest_, length_append, Nat.add_assoc,
        Nat.add_assoc]
    · cases ops with
      | nil => exact same rfl ▸ runlen_pos fits
      | cons => exact more (cons_ne_nil _ _)

theorem promote_inside {index : Nat} (count : Nat) (encoding : hllEncoding o = some hllSparse) (header : hllHdrSize ≤ o.length)
    (inside : index < hllRegisters) (small : count < 64) : hllSparsePromote o count index ≠ none ↔ DecodesInside (o.drop hllHdrSize) := by
  obtain ⟨some_, none_⟩ := toDense_inside encoding header
  constructor
  · intro total
    apply Classical.byContradiction
    intro no
    apply total
    rw [hllSparsePromote, none_ no]
    rfl
  · intro decodes
    obtain ⟨result, ran, ok⟩ := some_ decodes
    cases result with
    | none =>
      rw [hllSparsePromote, ran]
      exact some_ne_none _
    | some dense =>
      obtain ⟨read, _⟩ := dense_get (ok dense rfl) inside
      obtain ⟨dense', written, _⟩ := dense_set (ok dense rfl) inside small
      obtain ⟨added, sum⟩ : ∃ added, hllDenseAdd dense count index = some added := by
        simp only [hllDenseAdd, read, written, bind_eq_bind, bind_some]
        split
        next => exact ⟨_, rfl⟩
        next => exact ⟨_, rfl⟩
      simp only [hllSparsePromote, ran, sum, bind_eq_bind, bind_some]
      exact some_ne_none _

theorem addPattern_inside {count index : Nat} (maxBytes : Nat) (encoding : hllEncoding o = some hllSparse)
    (header : hllHdrSize ≤ o.length) (inside : index < hllRegisters) (positive : 1 ≤ count) (small : count < 64) :
    hllSparseAddPattern maxBytes o count index ≠ none ↔ AddsInside maxBytes o.length (o.drop hllHdrSize) count index := by
  have promoted := promote_inside count encoding header inside small
  by_cases big : 32 < count
  · rw [AddsInside, if_pos big, ← promoted]
    simp only [hllSparseAddPattern, big, if_true]
  · rw [AddsInside, if_neg big]
    have front : (o.take hllHdrSize).length = hllHdrSize := by rw [length_take, Nat.min_eq_left header]
    -- at a covering opcode
    have covered : ∀ pre op rest, AllValid pre → op.Valid → o.drop hllHdrSize = encode pre ++ (op.bytes ++ rest) →
        (expand pre).length ≤ index → index < (expand pre).length + op.runlen →
        (hllSparseAddPattern maxBytes o count index ≠ none ↔
          (Outgrows maxBytes o.length op (index - (expand pre).length) count → DecodesInside (o.drop hllHdrSize))) := by
      intro pre op rest valid fits content low high
      obtain ⟨prev, _, _, _, located, _⟩ := locate_spec fits rest index pre hllHdrSize none 0 0 valid (by rwa [Nat.zero_add])
        (by rwa [Nat.zero_add])
      have shape : o = (o.take hllHdrSize ++ encode pre) ++ (op.bytes ++ rest) := by
        rw [append_assoc, ← content, take_append_drop]
      have place : hllHdrSize + (encode pre).length = (o.take hllHdrSize ++ encode pre).length := by
        rw [length_append, front]
      rw [← content, Nat.zero_add, place] at located
      rw [addPattern_covered maxBytes fits positive big shape located, split_length count low high]
      by_cases enough : count ≤ op.value
      · rw [if_pos enough]
        exact ⟨fun _ more => absurd more.1 (Nat.not_lt.mpr enough), fun _ => some_ne_none _⟩
      · rw [if_neg enough]
        by_cases single : op.bytes.length = 1 ∧ op.runlen = 1
        · rw [if_pos single]
          refine ⟨fun _ more => absurd more.2.1 ?_, fun _ => some_ne_none _⟩
          have zero : index - (expand pre).length = 0 := by omega
          have one : splitBytes op 0 = 1 := by
            rw [splitBytes, single.2]
            split <;> rfl
          rw [zero, one, single.1]
          exact Nat.lt_irrefl 1
        · rw [if_neg single]
          split
          next grows =>
            rw [promoted]
            exact ⟨fun decodes _ => decodes, fun need => need ⟨Nat.not_le.mp enough, grows⟩⟩
          next fine => exact ⟨fun _ more => absurd more.2 fine, fun _ => some_ne_none _⟩
    constructor
    · intro total
      obtain ⟨ops, rest, valid, content, half⟩ := parse (o.drop hllHdrSize)
      rcases Nat.lt_or_ge index (expand ops).length with within | beyond
      · obtain ⟨pre, op, post, rfl, low, high⟩ := cover ops within
        obtain ⟨validPre, validPost⟩ := allValid_append.mp valid
        have fits := (allValid_cons.mp validPost).1
        rw [encode_append, encode_cons, append_assoc, append_assoc] at content
        exact .inr ⟨pre, op, _, validPre, fits, content, low, high, (covered pre op _ validPre fits content low high).mp total⟩
      · left
        obtain ⟨prev, span, located, more, none_⟩ := locate_beyond index rest ops hllHdrSize none 0 0 valid
          (by rwa [Nat.zero_add])
        rw [← content] at located
        rcases half with rfl | ⟨b, rfl, isXzero⟩
        · cases ops with
          | nil => exact content
          | cons op ops =>
            -- the opcode behind the last one is read
            exfalso
            apply total
            have notEmpty : ¬ span = 0 := Nat.ne_of_gt (more (cons_ne_nil _ _))
            have missing : o[hllHdrSize + (encode (op :: ops)).length]? = none := by
              apply getElem?_eq_none
              have length := congrArg List.length content
              rw [append_nil, length_drop] at length
              omega
            simp only [hllSparseAddPattern, big, if_false, located, hllSparseLocate, notEmpty, missing, bind_eq_bind, bind_some, bind_none]
        · exfalso
          apply total
          simp only [hllSparseAddPattern, big, if_false, located, hllSparseLocate, isXzero, if_true, bind_eq_bind, bind_none]
    · rintro (empty | ⟨pre, op, rest, valid, fits, content, low, high, need⟩)
      · simp only [hllSparseAddPattern, big, if_false, empty, hllSparseLocate, bind_eq_bind, bind_some, if_true]
        exact some_ne_none _
      · exact (covered pre op rest valid fits content low high).mpr need

theorem accepted_cases (accepted : isHLLObjectOrReply (.raw o) = some (.ok o)) :
    (hllEncoding o = some hllDense ∧ DenseOk o) ∨ (hllEncoding o = some hllSparse ∧ hllHdrSize ≤ o.length) := by
  simp only [isHLLObjectOrReply] at accepted
  split at accepted
  next => cases some.inj accepted
  next header =>
    split at accepted
    next => cases some.inj accepted
    next =>
      split at accepted
      next => cases some.inj accepted
      next known =>
        have header : hllHdrSize ≤ o.length := Nat.not_lt.mp header
        have inside : 4 < o.length := Nat.lt_of_lt_of_le (by decide) header
        have byte : hllEncoding o = some (o.getD 4 0) := by
          rw [hllEncoding, getElem?_eq_getElem inside, getD_eq_getElem _ _ inside]
        rw [byte]
        split at accepted
        next => cases some.inj accepted
        next length =>
          by_cases dense : o.getD 4 0 = hllDense
          · exact .inl ⟨by rw [dense], not_not.mp fun no => length ⟨dense, no⟩⟩
          · have nonzero : (o.getD 4 0).toNat ≠ 0 := fun zero => dense (UInt8.toNat_inj.mp zero)
            have one : (o.getD 4 0).toNat = hllSparse.toNat := Nat.le_antisymm (Nat.not_lt.mp known) (Nat.pos_of_ne_zero nonzero)
            exact .inr ⟨by rw [UInt8.toNat_inj.mp one], header⟩

end Cplusplus.Redis.Hll
