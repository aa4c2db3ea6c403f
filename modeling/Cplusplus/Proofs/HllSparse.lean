import Cplusplus.Proofs.HllRegisters

/-! An addition to a sparse value. The opcode that covers the register is found, split and
written back, and adjacent values are merged; the registers change in one place. -/

namespace Cplusplus.Redis.Hll

open List Option

variable {op : Opcode} {index count : Nat} {o : List UInt8}

theorem locate_opcode (valid : op.Valid) (index p : Nat) (rest : List UInt8) (prev : Option Nat) (first span : Nat) :
    hllSparseLocate index (op.bytes ++ rest) p prev first span = if index < first + op.runlen then some (p, prev, first, op.runlen)
      else hllSparseLocate index rest (p + op.bytes.length) (some p) (first + op.runlen) op.runlen := by
  cases op with
  | zero len =>
    obtain ⟨isZero, length⟩ := zeroSet_spec valid
    have notXzero : hllSparseIsXzero (hllSparseZeroSet len) = false := by
      rw [← Bool.not_eq_true]
      intro isXzero
      rw [not_zero_of_xzero isXzero] at isZero
      cases isZero
    cases rest <;> simp only [Opcode.bytes, singleton_append, hllSparseLocate, notXzero, isZero, length,
      Bool.false_eq_true, if_false, if_true, Opcode.runlen, length_singleton] <;> rfl
  | xzero len =>
    obtain ⟨b, q, bytes, isZero, isXzero, length⟩ := xzeroSet_spec valid
    simp only [Opcode.bytes, bytes, cons_append, nil_append, hllSparseLocate, isXzero, length, if_true, Opcode.runlen, length_cons, length_nil]
  | val value len =>
    obtain ⟨isZero, isXzero, _, _, length⟩ := valSet_spec valid
    cases rest <;> simp only [Opcode.bytes, singleton_append, hllSparseLocate, isXzero, isZero, length,
      Bool.false_eq_true, if_false, Opcode.runlen, length_singleton] <;> rfl

/-- The opcode that covers `index`, and a place in front of it where merging can start. -/
theorem locate_spec (fits : op.Valid) (rest : List UInt8) (index : Nat) :
    ∀ (pre : List Opcode) (p : Nat) (prev : Option Nat) (first span : Nat), AllValid pre →
      first + (expand pre).length ≤ index → index < first + (expand pre).length + op.runlen →
      ∃ prev' A B, pre = A ++ B ∧ hllSparseLocate index (encode pre ++ (op.bytes ++ rest)) p prev first span =
          some (p + (encode pre).length, prev', first + (expand pre).length, op.runlen) ∧
        (prev' = some (p + (encode A).length) ∨ (A = [] ∧ prev' = prev)) := by
  intro pre
  induction pre with
  | nil =>
    intro p prev first span valid _ inside
    have inside : index < first + op.runlen := inside
    refine ⟨prev, [], [], rfl, ?_, .inr ⟨rfl, rfl⟩⟩
    rw [encode_nil, nil_append, locate_opcode fits, if_pos inside]
    rfl
  | cons o pre ih =>
    intro p prev first span valid from_ inside
    obtain ⟨head, valid⟩ := allValid_cons.mp valid
    have count : (expand (o :: pre)).length = o.runlen + (expand pre).length := by
      rw [expand_cons, length_append, length_replicate]
    rw [count] at from_ inside ⊢
    obtain ⟨prev', A, B, cut, located, start⟩ := ih (p + o.bytes.length) (some p) (first + o.runlen) o.runlen valid
      (by omega) (by omega)
    rw [encode_cons, append_assoc, locate_opcode head, if_neg (by omega), located, length_append, ← Nat.add_assoc, Nat.add_assoc first]
    rcases start with start | ⟨empty, start⟩
    · refine ⟨prev', o :: A, B, by rw [cut]; rfl, rfl, .inl ?_⟩
      rw [start, encode_cons, length_append, Nat.add_assoc]
    · exact ⟨prev', [], o :: pre, rfl, rfl, .inl (by rw [start]; rfl)⟩

def zeroOps (len : Nat) : List Opcode := if len = 0 then [] else if 64 < len then [.xzero len] else [.zero len]

def valOps (value len : Nat) : List Opcode := if len = 0 then [] else [.val value len]

theorem zeroOps_spec (len : Nat) (small : len ≤ 16384) : AllValid (zeroOps len) ∧
    encode (zeroOps len) = hllSparseZeros len ∧ expand (zeroOps len) = replicate len 0 := by
  unfold zeroOps hllSparseZeros
  split
  next empty =>
    subst empty
    exact ⟨by simp [AllValid], rfl, rfl⟩
  next some_ =>
    split
    next long =>
      refine ⟨?_, append_nil _, append_nil _⟩
      intro op member
      rw [mem_singleton.mp member, Opcode.Valid]
      omega
    next short =>
      refine ⟨?_, rfl, append_nil _⟩
      intro op member
      rw [mem_singleton.mp member, Opcode.Valid]
      omega

theorem valOps_spec {value : Nat} (len : Nat) (valid : 1 ≤ value ∧ value ≤ 32) (small : len ≤ 4) : AllValid (valOps value len) ∧
    encode (valOps value len) = (if len ≠ 0 then [hllSparseValSet value len] else []) ∧
    expand (valOps value len) = replicate len value := by
  unfold valOps
  split
  next empty =>
    subst empty
    exact ⟨by simp [AllValid], rfl, rfl⟩
  next some_ =>
    refine ⟨?_, ?_, append_nil _⟩
    · intro op member
      rw [mem_singleton.mp member, Opcode.Valid]
      omega
    · rfl

theorem split_spec {first : Nat} (valid : op.Valid) (from_ : first ≤ index) (inside : index < first + op.runlen)
    (positive : 1 ≤ count) (small : count ≤ 32) :
    ∃ ops, AllValid ops ∧ encode ops = hllSparseSplit index first op.runlen op.value count ∧
      expand ops = (replicate op.runlen op.value).set (index - first) count := by
  have middle : (Opcode.val count 1).Valid := ⟨⟨positive, small⟩, Nat.le_refl 1, by decide⟩
  have cut : replicate op.runlen op.value = replicate (index - first) op.value ++
      op.value :: replicate (first + op.runlen - 1 - index) op.value := by
    rw [← replicate_succ, replicate_append_replicate]
    congr 1
    omega
  have changed : (replicate op.runlen op.value).set (index - first) count =
      replicate (index - first) op.value ++ count :: replicate (first + op.runlen - 1 - index) op.value := by
    rw [cut, set_append_right _ _ (by rw [length_replicate]), length_replicate, Nat.sub_self, set_cons_zero]
  rw [changed]
  have zeros : ∀ len, op.value = 0 → op.runlen = len → len ≤ 16384 → ∃ ops, AllValid ops ∧
      encode ops = hllSparseSplit index first op.runlen op.value count ∧ expand ops =
        replicate (index - first) op.value ++ count :: replicate (first + op.runlen - 1 - index) op.value := by
    intro len zero length bound
    obtain ⟨valid₁, bytes₁, regs₁⟩ := zeroOps_spec (index - first) (by omega)
    obtain ⟨valid₂, bytes₂, regs₂⟩ := zeroOps_spec (first + op.runlen - 1 - index) (by omega)
    refine ⟨zeroOps (index - first) ++ .val count 1 :: zeroOps (first + op.runlen - 1 - index), ?_, ?_, ?_⟩
    · exact allValid_append.mpr ⟨valid₁, allValid_cons.mpr ⟨middle, valid₂⟩⟩
    · rw [encode_append, encode_cons, bytes₁, bytes₂, hllSparseSplit, if_pos zero]
      rfl
    · rw [expand_append, expand_cons, regs₁, regs₂, zero]
      rfl
  cases op with
  | zero len => exact zeros len rfl rfl (Nat.le_trans valid.2 (by decide))
  | xzero len => exact zeros len rfl rfl valid.2
  | val value len =>
    obtain ⟨range, _, short⟩ := valid
    have notZero : value ≠ 0 := by omega
    rw [Opcode.runlen] at inside ⊢
    rw [Opcode.value]
    obtain ⟨valid₁, bytes₁, regs₁⟩ := valOps_spec (index - first) range (by omega)
    obtain ⟨valid₂, bytes₂, regs₂⟩ := valOps_spec (first + len - 1 - index) range (by omega)
    refine ⟨valOps value (index - first) ++ .val count 1 :: valOps value (first + len - 1 - index), ?_, ?_, ?_⟩
    · exact allValid_append.mpr ⟨valid₁, allValid_cons.mpr ⟨middle, valid₂⟩⟩
    · have left : index - first ≠ 0 ↔ index ≠ first := by omega
      have right : first + len - 1 - index ≠ 0 ↔ index ≠ first + len - 1 := by omega
      rw [encode_append, encode_cons, bytes₁, bytes₂, hllSparseSplit, if_neg notZero]
      simp only [left, right]
      rfl
    · rw [expand_append, expand_cons, regs₁, regs₂]
      rfl

theorem not_val_of_zeros {b : UInt8} (zeros : hllSparseIsZero b = true ∨ hllSparseIsXzero b = true) : hllSparseIsVal b = false := by
  have all : ∀ n < 256, hllSparseIsZero (UInt8.ofNat n) = true ∨ hllSparseIsXzero (UInt8.ofNat n) = true →
      hllSparseIsVal (UInt8.ofNat n) = false := by decide +kernel
  have known := all b.toNat b.toNat_lt
  rw [UInt8.ofNat_toNat] at known
  exact known zeros

private theorem get_first (X Y : List UInt8) (b : UInt8) : (X ++ b :: Y)[X.length]? = some b := by
  simp

private theorem get_second (X Y : List UInt8) (b q : UInt8) : (X ++ b :: q :: Y)[X.length + 1]? = some q := by
  simp

theorem mergeVals_val {scanlen : Nat} {b q : UInt8} (X Y : List UInt8) (isZero : hllSparseIsZero b = false)
    (isXzero : hllSparseIsXzero b = false) :
    hllSparseMergeVals (scanlen + 1) (X ++ b :: q :: Y) X.length = if hllSparseIsVal q = true ∧ hllSparseValValue b = hllSparseValValue q ∧
          hllSparseValLen b + hllSparseValLen q ≤ 4 then
        hllSparseMergeVals scanlen (X ++ hllSparseValSet (hllSparseValValue b) (hllSparseValLen b + hllSparseValLen q) :: Y)
          X.length
      else hllSparseMergeVals scanlen (X ++ b :: q :: Y) (X.length + 1) := by
  have rest : (X ++ b :: q :: Y).drop (X.length + 2) = Y := by
    rw [drop_append]
    simp
  rw [hllSparseMergeVals, get_first, get_second, take_left' rfl, rest]
  simp only [isZero, isXzero, Bool.false_eq_true, if_false]

theorem first_byte (op : Opcode) (ops : List Opcode) (valid : op.Valid) : ∃ q Y, encode (op :: ops) = q :: Y ∧ (hllSparseIsVal q = true →
      op = .val (hllSparseValValue q) (hllSparseValLen q) ∧ Y = encode ops) := by
  rw [encode_cons]
  cases op with
  | zero len =>
    refine ⟨_, _, rfl, ?_⟩
    intro isVal
    rw [not_val_of_zeros (.inl (zeroSet_spec valid).1)] at isVal
    cases isVal
  | xzero len =>
    obtain ⟨b, q, bytes, _, isXzero, _⟩ := xzeroSet_spec valid
    refine ⟨b, q :: encode ops, by rw [Opcode.bytes, bytes]; rfl, ?_⟩
    intro isVal
    rw [not_val_of_zeros (.inr isXzero)] at isVal
    cases isVal
  | val value len =>
    obtain ⟨_, _, _, value', len'⟩ := valSet_spec valid
    refine ⟨_, _, rfl, ?_⟩
    intro _
    exact ⟨by rw [value', len'], rfl⟩

theorem mergeVals_spec (P : List UInt8) : ∀ (scanlen : Nat) (A B : List Opcode), AllValid (A ++ B) →
    ∃ C, AllValid C ∧ expand C = expand (A ++ B) ∧
      hllSparseMergeVals scanlen (P ++ encode (A ++ B)) (P.length + (encode A).length) = P ++ encode C := by
  intro scanlen
  induction scanlen with
  | zero => exact fun A B valid => ⟨A ++ B, valid, rfl, rfl⟩
  | succ scanlen ih =>
    intro A B valid
    cases B with
    | nil =>
      refine ⟨A ++ [], valid, rfl, ?_⟩
      have beyond : (P ++ encode (A ++ []))[P.length + (encode A).length]? = none := by
        rw [append_nil]
        exact getElem?_eq_none (by rw [length_append])
      rw [hllSparseMergeVals, beyond]
    | cons op B =>
      -- the opcode is passed
      obtain ⟨C, validC, same, passed⟩ := ih (A ++ [op]) B (by rwa [append_assoc, singleton_append])
      rw [append_assoc, singleton_append] at same passed
      have shape : P ++ encode (A ++ op :: B) = (P ++ encode A) ++ (op.bytes ++ encode B) := by
        rw [encode_append, encode_cons, append_assoc]
      have length : P.length + (encode A).length = (P ++ encode A).length := length_append.symm
      have pass : P.length + (encode (A ++ [op])).length = (P ++ encode A).length + op.bytes.length := by
        rw [encode_append, length_append, ← Nat.add_assoc, length, encode_cons, encode_nil, append_nil]
      have fits := (allValid_cons.mp (allValid_append.mp valid).2).1
      rw [pass, shape] at passed
      rw [length, shape]
      cases op with
      | zero len =>
        obtain ⟨isZero, _⟩ := zeroSet_spec fits
        have notXzero : hllSparseIsXzero (hllSparseZeroSet len) = false := by
          rw [← Bool.not_eq_true]
          intro isXzero
          rw [not_zero_of_xzero isXzero] at isZero
          cases isZero
        refine ⟨C, validC, same, ?_⟩
        rw [hllSparseMergeVals, Opcode.bytes, singleton_append, get_first]
        simp only [notXzero, isZero, Bool.false_eq_true, if_false, if_true]
        exact passed
      | xzero len =>
        obtain ⟨b, q, bytes, isZero, isXzero, _⟩ := xzeroSet_spec fits
        rw [Opcode.bytes, bytes] at passed ⊢
        refine ⟨C, validC, same, ?_⟩
        rw [hllSparseMergeVals, cons_append, get_first]
        simp only [isXzero, if_true]
        exact passed
      | val value len =>
        obtain ⟨isZero, isXzero, _, value', len'⟩ := valSet_spec fits
        rw [Opcode.bytes, singleton_append] at passed ⊢
        cases B with
        | nil =>
          refine ⟨C, validC, same, ?_⟩
          rw [hllSparseMergeVals, get_first]
          simp only [isXzero, isZero, Bool.false_eq_true, if_false]
          have beyond : (P ++ encode A ++ hllSparseValSet value len :: encode [])[(P ++ encode A).length + 1]? = none :=
            getElem?_eq_none (by rw [length_append]; exact Nat.le_refl _)
          rw [beyond]
          exact passed
        | cons next B =>
          obtain ⟨q, Y, bytes, isNext⟩ := first_byte next B (allValid_cons.mp (allValid_cons.mp (allValid_append.mp valid).2).2).1
          rw [bytes] at passed ⊢
          rw [mergeVals_val _ _ isZero isXzero, value', len']
          split
          next merges =>
            obtain ⟨isVal, rfl, short⟩ := merges
            obtain ⟨rfl, rfl⟩ := isNext isVal
            have fits' := (allValid_cons.mp (allValid_cons.mp (allValid_append.mp valid).2).2).1
            have merged : (Opcode.val (hllSparseValValue q) (len + hllSparseValLen q)).Valid :=
              ⟨fits.1, Nat.le_trans fits.2.1 (Nat.le_add_right _ _), short⟩
            obtain ⟨C, validC, same, ran⟩ := ih A (.val (hllSparseValValue q) (len + hllSparseValLen q) :: B)
              (allValid_append.mpr ⟨(allValid_append.mp valid).1, allValid_cons.mpr ⟨merged,
                (allValid_cons.mp (allValid_cons.mp (allValid_append.mp valid).2).2).2⟩⟩)
            refine ⟨C, validC, ?_, ?_⟩
            · rw [same, expand_append, expand_append, expand_cons, expand_cons, expand_cons, ← append_assoc (replicate _ _)]
              simp only [Opcode.runlen, Opcode.value, replicate_append_replicate]
            · rw [encode_append, encode_cons, ← append_assoc, length] at ran
              exact ran
          next => exact ⟨C, validC, same, passed⟩

structure Added (o : List UInt8) (regs : List Nat) (count index : Nat) (o' : List UInt8) (retval : Int) : Prop where
  registers : registers o' = some (regs.set index (max (regs.getD index 0) count))
  result : retval = if regs.getD index 0 < count then 1 else 0
  unchanged : retval = 0 → o' = o
  magic : o'.take 4 = o.take 4

theorem hllDenseAdd_spec {regs : List Nat} (encoding : hllEncoding o = some hllDense) (ok : DenseOk o)
    (decoded : registers o = some regs) (inside : index < hllRegisters) (small : count < 64) :
    ∃ o' retval, hllDenseAdd o count index = some (o', retval) ∧ Added o regs count index o' retval := by
  obtain ⟨read, _⟩ := dense_get ok inside
  have length := registers_length decoded
  have view : ∀ j < hllRegisters, regs[j]? = some (denseView o j) := by
    intro j below
    rw [registers_dense encoding ok] at decoded
    rw [← some.inj decoded, getElem?_map, getElem?_range below, map_some]
  have old : regs.getD index 0 = denseView o index := by
    rw [getD_eq_getElem?_getD, view index inside, getD_some]
  rcases Nat.lt_or_ge (denseView o index) count with less | enough
  · obtain ⟨o', written, ⟨ok', header⟩, view'⟩ := dense_set ok inside small
    have encoding' : hllEncoding o' = some hllDense := by
      have byte := congrArg (fun h : List UInt8 => h[4]?) header
      rw [getElem?_take_of_lt (by decide), getElem?_take_of_lt (by decide)] at byte
      exact byte.trans encoding
    refine ⟨o', 1, ?_, ?_, ?_, ?_, ?_⟩
    · simp only [hllDenseAdd, read, less, if_true, written, bind_eq_bind, bind_some]
      rfl
    · apply registers_dense_eq encoding' ok' (by rw [length_set, length])
      intro j below
      rw [view' j, old, Nat.max_eq_right (Nat.le_of_lt less), getElem?_set]
      split
      next same =>
        rw [if_pos (by omega), if_pos same.symm]
      next other => rw [if_neg fun same => other same.symm, view j below]
    · rw [old, if_pos less]
    · exact fun zero => absurd zero (by decide)
    · have magic := congrArg (List.take 4) header
      rw [take_take, take_take] at magic
      exact magic
  · refine ⟨o, 0, ?_, ?_, ?_, fun _ => rfl, rfl⟩
    · simp only [hllDenseAdd, read, Nat.not_lt.mpr enough, if_false, bind_eq_bind, bind_some]
      rfl
    · have here : regs[index]? = some (denseView o index) := view index inside
      obtain ⟨within, value⟩ := List.getElem?_eq_some_iff.mp here
      rw [decoded, old, Nat.max_eq_left enough, ← value, set_getElem_self]
    · rw [old, if_neg (Nat.not_lt.mpr enough)]

theorem hllSparsePromote_spec {ops : List Opcode} (ok : SparseOk o ops) (inside : index < hllRegisters)
    (grows : (expand ops).getD index 0 < count) (small : count < 64) :
    ∃ o', hllSparsePromote o count index = some (o', 1) ∧ Added o (expand ops) count index o' 1 := by
  obtain ⟨dense, converted, denseOk, encoding, magic, decoded⟩ := toDense_sparse ok
  obtain ⟨o', retval, ran, added⟩ := hllDenseAdd_spec encoding denseOk decoded inside small
  obtain rfl : retval = 1 := by rw [added.result, if_pos grows]
  refine ⟨o', ?_, added.registers, added.result, fun zero => absurd zero (by decide), added.magic.trans magic⟩
  simp only [hllSparsePromote, converted, ran, if_true, bind_eq_bind, bind_some]
  rfl

theorem cover (ops : List Opcode) (inside : index < (expand ops).length) :
    ∃ pre op post, ops = pre ++ op :: post ∧ (expand pre).length ≤ index ∧ index < (expand pre).length + op.runlen := by
  induction ops generalizing index with
  | nil => cases inside
  | cons op ops ih =>
    rw [expand_cons, length_append, length_replicate] at inside
    rcases Nat.lt_or_ge index op.runlen with here | later
    · exact ⟨[], op, ops, rfl, Nat.zero_le _, by rwa [expand_nil, length_nil, Nat.zero_add]⟩
    · have within : index - op.runlen < (expand ops).length := by omega
      obtain ⟨pre, o, post, rfl, low, high⟩ := ih within
      refine ⟨op :: pre, o, post, rfl, ?_, ?_⟩ <;>
      · rw [expand_cons, length_append, length_replicate]
        omega

theorem covered_get {pre post : List Opcode} (low : (expand pre).length ≤ index)
    (high : index < (expand pre).length + op.runlen) : (expand (pre ++ op :: post))[index]? = some op.value := by
  rw [expand_append, expand_cons, getElem?_append_right low, getElem?_append_left
    (by rw [length_replicate]; omega), getElem?_replicate, if_pos (by omega)]

theorem covered_register {pre : List Opcode} (post : List Opcode) (low : (expand pre).length ≤ index)
    (high : index < (expand pre).length + op.runlen) : (expand (pre ++ op :: post)).getD index 0 = op.value := by
  rw [getD_eq_getElem?_getD, covered_get low high, getD_some]

theorem hllSparseUpdated_spec {H : List UInt8} {A B : List Opcode} (prev : Option Nat) (header : H.length = hllHdrSize)
    (encoding : H[4]? = some hllSparse) (valid : AllValid (A ++ B)) (total : (expand (A ++ B)).length = hllRegisters)
    (start : prev.getD hllHdrSize = hllHdrSize + (encode A).length) :
    ∃ o', hllSparseUpdated (H ++ encode (A ++ B)) prev = (o', 1) ∧ registers o' = some (expand (A ++ B)) ∧ o'.take 4 = H.take 4 := by
  obtain ⟨C, validC, same, merged⟩ := mergeVals_spec H 5 A B valid
  have length : (hllInvalidateCache H).length = hllHdrSize := by rw [hllInvalidateCache, length_modify, header]
  refine ⟨hllInvalidateCache H ++ encode C, ?_, ?_, ?_⟩
  · rw [hllSparseUpdated, start, ← header, merged, invalidate_append _ header]
  · rw [← same] at total ⊢
    apply registers_sparse
    exact {
      encoding := by
        rw [hllEncoding, getElem?_append_left (by rw [length]; decide), invalidate_get _ (by decide)]
        exact encoding
      header := by
        rw [length_append, length]
        exact Nat.le_add_right _ _
      content := drop_left' length
      valid := validC
      total := total }
  · rw [take_append_of_le_length (by rw [length]; decide), invalidate_take]

theorem addPattern_covered {front rest : List UInt8} {first : Nat} {prev : Option Nat} (maxBytes : Nat)
    (fits : op.Valid) (positive : 1 ≤ count) (small : ¬ 32 < count) (shape : o = front ++ (op.bytes ++ rest))
    (located : hllSparseLocate index (o.drop hllHdrSize) hllHdrSize none 0 0 = some (front.length, prev, first, op.runlen)) :
    hllSparseAddPattern maxBytes o count index = if count ≤ op.value then some (o, 0)
      else if op.bytes.length = 1 ∧ op.runlen = 1 then some (hllSparseUpdated (front ++ hllSparseValSet count 1 :: rest) prev)
      else if op.bytes.length < (hllSparseSplit index first op.runlen op.value count).length ∧
          maxBytes < o.length + ((hllSparseSplit index first op.runlen op.value count).length - op.bytes.length) then
        hllSparsePromote o count index
      else some (hllSparseUpdated (front ++ hllSparseSplit index first op.runlen op.value count ++ rest) prev) := by
  have notZero : ¬ count ≤ 0 := Nat.not_le.mpr positive
  have notEmpty : ¬ op.runlen = 0 := Nat.ne_of_gt (runlen_pos fits)
  have before : o.take front.length = front := by
    rw [shape]
    exact take_left' rfl
  have behind : ∀ oldlen, oldlen = op.bytes.length → o.drop (front.length + oldlen) = rest := by
    intro oldlen size
    rw [shape, ← drop_drop, drop_left' rfl, drop_left' size.symm]
  have replaced : ∀ b, op.bytes = [b] → o.set front.length (hllSparseValSet count 1) = front ++ hllSparseValSet count 1 :: rest := by
    intro b bytes
    rw [shape, set_append_right _ _ (Nat.le_refl _), Nat.sub_self, bytes]
    rfl
  cases op with
  | zero len =>
    obtain ⟨isZero, length⟩ := zeroSet_spec fits
    have notXzero : hllSparseIsXzero (hllSparseZeroSet len) = false := by
      rw [← Bool.not_eq_true]
      intro isXzero
      rw [not_zero_of_xzero isXzero] at isZero
      cases isZero
    have read : o[front.length]? = some (hllSparseZeroSet len) := by
      rw [shape]
      exact get_first _ _ _
    have notEmpty : ¬ len = 0 := notEmpty
    have one : (Opcode.zero len).bytes.length = 1 := rfl
    simp only [hllSparseAddPattern, small, if_false, located, read, Opcode.runlen, Opcode.value, notXzero, isZero, length,
      notEmpty, notZero, one, replaced _ rfl, before, behind 1 rfl, bind_eq_bind, bind_some, Bool.false_eq_true,
      not_true, false_and, if_true, not_false_eq_true, true_and]
    rfl
  | xzero len =>
    obtain ⟨b, q, bytes, isZero, isXzero, length⟩ := xzeroSet_spec fits
    have two : (Opcode.xzero len).bytes.length = 2 := by
      rw [Opcode.bytes, bytes]
      rfl
    have read : o[front.length]? = some b := by
      rw [shape, Opcode.bytes, bytes]
      exact get_first _ _ _
    have read' : o[front.length + 1]? = some q := by
      rw [shape, Opcode.bytes, bytes]
      exact get_second _ _ _ _
    have notEmpty : ¬ len = 0 := notEmpty
    have notOne : ¬ 2 = 1 := by decide
    simp only [hllSparseAddPattern, small, if_false, located, read, read', Opcode.runlen, Opcode.value, isXzero, isZero, length,
      notEmpty, notZero, before, behind 2 two.symm, two, notOne, bind_eq_bind, bind_some, map_some,
      Bool.false_eq_true, not_true, and_false, false_and, if_true, not_false_eq_true]
    rfl
  | val value len =>
    obtain ⟨isZero, isXzero, _, value', length⟩ := valSet_spec fits
    have read : o[front.length]? = some (hllSparseValSet value len) := by
      rw [shape]
      exact get_first _ _ _
    have notEmpty : ¬ len = 0 := notEmpty
    have one : (Opcode.val value len).bytes.length = 1 := rfl
    simp only [hllSparseAddPattern, small, if_false, located, read, Opcode.runlen, Opcode.value, isXzero, isZero, length, value',
      notEmpty, one, replaced _ rfl, before, behind 1 rfl, bind_eq_bind, bind_some, Bool.false_eq_true, if_true,
      not_false_eq_true, true_and]
    rfl

theorem rewritten_spec {pre post A B : List Opcode} {prev : Option Nat} (ops : List Opcode) (ok : SparseOk o (pre ++ op :: post))
    (low : (expand pre).length ≤ index) (high : index < (expand pre).length + op.runlen) (grows : op.value < count) (cut : pre = A ++ B)
    (start : prev.getD hllHdrSize = hllHdrSize + (encode A).length) (valid : AllValid ops)
    (changed : expand ops = (replicate op.runlen op.value).set (index - (expand pre).length) count) :
    ∃ o', hllSparseUpdated ((o.take hllHdrSize ++ encode pre) ++ (encode ops ++ encode post)) prev = (o', 1) ∧
      Added o (expand (pre ++ op :: post)) count index o' 1 := by
  have old := covered_register post low high
  have header : (o.take hllHdrSize).length = hllHdrSize := by rw [length_take, Nat.min_eq_left ok.header]
  have encoding : (o.take hllHdrSize)[4]? = some hllSparse := by
    rw [getElem?_take_of_lt (by decide)]
    exact ok.encoding
  have registers' : expand (A ++ (B ++ ops ++ post)) = (expand (pre ++ op :: post)).set index
      (max ((expand (pre ++ op :: post)).getD index 0) count) := by
    rw [old, Nat.max_eq_right (Nat.le_of_lt grows), append_assoc B, ← append_assoc A, ← cut, expand_append,
      expand_append, changed, expand_append, expand_cons, set_append_right _ _ low, set_append_left]
    rw [length_replicate]
    omega
  have length : (expand (A ++ (B ++ ops ++ post))).length = hllRegisters := by rw [registers', length_set, ok.total]
  have valid' : AllValid (A ++ (B ++ ops ++ post)) := by
    obtain ⟨first, second⟩ := allValid_append.mp ok.valid
    rw [append_assoc B, ← append_assoc A, ← cut]
    exact allValid_append.mpr ⟨first, allValid_append.mpr ⟨valid, (allValid_cons.mp second).2⟩⟩
  obtain ⟨o', updated, decoded, magic⟩ := hllSparseUpdated_spec prev header encoding valid' length start
  have bytes : (o.take hllHdrSize ++ encode pre) ++ (encode ops ++ encode post) = o.take hllHdrSize ++ encode (A ++ (B ++ ops ++ post)) := by
    rw [append_assoc B, ← append_assoc A, ← cut, encode_append, encode_append, append_assoc]
  refine ⟨o', bytes ▸ updated, registers' ▸ decoded, by rw [old, if_pos grows], fun zero => absurd zero (by decide), ?_⟩
  rw [magic, take_take]
  rfl

theorem hllSparseAddPattern_spec {ops : List Opcode} (maxBytes : Nat) (ok : SparseOk o ops)
    (inside : index < hllRegisters) (positive : 1 ≤ count) (small : count < 64) :
    ∃ o' retval, hllSparseAddPattern maxBytes o count index = some (o', retval) ∧ Added o (expand ops) count index o' retval := by
  obtain ⟨pre, op, post, rfl, low, high⟩ := cover ops (ok.total ▸ inside)
  have fits : op.Valid := ok.valid op (by simp)
  have old := covered_register post low high
  by_cases big : 32 < count
  · have bound : op.value < count := by
      cases op with
      | zero | xzero => exact positive
      | val value len => exact Nat.lt_of_le_of_lt fits.1.2 big
    obtain ⟨o', ran, added⟩ := hllSparsePromote_spec ok inside (by rwa [old]) small
    refine ⟨o', 1, ?_, added⟩
    simp only [hllSparseAddPattern, big, if_true]
    exact ran
  · obtain ⟨prev, A, B, cut, located, start⟩ := locate_spec fits (encode post) index pre hllHdrSize none 0 0
      (allValid_append.mp ok.valid).1 (by rwa [Nat.zero_add]) (by rwa [Nat.zero_add])
    have begin_ : prev.getD hllHdrSize = hllHdrSize + (encode A).length := by
      rcases start with rfl | ⟨rfl, rfl⟩ <;> rfl
    have header : (o.take hllHdrSize).length = hllHdrSize := by rw [length_take, Nat.min_eq_left ok.header]
    have shape : o = (o.take hllHdrSize ++ encode pre) ++ (op.bytes ++ encode post) := by
      rw [append_assoc, ← encode_cons, ← encode_append, ← ok.content, take_append_drop]
    have place : hllHdrSize + (encode pre).length = (o.take hllHdrSize ++ encode pre).length := by
      rw [length_append, header]
    rw [Nat.zero_add, ← encode_cons, ← encode_append, ← ok.content, place] at located
    rw [addPattern_covered maxBytes fits positive big shape located]
    split
    next enough =>
      have here : (expand (pre ++ op :: post))[index]? = some op.value := covered_get low high
      obtain ⟨within, same⟩ := List.getElem?_eq_some_iff.mp here
      have kept : (expand (pre ++ op :: post)).set index op.value = expand (pre ++ op :: post) := by
        conv => lhs; arg 3; rw [← same]
        exact set_getElem_self within
      refine ⟨o, 0, rfl, ?_, by rw [old, if_neg (Nat.not_lt.mpr enough)], fun _ => rfl, rfl⟩
      rw [registers_sparse ok, old, Nat.max_eq_left enough, kept]
    next less =>
      have grows := Nat.not_le.mp less
      split
      next one =>
        obtain ⟨o', updated, added⟩ := rewritten_spec [.val count 1] ok low high grows cut begin_
          (allValid_cons.mpr ⟨⟨⟨positive, by omega⟩, Nat.le_refl 1, by decide⟩, by simp [AllValid]⟩)
          (by rw [one.2, show index = (expand pre).length by omega, Nat.sub_self]; rfl)
        exact ⟨o', 1, congrArg some updated, added⟩
      next =>
        split
        next =>
          obtain ⟨o', ran, added⟩ := hllSparsePromote_spec ok inside (by rwa [old]) small
          exact ⟨o', 1, ran, added⟩
        next =>
          obtain ⟨ops', valid', bytes, registers'⟩ := split_spec fits low high positive (Nat.not_lt.mp big)
          obtain ⟨o', updated, added⟩ := rewritten_spec ops' ok low high grows cut begin_ valid' registers'
          refine ⟨o', 1, ?_, added⟩
          rw [← bytes, append_assoc, updated]

theorem hllPatLenLoop_bounds (hash : UInt64) : ∀ (fuel : Nat) (bit : UInt64) (count : Nat),
    count ≤ hllPatLenLoop hash fuel bit count ∧ hllPatLenLoop hash fuel bit count ≤ count + fuel := by
  intro fuel
  induction fuel with
  | zero => exact fun _ count => ⟨Nat.le_refl count, Nat.le_refl count⟩
  | succ fuel ih =>
    intro bit count
    rw [hllPatLenLoop]
    split
    next =>
      obtain ⟨low, high⟩ := ih (bit <<< 1) (count + 1)
      exact ⟨Nat.le_of_succ_le low, by omega⟩
    next => exact ⟨Nat.le_refl count, Nat.le_add_right count _⟩

theorem hllPatLen_bounds (ele : List UInt8) : (hllPatLen ele).2 < hllRegisters ∧ 1 ≤ (hllPatLen ele).1 ∧ (hllPatLen ele).1 < 64 := by
  obtain ⟨low, high⟩ := hllPatLenLoop_bounds (murmurHash64A ele 0xadc83b19 ||| ((1 : UInt64) <<< 63)) 50 16384 1
  have mask : (murmurHash64A ele 0xadc83b19 &&& 16383).toNat ≤ 16383 := by
    rw [UInt64.toNat_and]
    exact Nat.and_le_right
  exact ⟨Nat.lt_succ_of_le mask, low, Nat.lt_of_le_of_lt high (by decide)⟩

/-- An addition of a count at an index: the registers are their maximum, and the result
tells whether one of them changed. -/
def AddsAt (regs : List Nat) (count index : Nat) (result : Option (List UInt8 × Int)) : Prop :=
  ∃ o' retval, result = some (o', retval) ∧ registers o' = some (regs.set index (max (regs.getD index 0) count)) ∧
    retval = if regs.set index (max (regs.getD index 0) count) = regs then 0 else 1

theorem Added.addsAt {o' : List UInt8} {regs : List Nat} {retval : Int} {result : Option (List UInt8 × Int)}
    (added : Added o regs count index o' retval) (inside : index < regs.length) (ran : result = some (o', retval)) :
    AddsAt regs count index result := by
  refine ⟨o', retval, ran, added.registers, ?_⟩
  have value : regs.getD index 0 = regs[index] := by rw [getD_eq_getElem _ _ inside]
  rw [added.result, value]
  split
  next grows =>
    rw [Nat.max_eq_right (Nat.le_of_lt grows), if_neg]
    intro same
    have here := congrArg (fun l : List Nat => l[index]?) same
    rw [getElem?_set_self inside, getElem?_eq_getElem inside] at here
    exact absurd (some.inj here) (Nat.ne_of_gt grows)
  next enough => rw [Nat.max_eq_left (Nat.not_lt.mp enough), set_getElem_self, if_pos rfl]

theorem create_ok : SparseOk createHLLObject [.xzero hllRegisters] where
  encoding := rfl
  header := by decide
  content := rfl
  valid := by simp [AllValid, Opcode.Valid, hllRegisters]
  total := by rw [expand_cons, length_append, length_replicate]; rfl

end Cplusplus.Redis.Hll
