import Cplusplus.Library.Run
import Cplusplus.Proofs.HllSparse

/-! Merging is a join: the merged registers are the maximum of the sources at every
index, whatever the order, repetition and encoding of the sources. -/

namespace Cplusplus.Redis.Hll
open List Option

theorem hllMaxRegister_spec {max_ : List Nat} {i : Nat} (inside : i < max_.length) (val : Nat) :
    hllMaxRegister i val max_ = some (max_.set i (max max_[i] val)) := by
  simp only [hllMaxRegister, getElem?_eq_getElem inside, bind_eq_bind, bind_some]
  split
  next less => rw [Nat.max_eq_right (Nat.le_of_lt less)]; rfl
  next enough => rw [Nat.max_eq_left (Nat.not_lt.mp enough), set_getElem_self]; rfl

theorem max_pointwise : Pointwise hllMaxRegister (fun max_ => max_.length = hllRegisters) (fun max_ i => max_.getD i 0) max where
  defined i val max_ length inside _ _ := by
    have below : i < max_.length := by rwa [length]
    refine ⟨_, hllMaxRegister_spec below val, by rw [length_set, length], ?_⟩
    intro j _
    rw [getD_eq_getElem?_getD, getElem?_set, getD_eq_getElem?_getD]
    split
    next same =>
      rw [if_pos same.symm, ← same, getElem?_eq_getElem below]
      rfl
    next other => rw [if_neg fun same => other same.symm]

variable {o : List UInt8}

theorem hllMergeDense_spec (ok : DenseOk o) : ∀ (count i : Nat) (max_ : List Nat), max_.length = hllRegisters → i + count ≤ hllRegisters →
    ∃ max', hllMergeDense o count i max_ = some max' ∧ max'.length = hllRegisters ∧
      ∀ j < hllRegisters, max'.getD j 0 = if i ≤ j ∧ j < i + count then max (max_.getD j 0) (denseView o j) else max_.getD j 0 := by
  intro count
  induction count with
  | zero => exact fun i max_ length _ => ⟨max_, rfl, length, fun j _ => by rw [if_neg (by omega)]⟩
  | succ count ih =>
    intro i max_ length inside
    obtain ⟨read, _⟩ := dense_get ok (show i < hllRegisters by omega)
    have below : i < max_.length := by omega
    obtain ⟨max', ran, length', all⟩ := ih (i + 1) (max_.set i (max max_[i] (denseView o i))) (by rw [length_set, length])
      (by omega)
    refine ⟨max', ?_, length', ?_⟩
    · simp only [hllMergeDense, read, hllMaxRegister_spec below, bind_eq_bind, bind_some]
      exact ran
    · intro j small
      rw [all j small, getD_eq_getElem?_getD, getElem?_set, getD_eq_getElem?_getD]
      rcases Nat.lt_trichotomy j i with before | rfl | after
      · rw [if_neg (by omega), if_neg (by omega), if_neg (by omega)]
      · rw [if_neg (by omega), if_pos rfl, if_pos below, if_pos (by omega), getElem?_eq_getElem below]
        rfl
      · have same : (i + 1 ≤ j ∧ j < i + 1 + count) = (i ≤ j ∧ j < i + (count + 1)) := by
          rw [eq_iff_iff]
          omega
        rw [if_neg (Nat.ne_of_lt after)]
        simp only [same]

variable {regs : List Nat}

theorem registers_lt (decoded : registers o = some regs) : ∀ val ∈ regs, val < 64 := by
  intro val member
  rcases registers_cases decoded with ⟨_, ok, same⟩ | ⟨ops, ok, same⟩
  · rw [same] at member
    obtain ⟨i, below, value⟩ := List.mem_map.mp member
    rw [← value]
    exact (dense_get ok (mem_range.mp below)).2
  · rw [same] at member
    obtain ⟨op, from_, here⟩ := mem_flatMap.mp member
    obtain ⟨_, rfl⟩ := mem_replicate.mp here
    have fits := ok.valid op from_
    cases op with
    | zero | xzero => exact Nat.zero_lt_succ 63
    | val value len => exact Nat.lt_of_le_of_lt fits.1.2 (by decide)

private theorem zipWith_max_eq {max_ max' regs : List Nat} (length : max_.length = hllRegisters)
    (length' : max'.length = hllRegisters) (count : regs.length = hllRegisters)
    (same : ∀ j < hllRegisters, max'.getD j 0 = max (max_.getD j 0) (regs.getD j 0)) : max' = List.zipWith max max_ regs := by
  apply ext_getElem
  · rw [length_zipWith, length, length', count, Nat.min_self]
  · intro j first second
    have here := same j (by rwa [← length'])
    rw [getD_eq_getElem _ _ first, getD_eq_getElem _ _ (by omega), getD_eq_getElem _ _ (by omega)] at here
    rw [here, getElem_zipWith]

theorem hllMerge_spec {max_ regs : List Nat} (decoded : registers o = some regs)
    (length : max_.length = hllRegisters) : hllMerge max_ o = some (some (List.zipWith max max_ regs)) := by
  have count := registers_length decoded
  rcases registers_cases decoded with ⟨encoding, ok, same⟩ | ⟨ops, ok, same⟩
  · obtain ⟨max', ran, length', all⟩ := hllMergeDense_spec ok hllRegisters 0 max_ length (Nat.le_of_eq (Nat.zero_add _))
    have merged : max' = List.zipWith max max_ regs := by
      apply zipWith_max_eq length length' count
      intro j small
      have at_ : ((List.range hllRegisters).map (denseView o)).getD j 0 = denseView o j := by
        rw [getD_eq_getElem?_getD, getElem?_map, getElem?_range small]
        rfl
      rw [all j small, if_pos ⟨Nat.zero_le j, by rwa [Nat.zero_add]⟩, same, at_]
    simp only [hllMerge, encoding, if_true, ran, merged, bind_eq_bind, bind_some]
    rfl
  · obtain ⟨max', ran, length', all⟩ := max_pointwise.runs ops 0 max_ ok.valid length (by rw [Nat.zero_add, ok.total])
    have parsed := hllSparseRuns_encode (runBody hllMaxRegister) ops ok.valid [] 0 max_
    rw [append_nil, ran, bind_some, ok.total, Nat.zero_add, ← ok.content] at parsed
    have run : hllSparseRuns (runBody hllMaxRegister) (o.drop hllHdrSize) 0 max_ = some (hllRegisters, max') := parsed
    have merged : max' = List.zipWith max max_ regs := by
      apply zipWith_max_eq length length' count
      intro j small
      have at_ := getElem?_getD (ok.total ▸ small)
      rw [all j small, Nat.sub_zero, at_, same]
      simp only [Nat.zero_le, true_and, ne_eq]
      split
      next => rfl
      next zero => rw [not_not.mp zero, Nat.max_zero]
    have notDense : ¬ hllSparse = hllDense := dense_ne_sparse.symm
    unfold runBody at run
    simp only [hllMerge, ok.encoding, notDense, if_false, run, merged, bind_eq_bind, bind_some]
    rfl

def maxAt (i : Nat) (sources : List (List Nat)) : Nat := sources.foldr (fun regs m => max (regs.getD i 0) m) 0

def join (sources : List (List Nat)) : List Nat := (List.range hllRegisters).map fun i => maxAt i sources

theorem maxAt_le {i bound : Nat} {sources : List (List Nat)} : maxAt i sources ≤ bound ↔ ∀ regs ∈ sources, regs.getD i 0 ≤ bound := by
  induction sources with
  | nil => exact ⟨fun _ _ member => absurd member not_mem_nil, fun _ => Nat.zero_le bound⟩
  | cons regs sources ih =>
    rw [maxAt, foldr_cons, Nat.max_le, forall_mem_cons]
    exact and_congr_right fun _ => ih

theorem join_congr {sources sources' : List (List Nat)} (same : ∀ regs, regs ∈ sources ↔ regs ∈ sources') : join sources = join sources' := by
  have equal : ∀ i, maxAt i sources = maxAt i sources' := by
    intro i
    apply Nat.le_antisymm
    · exact maxAt_le.mpr fun regs member => maxAt_le.mp (Nat.le_refl _) regs ((same regs).mp member)
    · exact maxAt_le.mpr fun regs member => maxAt_le.mp (Nat.le_refl _) regs ((same regs).mpr member)
  rw [join, join]
  exact map_congr_left fun i _ => equal i

theorem join_length (sources : List (List Nat)) : (join sources).length = hllRegisters := by
  rw [join, length_map, length_range]

theorem join_lt {sources : List (List Nat)} (small : ∀ regs ∈ sources, ∀ val ∈ regs, val < 64) : ∀ val ∈ join sources, val < 64 := by
  intro val member
  obtain ⟨i, _, rfl⟩ := List.mem_map.mp member
  apply Nat.lt_succ_of_le
  apply maxAt_le.mpr
  intro regs from_
  rw [getD_eq_getElem?_getD]
  cases here : regs[i]? with
  | none => exact Nat.zero_le 63
  | some val => exact Nat.le_of_lt_succ (small regs from_ val (mem_of_getElem? here))

theorem foldl_zipWith_max (sources : List (List Nat)) : ∀ max_ : List Nat, max_.length = hllRegisters →
    (∀ regs ∈ sources, regs.length = hllRegisters) →
    (sources.foldl (List.zipWith max) max_).length = hllRegisters ∧ ∀ i < hllRegisters,
      (sources.foldl (List.zipWith max) max_).getD i 0 = max (max_.getD i 0) (maxAt i sources) := by
  induction sources with
  | nil => exact fun max_ length _ => ⟨length, fun i _ => (Nat.max_zero _).symm⟩
  | cons regs sources ih =>
    intro max_ length counts
    have count : regs.length = hllRegisters := counts regs mem_cons_self
    have first : (List.zipWith max max_ regs).length = hllRegisters := by
      rw [length_zipWith, length, count, Nat.min_self]
    obtain ⟨length', all⟩ := ih _ first fun r member => counts r (mem_cons_of_mem _ member)
    refine ⟨length', ?_⟩
    intro i small
    have here : (List.zipWith max max_ regs).getD i 0 = max (max_.getD i 0) (regs.getD i 0) := by
      rw [getD_eq_getElem _ _ (by rwa [first]), getElem_zipWith, getD_eq_getElem _ _ (by rwa [length]), getD_eq_getElem _ _ (by rwa [count])]
    rw [foldl_cons, all i small, here, Nat.max_assoc]
    rfl

theorem foldl_join {sources : List (List Nat)} (counts : ∀ regs ∈ sources, regs.length = hllRegisters) :
    sources.foldl (List.zipWith max) (replicate hllRegisters 0) = join sources := by
  obtain ⟨length, all⟩ := foldl_zipWith_max sources (replicate hllRegisters 0) length_replicate counts
  apply ext_getElem?
  intro i
  rcases Nat.lt_or_ge i hllRegisters with inside | outside
  · have here := all i inside
    rw [getD_eq_getElem _ _ (by rwa [length]), getD_replicate _ inside, Nat.zero_max] at here
    rw [getElem?_eq_getElem (by rwa [length]), here, join, getElem?_map, getElem?_range inside]
    rfl
  · rw [getElem?_eq_none (by rwa [length]), getElem?_eq_none (by rwa [join_length])]

def ValidKey (db : HllDb) (key : List UInt8) : Prop :=
  ∀ object, db key = some object → ∃ o regs, object = .raw o ∧ o.take 4 = hllMagic ∧ registers o = some regs

def keyRegisters (db : HllDb) (key : List UInt8) : Option (List Nat) :=
  match db key with
  | some (.raw o) => registers o
  | _ => none

def sources (db : HllDb) (keys : List (List UInt8)) : List (List Nat) := keys.filterMap (keyRegisters db)

theorem registers_header (decoded : registers o = some regs) : hllHdrSize ≤ o.length := by
  rcases registers_cases decoded with ⟨_, ok, _⟩ | ⟨ops, ok, _⟩
  · rw [ok]
    decide
  · exact ok.header

theorem accepted_of_registers (magic : o.take 4 = hllMagic)
    (decoded : registers o = some regs) : isHLLObjectOrReply (.raw o) = some (.ok o) := by
  have header := Nat.not_lt.mpr (registers_header decoded)
  have byte : ∀ b, hllEncoding o = some b → o.getD 4 0 = b := by
    intro b encoding
    rw [getD_eq_getElem?_getD, show o[4]? = some b from encoding, getD_some]
  rcases registers_cases decoded with ⟨encoding, ok, _⟩ | ⟨ops, ok, _⟩
  · have length : o.length = hllDenseSize := ok
    simp only [isHLLObjectOrReply, if_false, magic, byte _ encoding, length, ne_eq, not_true, and_false]
    rfl
  · have notDense : ¬ hllSparse = hllDense := dense_ne_sparse.symm
    simp only [isHLLObjectOrReply, header, if_false, magic, byte _ ok.encoding, notDense, ne_eq, not_true, false_and]
    rfl

variable {db : HllDb}

theorem sources_length {keys : List (List UInt8)} : ∀ regs ∈ sources db keys, regs.length = hllRegisters := by
  intro regs member
  obtain ⟨key, _, here⟩ := mem_filterMap.mp member
  rw [keyRegisters] at here
  split at here
  next => exact registers_length here
  next => cases here

theorem sources_lt (db : HllDb) (keys : List (List UInt8)) : ∀ regs ∈ sources db keys, ∀ val ∈ regs, val < 64 := by
  intro regs member
  obtain ⟨key, _, here⟩ := mem_filterMap.mp member
  rw [keyRegisters] at here
  split at here
  next => exact registers_lt here
  next => cases here

theorem hllMergeKeys_spec : ∀ (keys : List (List UInt8)) (max_ : List Nat), (∀ key ∈ keys, ValidKey db key) → max_.length = hllRegisters →
    hllMergeKeys db keys max_ = some (.ok ((sources db keys).foldl (List.zipWith max) max_)) := by
  intro keys
  induction keys with
  | nil => exact fun _ _ _ => rfl
  | cons key keys ih =>
    intro max_ valid length
    have later : ∀ key ∈ keys, ValidKey db key := fun key member => valid key (mem_cons_of_mem _ member)
    cases found : db key with
    | none =>
      have skipped : sources db (key :: keys) = sources db keys := by
        rw [sources, filterMap_cons, keyRegisters, found]
        rfl
      simp only [hllMergeKeys, found, skipped]
      exact ih max_ later length
    | some object =>
      obtain ⟨o, regs, rfl, magic, decoded⟩ := valid key mem_cons_self object found
      have taken : sources db (key :: keys) = regs :: sources db keys := by
        rw [sources, filterMap_cons, keyRegisters, found]
        simp only [decoded]
        rfl
      have length' : (List.zipWith max max_ regs).length = hllRegisters := by
        rw [length_zipWith, length, registers_length decoded, Nat.min_self]
      simp only [hllMergeKeys, found, accepted_of_registers magic decoded, hllMerge_spec decoded length, taken,
        foldl_cons, bind_eq_bind, bind_some]
      exact ih _ later length'

theorem hllMergeKeys_join {keys : List (List UInt8)} (valid : ∀ key ∈ keys, ValidKey db key) :
    hllMergeKeys db keys (replicate hllRegisters 0) = some (.ok (join (sources db keys))) := by
  rw [hllMergeKeys_spec keys _ valid length_replicate, foldl_join sources_length]

/-! The commands on valid values: PFMERGE stores the join of its keys, and after every
run a cached cardinality is the count of the registers. -/

theorem registers_congr {o o' : List UInt8} (encoding : hllEncoding o' = hllEncoding o) (length : o'.length = o.length)
    (payload : o'.drop hllHdrSize = o.drop hllHdrSize) : registers o' = registers o := by
  have view : denseView o' = denseView o := by
    funext i
    rw [denseView, denseView, hllDenseGetRegister, hllDenseGetRegister, payload]
  rw [registers, registers, encoding, length, payload, view]

section
variable (o)

theorem invalidate_length : (hllInvalidateCache o).length = o.length := length_modify _ _ _

theorem invalidate_drop : (hllInvalidateCache o).drop hllHdrSize = o.drop hllHdrSize := by
  apply ext_getElem?
  intro i
  rw [getElem?_drop, getElem?_drop, invalidate_get]
  intro same
  exact absurd (same ▸ Nat.le_add_right hllHdrSize i : hllHdrSize ≤ 15) (by decide)

theorem registers_invalidate : registers (hllInvalidateCache o) = registers o :=
  registers_congr (invalidate_get o (by decide)) (invalidate_length o) (invalidate_drop o)

end

theorem invalidate_not_valid (header : hllHdrSize ≤ o.length) : hllValidCache (hllInvalidateCache o) = false := by
  have inside : 15 < o.length := header
  have byte : (hllInvalidateCache o).getD 15 0 = o[15] ||| 0x80 := by
    rw [hllInvalidateCache, getD_eq_getElem?_getD, getElem?_modify_eq, getElem?_eq_getElem inside]
    rfl
  have bit : ∀ b : UInt8, ¬ (b ||| 0x80) &&& 0x80 = 0 := by
    intro b zero
    have high := congrArg (fun c : UInt8 => c.toNat.testBit 7) zero
    simp only [UInt8.toNat_and, UInt8.toNat_or, Nat.testBit_and, Nat.testBit_or] at high
    rw [show Nat.testBit (128 : UInt8).toNat 7 = true from rfl, Bool.or_true] at high
    cases high
  rw [hllValidCache, byte, decide_eq_false (bit _)]

theorem pfmergeWrite_spec : ∀ (vals : List Nat) (j : Nat) (o : List UInt8), DenseOk o → j + vals.length ≤ hllRegisters →
    (∀ val ∈ vals, val < 64) →
    ∃ o', pfmergeWrite vals j o = some o' ∧ DenseOk o' ∧ o'.take hllHdrSize = o.take hllHdrSize ∧
      ∀ i, denseView o' i = if j ≤ i then vals.getD (i - j) (denseView o i) else denseView o i := by
  intro vals
  induction vals with
  | nil => exact fun j o ok _ _ => ⟨o, rfl, ok, rfl, fun i => by rw [getD_nil, ite_self]⟩
  | cons val vals ih =>
    intro j o ok inside small
    rw [length_cons] at inside
    obtain ⟨o₁, written, ⟨ok₁, header₁⟩, view₁⟩ := dense_set ok (show j < hllRegisters by omega) (small val mem_cons_self)
    obtain ⟨o', rest, ok', header', view'⟩ := ih (j + 1) o₁ ok₁ (by omega) fun v member => small v (mem_cons_of_mem _ member)
    refine ⟨o', ?_, ok', header'.trans header₁, ?_⟩
    · simp only [pfmergeWrite, written, bind_eq_bind, bind_some]
      exact rest
    · intro i
      rw [view' i, view₁ i]
      rcases Nat.lt_trichotomy i j with before | rfl | after
      · rw [if_neg (by omega), if_neg (by omega), if_neg (by omega)]
      · rw [if_neg (by omega), if_pos rfl, if_pos (Nat.le_refl i), Nat.sub_self, getD_cons_zero]
      · have next : i - j = i - (j + 1) + 1 := by omega
        rw [if_neg (Nat.ne_of_gt after), if_pos (by omega), if_pos (by omega), next, getD_cons_succ]

theorem encoding_of_header {o o' : List UInt8} (header : o'.take hllHdrSize = o.take hllHdrSize) : hllEncoding o' = hllEncoding o := by
  have byte := congrArg (fun h : List UInt8 => h[4]?) header
  rw [getElem?_take_of_lt (by decide), getElem?_take_of_lt (by decide)] at byte
  exact byte

theorem magic_of_header {o o' : List UInt8} (header : o'.take hllHdrSize = o.take hllHdrSize) : o'.take 4 = o.take 4 := by
  have magic := congrArg (List.take 4) header
  rw [take_take, take_take] at magic
  exact magic

theorem pfmergeWrite_all {regs vals : List Nat} (decoded : registers o = some regs)
    (length : vals.length = hllRegisters) (small : ∀ val ∈ vals, val < 64) :
    ∃ dense o', hllSparseToDense o = some (some dense) ∧ pfmergeWrite vals 0 dense = some o' ∧
      registers o' = some vals ∧ o'.take 4 = o.take 4 := by
  obtain ⟨dense, converted, ok, encoding, magic⟩ : ∃ dense, hllSparseToDense o = some (some dense) ∧ DenseOk dense ∧
      hllEncoding dense = some hllDense ∧ dense.take 4 = o.take 4 := by
    rcases registers_cases decoded with ⟨encoding, ok, _⟩ | ⟨ops, ok, _⟩
    · exact ⟨o, toDense_dense encoding, ok, encoding, rfl⟩
    · obtain ⟨dense, converted, denseOk, encoding, magic, _⟩ := toDense_sparse ok
      exact ⟨dense, converted, denseOk, encoding, magic⟩
  obtain ⟨o', written, ok', header, view⟩ := pfmergeWrite_spec vals 0 dense ok (by rw [length, Nat.zero_add]) small
  refine ⟨dense, o', converted, written, ?_, (magic_of_header header).trans magic⟩
  apply registers_dense_eq ((encoding_of_header header).trans encoding) ok' length
  intro j below
  rw [view j, if_pos (Nat.zero_le j), Nat.sub_zero, getD_eq_getElem _ _ (by rwa [length]), getElem?_eq_getElem]

theorem validKey_dest {dest : List UInt8} (valid : ValidKey db dest) :
    ∃ o regs, (db dest = none ∧ o = createHLLObject ∨ db dest = some (.raw o)) ∧ o.take 4 = hllMagic ∧ registers o = some regs := by
  cases found : db dest with
  | none => exact ⟨_, _, .inl ⟨rfl, rfl⟩, rfl, registers_sparse create_ok⟩
  | some object =>
    obtain ⟨o, regs, rfl, magic, decoded⟩ := valid object found
    exact ⟨o, regs, .inr rfl, magic, decoded⟩

theorem pfmergeCommand_spec {dest : List UInt8} {srcs : List (List UInt8)} (valid : ∀ key ∈ dest :: srcs, ValidKey db key) :
    ∃ o, pfmergeCommand db dest srcs = some (Function.update db dest (some (.raw (hllInvalidateCache o))), .ok) ∧
      registers o = some (join (sources db (dest :: srcs))) ∧ o.take 4 = hllMagic := by
  obtain ⟨o, regs, dest_, magic, decoded⟩ := validKey_dest (valid dest mem_cons_self)
  obtain ⟨dense, o', converted, written, merged, magic'⟩ := pfmergeWrite_all decoded (join_length _)
    (join_lt (sources_lt db (dest :: srcs)))
  refine ⟨o', ?_, merged, magic'.trans magic⟩
  rcases dest_ with ⟨missing, rfl⟩ | found
  · simp only [pfmergeCommand, hllMergeKeys_join valid, missing, converted, written, bind_eq_bind, bind_some]
    rfl
  · simp only [pfmergeCommand, hllMergeKeys_join valid, found, converted, written, bind_eq_bind, bind_some]
    rfl

section
variable {F : Type} (D : Doubles F)

theorem runOps_total {σ : Type} {run : Nat → Nat → Nat → σ → Option σ}
    (total : ∀ idx runlen regval state, ∃ state', run idx runlen regval state = some state') :
    ∀ (ops : List Opcode) (idx : Nat) (state : σ), idx + (expand ops).length ≤ hllRegisters →
      ∃ state', runOps run ops idx state = some (idx + (expand ops).length, state') := by
  intro ops
  induction ops with
  | nil => exact fun idx state _ => ⟨state, rfl⟩
  | cons op ops ih =>
    intro idx state inside
    rw [expand_cons, length_append, length_replicate] at inside ⊢
    obtain ⟨state₁, first⟩ := total idx op.runlen op.value state
    obtain ⟨state', rest⟩ := ih (idx + op.runlen) state₁ (by omega)
    have noWrap : (idx + op.runlen) % 2 ^ 32 = idx + op.runlen := by
      unfold hllRegisters at inside
      omega
    exact ⟨state', by rw [runOps, first, bind_some, noWrap, rest, Nat.add_assoc]⟩

theorem hllCount_spec (decoded : registers o = some regs) : ∃ card, hllCount D o = some (card, false) := by
  rcases registers_cases decoded with ⟨encoding, _⟩ | ⟨ops, ok, _⟩
  · simp only [hllCount, encoding, if_true, bind_eq_bind, bind_some]
    exact ⟨_, rfl⟩
  · have total : ∀ (idx runlen regval : Nat) (state : F × Nat), ∃ state',
        (if regval = 0 then some (state.1, state.2 + runlen)
          else some (D.add state.1 (D.mul (hllPE D regval) (D.ofNat runlen)), state.2)) = some state' := by
      intro idx runlen regval state
      split
      next => exact ⟨_, rfl⟩
      next => exact ⟨_, rfl⟩
    obtain ⟨⟨sum, ez⟩, ran⟩ := runOps_total total ops 0 (D.ofNat 0, 0) (by rw [Nat.zero_add, ok.total])
    have parsed := hllSparseRuns_encode (fun _ runlen regval (state : F × Nat) =>
      if regval = 0 then some (state.1, state.2 + runlen)
      else some (D.add state.1 (D.mul (hllPE D regval) (D.ofNat runlen)), state.2)) ops ok.valid [] 0 (D.ofNat 0, 0)
    rw [append_nil, ran, bind_some, ok.total, Nat.zero_add, ← ok.content] at parsed
    have notDense : ¬ hllSparse = hllDense := dense_ne_sparse.symm
    simp only [hllCount, ok.encoding, notDense, if_false, if_true, hllSparseSum, parsed, hllSparseRuns,
      bind_eq_bind, bind_some, ne_eq, not_true, decide_false]
    exact ⟨_, rfl⟩

theorem hllCount_congr {o o' : List UInt8} (encoding : hllEncoding o' = hllEncoding o)
    (payload : o'.drop hllHdrSize = o.drop hllHdrSize) : hllCount D o' = hllCount D o := by
  rw [hllCount, hllCount, encoding, payload]

def CacheOk (o : List UInt8) : Prop :=
  hllValidCache o = true → ∃ card, hllCount D o = some (card, false) ∧ hllCard o = card.toNat

structure ValueOk (o : List UInt8) : Prop where
  magic : o.take 4 = hllMagic
  decoded : ∃ regs, registers o = some regs
  cache : CacheOk D o

def DbOk (db : HllDb) : Prop :=
  ∀ key object, db key = some object →
    (∃ o, object = .raw o ∧ ValueOk D o) ∨ ∃ reply, isHLLObjectOrReply object = some (.error reply)

variable {D}

theorem invalidate_ok (magic : o.take 4 = hllMagic) (decoded : registers o = some regs) : ValueOk D (hllInvalidateCache o) where
  magic := (invalidate_take o).trans magic
  decoded := ⟨regs, (registers_invalidate o).trans decoded⟩
  cache valid := by
    rw [invalidate_not_valid (registers_header decoded)] at valid
    cases valid

theorem update_ok (key : List UInt8) (ok : DbOk D db) (value : ValueOk D o) : DbOk D (Function.update db key (some (.raw o))) := by
  intro other object found
  by_cases same : other = key
  · rw [same, Function.update_self] at found
    exact .inl ⟨o, (some.inj found).symm, value⟩
  · rw [Function.update_of_ne same] at found
    exact ok other object found

theorem hllAdd_spec (maxBytes : Nat) (ele : List UInt8) (decoded : registers o = some regs) :
    ∃ o' retval, hllAdd maxBytes o ele = some (o', retval) ∧ Added o regs (hllPatLen ele).1 (hllPatLen ele).2 o' retval := by
  obtain ⟨inside, positive, small⟩ := hllPatLen_bounds ele
  rcases registers_cases decoded with ⟨encoding, ok, _⟩ | ⟨ops, ok, rfl⟩
  · obtain ⟨o', retval, ran, added⟩ := hllDenseAdd_spec encoding ok decoded inside small
    refine ⟨o', retval, ?_, added⟩
    simp only [hllAdd, encoding, if_true, bind_eq_bind, bind_some, ran]
  · obtain ⟨o', retval, ran, added⟩ := hllSparseAddPattern_spec maxBytes ok inside positive small
    have notDense : ¬ hllSparse = hllDense := dense_ne_sparse.symm
    refine ⟨o', retval, ?_, added⟩
    simp only [hllAdd, ok.encoding, notDense, if_false, if_true, bind_eq_bind, bind_some, hllSparseAdd, ran]

theorem pfaddElements_spec (maxBytes : Nat) : ∀ (eles : List (List UInt8)) (o : List UInt8) (regs : List Nat) (updated : Nat),
    registers o = some regs →
    ∃ o' regs' updated', pfaddElements maxBytes eles o updated = some (o', some updated') ∧ registers o' = some regs' ∧
      o'.take 4 = o.take 4 ∧ updated ≤ updated' ∧ (updated' = updated → o' = o) := by
  intro eles
  induction eles with
  | nil => exact fun o regs updated decoded => ⟨o, regs, updated, rfl, decoded, rfl, Nat.le_refl _, fun _ => rfl⟩
  | cons ele eles ih =>
    intro o regs updated decoded
    obtain ⟨o₁, retval, ran, added⟩ := hllAdd_spec maxBytes ele decoded
    have result := added.result
    split at result
    next =>
      obtain rfl := result
      obtain ⟨o', regs', updated', rest, decoded', magic, grows, _⟩ := ih o₁ _ (updated + 1) added.registers
      refine ⟨o', regs', updated', ?_, decoded', magic.trans added.magic, by omega, fun same => by omega⟩
      simp only [pfaddElements, ran, bind_eq_bind, bind_some]
      exact rest
    next =>
      obtain rfl := result
      have same : o₁ = o := added.unchanged rfl
      obtain ⟨o', regs', updated', rest, decoded', magic, grows, kept⟩ := ih o₁ _ updated added.registers
      refine ⟨o', regs', updated', ?_, decoded', magic.trans added.magic, grows, fun equal => (kept equal).trans same⟩
      simp only [pfaddElements, ran, bind_eq_bind, bind_some]
      exact rest

theorem pfaddCommand_ok (ok : DbOk D db) (maxBytes : Nat) (key : List UInt8) (eles : List (List UInt8)) :
    ∃ db' reply, pfaddCommand maxBytes db key eles = some (db', reply) ∧ DbOk D db' := by
  -- a created value counts as an update
  have value : ∀ (o : List UInt8) (regs : List Nat) (created : Nat), isHLLObjectOrReply ((db key).getD (.raw createHLLObject)) =
        some (.ok o) → o.take 4 = hllMagic → registers o = some regs → (if (db key).isNone then 1 else 0) = created →
        (created = 0 → ValueOk D o) →
      ∃ db' reply, pfaddCommand maxBytes db key eles = some (db', reply) ∧ DbOk D db' := by
    intro o regs created accepted magic decoded counted old
    obtain ⟨o', regs', updated, ran, decoded', magic', grows, kept⟩ := pfaddElements_spec maxBytes eles o regs created decoded
    by_cases zero : updated = 0
    · have none_ : created = 0 := by omega
      refine ⟨Function.update db key (some (.raw o')), .int 0, ?_, update_ok key ok ?_⟩
      · simp only [pfaddCommand, accepted, counted, ran, zero, bind_eq_bind, bind_some]
        rfl
      · rw [kept (by omega)]
        exact old none_
    · refine ⟨Function.update db key (some (.raw (hllInvalidateCache o'))), .int 1, ?_,
        update_ok key ok (invalidate_ok (magic'.trans magic) decoded')⟩
      simp only [pfaddCommand, accepted, counted, ran, bind_eq_bind, bind_some, ne_eq, zero, not_false_eq_true, if_true]
      rfl
  cases found : db key with
  | none =>
    exact value createHLLObject _ 1 (by rw [found]; rfl) rfl (registers_sparse create_ok) (by rw [found]; rfl)
      fun zero => absurd zero (by decide)
  | some object =>
    rcases ok key object found with ⟨o, rfl, valid⟩ | ⟨reply, rejected⟩
    · obtain ⟨regs, decoded⟩ := valid.decoded
      exact value o regs 0 (by rw [found]; exact accepted_of_registers valid.magic decoded) valid.magic decoded
        (by rw [found]; rfl) fun _ => valid
    · refine ⟨db, reply, ?_, ok⟩
      simp only [pfaddCommand, found, getD_some, rejected, bind_eq_bind, bind_some]
      rfl

/-- Merging the keys of a database of valid values ends with an error reply or with
registers; then every key was valid. -/
theorem hllMergeKeys_total (ok : DbOk D db) : ∀ (keys : List (List UInt8)) (max_ : List Nat), max_.length = hllRegisters →
    ∃ result, hllMergeKeys db keys max_ = some result ∧ ∀ merged, result = .ok merged → ∀ key ∈ keys, ValidKey db key := by
  intro keys
  induction keys with
  | nil => exact fun max_ _ => ⟨_, rfl, fun _ _ key member => absurd member (not_mem_nil)⟩
  | cons key keys ih =>
    intro max_ length
    cases found : db key with
    | none =>
      obtain ⟨result, ran, valid⟩ := ih max_ length
      refine ⟨result, by rw [hllMergeKeys, found]; exact ran, ?_⟩
      intro merged same other member
      rcases mem_cons.mp member with rfl | later
      · exact fun object here => by rw [found] at here; cases here
      · exact valid merged same other later
    | some object =>
      rcases ok key object found with ⟨o, rfl, value⟩ | ⟨reply, rejected⟩
      · obtain ⟨regs, decoded⟩ := value.decoded
        obtain ⟨result, ran, valid⟩ := ih (List.zipWith max max_ regs)
          (by rw [length_zipWith, length, registers_length decoded, Nat.min_self])
        refine ⟨result, ?_, ?_⟩
        · simp only [hllMergeKeys, found, accepted_of_registers value.magic decoded, hllMerge_spec decoded length,
            bind_eq_bind, bind_some]
          exact ran
        · intro merged same other member
          rcases mem_cons.mp member with rfl | later
          · exact fun object here => ⟨o, regs, (some.inj (found.symm.trans here)).symm, value.magic, decoded⟩
          · exact valid merged same other later
      · refine ⟨.error reply, ?_, fun merged same => by cases same⟩
        simp only [hllMergeKeys, found, rejected, bind_eq_bind, bind_some]
        rfl

theorem setCard_ok {card : UInt64} (valid : ValueOk D o) (counted : hllCount D o = some (card, false)) :
    ValueOk D (o.take 8 ++ Bytes.leBytes 8 card.toNat ++ o.drop 16) := by
  obtain ⟨regs, decoded⟩ := valid.decoded
  have header : 16 ≤ o.length := registers_header decoded
  have first : (o.take 8).length = 8 := by rw [length_take, Nat.min_eq_left (by omega)]
  have front : (o.take 8 ++ Bytes.leBytes 8 card.toNat).length = 16 := by
    rw [length_append, first, Bytes.leBytes_length]
  have payload : (o.take 8 ++ Bytes.leBytes 8 card.toNat ++ o.drop 16).drop hllHdrSize = o.drop hllHdrSize := drop_left' front
  have length : (o.take 8 ++ Bytes.leBytes 8 card.toNat ++ o.drop 16).length = o.length := by
    rw [length_append, front, length_drop]
    omega
  have encoding : hllEncoding (o.take 8 ++ Bytes.leBytes 8 card.toNat ++ o.drop 16) = hllEncoding o := by
    rw [hllEncoding, append_assoc, getElem?_append_left (by omega), getElem?_take_of_lt (by decide)]
    rfl
  have stored : hllCard (o.take 8 ++ Bytes.leBytes 8 card.toNat ++ o.drop 16) = card.toNat := by
    rw [hllCard, append_assoc, drop_left' first, take_left' (Bytes.leBytes_length 8 _), Bytes.leValue_leBytes]
    exact Nat.mod_eq_of_lt card.toNat_lt
  refine ⟨?_, ⟨regs, ?_⟩, fun _ => ⟨card, ?_, stored⟩⟩
  · rw [append_assoc, take_append_of_le_length (by omega), take_take]
    exact valid.magic
  · rw [registers_congr encoding length payload, decoded]
  · rw [hllCount_congr D encoding payload, counted]

theorem pfcountCommand_ok (ok : DbOk D db) (keys : List (List UInt8)) :
    ∃ db' reply, pfcountCommand D db keys = some (db', reply) ∧ DbOk D db' := by
  have several : ∃ db' reply, pfcountKeys D db keys = some (db', reply) ∧ DbOk D db' := by
    obtain ⟨result, ran, _⟩ := hllMergeKeys_total ok keys (replicate hllRegisters 0) length_replicate
    cases result with
    | error reply => exact ⟨db, reply, by simp only [pfcountKeys, ran, bind_eq_bind, bind_some]; rfl, ok⟩
    | ok merged => exact ⟨db, _, by simp only [pfcountKeys, ran, bind_eq_bind, bind_some]; rfl, ok⟩
  rcases keys with _ | ⟨key, _ | ⟨_, _⟩⟩
  · exact several
  · cases found : db key with
    | none => exact ⟨db, .int 0, by rw [pfcountCommand, pfcountKey, found], ok⟩
    | some object =>
      rcases ok key object found with ⟨o, rfl, value⟩ | ⟨reply, rejected⟩
      · obtain ⟨regs, decoded⟩ := value.decoded
        obtain ⟨card, counted⟩ := hllCount_spec D decoded
        cases valid : hllValidCache o with
        | true =>
          refine ⟨db, .int (hllCard o), ?_, ok⟩
          simp only [pfcountCommand, pfcountKey, found, accepted_of_registers value.magic decoded, valid, if_true, bind_eq_bind, bind_some]
          rfl
        | false =>
          refine ⟨_, .int card.toNat, ?_, update_ok key ok (setCard_ok value counted)⟩
          simp only [pfcountCommand, pfcountKey, found, accepted_of_registers value.magic decoded, valid, counted,
            Bool.false_eq_true, if_false, bind_eq_bind, bind_some]
          rfl
      · refine ⟨db, reply, ?_, ok⟩
        simp only [pfcountCommand, pfcountKey, found, rejected, bind_eq_bind, bind_some]
        rfl
  · exact several

theorem pfmergeCommand_ok (ok : DbOk D db) (dest : List UInt8) (srcs : List (List UInt8)) :
    ∃ db' reply, pfmergeCommand db dest srcs = some (db', reply) ∧ DbOk D db' := by
  obtain ⟨result, ran, valid⟩ := hllMergeKeys_total ok (dest :: srcs) (replicate hllRegisters 0) length_replicate
  cases result with
  | error reply => exact ⟨db, reply, by simp only [pfmergeCommand, ran, bind_eq_bind, bind_some]; rfl, ok⟩
  | ok merged =>
    obtain ⟨o, stored, decoded, magic⟩ := pfmergeCommand_spec (valid merged rfl)
    exact ⟨_, .ok, stored, update_ok dest ok (invalidate_ok magic decoded)⟩

inductive HllOp where
  | pfadd (key : List UInt8) (eles : List (List UInt8))
  | pfcount (keys : List (List UInt8))
  | pfmerge (dest : List UInt8) (srcs : List (List UInt8))

variable (D) in
def hllStep (maxBytes : Nat) (db : HllDb) : HllOp → Option (HllDb × HllReply)
  | .pfadd key eles => pfaddCommand maxBytes db key eles
  | .pfcount keys => pfcountCommand D db keys
  | .pfmerge dest srcs => pfmergeCommand db dest srcs

theorem hllStep_ok (ok : DbOk D db) (maxBytes : Nat) (op : HllOp) : ∃ after, hllStep D maxBytes db op = some after ∧ DbOk D after.1 := by
  cases op with
  | pfadd key eles =>
    obtain ⟨db', reply, ran, ok'⟩ := pfaddCommand_ok ok maxBytes key eles
    exact ⟨(db', reply), ran, ok'⟩
  | pfcount keys =>
    obtain ⟨db', reply, ran, ok'⟩ := pfcountCommand_ok ok keys
    exact ⟨(db', reply), ran, ok'⟩
  | pfmerge dest srcs =>
    obtain ⟨db', reply, ran, ok'⟩ := pfmergeCommand_ok ok dest srcs
    exact ⟨(db', reply), ran, ok'⟩

/-- No run of commands on valid values faults, and it ends with valid caches. -/
theorem cached_count_is_current {db : HllDb} (maxBytes : Nat) (ops : List HllOp) (ok : DbOk D db) :
    ∃ db' replies, Run.exec (hllStep D maxBytes) db ops = some (db', replies) ∧
      ∀ key o, db' key = some (.raw o) → isHLLObjectOrReply (.raw o) = some (.ok o) → hllValidCache o = true →
        ∃ card, hllCount D o = some (card, false) ∧ hllCard o = card.toNat := by
  have progress : ∀ db op, DbOk D db → True → ∃ after, hllStep D maxBytes db op = some after ∧ DbOk D after.1 :=
    fun db op ok _ => hllStep_ok ok maxBytes op
  obtain ⟨db', replies, ran, ok'⟩ := Run.exec_total progress ops ok (Run.Allowed.always ops db)
  refine ⟨db', replies, ran, ?_⟩
  intro key o found accepted valid
  rcases ok' key _ found with ⟨o', same, value⟩ | ⟨reply, rejected⟩
  · cases same
    exact value.cache valid
  · rw [accepted] at rejected
    cases some.inj rejected

def machineDoubles : Doubles Float where
  ofNat := Float.ofNat
  literal m e := Float.ofScientific m.toNat (decide (e < 0)) e.natAbs
  add := Float.add
  sub := Float.sub
  mul := Float.mul
  div := Float.div
  lt a b := decide (a < b)
  log := Float.log
  toUInt64 := Float.toUInt64

theorem cached_count_is_current_empty :
    ∃ db' replies, Run.exec (hllStep machineDoubles 3000) (fun _ => none)
        [.pfadd [97] [[98]], .pfcount [[97]], .pfmerge [99] [[97]], .pfcount [[99], [97]]] = some (db', replies) ∧
      ∀ key o, db' key = some (.raw o) → isHLLObjectOrReply (.raw o) = some (.ok o) → hllValidCache o = true →
        ∃ card, hllCount machineDoubles o = some (card, false) ∧ hllCard o = card.toNat :=
  cached_count_is_current 3000 _ fun _ _ found => by cases found

end

end Cplusplus.Redis.Hll
