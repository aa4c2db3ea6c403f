import Cplusplus.Hyperloglog
import Mathlib.Data.List.Induction

/-! The sparse representation as a list of runs, and what the loops over it do to an
array of registers. -/

namespace Cplusplus.Redis.Hll
open List Option

variable {ops : List Opcode} {b : UInt8} {o : List UInt8} {regs : List Nat}

inductive Opcode where
  | zero (len : Nat)
  | xzero (len : Nat)
  | val (value len : Nat)

namespace Opcode

def Valid : Opcode → Prop
  | zero len => 1 ≤ len ∧ len ≤ 64
  | xzero len => 1 ≤ len ∧ len ≤ 16384
  | val value len => (1 ≤ value ∧ value ≤ 32) ∧ 1 ≤ len ∧ len ≤ 4

def bytes : Opcode → List UInt8
  | zero len => [hllSparseZeroSet len]
  | xzero len => hllSparseXzeroSet len
  | val value len => [hllSparseValSet value len]

def runlen : Opcode → Nat
  | zero len | xzero len | val _ len => len

def value : Opcode → Nat
  | zero _ | xzero _ => 0
  | val value _ => value

end Opcode

def encode (ops : List Opcode) : List UInt8 := ops.flatMap Opcode.bytes

def expand (ops : List Opcode) : List Nat := ops.flatMap fun op => List.replicate op.runlen op.value

def AllValid (ops : List Opcode) : Prop := ∀ op ∈ ops, op.Valid

@[simp] theorem encode_nil : encode [] = [] := rfl

@[simp] theorem expand_nil : expand [] = [] := rfl

theorem encode_cons (op : Opcode) (ops : List Opcode) : encode (op :: ops) = op.bytes ++ encode ops := rfl

theorem expand_cons (op : Opcode) (ops : List Opcode) : expand (op :: ops) = List.replicate op.runlen op.value ++ expand ops := rfl

theorem encode_append (ops ops' : List Opcode) : encode (ops ++ ops') = encode ops ++ encode ops' := flatMap_append

theorem expand_append (ops ops' : List Opcode) : expand (ops ++ ops') = expand ops ++ expand ops' := flatMap_append

theorem allValid_append {ops' : List Opcode} : AllValid (ops ++ ops') ↔ AllValid ops ∧ AllValid ops' := by
  simp only [AllValid, mem_append, or_imp, forall_and]

theorem allValid_cons {op : Opcode} : AllValid (op :: ops) ↔ op.Valid ∧ AllValid ops := by
  simp [AllValid]

theorem zeroSet_spec {len : Nat} (valid : 1 ≤ len ∧ len ≤ 64) :
    hllSparseIsZero (hllSparseZeroSet len) = true ∧ hllSparseZeroLen (hllSparseZeroSet len) = len := by
  have all : ∀ n < 64, hllSparseIsZero (hllSparseZeroSet (n + 1)) = true ∧
      hllSparseZeroLen (hllSparseZeroSet (n + 1)) = n + 1 := by decide +kernel
  have known := all (len - 1) (by omega)
  rwa [Nat.sub_add_cancel valid.1] at known

theorem valSet_spec {value len : Nat} (valid : (1 ≤ value ∧ value ≤ 32) ∧ 1 ≤ len ∧ len ≤ 4) :
    hllSparseIsZero (hllSparseValSet value len) = false ∧ hllSparseIsXzero (hllSparseValSet value len) = false ∧
      hllSparseIsVal (hllSparseValSet value len) = true ∧ hllSparseValValue (hllSparseValSet value len) = value ∧
      hllSparseValLen (hllSparseValSet value len) = len := by
  have all : ∀ v < 32, ∀ l < 4, hllSparseIsZero (hllSparseValSet (v + 1) (l + 1)) = false ∧
      hllSparseIsXzero (hllSparseValSet (v + 1) (l + 1)) = false ∧
      hllSparseIsVal (hllSparseValSet (v + 1) (l + 1)) = true ∧
      hllSparseValValue (hllSparseValSet (v + 1) (l + 1)) = v + 1 ∧
      hllSparseValLen (hllSparseValSet (v + 1) (l + 1)) = l + 1 := by decide +kernel
  have known := all (value - 1) (by omega) (len - 1) (by omega)
  rwa [Nat.sub_add_cancel valid.1.1, Nat.sub_add_cancel valid.2.1] at known

theorem xzeroSet_spec {len : Nat} (valid : 1 ≤ len ∧ len ≤ 16384) :
    ∃ b q, hllSparseXzeroSet len = [b, q] ∧ hllSparseIsZero b = false ∧ hllSparseIsXzero b = true ∧ hllSparseXzeroLen b q = len := by
  have all : ∀ h < 64, hllSparseIsZero (UInt8.ofNat (h ||| 0x40)) = false ∧
      hllSparseIsXzero (UInt8.ofNat (h ||| 0x40)) = true ∧ (UInt8.ofNat (h ||| 0x40)).toNat &&& 0x3f = h := by
    decide +kernel
  have high : (len - 1) >>> 8 < 64 := by
    rw [Nat.shiftRight_eq_div_pow]
    omega
  obtain ⟨notZero, isXzero, back⟩ := all _ high
  refine ⟨_, _, rfl, notZero, isXzero, ?_⟩
  have low : len - 1 &&& 0xff = (len - 1) % 2 ^ 8 := Nat.and_two_pow_sub_one_eq_mod (len - 1) 8
  have small : (len - 1) % 2 ^ 8 < 2 ^ 8 := Nat.mod_lt _ (Nat.two_pow_pos 8)
  rw [hllSparseXzeroLen, back, low, UInt8.toNat_ofNat', Nat.mod_mod, ← Nat.shiftLeft_add_eq_or_of_lt small,
    Nat.shiftLeft_eq, Nat.shiftRight_eq_div_pow]
  omega

theorem byte_opcode (b : UInt8) : (hllSparseIsZero b = true → hllSparseZeroSet (hllSparseZeroLen b) = b) ∧
    (hllSparseIsXzero b = true → UInt8.ofNat (b.toNat &&& 0x3f ||| 0x40) = b) ∧
    (hllSparseIsZero b = false → hllSparseIsXzero b = false → hllSparseValSet (hllSparseValValue b) (hllSparseValLen b) = b) := by
  have all : ∀ n < 256, (hllSparseIsZero (UInt8.ofNat n) = true → hllSparseZeroSet (hllSparseZeroLen (UInt8.ofNat n)) = UInt8.ofNat n) ∧
    (hllSparseIsXzero (UInt8.ofNat n) = true → UInt8.ofNat ((UInt8.ofNat n).toNat &&& 0x3f ||| 0x40) = UInt8.ofNat n) ∧
    (hllSparseIsZero (UInt8.ofNat n) = false → hllSparseIsXzero (UInt8.ofNat n) = false →
      hllSparseValSet (hllSparseValValue (UInt8.ofNat n)) (hllSparseValLen (UInt8.ofNat n)) = UInt8.ofNat n) := by
    decide +kernel
  have known := all b.toNat b.toNat_lt
  rwa [UInt8.ofNat_toNat] at known

theorem not_zero_of_xzero (isXzero : hllSparseIsXzero b = true) : hllSparseIsZero b = false := by
  rw [hllSparseIsXzero, decide_eq_true_eq] at isXzero
  rw [hllSparseIsZero, isXzero]
  rfl

theorem xzeroSet_len (b q : UInt8) (isXzero : hllSparseIsXzero b = true) :
    (Opcode.xzero (hllSparseXzeroLen b q)).Valid ∧ hllSparseXzeroSet (hllSparseXzeroLen b q) = [b, q] := by
  have high : b.toNat &&& 0x3f < 2 ^ 6 := Nat.lt_of_le_of_lt Nat.and_le_right (by decide)
  have low : q.toNat < 2 ^ 8 := q.toNat_lt
  have sum : hllSparseXzeroLen b q = (b.toNat &&& 0x3f) * 2 ^ 8 + q.toNat + 1 := by
    rw [hllSparseXzeroLen, ← Nat.shiftLeft_add_eq_or_of_lt low, Nat.shiftLeft_eq]
  have first : (hllSparseXzeroLen b q - 1) >>> 8 = b.toNat &&& 0x3f := by
    rw [sum, Nat.shiftRight_eq_div_pow]
    omega
  have second : hllSparseXzeroLen b q - 1 &&& 0xff = q.toNat := by
    have mod : hllSparseXzeroLen b q - 1 &&& 0xff = (hllSparseXzeroLen b q - 1) % 2 ^ 8 :=
      Nat.and_two_pow_sub_one_eq_mod (hllSparseXzeroLen b q - 1) 8
    rw [mod, sum]
    omega
  constructor
  · rw [Opcode.Valid]
    omega
  · rw [hllSparseXzeroSet, first, second, (byte_opcode b).2.1 isXzero, UInt8.ofNat_toNat]

theorem runlen_pos {op : Opcode} (valid : op.Valid) : 0 < op.runlen := by
  cases op with
  | zero len => exact valid.1
  | xzero len => exact valid.1
  | val value len => exact valid.2.1

section Runs

variable {σ : Type} (run : Nat → Nat → Nat → σ → Option σ)

def runOps : List Opcode → Nat → σ → Option (Nat × σ)
  | [], idx, state => some (idx, state)
  | op :: ops, idx, state => (run idx op.runlen op.value state).bind fun state => runOps ops ((idx + op.runlen) % 2 ^ 32) state

theorem runs_zero (isZero : hllSparseIsZero b = true) (p : List UInt8) (idx : Nat) (state : σ) :
    hllSparseRuns run (b :: p) idx state = (run idx (hllSparseZeroLen b) 0 state).bind fun state =>
      hllSparseRuns run p ((idx + hllSparseZeroLen b) % 2 ^ 32) state := by
  cases p <;> simp only [hllSparseRuns, isZero, if_true, bind_eq_bind]

theorem runs_xzero (isXzero : hllSparseIsXzero b = true) (q : UInt8) (p : List UInt8) (idx : Nat) (state : σ) :
    hllSparseRuns run (b :: q :: p) idx state = (run idx (hllSparseXzeroLen b q) 0 state).bind fun state =>
      hllSparseRuns run p ((idx + hllSparseXzeroLen b q) % 2 ^ 32) state := by
  simp only [hllSparseRuns, not_zero_of_xzero isXzero, isXzero, if_true, Bool.false_eq_true, if_false, bind_eq_bind]

theorem runs_val (isZero : hllSparseIsZero b = false) (isXzero : hllSparseIsXzero b = false) (p : List UInt8) (idx : Nat) (state : σ) :
    hllSparseRuns run (b :: p) idx state = (run idx (hllSparseValLen b) (hllSparseValValue b) state).bind fun state =>
      hllSparseRuns run p ((idx + hllSparseValLen b) % 2 ^ 32) state := by
  cases p <;> simp only [hllSparseRuns, isZero, isXzero, Bool.false_eq_true, if_false, bind_eq_bind]

theorem hllSparseRuns_encode (ops : List Opcode) (valid : AllValid ops) (rest : List UInt8) (idx : Nat) (state : σ) :
    hllSparseRuns run (encode ops ++ rest) idx state = (runOps run ops idx state).bind fun r => hllSparseRuns run rest r.1 r.2 := by
  induction ops generalizing idx state with
  | nil => rfl
  | cons op ops ih =>
    obtain ⟨first, valid'⟩ := allValid_cons.mp valid
    rw [encode_cons, append_assoc, runOps, bind_assoc]
    cases op with
    | zero len =>
      obtain ⟨isZero, length⟩ := zeroSet_spec first
      rw [Opcode.bytes, singleton_append, runs_zero run isZero, length]
      exact Option.bind_congr fun state _ => ih valid' _ state
    | xzero len =>
      obtain ⟨b, q, bytes, isZero, isXzero, length⟩ := xzeroSet_spec first
      rw [Opcode.bytes, bytes, cons_append, singleton_append, runs_xzero run isXzero, length]
      exact Option.bind_congr fun state _ => ih valid' _ state
    | val value len =>
      obtain ⟨isZero, isXzero, _, value', length⟩ := valSet_spec first
      rw [Opcode.bytes, singleton_append, runs_val run isZero isXzero, value', length]
      exact Option.bind_congr fun state _ => ih valid' _ state

end Runs

theorem val_valid (b : UInt8) : (Opcode.val (hllSparseValValue b) (hllSparseValLen b)).Valid := by
  have value : b.toNat >>> 2 &&& 0x1f < 2 ^ 5 := Nat.lt_of_le_of_lt Nat.and_le_right (by decide)
  have length : b.toNat &&& 0x3 < 2 ^ 2 := Nat.lt_of_le_of_lt Nat.and_le_right (by decide)
  rw [Opcode.Valid, hllSparseValValue, hllSparseValLen]
  omega

theorem zero_valid (b : UInt8) : (Opcode.zero (hllSparseZeroLen b)).Valid := by
  have length : b.toNat &&& 0x3f < 2 ^ 6 := Nat.lt_of_le_of_lt Nat.and_le_right (by decide)
  rw [Opcode.Valid, hllSparseZeroLen]
  omega

theorem parse (p : List UInt8) : ∃ ops rest, AllValid ops ∧ p = encode ops ++ rest ∧
    (rest = [] ∨ ∃ b, rest = [b] ∧ hllSparseIsXzero b = true) := by
  have one : ∀ (b : UInt8) p, hllSparseIsXzero b = false →
      (∃ ops rest, AllValid ops ∧ p = encode ops ++ rest ∧ (rest = [] ∨ ∃ b, rest = [b] ∧ hllSparseIsXzero b = true)) →
      ∃ ops rest, AllValid ops ∧ b :: p = encode ops ++ rest ∧ (rest = [] ∨ ∃ b, rest = [b] ∧ hllSparseIsXzero b = true) := by
    intro b p isXzero later
    obtain ⟨ops, rest, valid, rfl, half⟩ := later
    cases isZero : hllSparseIsZero b with
    | true =>
      refine ⟨.zero (hllSparseZeroLen b) :: ops, rest, allValid_cons.mpr ⟨zero_valid b, valid⟩, ?_, half⟩
      rw [encode_cons, Opcode.bytes, (byte_opcode b).1 isZero]
      rfl
    | false =>
      refine ⟨.val (hllSparseValValue b) (hllSparseValLen b) :: ops, rest, allValid_cons.mpr ⟨val_valid b, valid⟩, ?_, half⟩
      rw [encode_cons, Opcode.bytes, (byte_opcode b).2.2 isZero isXzero]
      rfl
  have nothing : ∃ ops rest, AllValid ops ∧ [] = encode ops ++ rest ∧
      (rest = [] ∨ ∃ b, rest = [b] ∧ hllSparseIsXzero b = true) := ⟨[], [], by simp [AllValid], rfl, .inl rfl⟩
  induction p using List.twoStepInduction with
  | nil => exact nothing
  | singleton b =>
    cases isXzero : hllSparseIsXzero b with
    | true => exact ⟨[], [b], by simp [AllValid], rfl, .inr ⟨b, rfl, isXzero⟩⟩
    | false => exact one b [] isXzero nothing
  | cons_cons b q p ih ih' =>
    cases isXzero : hllSparseIsXzero b with
    | true =>
      obtain ⟨ops, rest, valid, rfl, half⟩ := ih
      obtain ⟨fits, bytes⟩ := xzeroSet_len b q isXzero
      refine ⟨.xzero (hllSparseXzeroLen b q) :: ops, rest, allValid_cons.mpr ⟨fits, valid⟩, ?_, half⟩
      rw [encode_cons, Opcode.bytes, bytes]
      rfl
    | false => exact one b (q :: p) isXzero (ih' q)

/-! The registers of a value in either representation, the conversion from sparse to
dense, and merging. A loop over runs treats every register on its own. -/

theorem getElem?_getD {l : List Nat} {j : Nat} (inside : j < l.length) : l[j]? = some (l.getD j 0) := by
  rw [getD_eq_getElem _ _ inside, getElem?_eq_getElem inside]

section Pointwise

variable {σ : Type}

structure Pointwise (set : Nat → Nat → σ → Option σ) (ok : σ → Prop) (view : σ → Nat → Nat)
    (update : Nat → Nat → Nat) : Prop where
  defined : ∀ idx val state, ok state → idx < hllRegisters → 1 ≤ val → val < 64 → ∃ state', set idx val state = some state' ∧
    ok state' ∧ ∀ j < hllRegisters, view state' j = if j = idx then update (view state j) val else view state j

variable {set : Nat → Nat → σ → Option σ} {ok : σ → Prop} {view : σ → Nat → Nat} {update : Nat → Nat → Nat}

theorem Pointwise.run (pointwise : Pointwise set ok view update) {val : Nat} (positive : 1 ≤ val) (small : val < 64) :
    ∀ (runlen idx : Nat) (state : σ), ok state → idx + runlen ≤ hllRegisters →
      ∃ state', hllRunRegisters set idx runlen val state = some state' ∧ ok state' ∧ ∀ j < hllRegisters,
        view state' j = if idx ≤ j ∧ j < idx + runlen then update (view state j) val else view state j := by
  intro runlen
  induction runlen with
  | zero => exact fun idx state good _ => ⟨state, rfl, good, fun j _ => by rw [if_neg (by omega)]⟩
  | succ runlen ih =>
    intro idx state good inside
    obtain ⟨state₁, first, good₁, here⟩ := pointwise.defined idx val state good (by omega) positive small
    obtain ⟨state', rest, good', all⟩ := ih (idx + 1) state₁ good₁ (by omega)
    refine ⟨state', by simp only [hllRunRegisters, first, rest, bind_eq_bind, bind_some], good', ?_⟩
    intro j below
    rw [all j below, here j below]
    rcases Nat.lt_trichotomy j idx with before | rfl | after
    · rw [if_neg (by omega), if_neg (by omega), if_neg (by omega)]
    · rw [if_neg (by omega), if_pos rfl, if_pos (by omega)]
    · rw [if_neg (Nat.ne_of_gt after)]
      have same : (idx + 1 ≤ j ∧ j < idx + 1 + runlen) = (idx ≤ j ∧ j < idx + (runlen + 1)) := by
        rw [eq_iff_iff]
        omega
      simp only [same]

def runBody (set : Nat → Nat → σ → Option σ) (idx runlen regval : Nat) (state : σ) : Option σ :=
  if regval = 0 then some state else hllRunRegisters set idx runlen regval state

theorem Pointwise.runs (pointwise : Pointwise set ok view update) :
    ∀ (ops : List Opcode) (idx : Nat) (state : σ), AllValid ops → ok state → idx + (expand ops).length ≤ hllRegisters →
      ∃ state', runOps (runBody set) ops idx state = some (idx + (expand ops).length, state') ∧ ok state' ∧
        ∀ j < hllRegisters, view state' j = match (expand ops)[j - idx]? with
          | some val => if idx ≤ j ∧ val ≠ 0 then update (view state j) val else view state j
          | none => view state j := by
  intro ops
  induction ops with
  | nil => exact fun idx state _ good _ => ⟨state, rfl, good, fun j _ => rfl⟩
  | cons op ops ih =>
    intro idx state valid good inside
    obtain ⟨first, valid⟩ := allValid_cons.mp valid
    rw [expand_cons, length_append, length_replicate] at inside ⊢
    obtain ⟨state₁, body, good₁, here⟩ : ∃ state₁, runBody set idx op.runlen op.value state = some state₁ ∧ ok state₁ ∧
        ∀ j < hllRegisters, view state₁ j =
          if (idx ≤ j ∧ j < idx + op.runlen) ∧ op.value ≠ 0 then update (view state j) op.value else view state j := by
      by_cases zero : op.value = 0
      · exact ⟨state, if_pos zero, good, fun j _ => by rw [if_neg (by simp [zero])]⟩
      · have small : op.value < 64 := by
          cases op with
          | zero | xzero => exact absurd rfl zero
          | val value len => exact Nat.lt_of_le_of_lt first.1.2 (by decide)
        obtain ⟨state₁, ran, good₁, here⟩ := pointwise.run (Nat.pos_of_ne_zero zero) small op.runlen idx state good (by omega)
        refine ⟨state₁, by rw [runBody, if_neg zero, ran], good₁, fun j below => ?_⟩
        simp only [here j below, ne_eq, zero, not_false_eq_true, and_true]
    obtain ⟨state', rest, good', all⟩ := ih (idx + op.runlen) state₁ valid good₁ (by omega)
    have noWrap : (idx + op.runlen) % 2 ^ 32 = idx + op.runlen := by
      unfold hllRegisters at inside
      omega
    refine ⟨state', ?_, good', ?_⟩
    · rw [runOps, body, bind_some, noWrap, rest, Nat.add_assoc]
    · intro j below
      rw [all j below, here j below]
      rcases Nat.lt_or_ge j idx with before | from_
      · have zero : j - idx = 0 := by omega
        have zero' : j - (idx + op.runlen) = 0 := by omega
        have outside : ¬ idx ≤ j := by omega
        have outside' : ¬ idx + op.runlen ≤ j := by omega
        simp only [outside, outside', false_and, if_false]
        cases (expand ops)[j - (idx + op.runlen)]? <;> cases (List.replicate op.runlen op.value ++ expand ops)[j - idx]? <;> rfl
      · rcases Nat.lt_or_ge j (idx + op.runlen) with inRun | later
        · have outside' : ¬ idx + op.runlen ≤ j := by omega
          have at_ : (List.replicate op.runlen op.value ++ expand ops)[j - idx]? = some op.value := by
            rw [getElem?_append_left (by rw [length_replicate]; omega), getElem?_replicate, if_pos (by omega)]
          simp only [at_, from_, inRun, outside', true_and, and_self, false_and, if_false]
          cases (expand ops)[j - (idx + op.runlen)]? <;> rfl
        · have at_ : (List.replicate op.runlen op.value ++ expand ops)[j - idx]? = (expand ops)[j - (idx + op.runlen)]? := by
            rw [getElem?_append_right (by rw [length_replicate]; omega), length_replicate, Nat.sub_sub]
          have notIn : ¬ j < idx + op.runlen := by omega
          simp only [at_, from_, later, notIn, and_false, false_and, if_false, true_and]

end Pointwise

def DenseOk (o : List UInt8) : Prop := o.length = hllDenseSize

def denseView (o : List UInt8) (i : Nat) : Nat := (hllDenseGetRegister o i).getD 0

private theorem memory_length (ok : DenseOk o) : (o.drop hllHdrSize ++ [0]).length = 12289 := by
  rw [length_append, length_drop, ok]
  rfl

theorem dense_get {i : Nat} (ok : DenseOk o) (inside : i < hllRegisters) :
    hllDenseGetRegister o i = some (denseView o i) ∧ denseView o i < 64 := by
  unfold hllRegisters at inside
  obtain ⟨v, read, _⟩ := PackedBits.get_some 6 (p := o.drop hllHdrSize ++ [0]) (i := i)
    (by rw [memory_length ok]; omega)
  have here : hllDenseGetRegister o i = some v := read
  rw [denseView, here]
  exact ⟨rfl, PackedBits.get_lt read⟩

theorem dense_set {i v : Nat} (ok : DenseOk o) (inside : i < hllRegisters) (small : v < 64) :
    ∃ o', hllDenseSetRegister o i v = some o' ∧ (DenseOk o' ∧ o'.take hllHdrSize = o.take hllHdrSize) ∧
      ∀ j, denseView o' j = if j = i then v else denseView o j := by
  unfold hllRegisters at inside
  have length := memory_length ok
  have bound : i * 6 / 8 + 1 < (o.drop hllHdrSize ++ [0]).length := by
    rw [length]
    omega
  obtain ⟨p, written, length', bits⟩ := PackedBits.set_some 6 (by decide) small bound
  obtain ⟨self, others⟩ := PackedBits.get_set (by decide) small written bound
  rw [length] at length'
  -- the byte behind the registers stays 0
  obtain ⟨q, last, rfl⟩ : ∃ q last, p = q ++ [last] := by
    refine ⟨p.dropLast, p.getLast (by intro empty; simp [empty] at length'), (dropLast_concat_getLast _).symm⟩
  have size : q.length = 12288 := by
    rw [length_append, length_singleton] at length'
    omega
  obtain rfl : last = 0 := by
    apply UInt8.toNat_inj.mp
    apply Nat.eq_of_testBit_eq
    intro b
    rcases Nat.lt_or_ge b 8 with near | far
    · have here := bits (8 * 12288 + b)
      have byte : (8 * 12288 + b) / 8 = 12288 := by omega
      have bit : (8 * 12288 + b) % 8 = b := by omega
      have old : (o.drop hllHdrSize).length = 12288 := by
        rw [length_append, length_singleton] at length
        omega
      rw [if_neg (by omega), PackedBits.bitAt, PackedBits.bitAt, byte, bit, getD_append_right _ _ _ _ (by omega),
        getD_append_right _ _ _ _ (by omega), size, old] at here
      exact here
    · rw [PackedBits.byte_testBit _ far, PackedBits.byte_testBit _ far]
  refine ⟨o.take hllHdrSize ++ q, ?_, ⟨?_, ?_⟩, ?_⟩
  · simp only [hllDenseSetRegister, written, bind_eq_bind, bind_some, dropLast_concat]
    rfl
  · have header : (o.take hllHdrSize).length = 16 := by
      rw [length_take, ok]
      rfl
    rw [DenseOk, length_append, header, size]
    rfl
  · rw [take_append_of_le_length (by rw [length_take, ok]; decide), take_take, Nat.min_self]
  · have memory : (o.take hllHdrSize ++ q).drop hllHdrSize = q := by
      rw [drop_append_of_le_length (by rw [length_take, ok]; decide), drop_take, Nat.sub_self, take_zero, nil_append]
    intro j
    rw [denseView, denseView, hllDenseGetRegister, hllDenseGetRegister, memory]
    split
    next same => rw [same, self, getD_some]
    next other => rw [others j other]

theorem dense_pointwise (header : List UInt8) : Pointwise (fun idx regval dense => hllDenseSetRegister dense idx regval)
      (fun o => DenseOk o ∧ o.take hllHdrSize = header) denseView (fun _ val => val) where
  defined idx val o ok inside _ small := by
    obtain ⟨o', written, ⟨ok', header'⟩, view⟩ := dense_set ok.1 inside small
    exact ⟨o', written, ⟨ok', header'.trans ok.2⟩, fun j _ => view j⟩

def sparseRegisters (p : List UInt8) : Option (List Nat) :=
  ((hllSparseRuns (fun _ runlen regval regs => some (regs ++ List.replicate runlen regval)) p 0 []).map Prod.snd).filter
    fun regs => regs.length = hllRegisters

def registers (o : List UInt8) : Option (List Nat) :=
  if hllEncoding o = some hllDense ∧ o.length = hllDenseSize then some ((List.range hllRegisters).map (denseView o))
  else if hllEncoding o = some hllSparse ∧ hllHdrSize ≤ o.length then sparseRegisters (o.drop hllHdrSize)
  else none

structure SparseOk (o : List UInt8) (ops : List Opcode) : Prop where
  encoding : hllEncoding o = some hllSparse
  header : hllHdrSize ≤ o.length
  content : o.drop hllHdrSize = encode ops
  valid : AllValid ops
  total : (expand ops).length = hllRegisters

theorem runOps_collect (ops : List Opcode) (idx : Nat) (regs : List Nat) :
    ∃ idx', runOps (fun _ runlen regval regs => some (regs ++ List.replicate runlen regval)) ops idx regs =
      some (idx', regs ++ expand ops) := by
  induction ops generalizing idx regs with
  | nil => exact ⟨idx, by rw [runOps, expand_nil, append_nil]⟩
  | cons op ops ih =>
    obtain ⟨idx', rest⟩ := ih ((idx + op.runlen) % 2 ^ 32) (regs ++ List.replicate op.runlen op.value)
    exact ⟨idx', by rw [runOps, bind_some, rest, expand_cons, append_assoc]⟩

theorem sparseRegisters_encode (valid : AllValid ops) :
    sparseRegisters (encode ops) = if (expand ops).length = hllRegisters then some (expand ops) else none := by
  have parsed := hllSparseRuns_encode (fun _ runlen regval regs => some (regs ++ List.replicate runlen regval)) ops valid []
    0 []
  obtain ⟨idx', collected⟩ := runOps_collect ops 0 []
  rw [append_nil, collected, bind_some, nil_append] at parsed
  rw [sparseRegisters, parsed]
  simp [hllSparseRuns, Option.filter]

theorem sparseRegisters_some {p : List UInt8} (decoded : sparseRegisters p = some regs) :
    ∃ ops, AllValid ops ∧ p = encode ops ∧ regs = expand ops ∧ (expand ops).length = hllRegisters := by
  obtain ⟨ops, rest, valid, rfl, half⟩ := parse p
  rcases half with rfl | ⟨b, rfl, isXzero⟩
  · rw [append_nil] at decoded ⊢
    rw [sparseRegisters_encode valid] at decoded
    split at decoded
    next total => exact ⟨ops, valid, rfl, (some.inj decoded).symm, total⟩
    next => cases decoded
  · obtain ⟨idx', collected⟩ := runOps_collect ops 0 []
    rw [sparseRegisters, hllSparseRuns_encode _ ops valid, collected, bind_some] at decoded
    simp [hllSparseRuns, not_zero_of_xzero isXzero, isXzero] at decoded

theorem dense_ne_sparse : hllDense ≠ hllSparse := by decide

theorem registers_dense (encoding : hllEncoding o = some hllDense) (ok : DenseOk o) :
    registers o = some ((List.range hllRegisters).map (denseView o)) :=
  if_pos ⟨encoding, ok⟩

theorem registers_sparse (ok : SparseOk o ops) : registers o = some (expand ops) := by
  have notDense : ¬ (hllEncoding o = some hllDense ∧ o.length = hllDenseSize) := by
    rw [ok.encoding]
    rintro ⟨same, _⟩
    exact dense_ne_sparse (some.inj same).symm
  rw [registers, if_neg notDense, if_pos ⟨ok.encoding, ok.header⟩, ok.content, sparseRegisters_encode ok.valid, if_pos ok.total]

theorem registers_cases (decoded : registers o = some regs) :
    (hllEncoding o = some hllDense ∧ DenseOk o ∧ regs = (List.range hllRegisters).map (denseView o)) ∨
      ∃ ops, SparseOk o ops ∧ regs = expand ops := by
  rw [registers] at decoded
  split at decoded
  next dense => exact .inl ⟨dense.1, dense.2, (some.inj decoded).symm⟩
  next =>
    split at decoded
    next sparse =>
      obtain ⟨ops, valid, content, same, total⟩ := sparseRegisters_some decoded
      exact .inr ⟨ops, ⟨sparse.1, sparse.2, content, valid, total⟩, same⟩
    next => cases decoded

theorem registers_length (decoded : registers o = some regs) : regs.length = hllRegisters := by
  rcases registers_cases decoded with ⟨_, _, same⟩ | ⟨ops, ok, same⟩
  · rw [same, length_map, length_range]
  · rw [same, ok.total]

theorem registers_dense_eq (encoding : hllEncoding o = some hllDense) (ok : DenseOk o) (length : regs.length = hllRegisters)
    (same : ∀ j < hllRegisters, regs[j]? = some (denseView o j)) : registers o = some regs := by
  rw [registers_dense encoding ok]
  apply congrArg some
  apply ext_getElem?
  intro j
  rcases Nat.lt_or_ge j hllRegisters with inside | outside
  · rw [same j inside, getElem?_map, getElem?_range inside, map_some]
  · rw [getElem?_eq_none (by rwa [length_map, length_range]), getElem?_eq_none (by rwa [length])]

theorem invalidate_get (o : List UInt8) {i : Nat} (other : i ≠ 15) : (hllInvalidateCache o)[i]? = o[i]? := by
  rw [hllInvalidateCache, getElem?_modify_ne _ _ other.symm]

theorem invalidate_append {H : List UInt8} (E : List UInt8) (header : H.length = hllHdrSize) :
    hllInvalidateCache (H ++ E) = hllInvalidateCache H ++ E := by
  apply ext_getElem?
  intro i
  have length : (hllInvalidateCache H).length = hllHdrSize := by rw [hllInvalidateCache, length_modify, header]
  rcases Nat.lt_or_ge i hllHdrSize with inside | outside
  · rw [getElem?_append_left (by rwa [length]), hllInvalidateCache, hllInvalidateCache, getElem?_modify,
      getElem?_modify, getElem?_append_left (by rwa [header])]
  · have other : i ≠ 15 := by
      rintro rfl
      exact absurd outside (by decide)
    rw [getElem?_append_right (by rwa [length]), invalidate_get _ other, getElem?_append_right (by rwa [header]), length, header]

theorem invalidate_take (o : List UInt8) : (hllInvalidateCache o).take 4 = o.take 4 := by
  apply ext_getElem?
  intro i
  rw [getElem?_take, getElem?_take]
  split
  next inside => exact invalidate_get o (by omega)
  next => rfl

theorem toDense_dense (encoding : hllEncoding o = some hllDense) : hllSparseToDense o = some (some o) := by
  simp [hllSparseToDense, encoding]

theorem denseFrom_spec (header : hllHdrSize ≤ o.length) :
    DenseOk (hllDenseFrom o) ∧ (hllDenseFrom o).take hllHdrSize = (o.take hllHdrSize).set 4 hllDense ∧
      ∀ j < hllRegisters, denseView (hllDenseFrom o) j = 0 := by
  have length : ((o.take hllHdrSize).set 4 hllDense).length = hllHdrSize := by
    rw [length_set, length_take, Nat.min_eq_left header]
  have ok : DenseOk (hllDenseFrom o) := by
    rw [DenseOk, hllDenseFrom, length_append, length, length_replicate]
    rfl
  refine ⟨ok, take_left' length, ?_⟩
  intro j inside
  obtain ⟨read, _⟩ := dense_get ok inside
  have zeros : (hllDenseFrom o).drop hllHdrSize ++ [0] = List.replicate (hllDenseSize - hllHdrSize + 1) 0 := by
    rw [hllDenseFrom, drop_left' length, ← replicate_succ']
  rw [hllDenseGetRegister, zeros] at read
  apply Nat.eq_of_testBit_eq
  intro b
  rw [PackedBits.get_testBit (by decide) read, PackedBits.bitAt, getD_eq_getElem?_getD, getElem?_replicate]
  split <;> simp

theorem toDense_sparse (ok : SparseOk o ops) :
    ∃ o', hllSparseToDense o = some (some o') ∧ DenseOk o' ∧ hllEncoding o' = some hllDense ∧ o'.take 4 = o.take 4 ∧
      registers o' = some (expand ops) := by
  obtain ⟨empty, header, zeros⟩ := denseFrom_spec ok.header
  obtain ⟨o', ran, ⟨ok', header'⟩, view⟩ := (dense_pointwise ((o.take hllHdrSize).set 4 hllDense)).runs ops 0
    (hllDenseFrom o) ok.valid ⟨empty, header⟩ (by rw [Nat.zero_add, ok.total])
  have parsed := hllSparseRuns_encode (runBody fun idx regval dense => hllDenseSetRegister dense idx regval) ops ok.valid [] 0
    (hllDenseFrom o)
  rw [append_nil, ran, bind_some, ok.total, Nat.zero_add, ← ok.content] at parsed
  have encoding : hllEncoding o' = some hllDense := by
    have size : 4 < (o.take hllHdrSize).length := by
      rw [length_take, Nat.min_eq_left ok.header]
      decide
    have byte : (o'.take hllHdrSize)[4]? = some hllDense := by rw [header', getElem?_set_self size]
    rwa [getElem?_take_of_lt (by decide)] at byte
  have magic : o'.take 4 = o.take 4 := by
    have same := congrArg (List.take 4) header'
    rw [take_take, take_set_of_le (Nat.le_refl 4), take_take] at same
    exact same
  refine ⟨o', ?_, ok', encoding, magic, registers_dense_eq encoding ok' ok.total ?_⟩
  · have run : hllSparseRuns (runBody fun idx regval dense => hllDenseSetRegister dense idx regval) (o.drop hllHdrSize) 0
        (hllDenseFrom o) = some (hllRegisters, o') := parsed
    have notDense : ¬ hllSparse = hllDense := dense_ne_sparse.symm
    unfold runBody at run
    simp only [hllSparseToDense, ok.encoding, notDense, if_false, bind_eq_bind, bind_some, run]
    rfl
  · intro j inside
    have here := view j inside
    have at_ := getElem?_getD (ok.total ▸ inside)
    rw [zeros j inside, Nat.sub_zero, at_] at here
    rw [here, at_]
    simp only [Nat.zero_le, true_and, ne_eq]
    split
    next => rfl
    next zero => rw [not_not.mp zero]

end Cplusplus.Redis.Hll
