import Mathlib.Algebra.Order.Ring.Nat
import Mathlib.Data.List.GetD
import Mathlib.Data.Nat.ModEq

/-! Blocks of bytes with checked accesses, and integers in little-endian order. A
pointer into a block is an offset; reading from it is reading the list after it. -/

namespace Cplusplus.Bytes

open List

variable {n offset : Nat} {block bytes : List UInt8}

def leBytes : Nat → Nat → List UInt8
  | 0, _ => []
  | width + 1, n => UInt8.ofNat n :: leBytes width (n / 256)

def leValue : List UInt8 → Nat
  | [] => 0
  | b :: bytes => b.toNat + 256 * leValue bytes

@[simp] theorem leBytes_length (width n : Nat) : (leBytes width n).length = width := by
  induction width generalizing n with
  | zero => rfl
  | succ width ih => simp [leBytes, ih]

theorem leValue_leBytes (width n : Nat) : leValue (leBytes width n) = n % 256 ^ width := by
  induction width generalizing n with
  | zero => simp [leBytes, leValue, Nat.mod_one]
  | succ width ih =>
    simp only [leBytes, leValue, ih, UInt8.toNat_ofNat']
    rw [Nat.pow_succ' (m := 256), Nat.mod_mul]

theorem leBytes_mod (width n : Nat) : leBytes width (n % 256 ^ width) = leBytes width n := by
  induction width generalizing n with
  | zero => rfl
  | succ width ih =>
    have low : UInt8.ofNat (n % 256 ^ (width + 1)) = UInt8.ofNat n := by
      apply UInt8.toNat_inj.mp
      simp only [UInt8.toNat_ofNat']
      exact Nat.mod_mod_of_dvd n (Nat.dvd_of_pow_dvd (Nat.succ_pos width) dvd_rfl)
    have high : n % 256 ^ (width + 1) / 256 = n / 256 % 256 ^ width := by
      rw [Nat.pow_succ, Nat.mul_comm, Nat.mod_mul_right_div_self]
    rw [leBytes, leBytes, low, high, ih]

def load (width : Nat) (p : List UInt8) : Option Nat :=
  if width ≤ p.length then some (leValue (p.take width)) else none

/-- Writes inside the block only. -/
def store (block : List UInt8) (offset : Nat) (bytes : List UInt8) : Option (List UInt8) :=
  if offset + bytes.length ≤ block.length then
    some (block.take offset ++ bytes ++ block.drop (offset + bytes.length))
  else none

def memmove (block : List UInt8) (dst src n : Nat) : Option (List UInt8) :=
  if src + n ≤ block.length then store block dst ((block.drop src).take n) else none

/-- `junk` stands for the unspecified bytes of a block that grows. -/
def realloc (junk : List UInt8 → Nat → UInt8) (block : List UInt8) (size : Nat) : List UInt8 :=
  block.take size ++ (List.range (size - block.length)).map (junk block)

theorem getElem?_drop_zero (block : List UInt8) (offset : Nat) : block[offset]? = (block.drop offset)[0]? := by
  rw [getElem?_drop, Nat.add_zero]

theorem load_append {width : Nat} (rest : List UInt8) (bound : n < 256 ^ width) : load width (leBytes width n ++ rest) = some n := by
  have taken : (leBytes width n ++ rest).take width = leBytes width n := by
    simp
  simp [load, taken, leValue_leBytes, Nat.mod_eq_of_lt bound]

theorem store_eq (inside : offset + bytes.length ≤ block.length) :
    store block offset bytes = some (block.take offset ++ bytes ++ block.drop (offset + bytes.length)) :=
  if_pos inside

theorem store_none (outside : block.length < offset + bytes.length) : store block offset bytes = none := if_neg (Nat.not_le.mpr outside)

theorem store_append {pre old post : List UInt8} (here : offset = pre.length) (size : bytes.length = old.length) :
    store (pre ++ old ++ post) offset bytes = some (pre ++ bytes ++ post) := by
  subst here
  have dropped : (pre ++ old ++ post).drop (pre.length + bytes.length) = post := by
    rw [size, ← length_append, drop_left]
  rw [store_eq (by simp only [length_append]; omega), dropped, append_assoc pre old, take_left]

theorem store_length {after : List UInt8} (stored : store block offset bytes = some after) : after.length = block.length := by
  unfold store at stored
  split at stored
  · cases stored
    simp only [length_append, length_take, length_drop]
    omega
  · cases stored

theorem store_then (block first second : List UInt8) (offset : Nat) {size : Nat} (here : first.length = size) :
    ((store block offset first).bind fun block => store block (offset + size) second) = store block offset (first ++ second) := by
  subst here
  by_cases inside : offset + (first ++ second).length ≤ block.length
  · obtain ⟨pre, old, post, rfl, rfl, size⟩ : ∃ pre old post, block = pre ++ old ++ post ∧ offset = pre.length ∧ (first ++ second).length = old.length := by
      refine ⟨block.take offset, (block.drop offset).take (first ++ second).length, (block.drop offset).drop (first ++ second).length, ?_, ?_, ?_⟩
      · rw [append_assoc, take_append_drop, take_append_drop]
      · rw [length_take]
        omega
      · rw [length_take, length_drop]
        omega
    rw [length_append] at size
    obtain ⟨left, right, rfl, length⟩ : ∃ left right, old = left ++ right ∧ first.length = left.length :=
      ⟨_, _, (take_append_drop first.length old).symm, by rw [length_take]; omega⟩
    rw [length_append, ← length] at size
    have begins : store (pre ++ left ++ (right ++ post)) pre.length first = _ := store_append rfl length
    have ends : store ((pre ++ first) ++ right ++ post) (pre ++ first).length second = _ := store_append rfl (by omega)
    have whole : store (pre ++ (left ++ right) ++ post) pre.length (first ++ second) = _ :=
      store_append rfl (by simp only [length_append]; omega)
    rw [whole, show pre ++ (left ++ right) ++ post = pre ++ left ++ (right ++ post) by simp, begins, Option.bind_some,
      show pre ++ first ++ (right ++ post) = (pre ++ first) ++ right ++ post by simp, ← length_append, ends]
    simp
  · rw [store_none (show block.length < offset + (first ++ second).length by omega)]
    cases stored : store block offset first with
    | none => rfl
    | some after =>
      rw [Option.bind_some]
      apply store_none
      rw [store_length stored]
      rw [length_append] at inside
      omega

/-- A block cut twice: around the bytes that are copied and around their destination. -/
theorem memmove_append {pre moved post front target after : List UInt8} {dst src : Nat}
    (same : pre ++ moved ++ post = front ++ target ++ after) (here : src = pre.length) (there : dst = front.length)
    (count : n = moved.length) (size : target.length = n) :
    memmove (front ++ target ++ after) dst src n = some (front ++ moved ++ after) := by
  subst here there count
  have taken : ((front ++ target ++ after).drop pre.length).take moved.length = moved := by
    rw [← same, append_assoc, drop_left, take_left]
  have inside : pre.length + moved.length ≤ (front ++ target ++ after).length := by
    rw [← same]
    simp only [length_append]
    omega
  rw [memmove, if_pos inside, taken]
  exact store_append rfl size.symm

theorem memmove_none {dst src : Nat} (outside : block.length < src + n) : memmove block dst src n = none := if_neg (Nat.not_le.mpr outside)

theorem realloc_length (junk : List UInt8 → Nat → UInt8) (block : List UInt8) (size : Nat) : (realloc junk block size).length = size := by
  simp only [realloc, length_append, length_take, length_map, length_range]
  omega

theorem realloc_take {junk : List UInt8 → Nat → UInt8} {size : Nat} (small : n ≤ size) (inside : n ≤ block.length) :
    (realloc junk block size).take n = block.take n := by
  rw [realloc, take_append_of_le_length (by simp only [length_take]; omega), take_take, Nat.min_eq_left small]

/-! Blocks of records of one size. -/

section
variable {α : Type} {encode : α → List UInt8} {width : Nat}

theorem records_length (fixed : ∀ a, (encode a).length = width) (records : List α) :
    (records.flatMap encode).length = records.length * width := by
  induction records with
  | nil => simp
  | cons a records ih => rw [flatMap_cons, length_append, fixed, ih, length_cons, Nat.succ_mul, Nat.add_comm]

theorem records_drop (fixed : ∀ a, (encode a).length = width) (records : List α) (k : Nat) :
    (records.flatMap encode).drop (k * width) = (records.drop k).flatMap encode := by
  rcases Nat.le_total k records.length with inside | outside
  · have split : records.flatMap encode = (records.take k).flatMap encode ++ (records.drop k).flatMap encode := by
      rw [← flatMap_append, take_append_drop]
    rw [split, drop_left']
    rw [records_length fixed, length_take, Nat.min_eq_left inside]
  · rw [drop_eq_nil_of_le outside, drop_eq_nil_of_le]
    · rfl
    · rw [records_length fixed]
      exact Nat.mul_le_mul_right width outside

theorem realloc_grow (junk : List UInt8 → Nat → UInt8) (block : List UInt8) (size : Nat) (more : block.length ≤ size) :
    ∃ spare, realloc junk block size = block ++ spare ∧ spare.length = size - block.length := by
  refine ⟨(List.range (size - block.length)).map (junk block), ?_, ?_⟩
  · rw [realloc, take_of_length_le more]
  · rw [length_map, length_range]

theorem realloc_cut (junk : List UInt8 → Nat → UInt8) (kept cut : List UInt8) : realloc junk (kept ++ cut) kept.length = kept := by
  rw [realloc, take_left, Nat.sub_eq_zero_of_le (by rw [length_append]; omega), range_zero, map_nil, append_nil]

section
variable (fixed : ∀ a, (encode a).length = width)
include fixed

theorem store_record (front : List α) {old : List UInt8}
    (size : old.length = width) (a : α) (rest : List UInt8) (here : offset = front.length * width) :
    store (front.flatMap encode ++ old ++ rest) offset (encode a) = some ((front ++ [a]).flatMap encode ++ rest) := by
  rw [store_append (by rw [here, records_length fixed]) (by rw [fixed, size]), flatMap_append, flatMap_singleton]

theorem memmove_up (front back : List α) {spare : List UInt8} (room : spare.length = width) :
    ∃ old, old.length = width ∧ memmove ((front ++ back).flatMap encode ++ spare) ((front.length + 1) * width) (front.length * width)
          (back.length * width) = some (front.flatMap encode ++ old ++ back.flatMap encode) := by
  have size := records_length fixed
  obtain ⟨old, target, split, length⟩ : ∃ old target, back.flatMap encode ++ spare = old ++ target ∧ old.length = width :=
    ⟨_, _, (take_append_drop width _).symm, by rw [length_take, length_append]; omega⟩
  have lengths := congrArg List.length split
  simp only [length_append, size, room, length] at lengths
  have same : front.flatMap encode ++ back.flatMap encode ++ spare = front.flatMap encode ++ old ++ target ++ [] := by
    rw [append_nil, append_assoc, split, append_assoc]
  refine ⟨old, length, ?_⟩
  rw [flatMap_append, same]
  have target_ : (front.length + 1) * width = (front.flatMap encode ++ old).length := by
    rw [length_append, size, length, Nat.succ_mul]
  rw [memmove_append same (size front).symm target_ (size back).symm (by omega), append_nil]

theorem memmove_down (front : List α) (a : α) (back : List α) : ∃ spare, spare.length = width ∧
      memmove ((front ++ a :: back).flatMap encode) (front.length * width) ((front.length + 1) * width)
          (back.length * width) = some ((front ++ back).flatMap encode ++ spare) := by
  have size := records_length fixed
  obtain ⟨target, spare, split, length⟩ : ∃ target spare, encode a ++ back.flatMap encode = target ++ spare ∧
      target.length = back.length * width :=
    ⟨_, _, (take_append_drop (back.length * width) _).symm, by
      rw [length_take, length_append, size]; omega⟩
  have lengths := congrArg List.length split
  simp only [length_append, size, fixed, length] at lengths
  have same : front.flatMap encode ++ encode a ++ back.flatMap encode ++ [] = front.flatMap encode ++ target ++ spare := by
    rw [append_nil, append_assoc, split, append_assoc]
  have whole : (front ++ a :: back).flatMap encode = front.flatMap encode ++ target ++ spare := by
    rw [← same]
    simp
  refine ⟨spare, by omega, ?_⟩
  have source : (front.length + 1) * width = (front.flatMap encode ++ encode a).length := by
    rw [length_append, size, fixed, Nat.succ_mul]
  rw [whole, memmove_append same source (size front).symm (size back).symm length, flatMap_append]

end

end

/-! Operations on words that work on each byte by itself, and the bytes of a block after a store. -/

theorem leBytes_leValue (p : List UInt8) : leBytes p.length (leValue p) = p := by
  induction p with
  | nil => rfl
  | cons b p ih =>
    have byte := b.toNat_lt
    have low : UInt8.ofNat (b.toNat + 256 * leValue p) = b := by
      apply UInt8.toNat_inj.mp
      rw [UInt8.toNat_ofNat']
      omega
    have high : (b.toNat + 256 * leValue p) / 256 = leValue p := by omega
    rw [leValue, length_cons, leBytes, low, high, ih]

/-- An operation that respects the lowest byte and the rest is one on the bytes. -/
theorem leBytes_zipWith {f : UInt8 → UInt8 → UInt8} {g : Nat → Nat → Nat} (low : ∀ m n, UInt8.ofNat (g m n) = f (UInt8.ofNat m) (UInt8.ofNat n))
    (high : ∀ m n, g m n / 256 = g (m / 256) (n / 256)) (width m n : Nat) :
    leBytes width (g m n) = List.zipWith f (leBytes width m) (leBytes width n) := by
  induction width generalizing m n with
  | zero => rfl
  | succ width ih => rw [leBytes, leBytes, leBytes, zipWith_cons_cons, low, high, ih]

theorem leBytes_and (width m n : Nat) : leBytes width (m &&& n) = List.zipWith (· &&& ·) (leBytes width m) (leBytes width n) :=
  leBytes_zipWith (fun m n => UInt8.ofNat_and m n) (fun _ _ => Nat.and_div_two_pow (n := 8)) width m n

theorem leBytes_or (width m n : Nat) : leBytes width (m ||| n) = List.zipWith (· ||| ·) (leBytes width m) (leBytes width n) :=
  leBytes_zipWith (fun m n => UInt8.ofNat_or m n) (fun _ _ => Nat.or_div_two_pow (n := 8)) width m n

theorem leBytes_xor (width m n : Nat) : leBytes width (m ^^^ n) = List.zipWith (· ^^^ ·) (leBytes width m) (leBytes width n) :=
  leBytes_zipWith (fun m n => UInt8.ofNat_xor m n) (fun _ _ => Nat.xor_div_two_pow (n := 8)) width m n

theorem store_getD {after : List UInt8} (stored : store block offset bytes = some after) (i : Nat) :
    after.getD i 0 = if offset ≤ i ∧ i < offset + bytes.length then bytes.getD (i - offset) 0 else block.getD i 0 := by
  unfold store at stored
  split at stored
  next inside =>
    have front : (block.take offset).length = offset := by rw [length_take]; omega
    cases stored
    rcases Nat.lt_or_ge i offset with before | after
    · rw [if_neg (by omega), append_assoc, getD_append _ _ _ _ (by omega), getD_eq_getElem?_getD,
        getElem?_take_of_lt before, ← getD_eq_getElem?_getD]
    · rcases Nat.lt_or_ge i (offset + bytes.length) with here | behind
      · rw [if_pos ⟨after, here⟩, append_assoc, getD_append_right _ _ _ _ (by omega), front,
          getD_append _ _ _ _ (by omega)]
      · rw [if_neg (by omega), getD_append_right _ _ _ _ (by rw [length_append]; omega), length_append, front,
          getD_eq_getElem?_getD, getElem?_drop, ← getD_eq_getElem?_getD]
        congr 1
        omega
  next => cases stored

end Cplusplus.Bytes
