import Cplusplus.Proofs.Popcount

/-! `redisBitpos` finds the first bit. What it skips has no such bit, and the word that it scans has
the bits of the rest of the string in their order, with zero bits behind the end. -/

namespace Cplusplus.Redis.Strings
open List

section
variable {s : Bytes} {i k : Nat} {bit : Bool}

def strBit (s : Bytes) (i : Nat) : Bool := (s.getD (i / 8) 0).toNat.testBit (7 - i % 8)

theorem strBit_drop (s : Bytes) (n i : Nat) : strBit (s.drop n) i = strBit s (8 * n + i) := by
  have byte : (8 * n + i) / 8 = n + i / 8 := by omega
  have bit : (8 * n + i) % 8 = i % 8 := by omega
  simp only [strBit, byte, bit, getD_eq_getElem?_getD, getElem?_drop]

theorem strBit_beyond (beyond : 8 * s.length ≤ i) : strBit s i = false := by
  have outside : s.length ≤ i / 8 := by omega
  simp [strBit, getElem?_eq_none outside]

def skipByte (bit : Bool) : UInt8 := if bit then 0 else 255

theorem skipByte_testBit (bit : Bool) (near : i < 8) : (skipByte bit).toNat.testBit i = !bit := by
  cases bit with
  | true => exact Nat.zero_testBit i
  | false =>
    have ones := Nat.testBit_two_pow_sub_one 8 i
    rwa [decide_eq_true near] at ones

theorem strBit_skipped {n : Nat} (skipped : ∀ b ∈ s.take n, b = skipByte bit) (inside : n ≤ s.length)
    (before : i < 8 * n) : strBit s i = !bit := by
  have index : i / 8 < s.length := by omega
  have member : s[i / 8] ∈ s.take n := mem_take_iff_getElem.mpr ⟨i / 8, by omega, rfl⟩
  rw [strBit, getD_eq_getElem?_getD, getElem?_eq_getElem index, Option.getD_some, skipped _ member]
  exact skipByte_testBit bit (by omega)

/-- The position is the one of the first such bit, or the one that stands for none. -/
def FirstBit (s : Bytes) (bit : Bool) (pos : Int) : Prop :=
  (∃ i : Nat, pos = i ∧ i < 8 * s.length ∧ strBit s i = bit ∧ ∀ j < i, strBit s j = !bit) ∨
    ((∀ j < 8 * s.length, strBit s j = !bit) ∧ pos = if bit then -1 else 8 * (s.length : Int))

theorem skipUnaligned_spec (bit : Bool) (c : Nat) (s : Bytes) (pos : Int) :
    ∃ n ≤ s.length, skipUnaligned (skipByte bit) c s pos = (s.drop n, pos + 8 * n) ∧ ∀ b ∈ s.take n, b = skipByte bit := by
  induction s generalizing c pos with
  | nil => exact ⟨0, Nat.le_refl 0, by simp [skipUnaligned], by simp⟩
  | cons b s ih =>
    rw [skipUnaligned]
    split
    next => exact ⟨0, Nat.zero_le _, by simp, by simp⟩
    next goes =>
      obtain ⟨n, inside, skipped, same⟩ := ih (c + 1) (pos + 8)
      refine ⟨n + 1, Nat.succ_le_succ inside, ?_, ?_⟩
      · rw [skipped, drop_succ_cons]
        congr 1
        push_cast
        omega
      · intro other member
        rw [take_succ_cons] at member
        rcases mem_cons.mp member with rfl | member
        · by_contra different
          exact goes (.inr different)
        · exact same other member

def skipWord (bit : Bool) : BitVec 64 := if bit then 0 else BitVec.allOnes 64

private theorem leValue_lt (s : Bytes) : Bytes.leValue s < 256 ^ s.length := by
  induction s with
  | nil => exact Nat.one_pos
  | cons b s ih =>
    have byte := b.toNat_lt
    rw [Bytes.leValue, length_cons, Nat.pow_succ]
    omega

private theorem leValue_zero (s : Bytes) : Bytes.leValue s = 0 ↔ ∀ b ∈ s, b = 0 := by
  induction s with
  | nil => simp [Bytes.leValue]
  | cons b s ih =>
    have zero : b.toNat = 0 ↔ b = 0 := by rw [← UInt8.toNat_inj]; rfl
    rw [Bytes.leValue, forall_mem_cons, ← ih, ← zero]
    omega

private theorem leValue_ones (s : Bytes) : Bytes.leValue s = 256 ^ s.length - 1 ↔ ∀ b ∈ s, b = 255 := by
  induction s with
  | nil => simp [Bytes.leValue]
  | cons b s ih =>
    have byte := b.toNat_lt
    have rest := leValue_lt s
    have ones : b.toNat = 255 ↔ b = 255 := by rw [← UInt8.toNat_inj]; rfl
    rw [Bytes.leValue, length_cons, Nat.pow_succ, forall_mem_cons, ← ih, ← ones]
    omega

theorem loaded_skipWord (bit : Bool) (word : s.length = 8) : BitVec.ofNat 64 (Bytes.leValue s) = skipWord bit ↔ ∀ b ∈ s, b = skipByte bit := by
  have small := leValue_lt s
  rw [word, show 256 ^ 8 = 2 ^ 64 from rfl] at small
  rw [← BitVec.toNat_inj, BitVec.toNat_ofNat, Nat.mod_eq_of_lt small]
  cases bit with
  | true => exact leValue_zero s
  | false =>
    have ones := leValue_ones s
    rwa [word] at ones

theorem skipWords_spec (bit : Bool) (fuel : Nat) (s : Bytes) (pos : Int) (enough : s.length ≤ fuel) :
    ∃ n ≤ s.length, skipWords (skipWord bit) fuel s pos = (s.drop n, pos + 8 * n) ∧ (∀ b ∈ s.take n, b = skipByte bit) ∧
      (8 ≤ (s.drop n).length → ∃ b ∈ (s.drop n).take 8, b ≠ skipByte bit) := by
  induction fuel generalizing s pos with
  | zero =>
    obtain rfl : s = [] := length_eq_zero_iff.mp (Nat.le_zero.mp enough)
    exact ⟨0, Nat.le_refl 0, by simp [skipWords], by simp, by simp⟩
  | succ fuel ih =>
    rw [skipWords]
    split
    next skips =>
      obtain ⟨long, same⟩ := skips
      have taken : (s.take 8).length = 8 := by rw [length_take, Nat.min_eq_left long]
      have first := (loaded_skipWord bit taken).mp same
      obtain ⟨n, inside, skipped, rest, stop⟩ := ih (s.drop 8) (pos + 64) (by rw [length_drop]; omega)
      rw [length_drop] at inside
      refine ⟨8 + n, by omega, ?_, ?_, ?_⟩
      · rw [skipped, drop_drop]
        congr 1
        push_cast
        omega
      · intro b member
        rw [take_add] at member
        rcases mem_append.mp member with member | member
        · exact first b member
        · exact rest b member
      · rwa [drop_drop] at stop
    next stays =>
      refine ⟨0, Nat.zero_le _, by simp, by simp, ?_⟩
      intro long
      rw [drop_zero] at long ⊢
      have taken : (s.take 8).length = 8 := by rw [length_take, Nat.min_eq_left long]
      by_contra none
      apply stays
      refine ⟨long, (loaded_skipWord bit taken).mpr fun b member => ?_⟩
      by_contra other
      exact none ⟨b, member, other⟩

theorem loadWord_bit (j : Nat) (s : Bytes) (word : BitVec 64) (near : i < 64) :
    (loadWord j s word).getLsbD i = if i < 8 * j then strBit s (8 * j - 1 - i) else word.getLsbD (i - 8 * j) := by
  induction j generalizing s word with
  | zero => rfl
  | succ j ih =>
    cases s with
    | nil =>
      rw [loadWord, ih]
      split
      next inside =>
        rw [if_pos (by omega), strBit_beyond (by simp), strBit_beyond (by simp)]
      next outside =>
        rw [BitVec.getLsbD_shiftLeft]
        split
        next here =>
          rw [strBit_beyond (by simp)]
          simp [show i - 8 * j < 8 by omega]
        next far =>
          simp [show i - 8 * j < 64 by omega, show ¬ i - 8 * j < 8 by omega, show i - 8 * j - 8 = i - 8 * (j + 1) by omega]
    | cons c s =>
      rw [loadWord, ih]
      split
      next inside =>
        rw [if_pos (by omega)]
        have shift := strBit_drop (c :: s) 1 (8 * j - 1 - i)
        rw [drop_one, tail_cons] at shift
        rw [shift]
        congr 1
        omega
      next outside =>
        rw [BitVec.getLsbD_or, BitVec.getLsbD_shiftLeft, BitVec.getLsbD_ofNat]
        split
        next here =>
          have byte : (8 * (j + 1) - 1 - i) / 8 = 0 := by omega
          have bit : 7 - (8 * (j + 1) - 1 - i) % 8 = i - 8 * j := by omega
          simp [show i - 8 * j < 8 by omega, show i - 8 * j < 64 by omega, strBit, byte, bit]
        next far =>
          have high : c.toNat.testBit (i - 8 * j) = false :=
            Nat.testBit_lt_two_pow (Nat.lt_of_lt_of_le c.toNat_lt (Nat.pow_le_pow_right (by omega) (show 8 ≤ i - 8 * j by omega)))
          simp [show i - 8 * j < 64 by omega, show ¬ i - 8 * j < 8 by omega, show i - 8 * j - 8 = i - 8 * (j + 1) by omega, high]

theorem loadWord_msb (s : Bytes) (near : k < 64) : (loadWord 8 s 0).getLsbD (63 - k) = strBit s k := by
  rw [loadWord_bit 8 s 0 (by omega), if_pos (by omega)]
  congr 1
  omega

private theorem mask_bit (near : k < 64) (i : Nat) : (BitVec.twoPow 64 (63 - k)).getLsbD i = decide (i = 63 - k) := by
  rw [BitVec.getLsbD_twoPow, decide_eq_true (show 63 - k < 64 by omega), Bool.true_and]
  apply decide_eq_decide.mpr
  exact eq_comm

private theorem mask_ne_zero (near : k < 64) : BitVec.twoPow 64 (63 - k) ≠ 0 := by
  intro zero
  have set := mask_bit near (63 - k)
  rw [zero] at set
  simp at set

private theorem mask_test (word : BitVec 64) (near : k < 64) (bit : Bool) :
    decide (BitVec.twoPow 64 (63 - k) &&& word ≠ 0) = bit ↔ word.getLsbD (63 - k) = bit := by
  have single : BitVec.twoPow 64 (63 - k) &&& word ≠ 0 ↔ word.getLsbD (63 - k) = true := by
    rw [BitVec.and_comm, BitVec.and_twoPow]
    split
    next set => simp only [set, iff_true]; exact mask_ne_zero near
    next clear => simp [clear]
  cases bit with
  | true => simp only [decide_eq_true_eq, single]
  | false => simp only [decide_eq_false_iff_not, single, Bool.not_eq_true]

private theorem mask_next (near : k + 1 < 64) : BitVec.twoPow 64 (63 - k) >>> 1 = BitVec.twoPow 64 (63 - (k + 1)) := by
  apply BitVec.eq_of_getLsbD_eq
  intro i inside
  rw [BitVec.getLsbD_ushiftRight, mask_bit (by omega), mask_bit near]
  apply decide_eq_decide.mpr
  omega

theorem scanWord_spec (bit : Bool) (word : BitVec 64) (m k : Nat) (pos : Int) (fuel : Nat) (near : k + m < 64) (enough : m < fuel)
    (found : word.getLsbD (63 - (k + m)) = bit) (before : ∀ j < m, word.getLsbD (63 - (k + j)) = !bit) :
    scanWord bit word fuel (BitVec.twoPow 64 (63 - k)) pos = some (pos + m) := by
  induction m generalizing k pos fuel with
  | zero =>
    obtain ⟨fuel, rfl⟩ : ∃ f, fuel = f + 1 := ⟨fuel - 1, by omega⟩
    rw [Nat.add_zero] at near found
    rw [scanWord, if_neg (mask_ne_zero near), if_pos ((mask_test word near bit).mpr found)]
    simp
  | succ m ih =>
    obtain ⟨fuel, rfl⟩ : ∃ f, fuel = f + 1 := ⟨fuel - 1, by omega⟩
    have here : ¬ decide (BitVec.twoPow 64 (63 - k) &&& word ≠ 0) = bit := by
      intro test
      have now := (mask_test word (by omega) bit).mp test
      have other := before 0 (Nat.succ_pos m)
      rw [Nat.add_zero, now] at other
      exact Bool.self_ne_not bit other
    rw [scanWord, if_neg (mask_ne_zero (by omega)), if_neg here, mask_next (by omega)]
    have shift : ∀ j, k + 1 + j = k + (j + 1) := fun j => by omega
    rw [ih (k + 1) (pos + 1) fuel (by omega) (by omega) (by rw [shift]; exact found)
      fun j less => by rw [shift]; exact before (j + 1) (Nat.succ_lt_succ less)]
    congr 1
    push_cast
    omega

theorem skipByte_differs {b : UInt8} (differs : b ≠ skipByte bit) : ∃ i < 8, b.toNat.testBit i = bit := by
  by_contra none
  apply differs
  rw [← UInt8.toNat_inj]
  apply Nat.eq_of_testBit_eq
  intro i
  by_cases near : i < 8
  case pos =>
    rw [skipByte_testBit bit near]
    apply Bool.eq_not_of_ne
    intro same
    exact none ⟨i, near, same⟩
  case neg =>
    have beyond : 2 ^ 8 ≤ 2 ^ i := Nat.pow_le_pow_right (by omega) (by omega)
    rw [Nat.testBit_lt_two_pow (Nat.lt_of_lt_of_le b.toNat_lt beyond),
      Nat.testBit_lt_two_pow (Nat.lt_of_lt_of_le (skipByte bit).toNat_lt beyond)]

theorem strBit_word (stop : 8 ≤ s.length → ∃ b ∈ s.take 8, b ≠ skipByte bit) (long : 8 ≤ s.length) : ∃ k < 64, strBit s k = bit := by
  obtain ⟨b, member, differs⟩ := stop long
  obtain ⟨n, inside, rfl⟩ := mem_take_iff_getElem.mp member
  obtain ⟨i, near, set⟩ := skipByte_differs differs
  refine ⟨8 * n + (7 - i), by omega, ?_⟩
  have byte : (8 * n + (7 - i)) / 8 = n := by omega
  have place : 7 - (8 * n + (7 - i)) % 8 = i := by omega
  have index : n < s.length := by omega
  rw [strBit, byte, place, getD_eq_getElem?_getD, getElem?_eq_getElem index, Option.getD_some, set]

theorem loadWord_zero (s : Bytes) : loadWord 8 s 0 = 0 ↔ ∀ k < 64, strBit s k = false := by
  constructor
  · intro zero k near
    rw [← loadWord_msb s near, zero]
    exact BitVec.getLsbD_zero
  · intro clear
    apply BitVec.eq_of_getLsbD_eq
    intro i inside
    have place : 63 - (63 - i) = i := by omega
    have same := loadWord_msb s (k := 63 - i) (by omega)
    rw [place, clear (63 - i) (by omega)] at same
    rw [same]
    exact BitVec.getLsbD_zero.symm

def lastWord (bit : Bool) (s : Bytes) (pos : Int) : Option Int :=
  if bit = true ∧ loadWord 8 s 0 = 0 then some (-1)
  else scanWord bit (loadWord 8 s 0) 65 (BitVec.twoPow 64 (63 - 0)) pos

theorem lastWord_found {m : Nat} (pos : Int) (near : m < 64) (found : strBit s m = bit)
    (before : ∀ j < m, strBit s j = !bit) : lastWord bit s pos = some (pos + m) := by
  rw [lastWord, if_neg]
  · apply scanWord_spec bit _ m 0 pos 65 (by omega) (by omega)
    · rw [Nat.zero_add, loadWord_msb s near, found]
    · intro j less
      rw [Nat.zero_add, loadWord_msb s (by omega), before j less]
  · rintro ⟨rfl, zero⟩
    have clear := (loadWord_zero s).mp zero m near
    rw [found] at clear
    cases clear

theorem lastWord_spec (pos : Int) (stop : 8 ≤ s.length → ∃ b ∈ s.take 8, b ≠ skipByte bit) :
    (∃ m < 8 * s.length, lastWord bit s pos = some (pos + m) ∧ strBit s m = bit ∧ ∀ j < m, strBit s j = !bit) ∨
      ((∀ j, j < 8 * s.length → strBit s j = !bit) ∧ lastWord bit s pos = some (if bit then -1 else pos + 8 * s.length)) := by
  by_cases some : ∃ m < 8 * s.length, m < 64 ∧ strBit s m = bit
  case pos =>
    classical
    obtain ⟨inside, near, found⟩ := Nat.find_spec some
    have before : ∀ j < Nat.find some, strBit s j = !bit := by
      intro j less
      apply Bool.eq_not_of_ne
      intro same
      exact Nat.find_min some less ⟨by omega, by omega, same⟩
    exact .inl ⟨Nat.find some, inside, lastWord_found pos near found before, found, before⟩
  case neg =>
    have short : s.length < 8 := by
      by_contra long
      obtain ⟨k, near, found⟩ := strBit_word stop (by omega)
      exact some ⟨k, by omega, near, found⟩
    have other : ∀ j, j < 8 * s.length → strBit s j = !bit := by
      intro j inside
      apply Bool.eq_not_of_ne
      intro same
      exact some ⟨j, inside, by omega, same⟩
    refine .inr ⟨other, ?_⟩
    cases bit with
    | true =>
      rw [lastWord, if_pos]
      · rfl
      · refine ⟨rfl, (loadWord_zero s).mpr fun k near => ?_⟩
        by_cases inside : k < 8 * s.length
        · exact other k inside
        · exact strBit_beyond (by omega)
    | false =>
      rw [lastWord_found pos (m := 8 * s.length) (by omega) (strBit_beyond (Nat.le_refl _)) other]
      push_cast
      rfl

theorem redisBitpos_first (c : Nat) (s : Bytes) (bit : Bool) : ∃ pos, redisBitpos c s bit = some pos ∧ FirstBit s bit pos := by
  obtain ⟨a, aInside, unaligned, skippedA⟩ := skipUnaligned_spec bit c s 0
  obtain ⟨b, bInside, words, skippedB, stop⟩ := skipWords_spec bit (s.drop a).length (s.drop a) (0 + 8 * a) (Nat.le_refl _)
  have top : ~~~(BitVec.allOnes 64 >>> 1) = BitVec.twoPow 64 (63 - 0) := by decide
  have result : redisBitpos c s bit = lastWord bit (s.drop (a + b)) (8 * (a + b : Nat)) := by
    simp only [redisBitpos]
    rw [show (if bit then (0 : UInt8) else 255) = skipByte bit from rfl, unaligned]
    simp only
    rw [show (if bit then (0 : BitVec 64) else BitVec.allOnes 64) = skipWord bit from rfl, words]
    simp only
    rw [top, drop_drop, show (0 + 8 * (a : Int) + 8 * (b : Int)) = 8 * (a + b : Nat) by push_cast; omega]
    rfl
  rw [drop_drop] at stop
  rw [length_drop] at bInside
  have skipped : ∀ i < 8 * (a + b), strBit s i = !bit := by
    intro i before
    apply strBit_skipped (n := a + b) _ (by omega) before
    intro byte member
    rw [take_add] at member
    rcases mem_append.mp member with member | member
    · exact skippedA byte member
    · exact skippedB byte member
  have later : ∀ j, 8 * (a + b) ≤ j → strBit s j = strBit (s.drop (a + b)) (j - 8 * (a + b)) := by
    intro j after
    rw [strBit_drop]
    congr 1
    omega
  have length : (s.drop (a + b)).length = s.length - (a + b) := length_drop
  rw [result]
  obtain ⟨m, inside, found, set, before⟩ | ⟨other, none⟩ := lastWord_spec (8 * (a + b : Nat)) stop
  · refine ⟨_, found, .inl ⟨8 * (a + b) + m, by push_cast; rfl, by omega, ?_, ?_⟩⟩
    · rw [← strBit_drop, set]
    · intro j less
      by_cases early : j < 8 * (a + b)
      · exact skipped j early
      · rw [later j (by omega)]
        exact before _ (by omega)
  · refine ⟨_, none, .inr ⟨?_, ?_⟩⟩
    · intro j inside
      by_cases early : j < 8 * (a + b)
      · exact skipped j early
      · rw [later j (by omega)]
        exact other _ (by omega)
    · rw [length]
      cases bit with
      | true => rfl
      | false => simp only [Bool.false_eq_true, if_false]; omega

end

/-! The range of bytes that GETRANGE, BITCOUNT and BITPOS are given. Both ends are moved into the
string before the test for an empty range, and a range in front of the string becomes the first byte. -/

section
variable {s : Bytes} {start stop : Int} {db : Keyspace} {key : Key} {endGiven : Bool}

def norm (strlen : Nat) (x : Int) : Int := if 0 ≤ x then x else strlen + x

def bytesBetween (s : Bytes) (first last : Int) : Bytes :=
  (s.zipIdx.filter fun entry => decide (first ≤ entry.2 ∧ (entry.2 : Int) ≤ last)).map Prod.fst

def BeforeString (strlen : Nat) (start stop : Int) : Prop := norm strlen start ≤ 0 ∧ norm strlen stop < 0

instance (strlen : Nat) (start stop : Int) : Decidable (BeforeString strlen start stop) := inferInstanceAs (Decidable (_ ∧ _))

private theorem between_from (s : Bytes) (first last : Int) (n : Nat) :
    ((s.zipIdx n).filter fun entry => decide (first ≤ entry.2 ∧ (entry.2 : Int) ≤ last)).map Prod.fst =
      (s.drop (first - n).toNat).take (last - max first n + 1).toNat := by
  induction s generalizing n with
  | nil => simp
  | cons b s ih =>
    rw [zipIdx_cons, List.filter_cons]
    have rest := ih (n + 1)
    push_cast at rest
    split
    next inside =>
      obtain ⟨low, high⟩ : first ≤ (n : Int) ∧ (n : Int) ≤ last := by simpa using inside
      have skip : (first - n).toNat = 0 := by omega
      have skipNext : (first - (n + 1 : Int)).toNat = 0 := by omega
      have count : (last - max first n + 1).toNat = (last - max first (n + 1 : Int) + 1).toNat + 1 := by omega
      rw [map_cons, rest, skip, skipNext, count, drop_zero, drop_zero, take_succ_cons]
    next outside =>
      have apart : (n : Int) < first ∨ last < (n : Int) := by
        by_contra both
        apply outside
        simp only [decide_eq_true_eq]
        omega
      rw [rest]
      rcases apart with low | high
      · have skip : (first - n).toNat = (first - (n + 1 : Int)).toNat + 1 := by omega
        have bound : max first (n + 1 : Int) = max first n := by omega
        rw [skip, bound, drop_succ_cons]
      · have count : (last - max first n + 1).toNat = 0 := by omega
        have countNext : (last - max first (n + 1 : Int) + 1).toNat = 0 := by omega
        rw [count, countNext, take_zero, take_zero]

theorem bytesBetween_eq (s : Bytes) (first last : Int) : bytesBetween s first last = (s.drop first.toNat).take (last - max first 0 + 1).toNat := by
  have start := between_from s first last 0
  rwa [Nat.cast_zero, sub_zero] at start

theorem convertRange_eq (strlen : Nat) (start stop : Int) :
    convertRange strlen start stop = (max (norm strlen start) 0, min (max (norm strlen stop) 0) (strlen - 1)) := by
  simp only [convertRange, norm]
  ext <;> simp only <;> split_ifs <;> omega

theorem converted_bytes (s : Bytes) (start stop : Int) : (if (convertRange s.length start stop).2 < (convertRange s.length start stop).1 then []
      else bytesFrom s (convertRange s.length start stop).1 (convertRange s.length start stop).2) =
    if BeforeString s.length start stop then s.take 1 else bytesBetween s (norm s.length start) (norm s.length stop) := by
  rw [convertRange_eq, bytesBetween_eq]
  simp only [bytesFrom]
  have same : (max (norm s.length start) 0).toNat = (norm s.length start).toNat := by omega
  by_cases before : BeforeString s.length start stop
  case pos =>
    rw [if_pos before]
    obtain ⟨low, high⟩ := before
    by_cases empty : s.length = 0
    · rw [if_pos (by omega), length_eq_zero_iff.mp empty, take_nil]
    · have count : (min (max (norm s.length stop) 0) ((s.length : Int) - 1) - max (norm s.length start) 0 + 1).toNat = 1 := by omega
      have origin : (norm s.length start).toNat = 0 := by omega
      rw [if_neg (by omega), same, count, origin, drop_zero]
  case neg =>
    rw [if_neg before]
    rw [BeforeString] at before
    split
    next empty =>
      symm
      apply eq_nil_of_length_eq_zero
      rw [length_take, length_drop]
      omega
    next =>
      rw [same]
      by_cases inside : norm s.length stop < s.length
      · congr 1
        omega
      · rw [take_of_length_le (by rw [length_drop]; omega), take_of_length_le (by rw [length_drop]; omega)]

theorem bytesBetween_before (before : BeforeString s.length start stop) : bytesBetween s (norm s.length start) (norm s.length stop) = [] := by
  obtain ⟨low, high⟩ := before
  have count : (norm s.length stop - max (norm s.length start) 0 + 1).toNat = 0 := by omega
  rw [bytesBetween_eq, count, take_zero]

def stringAt (db : Keyspace) (key : Key) : Option Bytes :=
  match db key with
  | none => some []
  | some (.string o) => some (getDecodedObject o)
  | some _ => none

theorem stringAt_cases (text : stringAt db key = some s) :
    (db key = none ∧ s = []) ∨ ∃ o, db key = some (.string o) ∧ getDecodedObject o = s := by
  unfold stringAt at text
  split at text
  next missing => exact .inl ⟨missing, (Option.some.inj text).symm⟩
  next o there => exact .inr ⟨o, there, Option.some.inj text⟩
  next => cases text

theorem bytesBetween_nil (first last : Int) : bytesBetween [] first last = [] := rfl

theorem getrange_bytes {first last : Bytes} (text : stringAt db key = some s)
    (low : getLongLongFromObject (some (.sds first)) = some start) (high : getLongLongFromObject (some (.sds last)) = some stop) :
    getrangeCommand db key first last =
      (db, .bulk (if BeforeString s.length start stop then s.take 1 else bytesBetween s (norm s.length start) (norm s.length stop))) := by
  unfold getrangeCommand
  simp only [low, high]
  obtain ⟨missing, rfl⟩ | ⟨o, there, rfl⟩ := stringAt_cases text
  · simp only [missing, bytesBetween_nil, take_nil, ite_self]
  · simp only [there]
    rw [← converted_bytes]
    congr 2
    by_cases empty : (getDecodedObject o).length = 0
    · have range : (convertRange (getDecodedObject o).length start stop).2 < (convertRange (getDecodedObject o).length start stop).1 := by
        rw [convertRange_eq]
        simp only
        omega
      rw [if_pos (.inr empty), if_pos range]
    · simp only [empty, or_false]

theorem bitcount_bits (address : Nat) {first last : Bytes} (text : stringAt db key = some s)
    (low : getLongLongFromObject (some (.sds first)) = some start) (high : getLongLongFromObject (some (.sds last)) = some stop) :
    bitcountCommand address db key [first, last] = .integer (bitCount
      (if BeforeString s.length start stop then s.take 1 else bytesBetween s (norm s.length start) (norm s.length stop))) := by
  unfold bitcountCommand
  obtain ⟨missing, rfl⟩ | ⟨o, there, rfl⟩ := stringAt_cases text
  · simp only [missing, bytesBetween_nil, take_nil, ite_self]
    rfl
  · simp only [there, low, high]
    rw [← converted_bytes]
    split
    next => rfl
    next => rw [popcount_parts]

theorem setBits_zero (c : UInt8) : setBits c = 0 ↔ c = 0 := by
  constructor
  · intro none
    by_contra other
    obtain ⟨i, near, set⟩ := skipByte_differs (show c ≠ skipByte true from other)
    exact countP_eq_zero.mp none i (mem_range.mpr near) set
  · rintro rfl
    decide

theorem bitCount_first (s : Bytes) : bitCount (s.take 1) = 0 ↔ s.headD 0 = 0 := by
  cases s with
  | nil => simp [bitCount]
  | cons c s => simp [bitCount, setBits_zero]

/-- A range that ends in front of the string selects nothing, yet the commands see its first byte. -/
theorem byte_ranges_exact (address : Nat) {db : Keyspace} {key : Key} {s first last : Bytes} {start stop : Int}
    (text : stringAt db key = some s) (low : getLongLongFromObject (some (.sds first)) = some start)
    (high : getLongLongFromObject (some (.sds last)) = some stop) :
    (getrangeCommand db key first last = (db, .bulk (bytesBetween s (norm s.length start) (norm s.length stop))) ↔
      ¬ (BeforeString s.length start stop ∧ s ≠ [])) ∧
    (bitcountCommand address db key [first, last] = .integer (bitCount (bytesBetween s (norm s.length start) (norm s.length stop))) ↔
      ¬ (BeforeString s.length start stop ∧ s.headD 0 ≠ 0)) := by
  rw [getrange_bytes text low high, bitcount_bits address text low high]
  by_cases before : BeforeString s.length start stop
  case pos =>
    have none := bytesBetween_before before
    rw [if_pos before, none]
    have empty : s.take 1 = [] ↔ s = [] := by simp
    have clear := bitCount_first s
    constructor
    · simp only [before, true_and, Reply.bulk.injEq, Prod.mk.injEq, empty, ne_eq, not_not]
    · simp only [before, true_and, BitReply.integer.injEq, Nat.cast_inj, show bitCount [] = 0 from rfl, clear, ne_eq, not_not]
  case neg => simp [before]

/-- GETRANGE and BITCOUNT from -10 to -9 on a string of one byte. -/
theorem range_before_string :
    let db : Keyspace := fun _ => some (.string (.sds [97]))
    (getrangeCommand db [107] [45, 49, 48] [45, 57]).2 = .bulk [97] ∧
      bitcountCommand 0 db [107] [[45, 49, 48], [45, 57]] = .integer 3 ∧ bytesBetween [97] (norm 1 (-10)) (norm 1 (-9)) = [] :=
  ⟨by decide, by decide, by decide⟩

/-- A range inside the string. -/
theorem byte_ranges_exact_inside :
    (getrangeCommand (fun _ => some (.string (.sds [97, 98]))) [107] [49] [45, 49] = (fun _ => some (.string (.sds [97, 98])), .bulk [98])) :=
  have low : getLongLongFromObject (some (.sds [49])) = some 1 := by decide
  have high : getLongLongFromObject (some (.sds [45, 49])) = some (-1) := by decide
  have text : stringAt (fun _ => some (.string (.sds [97, 98]))) [107] = some [97, 98] := rfl
  (byte_ranges_exact 0 text low high).1.mpr (by decide)

/-! BITPOS looks for a bit in the given range of bytes. Without an end the string goes on with zero
bits, and a range without bytes has no bit at all. -/

def InBytes (s : Bytes) (first last : Int) (i : Nat) : Prop := i < 8 * s.length ∧ first ≤ (i / 8 : Nat) ∧ ((i / 8 : Nat) : Int) ≤ last

def Padded (bit endGiven : Bool) (range : Nat → Prop) : Prop := bit = false ∧ endGiven = false ∧ ∃ i, range i

/-- What BITPOS replies for the bits of a range. -/
def FirstInRange (s : Bytes) (bit endGiven : Bool) (range : Nat → Prop) (value : Int) : Prop :=
  (∃ i : Nat, value = i ∧ range i ∧ strBit s i = bit ∧ ∀ j < i, range j → strBit s j = !bit) ∨
    (∀ j, range j → strBit s j = !bit) ∧
      (Padded bit endGiven range → value = 8 * (s.length : Int)) ∧ (¬ Padded bit endGiven range → value = -1)

variable {value : Int}

theorem FirstInRange.congr {bit : Bool} {range other : Nat → Prop} (first : FirstInRange s bit endGiven range value)
    (same : ∀ i, range i ↔ other i) : FirstInRange s bit endGiven other value := by
  obtain rfl : range = other := funext fun i => propext (same i)
  exact first

theorem FirstInRange.none {bit : Bool} {range : Nat → Prop} (first : FirstInRange s bit endGiven range (-1)) :
    ∀ j, range j → strBit s j = !bit := by
  obtain ⟨i, same, -⟩ | ⟨other, -⟩ := first
  · omega
  · exact other

theorem FirstInRange.empty {bit : Bool} {range : Nat → Prop} (none : ∀ j, ¬ range j) :
    FirstInRange s bit endGiven range value ↔ value = -1 := by
  have plain : ¬ Padded bit endGiven range := fun ⟨_, _, i, inside⟩ => none i inside
  constructor
  · rintro (⟨i, -, inside, -⟩ | ⟨-, -, minus⟩)
    · exact absurd inside (none i)
    · exact minus plain
  · intro minus
    exact .inr ⟨fun j inside => absurd inside (none j), fun padded => absurd padded plain, fun _ => minus⟩

theorem strBit_take (s : Bytes) {n i : Nat} (inside : i < 8 * n) : strBit (s.take n) i = strBit s i := by
  have byte : i / 8 < n := by omega
  rw [strBit, getD_eq_getElem?_getD, getElem?_take_of_lt byte, ← getD_eq_getElem?_getD, strBit]

theorem strBit_bytesFrom (s : Bytes) (first last : Int) {i : Nat} (inside : (i : Int) < 8 * (last - first + 1)) :
    strBit (bytesFrom s first last) i = strBit s (8 * first.toNat + i) := by
  rw [bytesFrom, strBit_take _ (by omega), strBit_drop]

/-- What the end of the command replies, when it goes to the end of the string unless the end is given. -/
theorem bitpos_spec (address : Nat) (p : Bytes) (bit endGiven : Bool) (first last : Int) (start : 0 ≤ first) (stop : last < p.length)
    (toEnd : endGiven = false → last = p.length - 1) :
    ∃ value, bitpos address p bit endGiven first last = some (.integer value) ∧ FirstInRange p bit endGiven (InBytes p first last) value := by
  rw [bitpos]
  split
  next empty =>
    refine ⟨-1, rfl, (FirstInRange.empty ?_).mpr rfl⟩
    rintro j ⟨-, low, high⟩
    omega
  next some =>
    obtain ⟨pos, found, firstBit⟩ := redisBitpos_first (address + first.toNat) (bytesFrom p first last) bit
    have length : ((bytesFrom p first last).length : Int) = last - first + 1 := by
      rw [bytesFrom, length_take, length_drop]
      omega
    have shift : ∀ i, InBytes p first last i ↔ ∃ j < 8 * (bytesFrom p first last).length, i = 8 * first.toNat + j := by
      intro i
      constructor
      · rintro ⟨inside, low, high⟩
        exact ⟨i - 8 * first.toNat, by omega, by omega⟩
      · rintro ⟨j, inside, rfl⟩
        exact ⟨by omega, by omega, by omega⟩
    have bits : ∀ j < 8 * (bytesFrom p first last).length, strBit (bytesFrom p first last) j = strBit p (8 * first.toNat + j) :=
      fun j inside => strBit_bytesFrom p first last (by omega)
    simp only [found, Option.bind_eq_bind, Option.bind_some]
    obtain ⟨i, rfl, inside, set, before⟩ | ⟨other, rfl⟩ := firstBit
    · rw [if_neg (by omega), if_pos (by omega)]
      refine ⟨_, rfl, .inl ⟨8 * first.toNat + i, by omega, (shift _).mpr ⟨i, inside, rfl⟩, ?_, ?_⟩⟩
      · rw [← bits i inside, set]
      · intro j less member
        obtain ⟨k, near, rfl⟩ := (shift j).mp member
        rw [← bits k near]
        exact before k (by omega)
    · have clear : ∀ j, InBytes p first last j → strBit p j = !bit := by
        intro j member
        obtain ⟨k, near, rfl⟩ := (shift j).mp member
        rw [← bits k near]
        exact other k near
      have start : InBytes p first last (8 * first.toNat) := (shift _).mpr ⟨0, by omega, rfl⟩
      cases bit with
      | true =>
        refine ⟨-1, by simp, .inr ⟨clear, ?_, fun _ => rfl⟩⟩
        rintro ⟨set, -, -⟩
        cases set
      | false =>
        cases endGiven with
        | true =>
          refine ⟨-1, ?_, .inr ⟨clear, ?_, fun _ => rfl⟩⟩
          · simp only [Bool.false_eq_true, if_false, true_and, length]
            rw [if_pos (by omega)]
            rfl
          · rintro ⟨-, given, -⟩
            cases given
        | false =>
          have end_ := toEnd rfl
          refine ⟨8 * (p.length : Int), ?_, .inr ⟨clear, fun _ => rfl, ?_⟩⟩
          · simp only [Bool.false_eq_true, if_false, false_and, length]
            rw [if_pos (by omega)]
            congr 3
            omega
          · intro plain
            exact absurd ⟨rfl, rfl, _, start⟩ plain

def rangeArgument (strlen : Nat) : List Bytes → Option (Int × Int × Bool)
  | [] => some (0, strlen - 1, false)
  | [first] => do return (← getLongLongFromObject (some (.sds first)), strlen - 1, false)
  | [first, last] => do return (← getLongLongFromObject (some (.sds first)), ← getLongLongFromObject (some (.sds last)), true)
  | _ => none

/-- Without an end the end is the last byte, and the range is never in front of the string. -/
theorem rangeArgument_end {strlen : Nat} {argv : List Bytes} (range : rangeArgument strlen argv = some (start, stop, endGiven))
    (missing : endGiven = false) : stop = strlen - 1 := by
  subst missing
  unfold rangeArgument at range
  split at range
  next => cases range; rfl
  next first =>
    cases parsed : getLongLongFromObject (some (.sds first)) with
    | none => simp [parsed] at range
    | some value => simp [parsed] at range; omega
  next first last =>
    cases low : getLongLongFromObject (some (.sds first)) <;> cases high : getLongLongFromObject (some (.sds last)) <;>
      simp [low, high] at range
  next => cases range

theorem convertRange_whole (strlen : Nat) : convertRange strlen 0 (strlen - 1) = (0, (strlen : Int) - 1) := by
  rw [convertRange_eq]
  simp only [norm]
  ext <;> simp only <;> split_ifs <;> omega

theorem bitposCommand_range (address : Nat) {o : StringObject} {argument : Bytes} {argv : List Bytes}
    (there : db key = some (.string o)) (parsed : getLongLongFromObject (some (.sds argument)) = some value) (bit : value = 0 ∨ value = 1)
    (range : rangeArgument (getDecodedObject o).length argv = some (start, stop, endGiven)) :
    bitposCommand address db key argument argv = bitpos address (getDecodedObject o) (value = 1) endGiven
      (convertRange (getDecodedObject o).length start stop).1 (convertRange (getDecodedObject o).length start stop).2 := by
  unfold bitposCommand
  simp only [parsed, there]
  rw [if_neg (by omega)]
  unfold rangeArgument at range
  split at range
  next =>
    cases range
    rw [convertRange_whole]
  next first =>
    cases low : getLongLongFromObject (some (.sds first)) with
    | none => simp [low] at range
    | some value =>
      simp [low] at range
      obtain ⟨rfl, rfl, rfl⟩ := range
      simp only [low]
  next first last =>
    cases low : getLongLongFromObject (some (.sds first)) <;> cases high : getLongLongFromObject (some (.sds last)) <;>
      simp [low, high] at range
    obtain ⟨rfl, rfl, rfl⟩ := range
    simp only [low, high]
  next => cases range

theorem inBytes_converted {p : Bytes} (within : ¬ BeforeString p.length start stop) (i : Nat) :
    InBytes p (max (norm p.length start) 0) (min (max (norm p.length stop) 0) (p.length - 1)) i ↔
      InBytes p (norm p.length start) (norm p.length stop) i := by
  rw [BeforeString] at within
  simp only [InBytes]
  omega

theorem inBytes_first {p : Bytes} (before : BeforeString p.length start stop) (i : Nat) :
    InBytes p (max (norm p.length start) 0) (min (max (norm p.length stop) 0) (p.length - 1)) i ↔ i < 8 ∧ i < 8 * p.length := by
  obtain ⟨low, high⟩ := before
  simp only [InBytes]
  omega

theorem inBytes_before {p : Bytes} (before : BeforeString p.length start stop) (i : Nat) :
    ¬ InBytes p (norm p.length start) (norm p.length stop) i := by
  obtain ⟨low, high⟩ := before
  rintro ⟨-, after, until_⟩
  omega

/-- `redisBitpos` is right, and BITPOS is unless its range lies in front of the string and the first
byte has the bit. -/
theorem bitpos_exact (address : Nat) (db : Keyspace) (key : Key) :
    (∀ (c : Nat) (s : Bytes) (bit : Bool), ∃ pos, redisBitpos c s bit = some pos ∧ FirstBit s bit pos) ∧
    ∀ (o : StringObject) (argument : Bytes) (argv : List Bytes) (value start stop : Int) (endGiven : Bool), db key = some (.string o) → getLongLongFromObject (some (.sds argument)) = some value → value = 0 ∨ value = 1 →
      rangeArgument (getDecodedObject o).length argv = some (start, stop, endGiven) →
      ((∃ pos, bitposCommand address db key argument argv = some (.integer pos) ∧
          FirstInRange (getDecodedObject o) (value = 1) endGiven
            (InBytes (getDecodedObject o) (norm (getDecodedObject o).length start) (norm (getDecodedObject o).length stop)) pos) ↔
        ¬ (BeforeString (getDecodedObject o).length start stop ∧
          ∃ i < 8, i < 8 * (getDecodedObject o).length ∧ strBit (getDecodedObject o) i = decide (value = 1))) := by
  refine ⟨redisBitpos_first, ?_⟩
  intro o argument argv value start stop endGiven there parsed bit range
  rw [bitposCommand_range address there parsed bit range, convertRange_eq]
  generalize getDecodedObject o = p at *
  simp only
  obtain ⟨pos, reply, first⟩ := bitpos_spec address p (value = 1) endGiven (max (norm p.length start) 0)
    (min (max (norm p.length stop) 0) (p.length - 1)) (by omega) (by omega) (by
      intro missing
      rw [rangeArgument_end range missing, norm]
      split_ifs <;> omega)
  rw [reply]
  by_cases before : BeforeString p.length start stop
  case neg =>
    simp only [before, false_and, not_false_eq_true, iff_true]
    exact ⟨pos, rfl, first.congr (inBytes_converted before)⟩
  case pos =>
    simp only [before, true_and]
    have firstByte := first.congr (inBytes_first before)
    have minus : (∃ other, some (BitReply.integer pos) = some (.integer other) ∧
        FirstInRange p (value = 1) endGiven (InBytes p (norm p.length start) (norm p.length stop)) other) ↔ pos = -1 := by
      simp only [FirstInRange.empty (inBytes_before before), Option.some.injEq, BitReply.integer.injEq]
      constructor
      · rintro ⟨_, same, empty⟩
        exact same.trans empty
      · exact fun empty => ⟨-1, empty, rfl⟩
    rw [minus]
    constructor
    · rintro rfl ⟨i, near, inside, set⟩
      have clear := firstByte.none i ⟨near, inside⟩
      rw [set] at clear
      exact Bool.self_ne_not _ clear
    · intro none
      obtain ⟨i, -, ⟨near, inside⟩, set, -⟩ | ⟨-, -, minus⟩ := firstByte
      · exact absurd ⟨i, near, inside, set⟩ none
      · apply minus
        rintro ⟨-, missing, i, -, inside⟩
        have stopped := rangeArgument_end range missing
        have high := before.2
        rw [stopped, norm] at high
        split_ifs at high <;> omega

/-- BITPOS for a set bit from -10 to -9 on a string of one byte. -/
theorem bitpos_before_string :
    let db : Keyspace := fun _ => some (.string (.sds [255]))
    bitposCommand 0 db [107] [49] [[45, 49, 48], [45, 57]] = some (.integer 0) ∧
      ¬ FirstInRange [255] true true (InBytes [255] (norm 1 (-10)) (norm 1 (-9))) 0 := by
  refine ⟨by decide, ?_⟩
  intro first
  have before : BeforeString [(255 : UInt8)].length (-10) (-9) := by decide
  have minus := (FirstInRange.empty (inBytes_before before)).mp first
  cases minus

/-- A string of two bytes, from the second one on. -/
theorem bitpos_exact_second_byte :
    ∃ pos, bitposCommand 0 (fun _ => some (.string (.sds [0, 255]))) [107] [49] [[49]] = some (.integer pos) ∧
      FirstInRange [0, 255] true false (InBytes [0, 255] (norm 2 1) (norm 2 1)) pos :=
  ((bitpos_exact 0 (fun _ => some (.string (.sds [0, 255]))) [107]).2 (.sds [0, 255]) [49] [[49]] 1 1 1 false rfl (by decide) (.inr rfl)
    (by decide)).mpr (by decide)

end

end Cplusplus.Redis.Strings
