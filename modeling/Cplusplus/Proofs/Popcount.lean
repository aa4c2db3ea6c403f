import Cplusplus.StringCommands
import Cplusplus.Library.Lanes

/-! `redisPopcount` counts the set bits. The three loops take the string apart, and in the middle
one every byte of a word is counted in its own lane. -/

namespace Cplusplus.Redis.Strings
open Lanes List
open BitVec (ofNat toNat_add toNat_and toNat_ofNat toNat_ushiftRight)

def setBits (c : UInt8) : Nat := (List.range 8).countP c.toNat.testBit

def bitCount (s : Bytes) : Nat := (s.map setBits).sum

theorem bitCount_append (s t : Bytes) : bitCount (s ++ t) = bitCount s + bitCount t := by
  rw [bitCount, map_append, sum_append, bitCount, bitCount]

private theorem bitsinbyte_spec : ∀ n < 256, bitsinbyte.getD n 0 = (List.range 8).countP n.testBit := by decide +kernel

theorem byteBits_eq (c : UInt8) : byteBits c = setBits c := bitsinbyte_spec c.toNat c.toNat_lt

theorem tail_count (s : Bytes) : (s.map byteBits).sum = bitCount s := by
  rw [funext byteBits_eq]
  rfl

theorem popcountUnaligned_spec (p : Nat) (s : Bytes) : (popcountUnaligned p s).1 + bitCount (popcountUnaligned p s).2 = bitCount s := by
  induction s generalizing p with
  | nil => rfl
  | cons c s ih =>
    rw [popcountUnaligned]
    split
    · exact Nat.zero_add _
    · have rest := ih (p + 1)
      simp only [bitCount, map_cons, sum_cons, byteBits_eq] at rest ⊢
      omega

def pairLane (a : Nat) : Nat := a - (a >>> 1 &&& 0x55)

def nibbleLane (a : Nat) : Nat := (pairLane a &&& 0x33) + (pairLane a >>> 2 &&& 0x33)

def byteLane (a : Nat) : Nat := nibbleLane a % 16 + nibbleLane a / 16

private theorem lane_bounds : ∀ a < 256, (a >>> 1 &&& 0x55) ≤ a ∧ pairLane a < 256 ∧ nibbleLane a % 16 < 8 ∧ nibbleLane a / 16 < 8 := by
  decide +kernel

private theorem byteLane_spec : ∀ a < 256, byteLane a = (List.range 8).countP a.testBit := by decide +kernel

private theorem leValue_lanes (s : Bytes) : Bytes.leValue s = lanes (s.map UInt8.toNat) := by
  induction s with
  | nil => rfl
  | cons c s ih => rw [Bytes.leValue, map_cons, lanes, ih]

section Word

variable {l : List Nat}

section
variable (four : l.length = 4)
include four

private theorem four_lanes_lt {f : Nat → Nat} (small : ∀ a ∈ l, f a < 256) : lanes (l.map f) < 2 ^ 32 := by
  have bound := lanes_lt (l := l.map f) (by simpa using small)
  rwa [length_map, four] at bound

private theorem mask_lanes (m : Nat) : lanes (l.map fun _ => m) = m * 0x01010101 := by
  match l, four with
  | [a, b, c, d], _ =>
    simp only [map_cons, map_nil, lanes]
    omega

theorem nibbleCounts_lanes (small : ∀ a ∈ l, a < 256) : (nibbleCounts (ofNat 32 (lanes l))).toNat = lanes (l.map nibbleLane) := by
  have word : lanes l < 2 ^ 32 := by
    have bound := four_lanes_lt (f := id) four small
    rwa [List.map_id] at bound
  have ones := lanes_shift_and (l := l) (m := 0x55) (k := 1) (by decide) (by decide) small
  have less : ∀ a ∈ l, (a >>> 1 &&& 0x55) ≤ id a := fun a member => (lane_bounds a (small a member)).1
  have under := lanes_mono (l := l) (f := id) less
  have pairs := lanes_sub (l := l) (f := id) less
  rw [List.map_id] at under pairs
  have pairSmall : ∀ a ∈ l.map pairLane, a < 256 := by
    intro a member
    obtain ⟨b, inside, rfl⟩ := List.mem_map.mp member
    exact (lane_bounds b (small b inside)).2.1
  have low := lanes_and (l := l.map pairLane) (m := 0x33) (by decide) pairSmall
  have high := lanes_shift_and (l := l.map pairLane) (m := 0x33) (k := 2) (by decide) (by decide) pairSmall
  rw [mask_lanes four] at ones
  rw [mask_lanes (by rw [length_map, four])] at low high
  rw [List.map_map] at low high
  have pairsWord : (ofNat 32 (lanes l) - ((ofNat 32 (lanes l) >>> 1) &&& 0x55555555#32)).toNat = lanes (l.map pairLane) := by
    rw [BitVec.toNat_sub, toNat_and, toNat_ushiftRight, toNat_ofNat, toNat_ofNat, Nat.mod_eq_of_lt word,
      show 0x55555555 % 2 ^ 32 = 0x55 * 0x01010101 from rfl, ones]
    change _ = lanes (l.map fun a => id a - (a >>> 1 &&& 0x55))
    rw [← pairs]
    omega
  simp only [nibbleCounts]
  rw [toNat_add, toNat_and, toNat_and, toNat_ushiftRight, pairsWord, toNat_ofNat,
    show 0x33333333 % 2 ^ 32 = 0x33 * 0x01010101 from rfl, low, high, lanes_add]
  apply Nat.mod_eq_of_lt
  exact four_lanes_lt (f := nibbleLane) four fun a member => by
    have bounds := (lane_bounds a (small a member)).2.2
    omega

theorem byteCounts_lanes (small : ∀ a ∈ l, a < 256) : (byteCounts (nibbleCounts (ofNat 32 (lanes l)))).toNat = lanes (l.map byteLane) := by
  have nibbles : ∀ a ∈ l.map nibbleLane, a % 16 < 8 ∧ a / 16 < 8 := by
    intro a member
    obtain ⟨b, inside, rfl⟩ := List.mem_map.mp member
    exact (lane_bounds b (small b inside)).2.2
  have fold := lanes_fold (fun a member => (nibbles a member).1) fun a member => (nibbles a member).2
  rw [mask_lanes (by rw [length_map, four]), List.map_map] at fold
  have bound : lanes (l.map nibbleLane) + lanes (l.map nibbleLane) >>> 4 < 2 ^ 32 := by
    match l, four with
    | [a, b, c, d], _ =>
      have first := nibbles (nibbleLane a) (by simp)
      have second := nibbles (nibbleLane b) (by simp)
      have third := nibbles (nibbleLane c) (by simp)
      have fourth := nibbles (nibbleLane d) (by simp)
      rw [Nat.shiftRight_eq_div_pow]
      simp only [map_cons, map_nil, lanes]
      omega
  rw [byteCounts, toNat_and, toNat_add, toNat_ushiftRight, nibbleCounts_lanes four small,
    Nat.mod_eq_of_lt bound, toNat_ofNat, show 0x0F0F0F0F % 2 ^ 32 = 15 * 0x01010101 from rfl, fold]
  rfl

end

end Word

def Counts (most total : Nat) (x : BitVec 32) : Prop :=
  ∃ a b c d, a ≤ most ∧ b ≤ most ∧ c ≤ most ∧ d ≤ most ∧ x.toNat = a + 256 * b + 65536 * c + 16777216 * d ∧ a + b + c + d = total

theorem Counts.add {m n t u : Nat} {x y : BitVec 32} (left : Counts m t x) (right : Counts n u y) (room : m + n < 256) :
    Counts (m + n) (t + u) (x + y) := by
  obtain ⟨a, b, c, d, ha, hb, hc, hd, value, total⟩ := left
  obtain ⟨a', b', c', d', ha', hb', hc', hd', value', total'⟩ := right
  refine ⟨a + a', b + b', c + c', d + d', by omega, by omega, by omega, by omega, ?_, by omega⟩
  rw [toNat_add, value, value', Nat.mod_eq_of_lt (by omega)]
  omega

theorem Counts.product {n t : Nat} {x : BitVec 32} (counts : Counts n t x) (room : n < 64) : ((x * 0x01010101#32) >>> 24).toNat = t := by
  obtain ⟨a, b, c, d, ha, hb, hc, hd, value, total⟩ := counts
  rw [toNat_ushiftRight, BitVec.toNat_mul, value, toNat_ofNat, Nat.shiftRight_eq_div_pow]
  have spread : (a + 256 * b + 65536 * c + 16777216 * d) * (16843009 % 2 ^ 32) =
      (a + 256 * (a + b) + 65536 * (a + b + c) + 16777216 * t) + 2 ^ 32 * (b + c + d + 256 * (c + d) + 65536 * d) := by omega
  rw [spread, Nat.add_mul_mod_self_left, Nat.mod_eq_of_lt (by omega)]
  omega

theorem word_counts {s : Bytes} (enough : 4 ≤ s.length) : Counts 8 (bitCount (s.take 4)) (byteCounts (nibbleCounts (loadUint32 s))) := by
  have counts := byteCounts_lanes (l := (s.take 4).map UInt8.toNat) (by rw [length_map, length_take, Nat.min_eq_left enough])
    fun a member => by
      obtain ⟨c, -, rfl⟩ := List.mem_map.mp member
      exact c.toNat_lt
  have lane : ∀ c : UInt8, byteLane c.toNat = setBits c := fun c => byteLane_spec _ c.toNat_lt
  have small : ∀ c : UInt8, setBits c ≤ 8 := fun c => countP_le_length
  rw [← leValue_lanes] at counts
  match s, enough with
  | p :: q :: r :: t :: _, _ =>
    refine ⟨setBits p, setBits q, setBits r, setBits t, small p, small q, small r, small t, ?_, ?_⟩
    · rw [loadUint32, counts]
      simp only [take_succ_cons, take_zero, map_cons, map_nil, lanes, lane]
      omega
    · simp only [bitCount, take_succ_cons, take_zero, map_cons, map_nil, sum_cons, sum_nil]
      omega

theorem bitCount_take (s : Bytes) (n : Nat) : bitCount (s.take (4 * (n + 1))) = bitCount (s.take (4 * n)) + bitCount ((s.drop (4 * n)).take 4) := by
  rw [Nat.mul_succ, take_add, bitCount_append]

/-- Seven words have at most 56 bits in a lane, so that the lanes can be added up by a product. -/
theorem popcount28_eq {s : Bytes} (enough : 28 ≤ s.length) : popcount28 s = bitCount (s.take 28) := by
  have word : ∀ i < 7, Counts 8 (bitCount ((s.drop (4 * i)).take 4)) (byteCounts (nibbleCounts (loadUint32 (s.drop (4 * i))))) := by
    intro i inside
    apply word_counts
    rw [length_drop]
    omega
  have total : bitCount (s.take 28) = bitCount ((s.drop (4 * 0)).take 4) + bitCount ((s.drop (4 * 1)).take 4) +
      bitCount ((s.drop (4 * 2)).take 4) + bitCount ((s.drop (4 * 3)).take 4) + bitCount ((s.drop (4 * 4)).take 4) +
      bitCount ((s.drop (4 * 5)).take 4) + bitCount ((s.drop (4 * 6)).take 4) := by
    rw [show 28 = 4 * (6 + 1) from rfl, bitCount_take, bitCount_take, bitCount_take, bitCount_take, bitCount_take, bitCount_take, bitCount_take]
    simp [bitCount]
  rw [total]
  have two := (word 0 (by decide)).add (word 1 (by decide)) (by decide)
  have three := two.add (word 2 (by decide)) (by decide)
  have four := three.add (word 3 (by decide)) (by decide)
  have five := four.add (word 4 (by decide)) (by decide)
  have six := five.add (word 5 (by decide)) (by decide)
  have seven := six.add (word 6 (by decide)) (by decide)
  exact seven.product (by decide)

theorem popcountBlocks_spec (fuel : Nat) (s : Bytes) : (popcountBlocks fuel s).1 + bitCount (popcountBlocks fuel s).2 = bitCount s := by
  induction fuel generalizing s with
  | zero => exact Nat.zero_add _
  | succ fuel ih =>
    rw [popcountBlocks]
    split
    next enough =>
      have rest := ih (s.drop 28)
      have parts := bitCount_append (s.take 28) (s.drop 28)
      rw [take_append_drop] at parts
      simp only [popcount28_eq enough]
      omega
    next => exact Nat.zero_add _

theorem popcount_parts (p : Nat) (s : Bytes) : redisPopcount p s = bitCount s := by
  have first := popcountUnaligned_spec p s
  have blocks := popcountBlocks_spec (popcountUnaligned p s).2.length (popcountUnaligned p s).2
  simp only [redisPopcount, tail_count]
  omega

/-- For every string at every address. -/
theorem redisPopcount_eq (p : Nat) (s : Bytes) : redisPopcount p s = (s.map fun c => (List.range 8).countP c.toNat.testBit).sum := popcount_parts p s

end Cplusplus.Redis.Strings
