import Cplusplus.Proofs.HllRegisters

/-! The fast path of `hllDenseSum` reads the registers that `HLL_DENSE_GET_REGISTER` reads. Sixteen
registers fill twelve bytes, and the shifts repeat after three of them. -/

namespace Cplusplus.Redis.Hll

open List Option

private theorem low_bits (x y : Nat) {n : Nat} (far : 6 ≤ n) : (x ||| y <<< n) &&& 63 = x &&& 63 := by
  apply Nat.eq_of_testBit_eq
  intro i
  have mask := Nat.testBit_two_pow_sub_one 6 i
  rw [Nat.testBit_and, Nat.testBit_and, Nat.testBit_or, Nat.testBit_shiftLeft, mask]
  by_cases near : i < 6
  · simp [show ¬ n ≤ i by omega]
  · simp [near]

def fourRegisters (r : Nat → Nat) : List Nat :=
  [r 0 &&& 63, (r 0 >>> 6 ||| r 1 <<< 2) &&& 63, (r 1 >>> 4 ||| r 2 <<< 4) &&& 63, r 2 >>> 2 &&& 63]

theorem denseGroup_parts (r : Nat → Nat) : hllDenseGroup r =
    fourRegisters (fun i => r (0 + i)) ++ fourRegisters (fun i => r (3 + i)) ++ fourRegisters (fun i => r (6 + i)) ++
      fourRegisters (fun i => r (9 + i)) := by
  simp only [hllDenseGroup, fourRegisters, cons_append, nil_append]

theorem get_four {p : List UInt8} {k : Nat} (inside : 3 * k + 3 < p.length) :
    (List.range' (4 * k) 4).map (PackedBits.get 6 p) = (fourRegisters fun n => (p.getD (3 * k + n) 0).toNat).map some := by
  have here : ∀ n ≤ 3, p[3 * k + n]? = some (p.getD (3 * k + n) 0) := by
    intro n near
    rw [getD_eq_getElem?_getD, getElem?_eq_getElem (by omega), getD_some]
  have mask : PackedBits.mask 6 = 63 := rfl
  have read : ∀ i byte bit, i * 6 / 8 = 3 * k + byte → i * 6 % 8 = bit → byte ≤ 2 →
      PackedBits.get 6 p i = some (((p.getD (3 * k + byte) 0).toNat >>> bit ||| (p.getD (3 * k + (byte + 1)) 0).toNat <<< (8 - bit)) &&& 63) := by
    intro i byte bit atByte atBit near
    simp only [PackedBits.get, atByte, atBit, here byte (by omega), Nat.add_assoc, here (byte + 1) (by omega), mask, bind_eq_bind, bind_some]
    rfl
  have first := read (4 * k) 0 0 (by omega) (by omega) (by omega)
  have second := read (4 * k + 1) 0 6 (by omega) (by omega) (by omega)
  have third := read (4 * k + 2) 1 4 (by omega) (by omega) (by omega)
  have fourth := read (4 * k + 3) 2 2 (by omega) (by omega) (by omega)
  rw [low_bits _ _ (by omega), Nat.shiftRight_zero] at first
  rw [low_bits _ _ (by omega)] at fourth
  simp only [range'_succ, range'_zero, map_cons, map_nil, Nat.add_assoc, Nat.reduceAdd, first, second, third, fourth, fourRegisters]

variable {o : List UInt8}

theorem denseGroup_eq (ok : DenseOk o) {j : Nat} (inside : j < 1024) :
    (hllDenseGroup fun i => ((o.drop hllHdrSize).getD (12 * j + i) 0).toNat).map some = (List.range' (16 * j) 16).map (hllDenseGetRegister o) := by
  have length : (o.drop hllHdrSize).length = 12288 := by
    rw [length_drop, ok]
    rfl
  have four : ∀ q < 4, (fourRegisters fun n => ((o.drop hllHdrSize).getD (12 * j + (3 * q + n)) 0).toNat).map some =
      (List.range' (16 * j + 4 * q) 4).map (hllDenseGetRegister o) := by
    intro q near
    have registers : 16 * j + 4 * q = 4 * (4 * j + q) := by omega
    have bytes : ∀ n < 3, (o.drop hllHdrSize ++ [0]).getD (3 * (4 * j + q) + n) 0 = (o.drop hllHdrSize).getD (12 * j + (3 * q + n)) 0 := by
      intro n short
      rw [getD_append _ _ _ _ (by rw [length]; omega)]
      congr 1
      omega
    have read := get_four (p := o.drop hllHdrSize ++ [0]) (k := 4 * j + q) (by rw [length_append, length]; simp only [length_singleton]; omega)
    simp only [fourRegisters, bytes 0 (by omega), bytes 1 (by omega), bytes 2 (by omega)] at read
    rw [registers]
    exact read.symm
  have parts : List.range' (16 * j) 16 = List.range' (16 * j + 4 * 0) 4 ++ List.range' (16 * j + 4 * 1) 4 ++
      List.range' (16 * j + 4 * 2) 4 ++ List.range' (16 * j + 4 * 3) 4 := by
    simp only [range'_succ, range'_zero, cons_append, nil_append, Nat.add_assoc, Nat.reduceAdd, Nat.reduceMul, Nat.add_zero]
  rw [denseGroup_parts, parts]
  simp only [map_append]
  rw [← four 0 (by omega), ← four 1 (by omega), ← four 2 (by omega), ← four 3 (by omega)]

theorem denseSum_loop {F : Type} (D : Doubles F) (registers : List UInt8) (count j : Nat) (sum : F) (ez : Nat) :
    hllDenseSum D registers count (12 * j) sum ez =
      (((List.range' j count).map fun i => hllDenseGroup fun k => (registers.getD (12 * i + k) 0).toNat).foldl
          (fun sum group => D.add sum (hllSumGroup D group)) sum,
        ez + (((List.range' j count).map fun i => hllDenseGroup fun k => (registers.getD (12 * i + k) 0).toNat).map (List.count 0)).sum) := by
  induction count generalizing j sum ez with
  | zero => rfl
  | succ count ih =>
    have next : 12 * j + 12 = 12 * (j + 1) := by omega
    rw [hllDenseSum]
    simp only [next, ih, range'_succ, map_cons, foldl_cons, sum_cons, Nat.add_assoc]

theorem dense_get_outside (ok : DenseOk o) {j : Nat} (outside : hllRegisters ≤ j) : hllDenseGetRegister o j = none := by
  unfold hllRegisters at outside
  have length : (o.drop hllHdrSize ++ [0]).length = 12289 := by
    rw [length_append, length_drop, ok]
    rfl
  have behind : (o.drop hllHdrSize ++ [0])[j * 6 / 8 + 1]? = none := getElem?_eq_none (by omega)
  simp only [hllDenseGetRegister, PackedBits.get, behind, bind_eq_bind, bind_none, bind_fun_none]

def denseGroups (o : List UInt8) : List (List Nat) :=
  (List.range 1024).map fun j => hllDenseGroup fun i => ((o.drop hllHdrSize).getD (12 * j + i) 0).toNat

private theorem range_groups (count first : Nat) (f : Nat → Option Nat) :
    ((List.range' first count).map fun j => (List.range' (16 * j) 16).map f).flatten = (List.range' (16 * first) (16 * count)).map f := by
  induction count generalizing first with
  | zero => rfl
  | succ count ih =>
    rw [range'_succ, map_cons, flatten_cons, ih, ← map_append, Nat.mul_succ, Nat.mul_succ, Nat.add_comm (16 * count), range'_append_1]

theorem denseGroups_flatten (ok : DenseOk o) : (denseGroups o).flatten.map some = (List.range hllRegisters).map (hllDenseGetRegister o) := by
  have groups : (denseGroups o).map (List.map some) = (List.range' 0 1024).map fun j => (List.range' (16 * j) 16).map (hllDenseGetRegister o) := by
    rw [denseGroups, List.map_map, range_eq_range']
    apply map_congr_left
    intro j member
    exact denseGroup_eq ok (by have := (mem_range'_1.mp member).2; omega)
  rw [map_flatten, groups, range_groups, range_eq_range']
  rfl

end Cplusplus.Redis.Hll
