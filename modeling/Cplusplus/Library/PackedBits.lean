import Mathlib.Data.Nat.Bitwise

/-! Counters of `width` bits that are packed into bytes from the lowest bit on. A counter
is read and written through the two bytes at its first bit. -/

namespace Cplusplus.PackedBits

open List Option

variable {width : Nat}

def bitAt (p : List UInt8) (k : Nat) : Bool := (p.getD (k / 8) 0).toNat.testBit (k % 8)

def mask (width : Nat) : Nat := 2 ^ width - 1

def get (width : Nat) (p : List UInt8) (i : Nat) : Option Nat := do
  let byte := i * width / 8
  let fb := i * width % 8
  let b0 ← p[byte]?
  let b1 ← p[byte + 1]?
  return (b0.toNat >>> fb ||| b1.toNat <<< (8 - fb)) &&& mask width

def replaceBits (x : UInt8) (y z : Nat) : UInt8 := UInt8.ofNat (Nat.ldiff x.toNat y ||| z)

def set (width : Nat) (p : List UInt8) (i v : Nat) : Option (List UInt8) := do
  let byte := i * width / 8
  let fb := i * width % 8
  let b0 ← p[byte]?
  let b1 ← p[byte + 1]?
  return (p.set byte (replaceBits b0 (mask width <<< fb) (v <<< fb))).set (byte + 1)
    (replaceBits b1 (mask width >>> (8 - fb)) (v >>> (8 - fb)))

theorem mask_testBit (width j : Nat) : (mask width).testBit j = decide (j < width) := by
  rw [mask, Nat.testBit_two_pow_sub_one]

theorem byte_testBit (x : UInt8) {j : Nat} (far : 8 ≤ j) : x.toNat.testBit j = false :=
  Nat.testBit_lt_two_pow (Nat.lt_of_lt_of_le x.toNat_lt (Nat.pow_le_pow_right (by omega) far))

theorem replaceBits_testBit (x : UInt8) (y z : Nat) {j : Nat} (near : j < 8) :
    (replaceBits x y z).toNat.testBit j = (x.toNat.testBit j && !y.testBit j || z.testBit j) := by
  rw [replaceBits, UInt8.toNat_ofNat', Nat.testBit_mod_two_pow, Nat.testBit_or, Nat.testBit_ldiff]
  simp [near]

variable {p : List UInt8}

theorem get_some (width : Nat) {i : Nat} (inside : i * width / 8 + 1 < p.length) :
    ∃ v, get width p i = some v ∧ ∀ j, v.testBit j = (decide (j < width) && (
      (p.getD (i * width / 8) 0).toNat.testBit (i * width % 8 + j) ||
        decide (8 - i * width % 8 ≤ j) && (p.getD (i * width / 8 + 1) 0).toNat.testBit (j - (8 - i * width % 8)))) := by
  have first : i * width / 8 < p.length := by omega
  refine ⟨_, by simp only [get, getElem?_eq_getElem first, getElem?_eq_getElem inside, bind_eq_bind, bind_some]; rfl, ?_⟩
  intro j
  rw [Nat.testBit_and, mask_testBit, Nat.testBit_or, Nat.testBit_shiftRight, Nat.testBit_shiftLeft, Bool.and_comm,
    getD_eq_getElem _ _ first, getD_eq_getElem _ _ inside]

theorem get_testBit {i v : Nat} (small : width ≤ 8) (read : get width p i = some v) (j : Nat) :
    v.testBit j = (decide (j < width) && bitAt p (i * width + j)) := by
  have inside : i * width / 8 + 1 < p.length := by
    simp only [get, bind_eq_bind, bind_eq_some_iff] at read
    obtain ⟨_, _, _, last, _⟩ := read
    exact (List.getElem?_eq_some_iff.mp last).1
  obtain ⟨v', read', bits⟩ := get_some width inside
  obtain rfl : v' = v := some.inj (read'.symm.trans read)
  rw [bits]
  rcases Nat.lt_or_ge j width with within | beyond
  · rw [decide_eq_true within, Bool.true_and, Bool.true_and, bitAt]
    rcases Nat.lt_or_ge (i * width % 8 + j) 8 with low | high
    · have byte : (i * width + j) / 8 = i * width / 8 := by omega
      have bit : (i * width + j) % 8 = i * width % 8 + j := by omega
      rw [byte, bit, decide_eq_false (by omega), Bool.false_and, Bool.or_false]
    · have byte : (i * width + j) / 8 = i * width / 8 + 1 := by omega
      have bit : (i * width + j) % 8 = j - (8 - i * width % 8) := by omega
      rw [byte, bit, decide_eq_true (by omega), Bool.true_and, byte_testBit _ high, Bool.false_or]
  · rw [decide_eq_false (Nat.not_lt.mpr beyond), Bool.false_and, Bool.false_and]

theorem set_some (width : Nat) {i v : Nat} (small : width ≤ 8) (fits : v < 2 ^ width) (inside : i * width / 8 + 1 < p.length) :
    ∃ p', set width p i v = some p' ∧ p'.length = p.length ∧ ∀ k, bitAt p' k =
      if i * width ≤ k ∧ k < i * width + width then v.testBit (k - i * width) else bitAt p k := by
  have first : i * width / 8 < p.length := by omega
  have zeros : ∀ j, width ≤ j → v.testBit j = false := fun j far =>
    Nat.testBit_lt_two_pow (Nat.lt_of_lt_of_le fits (Nat.pow_le_pow_right (by omega) far))
  refine ⟨_, by simp only [set, getElem?_eq_getElem first, getElem?_eq_getElem inside, bind_eq_bind, bind_some]; rfl, by simp, ?_⟩
  intro k
  have near : k % 8 < 8 := Nat.mod_lt _ (by omega)
  rw [bitAt, bitAt]
  rcases eq_or_ne (k / 8) (i * width / 8) with same | other
  · have notNext : i * width / 8 + 1 ≠ i * width / 8 := by omega
    rw [same, getD_eq_getElem?_getD, getElem?_set_ne notNext, getElem?_set_self first, getD_some,
      replaceBits_testBit _ _ _ near, Nat.testBit_shiftLeft, Nat.testBit_shiftLeft, mask_testBit,
      getD_eq_getElem _ _ first]
    have bit : k - i * width = k % 8 - i * width % 8 := by omega
    split
    next range =>
      have after : i * width % 8 ≤ k % 8 := by omega
      have within : k % 8 - i * width % 8 < width := by omega
      simp [after, within, bit]
    next range =>
      rcases Nat.lt_or_ge (k % 8) (i * width % 8) with before | after
      · simp [Nat.not_le.mpr before]
      · have beyond : width ≤ k % 8 - i * width % 8 := by omega
        simp [Nat.not_lt.mpr beyond, zeros _ beyond]
  · rcases eq_or_ne (k / 8) (i * width / 8 + 1) with next | far
    · rw [next, getD_eq_getElem?_getD, getElem?_set_self (by rwa [length_set]), getD_some,
        replaceBits_testBit _ _ _ near, Nat.testBit_shiftRight, Nat.testBit_shiftRight, mask_testBit,
        getD_eq_getElem _ _ inside]
      have bit : k - i * width = 8 - i * width % 8 + k % 8 := by omega
      split
      next range =>
        have within : 8 - i * width % 8 + k % 8 < width := by omega
        simp [within, bit]
      next range =>
        have beyond : width ≤ 8 - i * width % 8 + k % 8 := by omega
        simp [Nat.not_lt.mpr beyond, zeros _ beyond]
    · have outside : ¬ (i * width ≤ k ∧ k < i * width + width) := by omega
      rw [if_neg outside, getD_eq_getElem?_getD, getElem?_set_ne far.symm, getElem?_set_ne other.symm, ← getD_eq_getElem?_getD]

theorem get_lt {i v : Nat} (read : get width p i = some v) : v < 2 ^ width := by
  simp only [get, bind_eq_bind, bind_eq_some_iff] at read
  obtain ⟨_, _, _, _, same⟩ := read
  rw [← some.inj same]
  have positive : 0 < 2 ^ width := Nat.two_pow_pos width
  exact Nat.lt_of_le_of_lt Nat.and_le_right (by unfold mask; omega)

theorem get_set {p p' : List UInt8} {i v : Nat} (small : width ≤ 8) (fits : v < 2 ^ width) (written : set width p i v = some p')
    (inside : i * width / 8 + 1 < p.length) : get width p' i = some v ∧ ∀ j, j ≠ i → get width p' j = get width p j := by
  obtain ⟨q, written', length, bits⟩ := set_some width small fits inside
  obtain rfl : q = p' := some.inj (written'.symm.trans written)
  constructor
  · obtain ⟨u, read, _⟩ := get_some width (p := q) (i := i) (by rwa [length])
    rw [read]
    congr 1
    apply Nat.eq_of_testBit_eq
    intro b
    rw [get_testBit small read, bits]
    rcases Nat.lt_or_ge b width with within | beyond
    · rw [decide_eq_true within, Bool.true_and, if_pos (by omega), Nat.add_sub_cancel_left]
    · rw [decide_eq_false (Nat.not_lt.mpr beyond), Bool.false_and]
      exact (Nat.testBit_lt_two_pow (Nat.lt_of_lt_of_le fits (Nat.pow_le_pow_right (by omega) beyond))).symm
  · intro j other
    rcases Nat.lt_or_ge (j * width / 8 + 1) p.length with within | outside
    · obtain ⟨u, read, _⟩ := get_some width (p := q) (i := j) (by rwa [length])
      obtain ⟨w, read', _⟩ := get_some width (p := p) (i := j) within
      rw [read, read']
      congr 1
      apply Nat.eq_of_testBit_eq
      intro b
      rw [get_testBit small read, get_testBit small read', bits]
      rcases Nat.lt_or_ge b width with near | far
      · have apart : ¬ (i * width ≤ j * width + b ∧ j * width + b < i * width + width) := by
          rcases Nat.lt_or_gt_of_ne other with less | more
          · have := Nat.mul_le_mul_right width (Nat.succ_le_of_lt less)
            rw [Nat.succ_mul] at this
            omega
          · have := Nat.mul_le_mul_right width (Nat.succ_le_of_lt more)
            rw [Nat.succ_mul] at this
            omega
        rw [if_neg apart]
      · rw [decide_eq_false (Nat.not_lt.mpr far), Bool.false_and, Bool.false_and]
    · have missing : ∀ r : List UInt8, r.length = p.length → get width r j = none := by
        intro r same
        have nothing : r[j * width / 8 + 1]? = none := getElem?_eq_none (by omega)
        simp only [get, nothing, bind_eq_bind, bind_none, bind_fun_none]
      rw [missing q length, missing p rfl]

end Cplusplus.PackedBits
