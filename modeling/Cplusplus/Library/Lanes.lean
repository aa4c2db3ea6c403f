import Mathlib.Algebra.Order.Ring.Nat
import Mathlib.Data.Nat.Bitwise

/-! Numbers whose bytes are worked on all at once: each byte is a lane, and an operation on the
number is the operation on every lane as long as no lane runs over. -/

namespace Cplusplus.Lanes

open List

def lanes : List Nat → Nat
  | [] => 0
  | a :: l => a + 256 * lanes l

variable {l : List Nat} {f g : Nat → Nat}

theorem lanes_lt (small : ∀ a ∈ l, a < 256) : lanes l < 256 ^ l.length := by
  induction l with
  | nil => simp [lanes]
  | cons a l ih =>
    have first := small a mem_cons_self
    have rest := ih fun b member => small b (mem_cons_of_mem _ member)
    rw [lanes, length_cons, Nat.pow_succ]
    omega

theorem lanes_add : lanes (l.map f) + lanes (l.map g) = lanes (l.map fun a => f a + g a) := by
  induction l with
  | nil => rfl
  | cons a l ih =>
    simp only [map_cons, lanes, ← ih]
    omega

theorem lanes_mono (less : ∀ a ∈ l, g a ≤ f a) : lanes (l.map g) ≤ lanes (l.map f) := by
  induction l with
  | nil => exact Nat.le_refl 0
  | cons a l ih =>
    have first := less a mem_cons_self
    have rest := ih fun b member => less b (mem_cons_of_mem _ member)
    simp only [map_cons, lanes]
    omega

theorem lanes_sub (less : ∀ a ∈ l, g a ≤ f a) : lanes (l.map f) - lanes (l.map g) = lanes (l.map fun a => f a - g a) := by
  have sum : lanes (l.map g) + lanes (l.map fun a => f a - g a) = lanes (l.map f) := by
    rw [lanes_add]
    congr 1
    apply map_congr_left
    intro a member
    exact Nat.add_sub_of_le (less a member)
  omega

theorem and_lane {a m : Nat} (first : a < 256) (mask : m < 256) (x n : Nat) :
    (a + 256 * x) &&& (m + 256 * n) = (a &&& m) + 256 * (x &&& n) := by
  have low : ((a + 256 * x) &&& (m + 256 * n)) % 2 ^ 8 = (a + 256 * x) % 2 ^ 8 &&& (m + 256 * n) % 2 ^ 8 := Nat.and_mod_two_pow
  have high : ((a + 256 * x) &&& (m + 256 * n)) / 2 ^ 8 = (a + 256 * x) / 2 ^ 8 &&& (m + 256 * n) / 2 ^ 8 := Nat.and_div_two_pow
  have parts := Nat.div_add_mod ((a + 256 * x) &&& (m + 256 * n)) 256
  rw [show (2 : Nat) ^ 8 = 256 from rfl] at low high
  have a_div : (a + 256 * x) / 256 = x := by omega
  have m_div : (m + 256 * n) / 256 = n := by omega
  have a_mod : (a + 256 * x) % 256 = a := by omega
  have m_mod : (m + 256 * n) % 256 = m := by omega
  rw [a_mod, m_mod] at low
  rw [a_div, m_div] at high
  omega

theorem lanes_and {m : Nat} (mask : m < 256) (small : ∀ a ∈ l, a < 256) :
    lanes l &&& lanes (l.map fun _ => m) = lanes (l.map fun a => a &&& m) := by
  induction l with
  | nil => simp [lanes]
  | cons a l ih =>
    simp only [map_cons, lanes]
    rw [and_lane (small a mem_cons_self) mask, ih fun b member => small b (mem_cons_of_mem _ member)]

theorem lanes_shift_and {m k : Nat} (width : k ≤ 8) (mask : m < 2 ^ (8 - k)) (small : ∀ a ∈ l, a < 256) :
    (lanes l >>> k) &&& lanes (l.map fun _ => m) = lanes (l.map fun a => a >>> k &&& m) := by
  induction l with
  | nil => simp [lanes]
  | cons a l ih =>
    have rest := ih fun b member => small b (mem_cons_of_mem _ member)
    have within : 2 ^ (8 - k) * 2 ^ k = 256 := by
      rw [← Nat.pow_add, Nat.sub_add_cancel width]
    have positive : 0 < 2 ^ k := Nat.two_pow_pos k
    have byte : m < 256 := Nat.lt_of_lt_of_le mask (by rw [← within]; exact Nat.le_mul_of_pos_right _ positive)
    simp only [map_cons, lanes]
    -- the low part of the lane, and what comes from above it
    have shifted : (a + 256 * lanes l) >>> k = (a >>> k + 2 ^ (8 - k) * (lanes l % 2 ^ k)) + 256 * (lanes l >>> k) := by
      rw [Nat.shiftRight_eq_div_pow, Nat.shiftRight_eq_div_pow, Nat.shiftRight_eq_div_pow]
      rw [← within, Nat.mul_comm (2 ^ (8 - k)) (2 ^ k), Nat.mul_assoc, Nat.add_mul_div_left _ _ positive]
      have parts := Nat.div_add_mod (lanes l) (2 ^ k)
      have spread : 2 ^ (8 - k) * lanes l = 2 ^ k * 2 ^ (8 - k) * (lanes l / 2 ^ k) + 2 ^ (8 - k) * (lanes l % 2 ^ k) := by
        conv_lhs => rw [← parts]
        rw [Nat.mul_add, ← Nat.mul_assoc, Nat.mul_comm (2 ^ (8 - k))]
      omega
    have low : a >>> k < 2 ^ (8 - k) := by
      rw [Nat.shiftRight_eq_div_pow]
      apply Nat.div_lt_of_lt_mul
      rw [Nat.mul_comm, within]
      exact small a mem_cons_self
    have whole : a >>> k + 2 ^ (8 - k) * (lanes l % 2 ^ k) < 256 := by
      have above := Nat.mul_le_mul_left (2 ^ (8 - k)) (Nat.le_pred_of_lt (Nat.mod_lt (lanes l) positive))
      rw [Nat.pred_eq_sub_one, Nat.mul_sub, within, Nat.mul_one] at above
      have room : 2 ^ (8 - k) ≤ 256 := by
        rw [← within]
        exact Nat.le_mul_of_pos_right _ positive
      omega
    rw [shifted, and_lane whole byte, rest]
    congr 1
    have cut : (a >>> k + 2 ^ (8 - k) * (lanes l % 2 ^ k)) % 2 ^ (8 - k) = a >>> k := by
      rw [Nat.add_mul_mod_self_left, Nat.mod_eq_of_lt low]
    have masked : ((a >>> k + 2 ^ (8 - k) * (lanes l % 2 ^ k)) &&& m) % 2 ^ (8 - k) =
        (a >>> k + 2 ^ (8 - k) * (lanes l % 2 ^ k)) % 2 ^ (8 - k) &&& m % 2 ^ (8 - k) := Nat.and_mod_two_pow
    rw [cut, Nat.mod_eq_of_lt mask, Nat.mod_eq_of_lt (Nat.lt_of_le_of_lt Nat.and_le_right mask)] at masked
    exact masked

theorem lanes_fold (low : ∀ a ∈ l, a % 16 < 8) (high : ∀ a ∈ l, a / 16 < 8) :
    (lanes l + lanes l >>> 4) &&& lanes (l.map fun _ => 15) = lanes (l.map fun a => a % 16 + a / 16) := by
  induction l with
  | nil => simp [lanes]
  | cons a l ih =>
    have rest := ih (fun b member => low b (mem_cons_of_mem _ member)) fun b member => high b (mem_cons_of_mem _ member)
    have left := low a mem_cons_self
    have right := high a mem_cons_self
    have next : lanes l % 16 < 8 := by
      cases l with
      | nil => exact Nat.zero_lt_succ _
      | cons b l =>
        have := low b (mem_cons_of_mem _ mem_cons_self)
        rw [lanes]
        omega
    rw [Nat.shiftRight_eq_div_pow] at rest ⊢
    rw [show (2 : Nat) ^ 4 = 16 from rfl] at rest ⊢
    simp only [map_cons, lanes]
    have split : a + 256 * lanes l + (a + 256 * lanes l) / 16 = (a + a / 16 + 16 * (lanes l % 16)) + 256 * (lanes l + lanes l / 16) := by omega
    rw [split, and_lane (by omega) (by decide), rest]
    congr 1
    have masked := Nat.and_two_pow_sub_one_eq_mod (a + a / 16 + 16 * (lanes l % 16)) 4
    rw [show (2 : Nat) ^ 4 - 1 = 15 from rfl] at masked
    rw [masked]
    omega

end Cplusplus.Lanes
