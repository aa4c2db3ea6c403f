import Mathlib.Data.List.Nodup
import Mathlib.Logic.Equiv.Basic

/-! Memories of which only a range of cells has been permuted. -/

namespace Cplusplus

structure Cells (α : Type) where
  cell : Nat → α

namespace Cells

variable {α : Type}

instance : CoeFun (Cells α) fun _ => Nat → α := ⟨Cells.cell⟩

def Rearranged (lo hi : Nat) (m m' : Cells α) : Prop :=
  ∃ σ : Equiv.Perm Nat, (∀ i, ¬ (lo ≤ i ∧ i < hi) → σ i = i) ∧ ∀ i, m' i = m (σ i)

variable {lo hi : Nat} {m m' m'' : Cells α}

theorem Rearranged.refl (lo hi : Nat) (m : Cells α) : Rearranged lo hi m m := ⟨Equiv.refl Nat, fun _ _ => rfl, fun _ => rfl⟩

theorem Rearranged.trans (first : Rearranged lo hi m m') (second : Rearranged lo hi m' m'') : Rearranged lo hi m m'' := by
  obtain ⟨σ, fixes, same⟩ := first
  obtain ⟨τ, fixes', same'⟩ := second
  refine ⟨τ.trans σ, fun i outside => ?_, fun i => ?_⟩
  · rw [Equiv.trans_apply, fixes' i outside, fixes i outside]
  · rw [same', same, Equiv.trans_apply]

theorem Rearranged.mono {lo' hi' : Nat} (first : Rearranged lo hi m m') (low : lo' ≤ lo) (high : hi ≤ hi') : Rearranged lo' hi' m m' := by
  obtain ⟨σ, fixes, same⟩ := first
  exact ⟨σ, fun i outside => fixes i fun inside => outside (by omega), same⟩

section
variable (rearranged : Rearranged lo hi m m')
include rearranged

theorem Rearranged.outside {i : Nat} (out : ¬ (lo ≤ i ∧ i < hi)) : m' i = m i := by
  obtain ⟨σ, fixes, same⟩ := rearranged
  rw [same, fixes i out]

theorem Rearranged.inside {i : Nat} (in_ : lo ≤ i ∧ i < hi) : ∃ j, (lo ≤ j ∧ j < hi) ∧ m' i = m j := by
  obtain ⟨σ, fixes, same⟩ := rearranged
  refine ⟨σ i, ?_, same i⟩
  by_contra out
  have fixed : σ i = i := σ.injective (fixes (σ i) out)
  exact out (fixed.symm ▸ in_)

theorem Rearranged.all (p : α → Prop) (holds : ∀ i, lo ≤ i → i < hi → p (m i)) : ∀ i, lo ≤ i → i < hi → p (m' i) := by
  intro i low high
  obtain ⟨j, ⟨low', high'⟩, same⟩ := rearranged.inside ⟨low, high⟩
  rw [same]
  exact holds j low' high'

end

theorem Rearranged.perm {n : Nat} (rearranged : Rearranged 0 n m m') : ((List.range n).map m').Perm ((List.range n).map m) := by
  obtain ⟨σ, fixes, same⟩ := rearranged
  have inside : ∀ i, σ i < n ↔ i < n := by
    intro i
    constructor
    · intro low
      by_contra out
      exact out (by rw [fixes i (by omega)] at low; exact low)
    · intro low
      by_contra out
      have fixed : σ i = i := σ.injective (fixes (σ i) (by omega))
      exact out (fixed.symm ▸ low)
  have indices : ((List.range n).map σ).Perm (List.range n) := by
    apply (List.perm_ext_iff_of_nodup (List.nodup_range.map σ.injective) List.nodup_range).mpr
    intro j
    rw [List.mem_map, List.mem_range]
    constructor
    · rintro ⟨i, low, rfl⟩
      exact (inside i).mpr (List.mem_range.mp low)
    · intro low
      exact ⟨σ.symm j, List.mem_range.mpr ((inside _).mp (by rw [Equiv.apply_symm_apply]; exact low)), Equiv.apply_symm_apply σ j⟩
  have values : (List.range n).map m' = ((List.range n).map σ).map m := by
    rw [List.map_map]
    exact List.map_congr_left fun i _ => same i
  rw [values]
  exact indices.map m

def swap (m : Cells α) (i j : Nat) : Cells α := ⟨fun k => m (Equiv.swap i j k)⟩

section
variable (m)

theorem swap_apply (i j k : Nat) : swap m i j k = m (Equiv.swap i j k) := rfl

@[simp] theorem swap_left (i j : Nat) : swap m i j i = m j := by
  rw [swap_apply, Equiv.swap_apply_left]

@[simp] theorem swap_right (i j : Nat) : swap m i j j = m i := by
  rw [swap_apply, Equiv.swap_apply_right]

theorem swap_other {i j k : Nat} (left_ : k ≠ i) (right_ : k ≠ j) : swap m i j k = m k := by
  rw [swap_apply, Equiv.swap_apply_of_ne_of_ne left_ right_]

theorem swap_rearranged {i j : Nat} (left_ : lo ≤ i ∧ i < hi) (right_ : lo ≤ j ∧ j < hi) : Rearranged lo hi m (swap m i j) := by
  refine ⟨Equiv.swap i j, fun k out => ?_, fun _ => rfl⟩
  apply Equiv.swap_apply_of_ne_of_ne
  · rintro rfl
    exact out left_
  · rintro rfl
    exact out right_

end

def vecswap (m : Cells α) (i j : Nat) : Nat → Cells α
  | 0 => m
  | n + 1 => vecswap (swap m i j) (i + 1) (j + 1) n

theorem vecswap_rearranged (m : Cells α) {i j n : Nat} (left_ : lo ≤ i ∧ i + n ≤ hi) (right_ : lo ≤ j ∧ j + n ≤ hi) :
    Rearranged lo hi m (vecswap m i j n) := by
  induction n generalizing m i j with
  | zero => exact .refl lo hi m
  | succ n ih => exact (swap_rearranged m (by omega) (by omega)).trans (ih _ (by omega) (by omega))

theorem vecswap_apply (m : Cells α) {i j n : Nat} (apart : i + n ≤ j) (k : Nat) : vecswap m i j n k =
      if i ≤ k ∧ k < i + n then m (j + (k - i)) else if j ≤ k ∧ k < j + n then m (i + (k - j)) else m k := by
  induction n generalizing m i j with
  | zero =>
    have left_ : ¬ (i ≤ k ∧ k < i + 0) := by omega
    have right_ : ¬ (j ≤ k ∧ k < j + 0) := by omega
    rw [if_neg left_, if_neg right_, vecswap]
  | succ n ih =>
    rw [vecswap, ih (swap m i j) (by omega)]
    by_cases first : k = i
    · subst first
      have now : ¬ (k + 1 ≤ k ∧ k < k + 1 + n) := by omega
      have other : ¬ (j + 1 ≤ k ∧ k < j + 1 + n) := by omega
      have here : k ≤ k ∧ k < k + (n + 1) := by omega
      rw [if_neg now, if_neg other, if_pos here, swap_left, Nat.sub_self, Nat.add_zero]
    by_cases second : k = j
    · subst second
      have now : ¬ (i + 1 ≤ k ∧ k < i + 1 + n) := by omega
      have other : ¬ (k + 1 ≤ k ∧ k < k + 1 + n) := by omega
      have here : ¬ (i ≤ k ∧ k < i + (n + 1)) := by omega
      have there : k ≤ k ∧ k < k + (n + 1) := by omega
      rw [if_neg now, if_neg other, if_neg here, if_pos there, swap_right, Nat.sub_self, Nat.add_zero]
    · have same : (i + 1 ≤ k ∧ k < i + 1 + n) ↔ (i ≤ k ∧ k < i + (n + 1)) := by omega
      have same' : (j + 1 ≤ k ∧ k < j + 1 + n) ↔ (j ≤ k ∧ k < j + (n + 1)) := by omega
      simp only [same, same']
      split
      next inside =>
        rw [swap_other m (by omega) (by omega), show j + 1 + (k - (i + 1)) = j + (k - i) by omega]
      next =>
        split
        next inside =>
          rw [swap_other m (by omega) (by omega), show i + 1 + (k - (j + 1)) = i + (k - j) by omega]
        next => rw [swap_other m first second]

/-- Two neighbouring blocks change places, when as many cells as the shorter one has are exchanged at their outer ends. -/
theorem vecswap_blocks (p q : α → Prop) (m : Cells α) (x left_ right_ : Nat) (first : ∀ i, x ≤ i → i < x + left_ → p (m i))
    (second : ∀ i, x + left_ ≤ i → i < x + left_ + right_ → q (m i)) :
    (∀ i, x ≤ i → i < x + right_ → q (vecswap m x (x + left_ + right_ - min left_ right_) (min left_ right_) i)) ∧
    (∀ i, x + right_ ≤ i → i < x + left_ + right_ → p (vecswap m x (x + left_ + right_ - min left_ right_) (min left_ right_) i)) := by
  have apart : x + min left_ right_ ≤ x + left_ + right_ - min left_ right_ := by omega
  constructor
  · intro i low high
    rw [vecswap_apply m apart]
    split
    next => exact second _ (by omega) (by omega)
    next =>
      split
      next => omega
      next => exact second i (by omega) (by omega)
  · intro i low high
    rw [vecswap_apply m apart]
    split
    next => omega
    next =>
      split
      next => exact first _ (by omega) (by omega)
      next => exact first i (by omega) (by omega)

theorem vecswap_other (m : Cells α) {i j n k : Nat} (apart : i + n ≤ j) (left_ : ¬ (i ≤ k ∧ k < i + n)) (right_ : ¬ (j ≤ k ∧ k < j + n)) :
    vecswap m i j n k = m k := by
  rw [vecswap_apply m apart, if_neg left_, if_neg right_]

end Cells

end Cplusplus
