import Cplusplus.Pqsort

/-! A partition of `pqsort.c` puts the smaller elements to the front and the greater ones to the end. -/

namespace Cplusplus.Redis.Pqsort

section
open Cells (swap vecswap Rearranged)
open Cells (swap_left swap_other swap_rearranged swap_right)

variable {α : Type} {cmp : α → α → Int}

theorem TotalPreorder.same (total : TotalPreorder cmp) (x : α) : cmp x x = 0 := by
  have both := total.flip x x
  omega

theorem TotalPreorder.on (total : TotalPreorder cmp) (valid : α → Prop) : TotalPreorderOn valid cmp where
  flip x y _ _ := total.flip x y
  trans x y z _ _ _ := total.trans x y z

theorem TotalPreorderOn.le_of_ge {valid : α → Prop} (total : TotalPreorderOn valid cmp) {x y : α} (left_ : valid x) (right_ : valid y)
    (ge : 0 ≤ cmp x y) : cmp y x ≤ 0 := by
  have both := total.flip x y left_ right_
  omega

theorem TotalPreorder.comap {β : Type} {cmp : β → β → Int} (total : TotalPreorder cmp) (valid : α → Prop) (f : α → β) :
    TotalPreorderOn valid fun x y => cmp (f x) (f y) where
  flip x y _ _ := total.flip (f x) (f y)
  trans x y z _ _ _ := total.trans (f x) (f y) (f z)

theorem TotalPreorderOn.neg {valid : α → Prop} (total : TotalPreorderOn valid cmp) : TotalPreorderOn valid fun x y => -cmp x y where
  flip x y left_ right_ := by
    have other := total.flip y x right_ left_
    omega
  trans x y z first second third xy yz := by
    have flipped := total.flip x y first second
    have flipped' := total.flip y z second third
    have whole := total.flip x z first third
    have back := total.trans z y x third second first (by omega) (by omega)
    omega

theorem med3_range (m : Cells α) {a b c lo hi : Nat} (first : lo ≤ a ∧ a < hi) (second : lo ≤ b ∧ b < hi) (third : lo ≤ c ∧ c < hi) :
    lo ≤ med3 cmp m a b c ∧ med3 cmp m a b c < hi := by
  unfold med3
  repeat' split
  all_goals assumption

theorem pivot_range (m : Cells α) {a n : Nat} (some_ : 0 < n) : a ≤ pivot cmp m a n ∧ pivot cmp m a n < a + n := by
  simp only [pivot]
  split
  next => omega
  next =>
    split
    next => apply med3_range <;> apply med3_range <;> omega
    next => apply med3_range <;> omega

structure Split (cmp : α → α → Int) (a n : Nat) (p : α) (start : Cells α) (s : Scan α) : Prop where
  low : a + 1 ≤ s.pa
  front : s.pa ≤ s.pb
  middle : s.pb ≤ s.pc + 1
  back : s.pc ≤ s.pd
  high : s.pd + 1 ≤ a + n
  first : s.mem a = p
  equalFront : ∀ i, a ≤ i → i < s.pa → cmp (s.mem i) p = 0
  less : ∀ i, s.pa ≤ i → i < s.pb → cmp (s.mem i) p < 0
  greater : ∀ i, s.pc < i → i ≤ s.pd → 0 < cmp (s.mem i) p
  equalBack : ∀ i, s.pd < i → i < a + n → cmp (s.mem i) p = 0
  rearranged : Rearranged a (a + n) start s.mem

variable {a n : Nat} {p : α} {start : Cells α} {s : Scan α}

section
variable (split_ : Split cmp a n p start s) (inside : s.pb ≤ s.pc)
include split_ inside

theorem Split.upEqual (equal : cmp (s.mem s.pb) p = 0) :
    Split cmp a n p start { s with mem := swap s.mem s.pa s.pb, pa := s.pa + 1, pb := s.pb + 1 } := by
  obtain ⟨low, front, middle, back, high, first, equalFront, less, greater, equalBack, rearranged⟩ := split_
  refine ⟨by simp only; omega, by simp only; omega, by simp only; omega, back, high, ?_, ?_, ?_, ?_, ?_, ?_⟩
  · rw [swap_other _ (by omega) (by omega)]
    exact first
  · intro i lower upper
    by_cases here : i = s.pa
    · subst here
      rw [swap_left]
      exact equal
    · rw [swap_other _ here (by simp only at upper; omega)]
      exact equalFront i lower (by simp only at upper; omega)
  · intro i lower upper
    simp only at lower upper
    by_cases here : i = s.pb
    · subst here
      rw [swap_right]
      exact less s.pa (by omega) (by omega)
    · rw [swap_other _ (by omega) here]
      exact less i (by omega) (by omega)
  · intro i lower upper
    simp only at lower upper
    rw [swap_other _ (by omega) (by omega)]
    exact greater i lower upper
  · intro i lower upper
    simp only at lower upper
    rw [swap_other _ (by omega) (by omega)]
    exact equalBack i lower upper
  · exact rearranged.trans (swap_rearranged _ (by omega) (by omega))

theorem Split.upLess (less : cmp (s.mem s.pb) p < 0) : Split cmp a n p start { s with pb := s.pb + 1 } where
  low := split_.low
  front := Nat.le_succ_of_le split_.front
  middle := Nat.succ_le_succ inside
  back := split_.back
  high := split_.high
  first := split_.first
  equalFront := split_.equalFront
  less i lower upper := by
    by_cases here : i = s.pb
    · rw [here]
      exact less
    · exact split_.less i lower (by simp only at upper; omega)
  greater := split_.greater
  equalBack := split_.equalBack
  rearranged := split_.rearranged

theorem Split.downEqual (equal : cmp (s.mem s.pc) p = 0) :
    Split cmp a n p start { s with mem := swap s.mem s.pc s.pd, pd := s.pd - 1, pc := s.pc - 1 } := by
  obtain ⟨low, front, middle, back, high, first, equalFront, less, greater, equalBack, rearranged⟩ := split_
  refine ⟨low, front, by simp only; omega, by simp only; omega, by simp only; omega, ?_, ?_, ?_, ?_, ?_, ?_⟩
  · rw [swap_other _ (by omega) (by omega)]
    exact first
  · intro i lower upper
    simp only at lower upper
    rw [swap_other _ (by omega) (by omega)]
    exact equalFront i lower upper
  · intro i lower upper
    simp only at lower upper
    rw [swap_other _ (by omega) (by omega)]
    exact less i lower upper
  · intro i lower upper
    simp only at lower upper
    by_cases here : i = s.pc
    · subst here
      rw [swap_left]
      exact greater s.pd (by omega) (by omega)
    · rw [swap_other _ here (by omega)]
      exact greater i (by omega) (by omega)
  · intro i lower upper
    simp only at lower upper
    by_cases here : i = s.pd
    · subst here
      rw [swap_right]
      exact equal
    · rw [swap_other _ (by omega) here]
      exact equalBack i (by omega) upper
  · exact rearranged.trans (swap_rearranged _ (by omega) (by omega))

theorem Split.downGreater (greater : 0 < cmp (s.mem s.pc) p) : Split cmp a n p start { s with pc := s.pc - 1 } where
  low := split_.low
  front := split_.front
  middle := by
    simp only
    omega
  back := Nat.le_trans (Nat.sub_le _ _) split_.back
  high := split_.high
  first := split_.first
  equalFront := split_.equalFront
  less := split_.less
  greater i lower upper := by
    by_cases here : i = s.pc
    · rw [here]
      exact greater
    · exact split_.greater i (by simp only at lower; omega) upper
  equalBack := split_.equalBack
  rearranged := split_.rearranged

theorem Split.exchange (greater : 0 < cmp (s.mem s.pb) p)
    (less : cmp (s.mem s.pc) p < 0) : Split cmp a n p start { s with mem := swap s.mem s.pb s.pc, pb := s.pb + 1, pc := s.pc - 1 } := by
  have apart : s.pb ≠ s.pc := by
    intro same
    rw [same] at greater
    omega
  obtain ⟨low, front, middle, back, high, first, equalFront, less', greater', equalBack, rearranged⟩ := split_
  refine ⟨low, by simp only; omega, by simp only; omega, by simp only; omega, high, ?_, ?_, ?_, ?_, ?_, ?_⟩
  · rw [swap_other _ (by omega) (by omega)]
    exact first
  · intro i lower upper
    simp only at lower upper
    rw [swap_other _ (by omega) (by omega)]
    exact equalFront i lower upper
  · intro i lower upper
    simp only at lower upper
    by_cases here : i = s.pb
    · rw [here, swap_left]
      exact less
    · rw [swap_other _ here (by omega)]
      exact less' i lower (by omega)
  · intro i lower upper
    simp only at lower upper
    by_cases here : i = s.pc
    · rw [here, swap_right]
      exact greater
    · rw [swap_other _ (by omega) here]
      exact greater' i (by omega) upper
  · intro i lower upper
    simp only at lower upper
    rw [swap_other _ (by omega) (by omega)]
    exact equalBack i lower upper
  · exact rearranged.trans (swap_rearranged _ (by omega) (by omega))

end

section
variable (split_ : Split cmp a n p start s)
include split_

variable {fuel : Nat}

theorem Split.scanUp (enough : s.pc + 2 ≤ fuel + s.pb) :
    ∃ after, scanUp cmp a fuel s = some after ∧ Split cmp a n p start after ∧ after.pc = s.pc ∧ s.pb ≤ after.pb ∧
      (after.pb ≤ after.pc → 0 < cmp (after.mem after.pb) p) := by
  induction fuel generalizing s with
  | zero =>
    have middle := split_.middle
    omega
  | succ fuel ih =>
    rw [Pqsort.scanUp, split_.first]
    split
    next goes =>
      split
      next equal =>
        obtain ⟨after, same, kept, pc, pb, stops⟩ := ih (split_.upEqual goes.1 equal) (by simp only; omega)
        exact ⟨after, same, kept, pc, Nat.le_of_succ_le pb, stops⟩
      next other =>
        obtain ⟨after, same, kept, pc, pb, stops⟩ := ih (split_.upLess goes.1 (by omega)) (by simp only; omega)
        exact ⟨after, same, kept, pc, Nat.le_of_succ_le pb, stops⟩
    next stops =>
      refine ⟨s, rfl, split_, rfl, Nat.le_refl _, fun inside => ?_⟩
      have more : ¬ cmp (s.mem s.pb) p ≤ 0 := fun le => stops ⟨inside, le⟩
      omega

theorem Split.scanDown (enough : s.pc + 2 ≤ fuel + s.pb) (up : s.pb ≤ s.pc → 0 < cmp (s.mem s.pb) p) :
    ∃ after, scanDown cmp a fuel s = some after ∧ Split cmp a n p start after ∧ after.pb = s.pb ∧ after.pc ≤ s.pc ∧
      (after.pb ≤ after.pc → 0 < cmp (after.mem after.pb) p ∧ cmp (after.mem after.pc) p < 0) := by
  induction fuel generalizing s with
  | zero =>
    have middle := split_.middle
    omega
  | succ fuel ih =>
    rw [Pqsort.scanDown, split_.first]
    have low := split_.low
    have front := split_.front
    split
    next goes =>
      split
      next equal =>
        have kept : s.pb ≤ s.pc - 1 → 0 < cmp (swap s.mem s.pc s.pd s.pb) p := by
          intro inside
          have back := split_.back
          rw [swap_other _ (by omega) (by omega)]
          exact up goes.1
        obtain ⟨after, same, kept, pb, pc, stops⟩ := ih (split_.downEqual goes.1 equal) (by simp only; omega) kept
        exact ⟨after, same, kept, pb, Nat.le_trans pc (Nat.sub_le _ _), stops⟩
      next other =>
        have further := split_.downGreater goes.1 (by omega)
        obtain ⟨after, same, kept, pb, pc, stops⟩ := ih further (by simp only; omega) fun _ => up goes.1
        exact ⟨after, same, kept, pb, Nat.le_trans pc (Nat.sub_le _ _), stops⟩
    next stops =>
      refine ⟨s, rfl, split_, rfl, Nat.le_refl _, fun inside => ⟨up inside, ?_⟩⟩
      have less : ¬ 0 ≤ cmp (s.mem s.pc) p := fun ge => stops ⟨inside, ge⟩
      omega

theorem Split.partition (enough : s.pc + 2 ≤ fuel + s.pb) :
    ∃ after, partition cmp a fuel s = some after ∧ Split cmp a n p start after ∧ after.pb = after.pc + 1 := by
  induction fuel generalizing s with
  | zero =>
    have middle := split_.middle
    omega
  | succ fuel ih =>
    have middle := split_.middle
    obtain ⟨up, risen, between, pc, pb, greater⟩ := split_.scanUp (show s.pc + 2 ≤ s.pc + 2 - s.pb + s.pb by omega)
    have middle' := between.middle
    obtain ⟨down, fallen, last, pb', pc', stops⟩ := between.scanDown (show up.pc + 2 ≤ up.pc + 2 - up.pb + up.pb by omega) greater
    simp only [Pqsort.partition, risen, fallen, Option.bind_eq_bind, Option.bind_some]
    split
    next crossed =>
      have middle'' := last.middle
      exact ⟨down, rfl, last, by omega⟩
    next apart =>
      have inside : down.pb ≤ down.pc := Nat.le_of_not_lt apart
      exact ih (last.exchange inside (stops inside).1 (stops inside).2) (by simp only; omega)

end

/-- The first `left_` elements are smaller than the pivot, the last `right_` ones are greater and the others are equal. -/
structure Parted (cmp : α → α → Int) (a n left_ right_ : Nat) (p : α) (m : Cells α) : Prop where
  less : ∀ i, a ≤ i → i < a + left_ → cmp (m i) p < 0
  equal : ∀ i, a + left_ ≤ i → i < a + n - right_ → cmp (m i) p = 0
  greater : ∀ i, a + n - right_ ≤ i → i < a + n → 0 < cmp (m i) p

theorem Split.gather (split_ : Split cmp a n p start s) (met : s.pb = s.pc + 1) :
    Parted cmp a n (s.pb - s.pa) (s.pd - s.pc) p (gather a n s) ∧ Rearranged a (a + n) start (gather a n s) := by
  obtain ⟨low, front, middle, back, high, first, equalFront, less, greater, equalBack, rearranged⟩ := split_
  simp only [Pqsort.gather]
  -- The blocks at the front: equal, then smaller.
  have frontEnd : s.pb - min (s.pa - a) (s.pb - s.pa) = a + (s.pa - a) + (s.pb - s.pa) - min (s.pa - a) (s.pb - s.pa) := by omega
  have fronts := Cells.vecswap_blocks (fun x => cmp x p = 0) (fun x => cmp x p < 0) s.mem a (s.pa - a) (s.pb - s.pa)
    (fun i lower upper => equalFront i lower (by omega)) (fun i lower upper => less i (by omega) (by omega))
  rw [← frontEnd] at fronts
  have moved : Rearranged a (a + n) start (vecswap s.mem a (s.pb - min (s.pa - a) (s.pb - s.pa)) (min (s.pa - a) (s.pb - s.pa))) :=
    rearranged.trans (Cells.vecswap_rearranged _ (by omega) (by omega))
  have kept : ∀ i, s.pb ≤ i → vecswap s.mem a (s.pb - min (s.pa - a) (s.pb - s.pa)) (min (s.pa - a) (s.pb - s.pa)) i = s.mem i := by
    intro i lower
    exact Cells.vecswap_other _ (by omega) (by omega) (by omega)
  generalize vecswap s.mem a (s.pb - min (s.pa - a) (s.pb - s.pa)) (min (s.pa - a) (s.pb - s.pa)) = m at fronts moved kept ⊢
  -- The blocks at the end: greater, then equal.
  have backEnd : a + n - min (s.pd - s.pc) (a + n - s.pd - 1) =
      s.pb + (s.pd - s.pc) + (a + n - s.pd - 1) - min (s.pd - s.pc) (a + n - s.pd - 1) := by omega
  have backs := Cells.vecswap_blocks (fun x => 0 < cmp x p) (fun x => cmp x p = 0) m s.pb (s.pd - s.pc) (a + n - s.pd - 1)
    (fun i lower upper => by rw [kept i lower]; exact greater i (by omega) (by omega))
    (fun i lower upper => by rw [kept i (by omega)]; exact equalBack i (by omega) (by omega))
  rw [← backEnd] at backs
  have same : ∀ i, i < s.pb → vecswap m s.pb (a + n - min (s.pd - s.pc) (a + n - s.pd - 1)) (min (s.pd - s.pc) (a + n - s.pd - 1)) i = m i := by
    intro i upper
    exact Cells.vecswap_other _ (by omega) (by omega) (by omega)
  refine ⟨⟨fun i lower upper => ?_, fun i lower upper => ?_, fun i lower upper => ?_⟩, ?_⟩
  · rw [same i (by omega)]
    exact fronts.1 i lower upper
  · by_cases before : i < s.pb
    · rw [same i before]
      exact fronts.2 i lower (by omega)
    · exact backs.1 i (by omega) (by omega)
  · exact backs.2 i (by omega) (by omega)
  · exact moved.trans (Cells.vecswap_rearranged _ (by omega) (by omega))

theorem split_start (same : ∀ x, cmp x x = 0) (m : Cells α) {a n : Nat} (some_ : 2 ≤ n) :
    Split cmp a n (m (pivot cmp m a n)) m ⟨swap m a (pivot cmp m a n), a + 1, a + 1, a + (n - 1), a + (n - 1)⟩ := by
  have range : a ≤ pivot cmp m a n ∧ pivot cmp m a n < a + n := pivot_range m (by omega)
  refine ⟨Nat.le_refl _, Nat.le_refl _, by simp only; omega, Nat.le_refl _, by simp only; omega, swap_left m a _, ?_, ?_, ?_, ?_, ?_⟩
  · intro i lower upper
    simp only at upper
    obtain rfl : i = a := by omega
    rw [swap_left]
    exact same _
  · intro i lower upper
    simp only at lower upper
    omega
  · intro i lower upper
    simp only at lower upper
    omega
  · intro i lower upper
    simp only at lower
    omega
  · exact swap_rearranged m (by omega) range

end

/-! `pqsort` sorts what is asked for: of two elements, one of them inside of the range, the first is never the
greater one. -/

section
open Cells (swap Rearranged)

variable {α : Type} {cmp : α → α → Int}

theorem insert_rearranged (m : Cells α) (a k : Nat) : Rearranged a (a + k + 1) m (insert_ cmp m a k) := by
  induction k generalizing m with
  | zero => exact .refl _ _ _
  | succ k ih =>
    rw [insert_]
    split
    next =>
      have moved : Rearranged a (a + (k + 1) + 1) m (swap m (a + k + 1) (a + k)) := Cells.swap_rearranged m (by omega) (by omega)
      exact moved.trans ((ih _).mono (Nat.le_refl _) (by omega))
    next => exact .refl _ _ _

theorem insertionSort_rearranged (m : Cells α) (a n : Nat) : Rearranged a (a + n) m (insertionSort cmp m a n) := by
  have grows : ∀ k, Rearranged a (a + k + 1) m ((List.range' 1 k).foldl (fun m k => insert_ cmp m a k) m) := by
    intro k
    induction k with
    | zero => exact .refl _ _ _
    | succ k ih =>
      rw [List.range'_1_concat, List.foldl_append, Nat.add_comm 1 k]
      exact (ih.mono (Nat.le_refl _) (by omega)).trans (insert_rearranged _ a (k + 1))
  cases n with
  | zero => exact .refl _ _ _
  | succ n => exact grows n

def Ascending (cmp : α → α → Int) (a n : Nat) (m : Cells α) : Prop := ∀ i j, a ≤ i → i < j → j < a + n → cmp (m i) (m j) ≤ 0

def Valid (valid : α → Prop) (a n : Nat) (m : Cells α) : Prop := ∀ i, a ≤ i → i < a + n → valid (m i)

variable {valid : α → Prop}

theorem Valid.moved {a n lo hi : Nat} {m m' : Cells α} (holds : Valid valid a n m) (moved : Rearranged lo hi m m') (low : a ≤ lo)
    (high : hi ≤ a + n) : Valid valid a n m' := (moved.mono low high).all valid holds

section
variable (total : TotalPreorderOn valid cmp)
include total

theorem insert_sorted (m : Cells α) (a k : Nat) (holds : Valid valid a (k + 1) m) (sorted : Ascending cmp a k m) :
    Ascending cmp a (k + 1) (insert_ cmp m a k) := by
  induction k generalizing m with
  | zero =>
    intro i j lower order upper
    omega
  | succ k ih =>
    intro i j lower order upper
    rw [insert_]
    split
    next less =>
      -- The element before the new one is not smaller than those before it.
      have before : Ascending cmp a k (swap m (a + k + 1) (a + k)) := by
        intro i j lower order upper
        rw [Cells.swap_other _ (by omega) (by omega), Cells.swap_other _ (by omega) (by omega)]
        exact sorted i j lower order (by omega)
      have rearranged : Rearranged a (a + k + 1) (swap m (a + k + 1) (a + k)) (insert_ cmp (swap m (a + k + 1) (a + k)) a k) :=
        insert_rearranged _ a k
      by_cases here : j = a + k + 1
      · have bound : ∀ i, a ≤ i → i < a + k + 1 → cmp (swap m (a + k + 1) (a + k) i) (m (a + k)) ≤ 0 := by
          intro i lower upper
          by_cases here : i = a + k
          · rw [here, Cells.swap_right]
            exact total.le_of_ge (holds _ (by omega) (by omega)) (holds _ (by omega) (by omega)) (by omega)
          · rw [Cells.swap_other _ (by omega) here]
            exact sorted i (a + k) lower (by omega) (by omega)
        have last : insert_ cmp (swap m (a + k + 1) (a + k)) a k (a + k + 1) = m (a + k) := by
          rw [rearranged.outside (by omega), Cells.swap_left]
        rw [here, last]
        exact rearranged.all (fun x => cmp x (m (a + k)) ≤ 0) bound i lower (by omega)
      · have holds' : Valid valid a (k + 1 + 1) (swap m (a + k + 1) (a + k)) :=
          holds.moved (Cells.swap_rearranged m (by omega) (by omega)) (Nat.le_refl a) (Nat.le_refl _)
        exact ih _ (fun i lower upper => holds' i lower (by omega)) before i j lower order (by omega)
    next stays =>
      by_cases here : j = a + k + 1
      · have step : cmp (m (a + k)) (m (a + k + 1)) ≤ 0 := by omega
        rw [here]
        by_cases before : i = a + k
        · rw [before]
          exact step
        · have first := sorted i (a + k) lower (by omega) (by omega)
          exact total.trans _ _ _ (holds _ lower (by omega)) (holds _ (by omega) (by omega)) (holds _ (by omega) (by omega)) first step
      · exact sorted i j lower order (by omega)

theorem insertionSort_sorted (m : Cells α) (a n : Nat) (holds : Valid valid a n m) : Ascending cmp a n (insertionSort cmp m a n) := by
  have grows : ∀ k, k + 1 ≤ n → Ascending cmp a (k + 1) ((List.range' 1 k).foldl (fun m k => insert_ cmp m a k) m) ∧
      Valid valid a n ((List.range' 1 k).foldl (fun m k => insert_ cmp m a k) m) := by
    intro k
    induction k with
    | zero =>
      intro few
      refine ⟨fun i j lower order upper => ?_, holds⟩
      omega
    | succ k ih =>
      intro few
      obtain ⟨sorted, holds'⟩ := ih (by omega)
      rw [List.range'_1_concat, List.foldl_append, Nat.add_comm 1 k]
      refine ⟨insert_sorted total _ a (k + 1) (fun i lower upper => holds' i lower (by omega)) sorted, ?_⟩
      exact holds'.moved (insert_rearranged _ a (k + 1)) (Nat.le_refl a) (by omega)
  cases n with
  | zero =>
    intro i j lower order upper
    omega
  | succ n => exact (grows n (Nat.le_refl _)).1

end

def SortedAt (cmp : α → α → Int) (l r a n : Nat) (m : Cells α) : Prop :=
  ∀ i j, a ≤ i → i < j → j < a + n → (l ≤ i ∧ i ≤ r ∨ l ≤ j ∧ j ≤ r) → cmp (m i) (m j) ≤ 0

theorem outOfRange_iff {es : Nat} (size : 0 < es) {l r start len : Nat} (order : l ≤ r) (some_ : 0 < len) :
    outOfRange es (l * es) ((r + 1) * es - 1) start len = true ↔ r < start ∨ start + len ≤ l := by
  have before : (r + 1) * es ≤ start * es ↔ r + 1 ≤ start := Nat.mul_le_mul_right_iff size
  have beforeLow : l * es < start * es ↔ l < start := Nat.mul_lt_mul_right size
  have after : (start + len) * es ≤ l * es ↔ start + len ≤ l := Nat.mul_le_mul_right_iff size
  have afterHigh : l * es < (r + 1) * es := Nat.mul_lt_mul_of_pos_right (by omega) size
  have positive : 0 < len * es := Nat.mul_pos some_ size
  rw [Nat.add_mul] at after
  have low : (l : Int) * es = (l * es : Nat) := (Int.natCast_mul l es).symm
  have high : ((r : Int) + 1) * es = ((r + 1) * es : Nat) := (Int.natCast_mul (r + 1) es).symm
  have first : (start : Int) * es = (start * es : Nat) := (Int.natCast_mul start es).symm
  have size' : (len : Int) * es = (len * es : Nat) := (Int.natCast_mul len es).symm
  simp only [outOfRange, low, high, first, size', Bool.or_eq_true, Bool.and_eq_true, decide_eq_true_eq]
  omega

def Sorts (cmp : α → α → Int) (l r a n : Nat) (m : Cells α) (result : Option (Cells α)) : Prop :=
  ∃ m', result = some m' ∧ Rearranged a (a + n) m m' ∧ SortedAt cmp l r a n m'

variable {es l r : Nat}

def part (cmp : α → α → Int) (es : Nat) (lrange rrange : Int) (fuel : Nat) (m : Cells α) (start len : Nat) : Option (Cells α) :=
  if es < len * es ∧ !outOfRange es lrange rrange start len then pqsortLoop cmp es lrange rrange fuel m start len else some m

theorem part_sorts (size : 0 < es) (order : l ≤ r) {fuel : Nat}
    (ih : ∀ m a n, n < fuel → Valid valid a n m → Sorts cmp l r a n m (pqsortLoop cmp es (l * es) ((r + 1) * es - 1) fuel m a n))
    (m : Cells α) (start len : Nat) (shorter : len < fuel) (holds : Valid valid start len m) :
    Sorts cmp l r start len m (part cmp es (l * es) ((r + 1) * es - 1) fuel m start len) := by
  rw [part]
  split
  next => exact ih m start len shorter holds
  next leaves =>
    refine ⟨m, rfl, .refl _ _ _, fun i j lower before upper inside => ?_⟩
    have more : 1 * es < len * es := Nat.mul_lt_mul_of_pos_right (by omega) size
    rw [Nat.one_mul] at more
    have out : outOfRange es (l * es) ((r + 1) * es - 1) start len = true := by
      by_contra within
      exact leaves ⟨more, by rw [Bool.not_eq_true] at within; rw [within]; rfl⟩
    rw [outOfRange_iff size order (by omega)] at out
    omega

variable {a n left_ right_ : Nat} {p : α} {m m' : Cells α}

section
variable (parted : Parted cmp a n left_ right_ p m)
include parted

theorem Parted.front (apart : left_ + right_ ≤ n) (moved : Rearranged a (a + left_) m m') : Parted cmp a n left_ right_ p m' where
  less := moved.all (fun x => cmp x p < 0) parted.less
  equal i lower upper := by
    rw [moved.outside (by omega)]
    exact parted.equal i lower upper
  greater i lower upper := by
    rw [moved.outside (by omega)]
    exact parted.greater i lower upper

theorem Parted.back (apart : left_ + right_ ≤ n)
    (moved : Rearranged (a + n - right_) (a + n - right_ + right_) m m') : Parted cmp a n left_ right_ p m' where
  less i lower upper := by
    rw [moved.outside (by omega)]
    exact parted.less i lower upper
  equal i lower upper := by
    rw [moved.outside (by omega)]
    exact parted.equal i lower upper
  greater i lower upper := moved.all (fun x => 0 < cmp x p)
    (fun i lower upper => parted.greater i lower (by omega)) i lower (by omega)

theorem Parted.le {i : Nat} (lower : a ≤ i) (upper : i < a + n - right_) : cmp (m i) p ≤ 0 := by
  by_cases small : i < a + left_
  · exact Int.le_of_lt (parted.less i lower small)
  · exact Int.le_of_eq (parted.equal i (by omega) upper)

theorem Parted.ge {i : Nat} (lower : a + left_ ≤ i) (upper : i < a + n) : 0 ≤ cmp (m i) p := by
  by_cases great : i < a + n - right_
  · exact Int.le_of_eq (parted.equal i lower great).symm
  · exact Int.le_of_lt (parted.greater i (by omega) upper)

end

section
variable (same : ∀ x, cmp x x = 0) (size : 0 < es)
include same size

theorem pqsortLoop_split (lrange rrange : Int) (fuel : Nat) (m : Cells α) (a : Nat) {n : Nat} (many : ¬ n < 7) :
    ∃ p m₁ left_ right_, Parted cmp a n left_ right_ p m₁ ∧ Rearranged a (a + n) m m₁ ∧ left_ + right_ < n ∧
      (∃ i, (a ≤ i ∧ i < a + n) ∧ m i = p) ∧
      pqsortLoop cmp es lrange rrange (fuel + 1) m a n =
        (part cmp es lrange rrange fuel m₁ a left_).bind fun m₂ => part cmp es lrange rrange fuel m₂ (a + n - right_) right_ := by
  obtain ⟨s, stops, final, met⟩ : ∃ s, partition cmp a n ⟨swap m a (pivot cmp m a n), a + 1, a + 1, a + (n - 1), a + (n - 1)⟩ = some s ∧
      Split cmp a n (m (pivot cmp m a n)) m s ∧ s.pb = s.pc + 1 := by
    apply (split_start same m (by omega)).partition
    simp only
    omega
  obtain ⟨parted, gathered⟩ := final.gather met
  obtain ⟨low, front, middle, back, high, -⟩ := final
  refine ⟨_, gather a n s, s.pb - s.pa, s.pd - s.pc, parted, gathered, by omega, ⟨_, pivot_range m (by omega), rfl⟩, ?_⟩
  rw [pqsortLoop, if_neg many, stops]
  simp only [Option.bind_eq_bind, Option.bind_some, Nat.mul_div_cancel _ size]
  rfl

theorem pqsortLoop_rearranges (lrange rrange : Int) (fuel : Nat) :
    ∀ (m : Cells α) (a n : Nat), n < fuel → ∃ m', pqsortLoop cmp es lrange rrange fuel m a n = some m' ∧ Rearranged a (a + n) m m' := by
  induction fuel with
  | zero =>
    intro m a n none_
    omega
  | succ fuel ih =>
    intro m a n enough
    have part_rearranges : ∀ m start len, len < fuel →
        ∃ m', part cmp es lrange rrange fuel m start len = some m' ∧ Rearranged start (start + len) m m' := by
      intro m start len shorter
      rw [part]
      split
      next => exact ih m start len shorter
      next => exact ⟨m, rfl, .refl _ _ _⟩
    by_cases few : n < 7
    · rw [pqsortLoop, if_pos few]
      exact ⟨_, rfl, insertionSort_rearranged m a n⟩
    · obtain ⟨p, m₁, left_, right_, -, gathered, apart, -, calls⟩ := pqsortLoop_split same size lrange rrange fuel m a few
      rw [calls]
      obtain ⟨m₂, result₂, moved₂⟩ := part_rearranges m₁ a left_ (by omega)
      rw [result₂, Option.bind_some]
      obtain ⟨m₃, result₃, moved₃⟩ := part_rearranges m₂ (a + n - right_) right_ (by omega)
      refine ⟨m₃, result₃, ?_⟩
      exact (gathered.trans (moved₂.mono (Nat.le_refl _) (by omega))).trans (moved₃.mono (by omega) (by omega))

theorem pqsort_rearranges (m : Cells α) (n : Nat) (lrange rrange : Int) :
    ∃ m', pqsort cmp es m n lrange rrange = some m' ∧ Rearranged 0 n m m' := by
  obtain ⟨m', result, moved⟩ := pqsortLoop_rearranges same size (lrange * es) ((rrange + 1) * es - 1) (n + 1) m 0 n (Nat.lt_succ_self n)
  rw [Nat.zero_add] at moved
  exact ⟨m', result, moved⟩

end

variable (total : TotalPreorderOn valid cmp)
include total

theorem Parted.sorted (parted : Parted cmp a n left_ right_ p m) (holds : Valid valid a n m) (pivot : valid p) (first : SortedAt cmp l r a left_ m)
    (second : SortedAt cmp l r (a + n - right_) right_ m) : SortedAt cmp l r a n m := by
  intro i j lower before upper inside
  by_cases front : j < a + left_
  · exact first i j lower before front inside
  by_cases back : a + n - right_ ≤ i
  · exact second i j back before (by omega) inside
  · have low : cmp (m i) p ≤ 0 := parted.le lower (by omega)
    have high : 0 ≤ cmp (m j) p := parted.ge (by omega) upper
    have left_ := holds i lower (by omega)
    have right_ := holds j (by omega) upper
    exact total.trans _ _ _ left_ pivot right_ low (total.le_of_ge right_ pivot high)

theorem pqsortLoop_sorts (same : ∀ x, cmp x x = 0) (size : 0 < es) (order : l ≤ r) (fuel : Nat) :
    ∀ (m : Cells α) (a n : Nat), n < fuel → Valid valid a n m →
      Sorts cmp l r a n m (pqsortLoop cmp es (l * es) ((r + 1) * es - 1) fuel m a n) := by
  induction fuel with
  | zero =>
    intro m a n none_
    omega
  | succ fuel ih =>
    intro m a n enough holds
    by_cases few : n < 7
    · rw [pqsortLoop, if_pos few]
      have sorted := insertionSort_sorted total m a n holds
      exact ⟨_, rfl, insertionSort_rearranged m a n, fun i j lower before upper _ => sorted i j lower before upper⟩
    · obtain ⟨p, m₁, left_, right_, parted, gathered, apart, ⟨middle, inside, rfl⟩, calls⟩ :=
        pqsortLoop_split same size (l * es) ((r + 1) * es - 1) fuel m a few
      rw [calls]
      have holds₁ : Valid valid a n m₁ := holds.moved gathered (Nat.le_refl a) (Nat.le_refl _)
      obtain ⟨m₂, result₂, moved₂, sorted₂⟩ := part_sorts size order ih m₁ a left_ (by omega) fun i lower upper => holds₁ i lower (by omega)
      rw [result₂, Option.bind_some]
      have holds₂ : Valid valid a n m₂ := holds₁.moved moved₂ (Nat.le_refl a) (by omega)
      obtain ⟨m₃, result₃, moved₃, sorted₃⟩ :=
        part_sorts size order ih m₂ (a + n - right_) right_ (by omega) fun i lower upper => holds₂ i (by omega) (by omega)
      rw [result₃]
      have holds₃ : Valid valid a n m₃ := holds₂.moved moved₃ (by omega) (by omega)
      have parted₃ := (parted.front (by omega) moved₂).back (by omega) moved₃
      refine ⟨m₃, rfl, ?_, parted₃.sorted total holds₃ (holds middle inside.1 inside.2) ?_ sorted₃⟩
      · exact (gathered.trans (moved₂.mono (Nat.le_refl _) (by omega))).trans (moved₃.mono (by omega) (by omega))
      · -- The second call leaves the first part as it is.
        intro i j lower before upper inside
        rw [moved₃.outside (by omega), moved₃.outside (by omega)]
        exact sorted₂ i j lower before upper inside

theorem pqsort_sorts_on (same : ∀ x, cmp x x = 0) (size : 0 < es) (m : Cells α) (n : Nat) (holds : Valid valid 0 n m) (order : l ≤ r) :
    ∃ m', pqsort cmp es m n l r = some m' ∧ Rearranged 0 n m m' ∧ SortedAt cmp l r 0 n m' := by
  obtain ⟨m', result, moved, sorted⟩ := pqsortLoop_sorts total same size order (n + 1) m 0 n (Nat.lt_succ_self n) holds
  rw [Nat.zero_add] at moved
  exact ⟨m', result, moved, sorted⟩

omit total

/-- The sort ends with the same elements in another order: those from `l` to `r` are sorted, those before are not
greater and those after not smaller. -/
theorem pqsort_sorts (total : TotalPreorder cmp) (size : 0 < es) (m : Cells α) (n : Nat) (order : l ≤ r) (inside : r < n) :
    ∃ m', pqsort cmp es m n l r = some m' ∧ Rearranged 0 n m m' ∧ (∀ i j, l ≤ i → i ≤ j → j ≤ r → cmp (m' i) (m' j) ≤ 0) ∧
      (∀ i, i < l → cmp (m' i) (m' l) ≤ 0) ∧ ∀ i, r < i → i < n → cmp (m' r) (m' i) ≤ 0 := by
  obtain ⟨m', result, moved, sorted⟩ := pqsort_sorts_on (total.on fun _ => True) total.same size m n (fun _ _ _ => True.intro) order
  refine ⟨m', result, moved, fun i j lower before upper => ?_, fun i before => ?_, fun i after upper => ?_⟩
  · obtain same | less := Nat.eq_or_lt_of_le before
    · rw [same]
      exact Int.le_of_eq (total.same _)
    · exact sorted i j (Nat.zero_le _) less (by omega) (Or.inl ⟨lower, by omega⟩)
  · exact sorted i l (Nat.zero_le _) before (by omega) (Or.inr ⟨Nat.le_refl l, order⟩)
  · exact sorted r i (Nat.zero_le _) after (by omega) (Or.inl ⟨order, Nat.le_refl r⟩)

theorem pqsort_sorts_descending : ∃ m' : Cells Int, pqsort (fun x y => x - y) 8 ⟨fun i => 50 - (i : Int)⟩ 50 10 19 = some m' ∧
    Rearranged 0 50 ⟨fun i => 50 - (i : Int)⟩ m' ∧ (∀ i j, 10 ≤ i → i ≤ j → j ≤ 19 → m' i - m' j ≤ 0) ∧
      (∀ i, i < 10 → m' i - m' 10 ≤ 0) ∧ ∀ i, 19 < i → i < 50 → m' 19 - m' i ≤ 0 := by
  have total : TotalPreorder fun x y : Int => x - y := ⟨fun x y => by omega, fun x y z => by omega⟩
  exact pqsort_sorts total (show 0 < 8 by decide) _ 50 (show 10 ≤ 19 by decide) (by decide)

end

end Cplusplus.Redis.Pqsort
