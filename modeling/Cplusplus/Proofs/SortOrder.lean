import Cplusplus.Proofs.PqsortSorted
import Cplusplus.Sort

/-! The comparison of SORT is a total preorder on numbers, and the part of the vector that is sent is the one of a
sorted vector, also where only that part is sorted. -/

namespace Cplusplus.Redis.Sort

open List
open Pqsort (TotalPreorder TotalPreorderOn)
open CheckAof (cString)

theorem compare_cons (x y : UInt8) (a b : Bytes) :
    compareStringObjects (x :: a) (y :: b) = if x = y then compareStringObjects a b else (x.toNat : Int) - y.toNat := by
  simp only [compareStringObjects, memcmp, length_cons]
  by_cases same : x = y
  · simp only [if_pos same]
    split
    next => omega
    next => rfl
  · have different : (x.toNat : Int) - y.toNat ≠ 0 := by
      intro zero
      exact same (UInt8.toNat_inj.mp (by omega))
    simp only [if_neg same, if_neg different]

theorem compare_nil (b : Bytes) : compareStringObjects [] b = -(b.length : Int) := by
  have none_ : memcmp [] b = 0 := by rw [memcmp]; simp
  rw [compareStringObjects, if_pos none_, length_nil]
  omega

theorem compare_flip (a b : Bytes) : compareStringObjects a b < 0 ↔ 0 < compareStringObjects b a := by
  induction a generalizing b with
  | nil =>
    cases b with
    | nil => decide
    | cons y b =>
      rw [compare_nil, compareStringObjects, if_pos (by rw [memcmp]; simp)]
      simp only [length_cons, length_nil]
      omega
  | cons x a ih =>
    cases b with
    | nil =>
      rw [compare_nil, compareStringObjects, if_pos (by rw [memcmp]; simp)]
      simp only [length_cons, length_nil]
      omega
    | cons y b =>
      rw [compare_cons, compare_cons]
      by_cases same : x = y
      · rw [if_pos same, if_pos same.symm]
        exact ih b
      · rw [if_neg same, if_neg (Ne.symm same)]
        omega

theorem compare_trans (a b c : Bytes) (first : compareStringObjects a b ≤ 0) (second : compareStringObjects b c ≤ 0) :
    compareStringObjects a c ≤ 0 := by
  induction a generalizing b c with
  | nil =>
    rw [compare_nil]
    omega
  | cons x a ih =>
    have flip := compare_flip
    cases b with
    | nil =>
      have positive := (flip [] (x :: a)).mp (by rw [compare_nil]; simp only [length_cons]; omega)
      omega
    | cons y b =>
      cases c with
      | nil =>
        have positive := (flip [] (y :: b)).mp (by rw [compare_nil]; simp only [length_cons]; omega)
        omega
      | cons z c =>
        rw [compare_cons] at first second ⊢
        by_cases left_ : x = y
        · subst left_
          rw [if_pos rfl] at first
          by_cases right_ : x = z
          · rw [if_pos right_] at second ⊢
            exact ih b c first second
          · rw [if_neg right_] at second ⊢
            exact second
        · rw [if_neg left_] at first
          by_cases right_ : y = z
          · subst right_
            rw [if_neg left_]
            exact first
          · rw [if_neg right_] at second
            have apart : x ≠ z := by
              rintro rfl
              exact left_ (UInt8.toNat_inj.mp (by omega))
            rw [if_neg apart]
            omega

theorem compareStringObjects_total : TotalPreorder compareStringObjects := ⟨compare_flip, compare_trans⟩

theorem compareOptional_total {β : Type} {cmp : β → β → Int} (total : TotalPreorder cmp) : TotalPreorder (compareOptional cmp) where
  flip x y := by
    cases x with
    | none => cases y <;> simp [compareOptional]
    | some a =>
      cases y with
      | none => simp [compareOptional]
      | some b => exact total.flip a b
  trans x y z first second := by
    cases x with
    | none => cases z <;> simp [compareOptional]
    | some a =>
      cases y with
      | none => simp [compareOptional] at first
      | some b =>
        cases z with
        | none => simp [compareOptional] at second
        | some c => exact total.trans a b c first second

def compareScores (so1 so2 : SortObject) : Int :=
  if so2.score.lt so1.score then 1
  else if so1.score.lt so2.score then -1
  else compareStringObjects (getDecodedObject so1.obj) (getDecodedObject so2.obj)

def Numeric (so : SortObject) : Prop := so.score.isNaN = false

theorem compareScores_eq {x y : SortObject} (first : Numeric x) (second : Numeric y) : compareScores x y = if y.score.key < x.score.key then 1
      else if x.score.key < y.score.key then -1
      else compareStringObjects (getDecodedObject x.obj) (getDecodedObject y.obj) := by
  simp only [compareScores, Binary64.lt_iff first second, Binary64.lt_iff second first]

theorem compareScores_total : TotalPreorderOn Numeric compareScores where
  flip x y first second := by
    have texts := compare_flip (getDecodedObject x.obj) (getDecodedObject y.obj)
    rw [compareScores_eq first second, compareScores_eq second first]
    split <;> split <;> omega
  trans x y z first second third xy yz := by
    have texts := compare_trans (getDecodedObject x.obj) (getDecodedObject y.obj) (getDecodedObject z.obj)
    rw [compareScores_eq first second] at xy
    rw [compareScores_eq second third] at yz
    rw [compareScores_eq first third]
    split at xy
    next => omega
    next notAbove =>
      split at yz
      next => omega
      next notAbove' =>
        rw [if_neg (by omega)]
        split
        next => omega
        next same =>
          rw [if_neg (by omega)] at xy yz
          exact texts xy yz

theorem compareScores_same (x : SortObject) : compareScores x x = 0 := by
  have none_ : x.score.lt x.score = false := by simp [Binary64.lt]
  rw [compareScores, none_]
  exact compareStringObjects_total.same _

theorem collate_total (libc : Libc) (o : Options) : TotalPreorder (collate libc o) := by
  have texts : TotalPreorder fun a b => libc.strcoll (cString a) (cString b) :=
    ⟨fun a b => libc.collates.flip _ _, fun a b c => libc.collates.trans _ _ _⟩
  unfold collate
  split
  next => exact compareStringObjects_total
  next => exact texts

theorem compareAscending_total (libc : Libc) (o : Options) :
    TotalPreorderOn Numeric (compareAscending libc o) ∧ ∀ x, compareAscending libc o x x = 0 := by
  have texts := collate_total libc o
  unfold compareAscending
  by_cases numeric : o.alpha = false
  · simp only [if_pos numeric]
    exact ⟨compareScores_total, compareScores_same⟩
  · simp only [if_neg numeric]
    split
    next =>
      have optional := compareOptional_total texts
      exact ⟨optional.comap Numeric SortObject.cmpobj, fun x => optional.same x.cmpobj⟩
    next => exact ⟨texts.comap Numeric fun so => getDecodedObject so.obj, fun x => texts.same (getDecodedObject x.obj)⟩

theorem sortCompare_total (libc : Libc) (o : Options) : TotalPreorderOn Numeric (sortCompare libc o) ∧ ∀ x, sortCompare libc o x x = 0 := by
  obtain ⟨total, same⟩ := compareAscending_total libc o
  unfold sortCompare
  split
  next => exact ⟨total.neg, fun x => by rw [same]; rfl⟩
  next => exact ⟨total, same⟩

/-- A part that is sorted, with nothing greater in front of it and nothing smaller behind it, is a part of a sorted list. -/
theorem sorted_around (libc : Libc) {cmp : SortObject → SortObject → Int} {valid : SortObject → Prop} (total : TotalPreorderOn valid cmp)
    {front middle back : List SortObject} (holds : ∀ x ∈ front ++ middle ++ back, valid x) (some_ : middle ≠ [])
    (inner : middle.Pairwise fun x y => cmp x y ≤ 0) (low : ∀ x ∈ front, ∀ y ∈ middle, cmp x y ≤ 0)
    (high : ∀ x ∈ middle, ∀ y ∈ back, cmp x y ≤ 0) :
    ∃ order : List SortObject, order.Perm (front ++ middle ++ back) ∧ (order.Pairwise fun x y => cmp x y ≤ 0) ∧
      (order.drop front.length).take middle.length = middle := by
  have first := libc.permutes cmp front
  have last := libc.permutes cmp back
  have holdsFront : ∀ x ∈ front, valid x := fun x mem => holds x (by simp [mem])
  have holdsBack : ∀ x ∈ back, valid x := fun x mem => holds x (by simp [mem])
  refine ⟨libc.qsort cmp front ++ middle ++ libc.qsort cmp back, (first.append_right middle).append last, ?_, ?_⟩
  · rw [pairwise_append, pairwise_append]
    refine ⟨⟨libc.sorts valid cmp front holdsFront total, inner, fun x left_ y right_ => low x (first.subset left_) y right_⟩,
      libc.sorts valid cmp back holdsBack total, ?_⟩
    intro x left_ y right_
    have right_ := last.subset right_
    obtain before | inside := mem_append.mp left_
    · -- The part in the middle is between the two.
      obtain ⟨z, mem⟩ := exists_mem_of_ne_nil middle some_
      have before := first.subset before
      exact total.trans x z y (holdsFront x before) (holds z (by simp [mem])) (holdsBack y right_) (low x before z mem) (high z mem y right_)
    · exact high x inside y right_
  · rw [append_assoc, ← first.length_eq, drop_left, take_left]

theorem getD_range {α : Type} (vector : List α) (x : α) : (List.range vector.length).map (fun i => vector.getD i x) = vector := by
  apply ext_getElem
  · rw [length_map, length_range]
  · intro i low high
    rw [getElem_map, getElem_range, getD_eq_getElem?_getD, getElem?_eq_getElem high, Option.getD_some]

theorem range_parts {start len n : Nat} (inside : start + len ≤ n) :
    List.range n = List.range' 0 start ++ List.range' start len ++ List.range' (start + len) (n - (start + len)) := by
  have first : List.range' 0 start ++ List.range' start len = List.range' 0 (start + len) := by
    have joined := range'_append_1 (s := 0) (m := start) (n := len)
    rw [Nat.zero_add] at joined
    exact joined
  have second : List.range' 0 (start + len) ++ List.range' (start + len) (n - (start + len)) = List.range' 0 (start + len + (n - (start + len))) := by
    have joined := range'_append_1 (s := 0) (m := start + len) (n := n - (start + len))
    rw [Nat.zero_add] at joined
    exact joined
  rw [first, second, Nat.add_sub_cancel' inside, range_eq_range']

theorem partialSort_perm (libc : Libc) (o : Options) (vector : List SortObject) (start end_ : Int) :
    ∃ sorted, partialSort (sortCompare libc o) vector start end_ = .ok sorted ∧ sorted.Perm vector := by
  cases vector with
  | nil => exact ⟨[], rfl, List.Perm.refl []⟩
  | cons x vector =>
    obtain ⟨m, result, moved⟩ := Pqsort.pqsort_rearranges (sortCompare_total libc o).2 (show 0 < 16 by decide)
      ⟨fun i => (x :: vector).getD i x⟩ (x :: vector).length start end_
    refine ⟨_, by rw [partialSort, result], ?_⟩
    have perm := moved.perm
    rw [getD_range] at perm
    exact perm

theorem partialSort_slice (libc : Libc) (o : Options) (vector : List SortObject) (numeric : ∀ x ∈ vector, Numeric x) {start len : Nat}
    (some_ : 0 < len) (inside : start + len ≤ vector.length) :
    ∃ sorted, partialSort (sortCompare libc o) vector start (start + len - 1 : Nat) = .ok sorted ∧ sorted.Perm vector ∧
      ∃ order : List SortObject, order.Perm vector ∧ (order.Pairwise fun x y => sortCompare libc o x y ≤ 0) ∧
        (order.drop start).take len = (sorted.drop start).take len := by
  cases vector with
  | nil =>
    rw [length_nil] at inside
    omega
  | cons x vector =>
    obtain ⟨total, same⟩ := sortCompare_total libc o
    generalize whole : x :: vector = v at *
    have holds : Pqsort.Valid Numeric 0 v.length ⟨fun i => v.getD i x⟩ := by
      intro i _ upper
      rw [Nat.zero_add] at upper
      apply numeric
      simp only [getD_eq_getElem?_getD, getElem?_eq_getElem upper, Option.getD_some]
      exact getElem_mem upper
    obtain ⟨m, result, moved, sorted⟩ := Pqsort.pqsort_sorts_on total same (show 0 < 16 by decide) ⟨fun i => v.getD i x⟩ v.length holds
      (show start ≤ start + len - 1 by omega)
    have perm := moved.perm
    rw [getD_range] at perm
    refine ⟨(List.range v.length).map m.cell, ?_, perm, ?_⟩
    · rw [← whole] at result ⊢
      rw [partialSort, result]
    · have parts : (List.range v.length).map m.cell = (List.range' 0 start).map m.cell ++ (List.range' start len).map m.cell ++
          (List.range' (start + len) (v.length - (start + len))).map m.cell := by
        rw [range_parts inside, map_append, map_append]
      have inner : ((List.range' start len).map m.cell).Pairwise fun x y => sortCompare libc o x y ≤ 0 := by
        rw [pairwise_map]
        apply List.Pairwise.imp_of_mem _ pairwise_lt_range'
        intro i j first second before
        rw [mem_range'_1] at first second
        exact sorted i j (Nat.zero_le i) before (by omega) (Or.inl (by omega))
      have between : ∀ i j, i < j → j < v.length → (start ≤ i ∧ i < start + len ∨ start ≤ j ∧ j < start + len) →
          sortCompare libc o (m i) (m j) ≤ 0 := by
        intro i j before upper inside
        exact sorted i j (Nat.zero_le i) before (by omega) (by omega)
      have some' : (List.range' start len).map m.cell ≠ [] := by
        intro none_
        have empty : ((List.range' start len).map m.cell).length = 0 := by rw [none_, length_nil]
        rw [length_map, length_range'] at empty
        omega
      rw [parts] at perm ⊢
      obtain ⟨order, arranged, ascending, same⟩ := sorted_around libc total (fun x mem => numeric x (perm.subset mem)) some' inner
        (fun x left_ y right_ => by
          obtain ⟨i, first, rfl⟩ := List.mem_map.mp left_
          obtain ⟨j, second, rfl⟩ := List.mem_map.mp right_
          rw [mem_range'_1] at first second
          exact between i j (by omega) (by omega) (Or.inr (by omega)))
        (fun x left_ y right_ => by
          obtain ⟨i, first, rfl⟩ := List.mem_map.mp left_
          obtain ⟨j, second, rfl⟩ := List.mem_map.mp right_
          rw [mem_range'_1] at first second
          exact between i j (by omega) (by omega) (Or.inl (by omega)))
      refine ⟨order, arranged.trans perm, ascending, ?_⟩
      rw [length_map, length_map, length_range', length_range'] at same
      rw [same, append_assoc, drop_left' (by simp), take_left' (by simp)]

end Cplusplus.Redis.Sort
