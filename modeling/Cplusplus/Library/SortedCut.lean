import Mathlib.Algebra.Order.Ring.Nat

/-! Cutting a list by predicates that follow its order. A prefix predicate holds up to some
element, a suffix predicate from some element on; together they cut out a range. -/

namespace Cplusplus.SortedCut

open List

variable {α : Type} {p q : α → Bool} {l : List α} {a : α}

def Prefix (p : α → Bool) (l : List α) : Prop := l.Pairwise fun a b => p b = true → p a = true

def Suffix (p : α → Bool) (l : List α) : Prop := l.Pairwise fun a b => p a = true → p b = true

theorem Suffix.reverse (cut : Suffix p l) : Prefix p l.reverse := pairwise_reverse.mpr cut

theorem Prefix.reverse (cut : Prefix p l) : Suffix p l.reverse := pairwise_reverse.mpr cut

theorem Prefix.sublist {l' : List α} (cut : Prefix p l) (sub : List.Sublist l' l) : Prefix p l' := List.Pairwise.sublist sub cut

theorem Prefix.ends (cut : Prefix p (a :: l)) (fails : p a = false) : ∀ b ∈ l, p b = false := by
  intro b member
  cases holds : p b with
  | false => rfl
  | true =>
    rw [(pairwise_cons.mp cut).1 b member holds] at fails
    cases fails

theorem Suffix.holds (cut : Suffix p (a :: l)) (begins : p a = true) : ∀ b ∈ l, p b = true :=
  fun b member => (pairwise_cons.mp cut).1 b member begins

theorem Prefix.filter_cons (cut : Prefix p (a :: l)) (fails : p a = false) (q : α → Bool) : (a :: l).filter (fun b => p b && q b) = [] := by
  apply filter_eq_nil_iff.mpr
  intro b member
  rcases mem_cons.mp member with rfl | member
  · simp [fails]
  · simp [cut.ends fails b member]

theorem Prefix.takeWhile_eq (cut : Prefix p l) : l.takeWhile p = l.filter p := by
  induction l with
  | nil => rfl
  | cons a l ih =>
    cases holds : p a with
    | true => rw [takeWhile_cons_of_pos holds, filter_cons_of_pos holds, ih cut.of_cons]
    | false =>
      have none_ := cut.filter_cons holds fun _ => true
      simp only [Bool.and_true] at none_
      rw [takeWhile_cons_of_neg (by simp [holds]), none_]

theorem Prefix.dropWhile_eq (cut : Prefix p l) : l.dropWhile p = l.filter fun a => !p a := by
  induction l with
  | nil => rfl
  | cons a l ih =>
    cases holds : p a with
    | true => rw [dropWhile_cons_of_pos holds, filter_cons_of_neg (by simp [holds]), ih cut.of_cons]
    | false =>
      rw [dropWhile_cons_of_neg (by simp [holds]), filter_cons_of_pos (by simp [holds]), filter_eq_self.mpr]
      intro b member
      simp [cut.ends holds b member]

theorem Suffix.split (cut : Suffix p l) : (l.filter fun a => !p a) ++ l.filter p = l := by
  induction l with
  | nil => rfl
  | cons a l ih =>
    cases begins : p a with
    | false =>
      rw [filter_cons_of_pos (by simp [begins]), filter_cons_of_neg (by simp [begins]), cons_append, ih cut.of_cons]
    | true =>
      have all := cut.holds begins
      have none_ : l.filter (fun b => !p b) = [] := filter_eq_nil_iff.mpr fun b member => by simp [all b member]
      rw [filter_cons_of_neg (by simp [begins]), filter_cons_of_pos begins, none_, filter_eq_self.mpr all, nil_append]

section
variable (low : Suffix p l)
include low

theorem Suffix.range_split (high : Prefix q l) :
    ∃ front back, l = front ++ (l.filter fun a => p a && q a) ++ back ∧ ∀ b ∈ back, q b = false := by
  have upper : Prefix q (l.filter p) := high.sublist filter_sublist
  have range : (l.filter fun a => p a && q a) = (l.filter p).takeWhile q := by
    rw [upper.takeWhile_eq, List.filter_filter]
    congr 1
    funext a
    exact Bool.and_comm _ _
  refine ⟨l.filter fun a => !p a, (l.filter p).dropWhile q, ?_, ?_⟩
  · rw [range, append_assoc, takeWhile_append_dropWhile, low.split]
  · intro b member
    rw [upper.dropWhile_eq] at member
    simpa using (mem_filter.mp member).2

theorem Suffix.filter_not_range (q : α → Bool) :
    l.filter (fun a => !(p a && q a)) = (l.filter fun a => !p a) ++ (l.filter p).filter fun a => !q a := by
  have front : (l.filter fun a => !p a).filter (fun a => !(p a && q a)) = l.filter fun a => !p a := by
    rw [filter_eq_self]
    intro a member
    simp only [mem_filter, Bool.not_eq_true'] at member
    simp [member.2]
  have back : (l.filter p).filter (fun a => !(p a && q a)) = (l.filter p).filter fun a => !q a := by
    apply filter_congr
    intro a member
    simp [(mem_filter.mp member).2]
  calc l.filter (fun a => !(p a && q a))
    _ = ((l.filter fun a => !p a) ++ l.filter p).filter (fun a => !(p a && q a)) := by rw [low.split]
    _ = (l.filter fun a => !p a) ++ (l.filter p).filter fun a => !q a := by rw [filter_append, front, back]

theorem head_range (high : Prefix q l) : (l.filter fun a => p a && q a).head? = (l.filter p).head?.filter q := by
  induction l with
  | nil => rfl
  | cons a l ih =>
    cases begins : p a with
    | false =>
      rw [filter_cons_of_neg (by simp [begins]), filter_cons_of_neg (by simp [begins])]
      exact ih low.of_cons high.of_cons
    | true =>
      cases holds : q a with
      | true => simp [begins, holds, Option.filter]
      | false =>
        have none_ := high.filter_cons holds p
        simp only [Bool.and_comm (q _)] at none_
        simp [none_, begins, holds, Option.filter]

theorem last_range (high : Prefix q l) : (l.filter fun a => p a && q a).getLast? = (l.filter q).getLast?.filter p := by
  have mirrored := head_range high.reverse low.reverse
  rw [filter_reverse, filter_reverse, head?_reverse, head?_reverse] at mirrored
  simpa only [Bool.and_comm] using mirrored

end

theorem filter_ne_nil_of_last (ends : l.getLast?.any p = true) : l.filter p ≠ [] := by
  cases last : l.getLast? with
  | none =>
    rw [last] at ends
    cases ends
  | some a =>
    rw [last] at ends
    exact ne_nil_of_mem (mem_filter.mpr ⟨mem_of_getLast? last, ends⟩)

theorem filter_ne_nil_of_head (begins : l.head?.any p = true) : l.filter p ≠ [] := by
  cases first : l.head? with
  | none =>
    rw [first] at begins
    cases begins
  | some a =>
    rw [first] at begins
    exact ne_nil_of_mem (mem_filter.mpr ⟨mem_of_head? first, begins⟩)

/-- Nothing is in the range if the last element is too low or the first one too high. -/
theorem range_eq_nil (low : Suffix p l) (high : Prefix q l) (out : (l.getLast?.any p && l.head?.any q) = false) :
    l.filter (fun a => p a && q a) = [] := by
  rcases Bool.and_eq_false_iff.mp out with out | out
  · cases l.eq_nil_or_concat with
    | inl empty => simp [empty]
    | inr more =>
      obtain ⟨init, last, rfl⟩ := more
      rw [concat_eq_append] at low out ⊢
      have ends := low.reverse
      rw [reverse_append, reverse_singleton, singleton_append] at ends
      simp only [getLast?_append, getLast?_singleton, Option.some_or, Option.any_some] at out
      have none_ := ends.filter_cons out q
      rw [← reverse_eq_nil_iff, ← filter_reverse, reverse_append, reverse_singleton, singleton_append]
      exact none_
  · cases l with
    | nil => rfl
    | cons a l =>
      have none_ := high.filter_cons out p
      simpa only [Bool.and_comm] using none_

end Cplusplus.SortedCut
