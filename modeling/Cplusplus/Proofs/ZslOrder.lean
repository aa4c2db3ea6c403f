import Cplusplus.Proofs.ZslDelete

/-! The order of a skiplist. Entries are sorted by score and then by element, so a search
by score, by score and element or by rank stops after a prefix of them. -/

namespace Cplusplus.Redis.Zsl
open SkipLinks List

theorem compare_cons (x y : UInt8) (xs ys : List UInt8) : compareStringObjects (x :: xs) (y :: ys) =
    if x = y then compareStringObjects xs ys else (x.toNat : Int) - y.toNat := by
  unfold compareStringObjects
  rw [memcmp]
  split
  next => simp
  next differ =>
    have apart : (x.toNat : Int) - y.toNat ≠ 0 := fun equal => differ (UInt8.toNat_inj.mp (by omega))
    rw [if_neg apart]

theorem compare_nil (b : List UInt8) : compareStringObjects [] b = 0 - (b.length : Int) := by
  cases b <;> rfl

theorem compare_cons_nil (x : UInt8) (xs : List UInt8) : compareStringObjects (x :: xs) [] = (xs.length : Int) + 1 := by
  simp only [compareStringObjects, memcmp, if_true, length_cons, length_nil]
  omega

theorem compareStringObjects_lt (a b : List UInt8) : compareStringObjects a b < 0 ↔ a < b := by
  induction a generalizing b with
  | nil =>
    rw [compare_nil]
    cases b with
    | nil => simp
    | cons y ys => exact iff_of_true (by simp only [length_cons]; omega) (nil_lt_cons y ys)
  | cons x xs ih =>
    cases b with
    | nil =>
      rw [compare_cons_nil]
      exact iff_of_false (by omega) (not_lt_nil _)
    | cons y ys =>
      rw [compare_cons, cons_lt_cons_iff]
      split
      next same => simp [ih, same, UInt8.lt_irrefl]
      next differ =>
        rw [UInt8.lt_iff_toNat_lt]
        constructor
        · intro less
          exact .inl (by omega)
        · rintro (less | ⟨same, _⟩)
          · omega
          · exact absurd same differ

theorem compareStringObjects_eq (a b : List UInt8) : compareStringObjects a b = 0 ↔ a = b := by
  induction a generalizing b with
  | nil =>
    rw [compare_nil]
    cases b with
    | nil => exact iff_of_true rfl rfl
    | cons y ys => exact iff_of_false (by simp only [length_cons]; omega) (cons_ne_nil y ys).symm
  | cons x xs ih =>
    cases b with
    | nil =>
      rw [compare_cons_nil]
      exact iff_of_false (by omega) (cons_ne_nil x xs)
    | cons y ys =>
      rw [compare_cons, cons.injEq]
      split
      next same => simp [ih, same]
      next differ =>
        have apart : (x.toNat : Int) - y.toNat ≠ 0 := fun equal => differ (UInt8.toNat_inj.mp (by omega))
        simp [apart, differ]

theorem equalStringObjects_iff (a b : List UInt8) : equalStringObjects a b = true ↔ a = b := by
  rw [equalStringObjects, decide_eq_true_iff, compareStringObjects_eq]

def Precedes (a b : Entry) : Prop := a.score.key < b.score.key ∨ a.score.key = b.score.key ∧ a.obj < b.obj

structure Ordered (entries : List Entry) : Prop where
  order : entries.Pairwise Precedes
  numbers : ∀ e ∈ entries, e.score.isNaN = false
  objs : (entries.map Entry.obj).Nodup

def sorts (score : Binary64) (obj : List UInt8) (e : Entry) : Bool :=
  e.score.lt score || e.score.eq score && compareStringObjects e.obj obj < 0

def sortsUpTo (score : Binary64) (obj : List UInt8) (e : Entry) : Bool :=
  e.score.lt score || e.score.eq score && compareStringObjects e.obj obj ≤ 0

def below (range : Zrangespec) (e : Entry) : Bool := if range.minex then e.score.le range.min else e.score.lt range.min

def notAbove (range : Zrangespec) (e : Entry) : Bool :=
  if range.maxex then e.score.lt range.max else e.score.le range.max

theorem Precedes.trans {a b c : Entry} (first : Precedes a b) (second : Precedes b c) : Precedes a c := by
  rcases first with less | ⟨same, less⟩
  · rcases second with less' | ⟨same', _⟩
    · exact .inl (Int.lt_trans less less')
    · exact .inl (same' ▸ less)
  · rcases second with less' | ⟨same', less'⟩
    · exact .inl (same ▸ less')
    · exact .inr ⟨same.trans same', List.lt_trans less less'⟩

theorem Ordered.sublist {entries entries' : List Entry} (ordered : Ordered entries)
    (sub : List.Sublist entries' entries) : Ordered entries' where
  order := ordered.order.sublist sub
  numbers e member := ordered.numbers e (sub.subset member)
  objs := ordered.objs.sublist (sub.map Entry.obj)

variable {heap : ZslHeap} {entries before after : List Entry} {score : Binary64} {obj : List UInt8} {e : Entry}

theorem sorts_iff (number : score.isNaN = false) (number' : e.score.isNaN = false) :
    sorts score obj e = true ↔ e.score.key < score.key ∨ e.score.key = score.key ∧ e.obj < obj := by
  rw [sorts, Bool.or_eq_true, Bool.and_eq_true, Binary64.lt_iff number' number, Binary64.eq_iff number' number,
    decide_eq_true_iff, compareStringObjects_lt]

theorem sortsUpTo_iff (number : score.isNaN = false) (number' : e.score.isNaN = false) :
    sortsUpTo score obj e = true ↔ sorts score obj e = true ∨ e.score.key = score.key ∧ e.obj = obj := by
  rw [sorts_iff number number', sortsUpTo, Bool.or_eq_true, Bool.and_eq_true, Binary64.lt_iff number' number,
    Binary64.eq_iff number' number, decide_eq_true_iff, Int.le_iff_lt_or_eq, compareStringObjects_lt,
    compareStringObjects_eq, and_or_left, or_assoc]

def DownClosed (p : Entry → Bool) (entries : List Entry) : Prop :=
  ∀ a ∈ entries, ∀ b ∈ entries, Precedes a b → p b = true → p a = true

theorem sorts_down (score : Binary64) (obj : List UInt8) (ordered : Ordered entries) : DownClosed (sorts score obj) entries := by
  intro a inA b inB precedes holds
  have left := ordered.numbers a inA
  have right := ordered.numbers b inB
  cases nan : score.isNaN with
  | true =>
    obtain ⟨lt, _, eq⟩ := Binary64.compare_nan (a := b.score) nan
    simp [sorts, lt, eq] at holds
  | false =>
    rw [sorts_iff nan left]
    rw [sorts_iff nan right] at holds
    rcases precedes with less | ⟨same, less⟩
    · rcases holds with less' | ⟨same', _⟩
      · exact .inl (Int.lt_trans less less')
      · exact .inl (same' ▸ less)
    · rcases holds with less' | ⟨same', less'⟩
      · exact .inl (same ▸ less')
      · exact .inr ⟨same.trans same', List.lt_trans less less'⟩

theorem sortsUpTo_down (score : Binary64) (obj : List UInt8) (ordered : Ordered entries) : DownClosed (sortsUpTo score obj) entries := by
  intro a inA b inB precedes holds
  have left := ordered.numbers a inA
  have right := ordered.numbers b inB
  cases nan : score.isNaN with
  | true =>
    obtain ⟨lt, _, eq⟩ := Binary64.compare_nan (a := b.score) nan
    simp [sortsUpTo, lt, eq] at holds
  | false =>
    rw [sortsUpTo_iff nan left]
    rw [sortsUpTo_iff nan right] at holds
    rcases holds with holds | ⟨same, rfl⟩
    · exact .inl (sorts_down score _ ordered a inA b inB precedes holds)
    · rw [sorts_iff nan left, ← same]
      exact .inl precedes

section
variable (ordered : Ordered entries)
include ordered

theorem score_down (bound : Binary64) : DownClosed (fun e => e.score.lt bound) entries ∧ DownClosed (fun e => e.score.le bound) entries := by
  have small : ∀ a b : Entry, Precedes a b → a.score.key ≤ b.score.key := by
    intro a b precedes
    rcases precedes with less | ⟨same, _⟩
    · exact Int.le_of_lt less
    · exact Int.le_of_eq same
  cases nan : bound.isNaN with
  | true =>
    constructor
    · intro a _ b _ _ holds
      simp [(Binary64.compare_nan (a := b.score) nan).1] at holds
    · intro a _ b _ _ holds
      simp [(Binary64.compare_nan (a := b.score) nan).2.1] at holds
  | false =>
    constructor
    · intro a inA b inB precedes holds
      rw [Binary64.lt_iff (ordered.numbers b inB) nan] at holds
      rw [Binary64.lt_iff (ordered.numbers a inA) nan]
      exact Int.lt_of_le_of_lt (small a b precedes) holds
    · intro a inA b inB precedes holds
      rw [Binary64.le_iff (ordered.numbers b inB) nan] at holds
      rw [Binary64.le_iff (ordered.numbers a inA) nan]
      exact Int.le_trans (small a b precedes) holds

theorem below_down (range : Zrangespec) : DownClosed (below range) entries := by
  unfold below
  split
  · exact (score_down ordered range.min).2
  · exact (score_down ordered range.min).1

theorem notAbove_down (range : Zrangespec) : DownClosed (notAbove range) entries := by
  unfold notAbove
  split
  · exact (score_down ordered range.max).1
  · exact (score_down ordered range.max).2

end

variable {p : Entry → Bool}

theorem DownClosed.tail {rest : List Entry} (down : DownClosed p (e :: rest)) : DownClosed p rest :=
  fun a inA b inB => down a (mem_cons_of_mem e inA) b (mem_cons_of_mem e inB)

theorem DownClosed.ends {rest : List Entry} (down : DownClosed p (e :: rest))
    (order : (e :: rest).Pairwise Precedes) (fails : p e = false) : ∀ f ∈ rest, p f = false := by
  intro f member
  cases holds : p f with
  | false => rfl
  | true =>
    have first := down e mem_cons_self f (mem_cons_of_mem e member)
      ((pairwise_cons.mp order).1 f member) holds
    rw [fails] at first
    cases first

theorem filter_split (order : entries.Pairwise Precedes) (down : DownClosed p entries) :
    entries = entries.filter p ++ entries.filter fun e => !p e := by
  induction entries with
  | nil => rfl
  | cons e rest ih =>
    cases holds : p e with
    | true =>
      rw [filter_cons_of_pos holds, filter_cons_of_neg (by simp [holds]), cons_append, ← ih order.of_cons down.tail]
    | false =>
      have ends := down.ends order holds
      rw [filter_cons_of_neg (by simp [holds]), filter_cons_of_pos (by simp [holds]),
        filter_eq_nil_iff.mpr fun f member => by simp [ends f member], nil_append, filter_eq_self.mpr]
      intro f member
      simp [ends f member]

theorem filter_or (q : Entry → Bool) (order : entries.Pairwise Precedes) (down : DownClosed p entries) :
    entries.filter (fun e => p e || q e) = entries.filter p ++ (entries.filter fun e => !p e).filter q := by
  have front : (entries.filter p).filter (fun e => p e || q e) = entries.filter p := by
    rw [List.filter_filter]
    congr 1
    funext e
    cases p e <;> simp
  have back : (entries.filter fun e => !p e).filter (fun e => p e || q e) = (entries.filter fun e => !p e).filter q := by
    rw [List.filter_filter, List.filter_filter]
    congr 1
    funext e
    cases p e <;> simp
  calc entries.filter (fun e => p e || q e)
    _ = (entries.filter p ++ entries.filter fun e => !p e).filter (fun e => p e || q e) := by rw [← filter_split order down]
    _ = entries.filter p ++ (entries.filter fun e => !p e).filter q := by rw [filter_append, front, back]

theorem guards_of_pred {guard : ZslGuard} (order : entries.Pairwise Precedes) (down : DownClosed p entries)
    (reads : ∀ e ∈ entries, ∀ rank span, guard rank span (heap e.addr) = some (p e)) : Guards guard heap entries (entries.filter p) := by
  intro pre e post split rank span _
  rw [reads e (by simp [split])]
  rw [split] at order
  obtain ⟨_, tail, across⟩ := pairwise_append.mp order
  cases holds : p e with
  | true =>
    have all : ∀ f ∈ pre, p f = true := fun f member =>
      down f (by simp [split, member]) e (by simp [split]) (across f member e mem_cons_self) holds
    simp [split, filter_append, filter_eq_self.mpr all, holds]
  | false =>
    have down' : DownClosed p (e :: post) := fun a inA b inB =>
      down a (split ▸ mem_append_right pre inA) b (split ▸ mem_append_right pre inB)
    have ends : post.filter p = [] := filter_eq_nil_iff.mpr fun f member => by
      simp [down'.ends tail holds f member]
    simp [split, filter_append, ends, holds, length_filter_le]

def insertSorted (e : Entry) (entries : List Entry) : List Entry :=
  entries.filter (sorts e.score e.obj) ++ e :: entries.filter fun f => !sorts e.score e.obj f

theorem mem_insertSorted {e f : Entry} : f ∈ insertSorted e entries ↔ f = e ∨ f ∈ entries := by
  simp only [insertSorted, mem_append, mem_cons, mem_filter, Bool.not_eq_true']
  cases sorts e.score e.obj f <;> simp [or_comm]

theorem Ordered.insert (ordered : Ordered entries) (number : e.score.isNaN = false)
    (fresh : e.obj ∉ entries.map Entry.obj) : Ordered (insertSorted e entries) := by
  have cut := filter_split ordered.order (sorts_down e.score e.obj ordered)
  have front : ∀ f ∈ entries.filter (sorts e.score e.obj), Precedes f e := by
    intro f member
    obtain ⟨inside, holds⟩ := mem_filter.mp member
    exact (sorts_iff number (ordered.numbers f inside)).mp holds
  have back : ∀ f ∈ entries.filter (fun f => !sorts e.score e.obj f), Precedes e f := by
    intro f member
    obtain ⟨inside, holds⟩ := mem_filter.mp member
    rw [Bool.not_eq_true', ← Bool.not_eq_true, sorts_iff number (ordered.numbers f inside), not_or, not_and] at holds
    obtain ⟨notLess, notBefore⟩ := holds
    rcases Int.lt_or_eq_of_le (Int.not_lt.mp notLess) with less | same
    · exact .inl less
    · rcases List.le_iff_lt_or_eq.mp (List.not_lt.mp (notBefore same.symm)) with less | equal
      · exact .inr ⟨same, less⟩
      · exact absurd (equal ▸ List.mem_map_of_mem inside) fresh
  rw [cut] at ordered fresh
  obtain ⟨left, right, across⟩ := pairwise_append.mp ordered.order
  constructor
  · refine pairwise_append.mpr ⟨left, pairwise_cons.mpr ⟨back, right⟩, ?_⟩
    intro f inFront g inBack
    rcases mem_cons.mp inBack with rfl | inBack
    · exact front f inFront
    · exact across f inFront g inBack
  · intro f member
    rw [insertSorted, mem_append, mem_cons, or_left_comm, ← mem_append] at member
    rcases member with rfl | old
    · exact number
    · exact ordered.numbers f old
  · have objs := ordered.objs
    rw [map_append] at objs fresh
    rw [insertSorted, map_append, map_cons, nodup_middle, nodup_cons]
    exact ⟨fresh, objs⟩

end Cplusplus.Redis.Zsl
