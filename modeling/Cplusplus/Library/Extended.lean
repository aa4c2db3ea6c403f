import Mathlib.Algebra.Order.Monoid.WithTop
import Mathlib.Algebra.Ring.Defs
import Mathlib.Data.List.Perm.Basic

/-! Folds that do not depend on the order. The step need only commute on the values that satisfy an
invariant of the fold; a fold without a first value starts at the first of its list. -/

namespace Cplusplus.OrderFree

variable {α : Type} {f : α → α → α} {P : α → Prop}

def combine (f : α → α → α) : Option α → α → Option α
  | none, x => some x
  | some z, x => some (f z x)

theorem foldl_combine (f : α → α → α) (z : α) (l : List α) : l.foldl (combine f) (some z) = some (l.foldl f z) := by
  induction l generalizing z with
  | nil => rfl
  | cons x l ih =>
    rw [List.foldl_cons, List.foldl_cons]
    exact ih (f z x)

structure Commutes (f : α → α → α) (P : α → Prop) : Prop where
  closed : ∀ x y, P x → P y → P (f x y)
  comm : ∀ x y, P x → P y → f x y = f y x
  rightComm : ∀ x y z, P x → P y → P z → f (f x y) z = f (f x z) y

theorem Commutes.of_map {γ : Type} {h : α → γ} {op : γ → γ → γ} (closed : ∀ x y, P x → P y → P (f x y))
    (maps : ∀ x y, P x → P y → h (f x y) = op (h x) (h y)) (lossless : ∀ x y, P x → P y → h x = h y → x = y)
    (comm : ∀ a b, op a b = op b a) (rightComm : ∀ a b c, op (op a b) c = op (op a c) b) : Commutes f P where
  closed := closed
  comm x y hx hy := by
    apply lossless _ _ (closed x y hx hy) (closed y x hy hx)
    rw [maps x y hx hy, maps y x hy hx, comm]
  rightComm x y z hx hy hz := by
    have first := closed x y hx hy
    have second := closed x z hx hz
    apply lossless _ _ (closed _ z first hz) (closed _ y second hy)
    rw [maps _ z first hz, maps x y hx hy, maps _ y second hy, maps x z hx hz, rightComm]

theorem Commutes.congr {g : α → α → α} (laws : Commutes f P) (same : ∀ x y, P x → P y → g x y = f x y) : Commutes g P where
  closed x y hx hy := by
    rw [same x y hx hy]
    exact laws.closed x y hx hy
  comm x y hx hy := by
    rw [same x y hx hy, same y x hy hx]
    exact laws.comm x y hx hy
  rightComm x y z hx hy hz := by
    rw [same x y hx hy, same x z hx hz, same _ z (laws.closed x y hx hy) hz, same _ y (laws.closed x z hx hz) hy]
    exact laws.rightComm x y z hx hy hz

theorem Commutes.foldl_perm (laws : Commutes f P) {l l' : List α} (perm : l.Perm l') (all : ∀ x ∈ l, P x) (start : Option α)
    (fine : ∀ z ∈ start, P z) : l.foldl (combine f) start = l'.foldl (combine f) start := by
  induction perm generalizing start with
  | nil => rfl
  | cons x perm ih =>
    obtain ⟨hx, all⟩ := List.forall_mem_cons.mp all
    refine ih all (combine f start x) fun z mem => ?_
    cases start with
    | none =>
      cases mem
      exact hx
    | some first =>
      cases mem
      exact laws.closed first x (fine first rfl) hx
  | swap x y l =>
    obtain ⟨hy, all⟩ := List.forall_mem_cons.mp all
    obtain ⟨hx, -⟩ := List.forall_mem_cons.mp all
    simp only [List.foldl_cons]
    congr 1
    cases start with
    | none => exact congrArg some (laws.comm y x hy hx)
    | some first => exact congrArg some (laws.rightComm first y x (fine first rfl) hy hx)
  | trans first second ihFirst ihSecond =>
    rw [ihFirst all start fine]
    exact ihSecond (fun x mem => all x (first.mem_iff.mpr mem)) start fine

end Cplusplus.OrderFree

/-! Numbers with two infinities, and what is not a number, with the rules of IEEE 754 for them. The
finite numbers are exact, and there is one zero. -/

namespace Cplusplus

inductive Extended (α : Type) where
  | nan
  | negInf
  | finite (a : α)
  | posInf
  deriving DecidableEq

namespace Extended

variable {α : Type}

def isNaN : Extended α → Bool
  | nan => true
  | _ => false

section Ring
variable [CommRing α]

def zero : Extended α := finite 0

def one : Extended α := finite 1

def add : Extended α → Extended α → Extended α
  | nan, _ | _, nan | posInf, negInf | negInf, posInf => nan
  | posInf, _ | _, posInf => posInf
  | negInf, _ | _, negInf => negInf
  | finite a, finite b => finite (a + b)

variable [LinearOrder α]

/-- An infinity with the sign of `a`; of zero there is none. -/
def infinite (a : α) : Extended α := if 0 < a then posInf else if a < 0 then negInf else nan

def mul : Extended α → Extended α → Extended α
  | nan, _ | _, nan => nan
  | finite a, finite b => finite (a * b)
  | finite a, posInf | posInf, finite a => infinite a
  | finite a, negInf | negInf, finite a => infinite (-a)
  | posInf, posInf | negInf, negInf => posInf
  | posInf, negInf | negInf, posInf => negInf

protected theorem mul_comm (x y : Extended α) : mul x y = mul y x := by
  cases x <;> cases y <;> simp only [mul]
  rw [mul_comm]

end Ring

section Order
variable [LinearOrder α]

def lt : Extended α → Extended α → Bool
  | nan, _ | _, nan | posInf, _ | _, negInf => false
  | negInf, _ | _, posInf => true
  | finite a, finite b => a < b

def least (x y : Extended α) : Extended α := if y.lt x then y else x

def greatest (x y : Extended α) : Extended α := if x.lt y then y else x

theorem least_number {x : Extended α} (number : x ≠ nan) (y : Extended α) : least x y ≠ nan := by
  unfold least
  split
  · rintro rfl
    cases x <;> contradiction
  · exact number

theorem greatest_number {x : Extended α} (number : x ≠ nan) (y : Extended α) : greatest x y ≠ nan := by
  unfold greatest
  split
  · rintro rfl
    cases x <;> contradiction
  · exact number

def rank : Extended α → WithBot (WithTop α)
  | nan | negInf => ⊥
  | finite a => ((a : WithTop α) : WithBot (WithTop α))
  | posInf => ⊤

variable {x y : Extended α}

theorem rank_injective (hx : x ≠ nan) (hy : y ≠ nan) (same : rank x = rank y) : x = y := by
  cases x <;> cases y <;> simp_all [rank]

theorem lt_eq (hx : x ≠ nan) (hy : y ≠ nan) : x.lt y = decide (rank x < rank y) := by
  cases x <;> cases y <;> simp_all [rank, lt]
  exact decide_eq_true (WithBot.coe_lt_coe.mpr (WithTop.coe_lt_top _))

theorem rank_least (hx : x ≠ nan) (hy : y ≠ nan) : rank (least x y) = min (rank x) (rank y) := by
  rw [least, lt_eq hy hx]
  by_cases smaller : rank y < rank x
  · rw [if_pos (decide_eq_true smaller), min_eq_right smaller.le]
  · rw [if_neg (by simpa using smaller), min_eq_left (not_lt.mp smaller)]

theorem rank_greatest (hx : x ≠ nan) (hy : y ≠ nan) : rank (greatest x y) = max (rank x) (rank y) := by
  rw [greatest, lt_eq hx hy]
  by_cases smaller : rank x < rank y
  · rw [if_pos (decide_eq_true smaller), max_eq_right smaller.le]
  · rw [if_neg (by simpa using smaller), max_eq_left (not_lt.mp smaller)]

theorem least_commutes : OrderFree.Commutes (least (α := α)) (· ≠ nan) :=
  .of_map (fun _ y hx _ => least_number hx y) (fun _ _ => rank_least) (fun _ _ => rank_injective) min_comm min_right_comm

theorem greatest_commutes : OrderFree.Commutes (greatest (α := α)) (· ≠ nan) :=
  .of_map (fun _ y hx _ => greatest_number hx y) (fun _ _ => rank_greatest) (fun _ _ => rank_injective) max_comm max_right_comm

end Order

section Sums
variable [CommRing α]

def lower : Extended α → WithBot α
  | finite a => a
  | _ => ⊥

def upper : Extended α → WithTop α
  | finite a => a
  | _ => ⊤

theorem add_commutes_lower : OrderFree.Commutes (add (α := α)) fun x => x ≠ nan ∧ x ≠ posInf := by
  refine .of_map (h := lower) ?_ ?_ ?_ add_comm add_right_comm
  all_goals
    intro x y hx hy
    cases x <;> cases y <;> simp_all [add, lower]

theorem add_commutes_upper : OrderFree.Commutes (add (α := α)) fun x => x ≠ nan ∧ x ≠ negInf := by
  refine .of_map (h := upper) ?_ ?_ ?_ add_comm add_right_comm
  all_goals
    intro x y hx hy
    cases x <;> cases y <;> simp_all [add, upper]

end Sums

end Extended

end Cplusplus
