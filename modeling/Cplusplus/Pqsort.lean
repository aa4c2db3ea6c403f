import Cplusplus.Library.Rearranged

/-! The partial quicksort of `pqsort.c`. A position counts elements from the start of the array, and an address
counts bytes. A result of none means that the fuel was not enough. -/

namespace Cplusplus.Redis.Pqsort
open Cells (swap vecswap)

variable {α : Type}

structure TotalPreorder (cmp : α → α → Int) : Prop where
  flip : ∀ x y, cmp x y < 0 ↔ 0 < cmp y x
  trans : ∀ x y z, cmp x y ≤ 0 → cmp y z ≤ 0 → cmp x z ≤ 0

structure TotalPreorderOn (valid : α → Prop) (cmp : α → α → Int) : Prop where
  flip : ∀ x y, valid x → valid y → (cmp x y < 0 ↔ 0 < cmp y x)
  trans : ∀ x y z, valid x → valid y → valid z → cmp x y ≤ 0 → cmp y z ≤ 0 → cmp x z ≤ 0

variable (cmp : α → α → Int)

def med3 (m : Cells α) (a b c : Nat) : Nat :=
  if cmp (m a) (m b) < 0 then (if cmp (m b) (m c) < 0 then b else if cmp (m a) (m c) < 0 then c else a)
  else (if 0 < cmp (m b) (m c) then b else if cmp (m a) (m c) < 0 then a else c)

/-- The inner loop, with `pl` at `a + k`. -/
def insert_ (m : Cells α) (a : Nat) : Nat → Cells α
  | 0 => m
  | k + 1 => if 0 < cmp (m (a + k)) (m (a + k + 1)) then insert_ (swap m (a + k + 1) (a + k)) a k else m

def insertionSort (m : Cells α) (a n : Nat) : Cells α := (List.range' 1 (n - 1)).foldl (fun m k => insert_ cmp m a k) m

structure Scan (α : Type) where
  mem : Cells α
  pa : Nat
  pb : Nat
  pc : Nat
  pd : Nat

def scanUp (a : Nat) : Nat → Scan α → Option (Scan α)
  | 0, _ => none
  | fuel + 1, s =>
    if s.pb ≤ s.pc ∧ cmp (s.mem s.pb) (s.mem a) ≤ 0 then
      if cmp (s.mem s.pb) (s.mem a) = 0 then
        scanUp a fuel { s with mem := swap s.mem s.pa s.pb, pa := s.pa + 1, pb := s.pb + 1 }
      else scanUp a fuel { s with pb := s.pb + 1 }
    else some s

def scanDown (a : Nat) : Nat → Scan α → Option (Scan α)
  | 0, _ => none
  | fuel + 1, s =>
    if s.pb ≤ s.pc ∧ 0 ≤ cmp (s.mem s.pc) (s.mem a) then
      if cmp (s.mem s.pc) (s.mem a) = 0 then
        scanDown a fuel { s with mem := swap s.mem s.pc s.pd, pd := s.pd - 1, pc := s.pc - 1 }
      else scanDown a fuel { s with pc := s.pc - 1 }
    else some s

def partition (a : Nat) : Nat → Scan α → Option (Scan α)
  | 0, _ => none
  | fuel + 1, s => do
    let s ← scanUp cmp a (s.pc + 2 - s.pb) s
    let s ← scanDown cmp a (s.pc + 2 - s.pb) s
    if s.pc < s.pb then some s
    else partition a fuel { s with mem := swap s.mem s.pb s.pc, pb := s.pb + 1, pc := s.pc - 1 }

def pivot (m : Cells α) (a n : Nat) : Nat :=
  let pm := a + n / 2
  if n ≤ 7 then pm
  else
    let pl := a
    let pn := a + (n - 1)
    if 40 < n then
      let d := n / 8
      let pl := med3 cmp m pl (pl + d) (pl + 2 * d)
      let pm := med3 cmp m (pm - d) pm (pm + d)
      let pn := med3 cmp m (pn - 2 * d) (pn - d) pn
      med3 cmp m pl pm pn
    else med3 cmp m pl pm pn

def gather (a n : Nat) (s : Scan α) : Cells α :=
  let pn := a + n
  let r := min (s.pa - a) (s.pb - s.pa)
  let m := vecswap s.mem a (s.pb - r) r
  let r := min (s.pd - s.pc) (pn - s.pd - 1)
  vecswap m s.pb (pn - r) r

def outOfRange (es : Nat) (lrange rrange : Int) (start len : Nat) : Bool :=
  let first : Int := start * es
  let last : Int := start * es + len * es - 1
  lrange < first && rrange < first || last < lrange && last < rrange

def pqsortLoop (es : Nat) (lrange rrange : Int) : Nat → Cells α → Nat → Nat → Option (Cells α)
  | 0, _, _, _ => none
  | fuel + 1, m, a, n =>
    if n < 7 then some (insertionSort cmp m a n)
    else do
      let s ← partition cmp a n ⟨swap m a (pivot cmp m a n), a + 1, a + 1, a + (n - 1), a + (n - 1)⟩
      let m := gather a n s
      let r := (s.pb - s.pa) * es
      let m ←
        (if es < r ∧ !outOfRange es lrange rrange a (r / es) then pqsortLoop es lrange rrange fuel m a (r / es) else some m)
      let r := (s.pd - s.pc) * es
      let start := a + n - r / es
      if es < r ∧ !outOfRange es lrange rrange start (r / es) then pqsortLoop es lrange rrange fuel m start (r / es) else some m

def pqsort (es : Nat) (m : Cells α) (n : Nat) (lrange rrange : Int) : Option (Cells α) :=
  pqsortLoop cmp es (lrange * es) ((rrange + 1) * es - 1) (n + 1) m 0 n

end Cplusplus.Redis.Pqsort
