import Mathlib.Algebra.Ring.Int.Defs
import Mathlib.Algebra.Ring.Nat

/-! The conversions between integers and text of `util.c`. -/

namespace Cplusplus.Redis

def llongMax : Nat := 2 ^ 63 - 1

def ullongMax : Nat := 2 ^ 64 - 1

def isDigit (c : UInt8) : Bool := 48 ≤ c.toNat && c.toNat ≤ 57

/-- The digit loop of `string2ll`: the value and what follows the digits, or `none`
where the code returns on an overflow. -/
def string2llLoop (v : Nat) : List UInt8 → Option (Nat × List UInt8)
  | [] => some (v, [])
  | c :: p =>
    if isDigit c then
      if ullongMax / 10 < v then none
      else if ullongMax - (c.toNat - 48) < v * 10 then none
      else string2llLoop (v * 10 + (c.toNat - 48)) p
    else some (v, c :: p)

def string2ll (s : List UInt8) : Option Int :=
  if s.length = 0 then none
  else if s = [48] then some 0
  else
    let negative := s.head? = some 45
    match if negative then s.tail else s with
    | [] => none
    | c :: p =>
      if 49 ≤ c.toNat ∧ c.toNat ≤ 57 then
        match string2llLoop (c.toNat - 48) p with
        | some (v, []) =>
          if negative then if llongMax + 1 < v then none else some (-(v : Int))
          else if llongMax < v then none else some v
        | _ => none
      else if c = 48 ∧ s.length = 1 then some 0
      else none

def digits10Fuel : Nat → Nat → Nat
  | 0, _ => 0
  | fuel + 1, v =>
    if v < 10 then 1
    else if v < 100 then 2
    else if v < 1000 then 3
    else if v < 1000000000000 then
      if v < 100000000 then
        if v < 1000000 then if v < 10000 then 4 else 5 + if 100000 ≤ v then 1 else 0
        else 7 + if 10000000 ≤ v then 1 else 0
      else if v < 10000000000 then 9 + if 1000000000 ≤ v then 1 else 0
      else 11 + if 100000000000 ≤ v then 1 else 0
    else 12 + digits10Fuel fuel (v / 1000000000000)

/-- Two divisions by 10^12 leave less than 1000 of an unsigned long long. -/
def digits10 (v : Nat) : Nat := digits10Fuel 3 v

/-- `static const char digits[201]`, the characters of 00, 01, ..., 99. -/
def digitPairs : List UInt8 :=
  [48, 48, 48, 49, 48, 50, 48, 51, 48, 52, 48, 53, 48, 54, 48, 55, 48, 56, 48, 57,
   49, 48, 49, 49, 49, 50, 49, 51, 49, 52, 49, 53, 49, 54, 49, 55, 49, 56, 49, 57,
   50, 48, 50, 49, 50, 50, 50, 51, 50, 52, 50, 53, 50, 54, 50, 55, 50, 56, 50, 57,
   51, 48, 51, 49, 51, 50, 51, 51, 51, 52, 51, 53, 51, 54, 51, 55, 51, 56, 51, 57,
   52, 48, 52, 49, 52, 50, 52, 51, 52, 52, 52, 53, 52, 54, 52, 55, 52, 56, 52, 57,
   53, 48, 53, 49, 53, 50, 53, 51, 53, 52, 53, 53, 53, 54, 53, 55, 53, 56, 53, 57,
   54, 48, 54, 49, 54, 50, 54, 51, 54, 52, 54, 53, 54, 54, 54, 55, 54, 56, 54, 57,
   55, 48, 55, 49, 55, 50, 55, 51, 55, 52, 55, 53, 55, 54, 55, 55, 55, 56, 55, 57,
   56, 48, 56, 49, 56, 50, 56, 51, 56, 52, 56, 53, 56, 54, 56, 55, 56, 56, 56, 57,
   57, 48, 57, 49, 57, 50, 57, 51, 57, 52, 57, 53, 57, 54, 57, 55, 57, 56, 57, 57]

/-- The text is written backwards; `out` is what is written so far. At least one
division by 100 is left to do for each unit of fuel. -/
def ll2stringLoop : Nat → Nat → List UInt8 → List UInt8
  | 0, _, out => out
  | fuel + 1, value, out =>
    if 100 ≤ value then
      let i := value % 100 * 2
      ll2stringLoop fuel (value / 100) (digitPairs.getD i 0 :: digitPairs.getD (i + 1) 0 :: out)
    else if value < 10 then UInt8.ofNat (48 + value) :: out
    else
      let i := value * 2
      digitPairs.getD i 0 :: digitPairs.getD (i + 1) 0 :: out

/-- The bytes of `dst` up to the returned length; none are returned if they do not
fit. `pad` are the bytes of `dst` in front of the digits. -/
def ll2string (dstlen : Nat) (svalue : Int) : List UInt8 :=
  let negative := svalue < 0
  let value := svalue.natAbs
  let length := digits10 value + if negative then 1 else 0
  if dstlen ≤ length then []
  else
    let out := ll2stringLoop 10 value []
    let pad := List.replicate (length - out.length) 0
    if negative then (pad ++ out).set 0 45 else pad ++ out

end Cplusplus.Redis
