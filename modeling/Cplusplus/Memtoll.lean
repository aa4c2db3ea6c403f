import Cplusplus.CheckAof

/-! `memtoll` of `util.c`: an amount of memory with a unit. A text is the bytes in front of its NUL. -/

namespace Cplusplus.Redis.Memtoll
open CheckAof (strcasecmp strtol)

/-- `long mul` -/
def unitMultiplier (u : List UInt8) : Option Int :=
  if u.headD 0 = 0 ∨ strcasecmp u [98] then some 1
  else if strcasecmp u [107] then some 1000
  else if strcasecmp u [107, 98] then some 1024
  else if strcasecmp u [109] then some (1000 * 1000)
  else if strcasecmp u [109, 98] then some (1024 * 1024)
  else if strcasecmp u [103] then some (1000 * 1000 * 1000)
  else if strcasecmp u [103, 98] then some (1024 * 1024 * 1024)
  else none

/-- "Search the first non digit character." -/
def splitAmount (p : List UInt8) : List UInt8 × List UInt8 :=
  if p.headD 0 = 45 then (45 :: p.tail.takeWhile isDigit, p.tail.dropWhile isDigit) else (p.takeWhile isDigit, p.dropWhile isDigit)

def wrap (x : Int) : Int := x.bmod (2 ^ 64)

/-- What is copied to `buf`; `digits` is an unsigned int. -/
def copied (p : List UInt8) : List UInt8 := (splitAmount p).1.take ((splitAmount p).1.length % 2 ^ 32)

/-- `einval` is whether `strtoll` sets the error number for a text without a number. `none` is `*err = 1`;
a product that overflows wraps around. -/
def memtoll (einval : Bool) (p : List UInt8) : Option Int :=
  match unitMultiplier (splitAmount p).2 with
  | none => none
  | some mul =>
    if 128 ≤ (splitAmount p).1.length % 2 ^ 32 then none
    else
      let val := strtol (copied p)
      if (val.1 = 0 ∧ einval ∧ (copied p).all (· == 45)) ∨ val.2 ≠ [] then none else some (wrap (val.1 * mul))

end Cplusplus.Redis.Memtoll
