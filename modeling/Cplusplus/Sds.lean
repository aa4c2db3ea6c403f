import Cplusplus.CheckAof

/-! The conversions of `sds.c` between byte strings, integers and quoted arguments. -/

namespace Cplusplus.Redis.Sds
open CheckAof (isspace)

abbrev Bytes := List UInt8

/-- The digits are written in reverse. Twenty are enough for an unsigned long long. -/
def sdsll2strLoop : Nat → Nat → Bytes → Bytes
  | 0, _, s => s
  | fuel + 1, v, s =>
    let s := s ++ [UInt8.ofNat (48 + v % 10)]
    if v / 10 ≠ 0 then sdsll2strLoop fuel (v / 10) s else s

/-- The negation wraps around at LLONG_MIN. -/
def sdsll2str (value : BitVec 64) : Bytes :=
  let v := if value.slt 0 then -value else value
  let s := sdsll2strLoop 20 v.toNat []
  let s := if value.slt 0 then s ++ [45] else s
  s.reverse

def isprint (c : UInt8) : Bool := 32 ≤ c.toNat && c.toNat ≤ 126

def hexDigit (d : Nat) : UInt8 := UInt8.ofNat (if d < 10 then 48 + d else 87 + d)

/-- What one byte becomes between the quotes. -/
def reprByte (c : UInt8) : Bytes :=
  if c = 92 ∨ c = 34 then [92, c]
  else if c = 10 then [92, 110]
  else if c = 13 then [92, 114]
  else if c = 9 then [92, 116]
  else if c = 7 then [92, 97]
  else if c = 8 then [92, 98]
  else if isprint c then [c]
  else [92, 120, hexDigit (c.toNat / 16), hexDigit (c.toNat % 16)]

def sdscatrepr (s p : Bytes) : Bytes := p.foldl (fun s c => s ++ reprByte c) (s ++ [34]) ++ [34]

def isHexDigit (c : UInt8) : Bool :=
  (48 ≤ c.toNat && c.toNat ≤ 57) || (97 ≤ c.toNat && c.toNat ≤ 102) || (65 ≤ c.toNat && c.toNat ≤ 70)

def hexDigitToInt (c : UInt8) : Nat :=
  if 48 ≤ c.toNat ∧ c.toNat ≤ 57 then c.toNat - 48
  else if 97 ≤ c.toNat ∧ c.toNat ≤ 102 then c.toNat - 87
  else if 65 ≤ c.toNat ∧ c.toNat ≤ 70 then c.toNat - 55
  else 0

def unescape (c : UInt8) : UInt8 :=
  if c = 110 then 10
  else if c = 114 then 13
  else if c = 116 then 9
  else if c = 98 then 8
  else if c = 97 then 7
  else c

inductive Quotes where
  | none
  | double
  | single

def peek (p : Bytes) (i : Nat) : UInt8 := p.getD i 0

inductive TokenStep where
  | err
  | done
  | next (quotes : Quotes) (p current : Bytes)

/-- A closing quote must be followed by a space or nothing at all. -/
def closeQuote (p : Bytes) : TokenStep := if peek p 1 ≠ 0 ∧ !isspace (peek p 1) then .err else .done

def tokenStep (quotes : Quotes) (p current : Bytes) : TokenStep :=
  match quotes with
  | .double =>
    if peek p 0 = 92 ∧ peek p 1 = 120 ∧ isHexDigit (peek p 2) ∧ isHexDigit (peek p 3) then
      .next .double (p.drop 3) (current ++ [UInt8.ofNat (hexDigitToInt (peek p 2) * 16 + hexDigitToInt (peek p 3))])
    else if peek p 0 = 92 ∧ peek p 1 ≠ 0 then .next .double (p.drop 1) (current ++ [unescape (peek p 1)])
    else if peek p 0 = 34 then closeQuote p
    else if peek p 0 = 0 then .err
    else .next .double p (current ++ [peek p 0])
  | .single =>
    if peek p 0 = 92 ∧ peek p 1 = 39 then .next .single (p.drop 1) (current ++ [39])
    else if peek p 0 = 39 then closeQuote p
    else if peek p 0 = 0 then .err
    else .next .single p (current ++ [peek p 0])
  | .none =>
    if peek p 0 = 32 ∨ peek p 0 = 10 ∨ peek p 0 = 13 ∨ peek p 0 = 9 ∨ peek p 0 = 0 then .done
    else if peek p 0 = 34 then .next .double p current
    else if peek p 0 = 39 then .next .single p current
    else .next .none p (current ++ [peek p 0])

def advance (p : Bytes) : Bytes := if peek p 0 ≠ 0 then p.drop 1 else p

def tokenLoop : Nat → Quotes → Bytes → Bytes → Option (Bytes × Bytes)
  | 0, _, _, _ => none
  | fuel + 1, quotes, p, current =>
    match tokenStep quotes p current with
    | .err => none
    | .done => some (current, advance p)
    | .next quotes p current => tokenLoop fuel quotes (advance p) current

def splitLoop : Nat → Bytes → List Bytes → Option (List Bytes)
  | 0, _, _ => none
  | fuel + 1, p, vector =>
    let p := p.dropWhile isspace
    if peek p 0 ≠ 0 then
      match tokenLoop (p.length + 1) .none p [] with
      | none => none
      | some (current, p) => splitLoop fuel p (vector ++ [current])
    else some vector

/-- The arguments of a line, none where the code returns NULL. -/
def sdssplitargs (line : Bytes) : Option (List Bytes) := splitLoop (line.length + 1) line []

example : sdssplitargs [34, 32, 32, 34, 32, 34, 92, 120, 48, 48, 34, 9, 97] = some [[32, 32], [0], [97]] := by decide

end Cplusplus.Redis.Sds
