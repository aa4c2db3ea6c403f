import Cplusplus.Library.Wildcards

/-! `stringmatchlen` of `util.c`. A pointer is moved together with the length that is left, and what it
reads is a byte of its text or the NUL after it: any other read has no result. -/

namespace Cplusplus.Redis.Glob

structure Cursor where
  pos : Nat
  len : Int

def Cursor.advance (cursor : Cursor) (n : Nat) : Cursor := ⟨cursor.pos + n, cursor.len - n⟩

def Cursor.back (cursor : Cursor) : Cursor := ⟨cursor.pos - 1, cursor.len + 1⟩

def Cursor.read (text : List UInt8) (cursor : Cursor) (i : Nat) : Option UInt8 :=
  if cursor.pos + i = text.length then some 0 else text[cursor.pos + i]?

def Cursor.start (text : List UInt8) : Cursor := ⟨0, text.length⟩

/-- A `char` is signed. -/
def charValue (c : UInt8) : Int := c.toInt8.toInt

def tolower (c : Int) : Int := if 65 ≤ c ∧ c ≤ 90 then c + 32 else c

section
variable (pattern string : List UInt8) (nocase : Bool)

def sameChar (a b : UInt8) : Bool := if !nocase then a == b else tolower (charValue a) == tolower (charValue b)

def inRange (first last c : Int) : Bool :=
  let start := if first > last then last else first
  let stop := if first > last then first else last
  if nocase then tolower start ≤ tolower c && tolower c ≤ tolower stop else start ≤ c && c ≤ stop

def skipStars : Nat → Cursor → Option Cursor
  | 0, _ => none
  | fuel + 1, p => do
    if (← p.read pattern 1) = 42 then skipStars fuel (p.advance 1) else some p

def skipLast : Nat → Cursor → Option Cursor
  | 0, _ => none
  | fuel + 1, p => do
    if (← p.read pattern 0) = 42 then skipLast fuel (p.advance 1) else some p

def classLoop (s : Cursor) : Nat → Cursor → Bool → Option (Cursor × Bool)
  | 0, _, _ => none
  | fuel + 1, p, matched => do
    let c ← p.read pattern 0
    if c = 92 then
      let p := p.advance 1
      let same := (← p.read pattern 0) == (← s.read string 0)
      classLoop s fuel (p.advance 1) (matched || same)
    else if c = 93 then some (p, matched)
    else if p.len = 0 then some (p.back, matched)
    else if (← p.read pattern 1) = 45 ∧ 3 ≤ p.len then
      let inside := inRange nocase (charValue c) (charValue (← p.read pattern 2)) (charValue (← s.read string 0))
      classLoop s fuel (p.advance 3) (matched || inside)
    else
      let same := sameChar nocase c (← s.read string 0)
      classLoop s fuel (p.advance 1) (matched || same)

inductive Move where
  | result (matched : Bool)
  | star (p : Cursor)
  | next (p s : Cursor)

def switchPattern (fuel : Nat) (p s : Cursor) : Option Move := do
  let c ← p.read pattern 0
  if c = 42 then
    let p ← skipStars pattern fuel p
    if p.len = 1 then some (.result true) else some (.star (p.advance 1))
  else if c = 63 then
    if s.len = 0 then some (.result false) else some (.next p (s.advance 1))
  else if c = 91 then
    let p := p.advance 1
    let negated := (← p.read pattern 0) == 94
    let p := if negated then p.advance 1 else p
    let closed ← classLoop pattern string nocase s fuel p false
    if closed.2 = negated then some (.result false) else some (.next closed.1 (s.advance 1))
  else
    let p := if c = 92 ∧ 2 ≤ p.len then p.advance 1 else p
    if sameChar nocase (← p.read pattern 0) (← s.read string 0) then some (.next p (s.advance 1)) else some (.result false)

def starLoop (matchRest : Cursor → Option Bool) : Nat → Cursor → Option Bool
  | 0, _ => none
  | fuel + 1, s =>
    if s.len = 0 then some false
    else do
      if ← matchRest s then some true else starLoop matchRest fuel (s.advance 1)

/-- A length below zero only falls, and such a run has no result: in C it would come to an overflow. -/
def stringmatchlen : Nat → Cursor → Cursor → Option Bool
  | 0, _, _ => none
  | fuel + 1, p, s =>
    if p.len = 0 then some (s.len == 0)
    else do
      match ← switchPattern pattern string nocase fuel p s with
      | .result matched => some matched
      | .star p => starLoop (stringmatchlen fuel p) fuel s
      | .next p s =>
        if s.len = 0 then
          let p ← skipLast pattern fuel (p.advance 1)
          some (p.len == 0)
        else stringmatchlen fuel (p.advance 1) s

end

/-! The language of a glob pattern, whatever reads it. -/

section
open Wildcards

inductive ClassItem where
  | byte (a : UInt8)
  | escaped (a : UInt8)
  | range (a b : UInt8)

structure ClassBody where
  items : List ClassItem
  dangling : Bool
  rest : List UInt8

def ClassBody.add (item : ClassItem) (body : ClassBody) : ClassBody := { body with items := item :: body.items }

def classBody : List UInt8 → ClassBody
  | [] => ⟨[], false, []⟩
  | c :: rest =>
    if c = 92 then
      match rest with
      | [] => ⟨[.escaped 92], true, []⟩
      | a :: rest => (classBody rest).add (.escaped a)
    else if c = 93 then ⟨[], false, rest⟩
    else
      match rest with
      | dash :: b :: rest => if dash = 45 then (classBody rest).add (.range c b) else (classBody (dash :: b :: rest)).add (.byte c)
      | short => (classBody short).add (.byte c)

inductive GlobToken where
  | star
  | any
  | byte (a : UInt8)
  | bracket (negated : Bool) (items : List ClassItem) (dangling : Bool)

theorem classBody_rest_length (text : List UInt8) : (classBody text).rest.length ≤ text.length := by
  fun_induction classBody text <;> simp only [ClassBody.add, List.length_cons] at * <;> omega

def tokens (pattern : List UInt8) : List GlobToken :=
  match pattern with
  | [] => []
  | c :: rest =>
    if c = 42 then .star :: tokens rest
    else if c = 63 then .any :: tokens rest
    else if c = 91 then
      let negated := rest.headD 0 == 94
      let body := classBody (if negated then rest.tail else rest)
      .bracket negated body.items body.dangling :: tokens body.rest
    else if c = 92 then
      match rest with
      | [] => [.byte c]
      | a :: rest => .byte a :: tokens rest
    else .byte c :: tokens rest
termination_by pattern.length
decreasing_by
  all_goals simp only [List.length_cons]
  all_goals try omega
  have inside := classBody_rest_length (if (rest.headD 0 == 94) = true then rest.tail else rest)
  split at inside <;> simp_all <;> omega

def fold (nocase : Bool) (c : Int) : Int := if nocase then tolower c else c

/-- A range has its bounds in any order. An escaped byte is only itself. -/
def ClassItem.accepts (nocase : Bool) (c : UInt8) : ClassItem → Bool
  | .byte a => fold nocase (charValue a) == fold nocase (charValue c)
  | .escaped a => a == c
  | .range a b =>
    fold nocase (min (charValue a) (charValue b)) ≤ fold nocase (charValue c) &&
      fold nocase (charValue c) ≤ fold nocase (max (charValue a) (charValue b))

def GlobToken.accepts (nocase : Bool) (c : UInt8) : GlobToken → Bool
  | .star | .any => true
  | .byte a => (ClassItem.byte a).accepts nocase c
  | .bracket negated items _ => items.any (ClassItem.accepts nocase c) != negated

def GlobToken.token (nocase : Bool) (t : GlobToken) : Token UInt8 :=
  match t with
  | .star => .star
  | .any | .byte _ | .bracket .. => .one fun c => t.accepts nocase c

def language (nocase : Bool) (pattern : List GlobToken) : List (Token UInt8) := pattern.map (GlobToken.token nocase)

def InLanguage (nocase : Bool) (pattern string : List UInt8) : Prop := Matches (language nocase (tokens pattern)) string

end

end Cplusplus.Redis.Glob
