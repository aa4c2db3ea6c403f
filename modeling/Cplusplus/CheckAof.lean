import Cplusplus.Transactions
import Cplusplus.Util

/-! `redis-check-aof.c` and the framing of `loadAppendOnlyFile`. A file is the list of the bytes
that are not read yet. What the checker prints about an error is left out. -/

namespace Cplusplus.Redis.CheckAof

abbrev Argv := List (List UInt8)

def readLine : Nat → List UInt8 → List UInt8 × List UInt8
  | 0, fp => ([], fp)
  | _ + 1, [] => ([], [])
  | n + 1, c :: fp =>
    if c = 10 then ([10], fp)
    else
      let (line, rest) := readLine n fp
      (c :: line, rest)

/-- The result is NULL at the end of the file. -/
def fgets (size : Nat) (fp : List UInt8) : Option (List UInt8 × List UInt8) :=
  if fp.isEmpty then none else some (readLine (size - 1) fp)

def isspace (c : UInt8) : Bool := c = 32 || (9 ≤ c && c ≤ 13)

def strtolSign : List UInt8 → Bool × List UInt8
  | c :: s => if c = 45 then (true, s) else if c = 43 then (false, s) else (false, c :: s)
  | [] => (false, [])

def digitsValue (digits : List UInt8) : Nat := digits.foldl (fun value c => 10 * value + (c.toNat - 48)) 0

/-- The value, LONG_MIN and LONG_MAX at most, and `endptr`: the text itself if it has no number.
A zero byte is none of the characters that are skipped. -/
def strtol (s : List UInt8) : Int × List UInt8 :=
  let (negative, digits) := strtolSign (s.dropWhile isspace)
  if (digits.takeWhile isDigit).isEmpty then (0, s)
  else
    let value := digitsValue (digits.takeWhile isDigit)
    (if negative then max (-(value : Int)) (-2 ^ 63) else min (value : Int) (2 ^ 63 - 1), digits.dropWhile isDigit)

def cString (s : List UInt8) : List UInt8 := s.takeWhile (· ≠ 0)

def strcasecmp (s name : List UInt8) : Bool := (cString s).map lower = (cString name).map lower

def multiName : List UInt8 := [109, 117, 108, 116, 105]

def execName : List UInt8 := [101, 120, 101, 99]

def consumeNewline (buf : List UInt8) : Bool := buf.take 2 = [13, 10]

def readLong (fp : List UInt8) (mark : UInt8) : Option (Int × List UInt8) :=
  match fgets 128 fp with
  | none => none
  | some ([], _) => none
  | some (c :: buf, rest) => if c = mark ∧ consumeNewline (strtol buf).2 then some ((strtol buf).1, rest) else none

/-- A fault is undefined behaviour: an overflow, a NULL that malloc returned, a read before the
start of the buffer. -/
inductive CheckRead (α : Type) where
  | fault
  | stop
  | ok (value : α) (rest : List UInt8)

/-- `limit` is the largest size that malloc can give. A negative length is one of the faults. -/
def readString (limit : Nat) (fp : List UInt8) : CheckRead (List UInt8) :=
  match readLong fp 36 with
  | none => .stop
  | some (len, rest) =>
    if len < 0 ∨ 2 ^ 63 ≤ len + 2 ∨ (limit : Int) < len + 2 then .fault
    else if rest.length < len.toNat + 2 then .stop
    else if consumeNewline (rest.drop len.toNat) then .ok (rest.take len.toNat) (rest.drop (len.toNat + 2))
    else .stop

def readArgc (fp : List UInt8) : Option (Int × List UInt8) := readLong fp 42

/-- MULTI and EXEC by the name of a command, which is told from others by `same`. The result
`none` is a MULTI inside of a transaction or an EXEC outside. -/
def nextMulti (same : List UInt8 → List UInt8 → Bool) (multi : Bool) (name : List UInt8) : Option Bool :=
  if same name multiName then (if multi then none else some true)
  else if same name execName then (if multi then some false else none)
  else some multi

/-- The loop over the arguments. `i` is an int, and the first argument is the name. -/
def readArgs (limit : Nat) : (left i : Nat) → (multi : Bool) → List UInt8 → CheckRead (Bool × Argv)
  | 0, _, multi, fp => .ok (multi, []) fp
  | left + 1, i, multi, fp =>
    match readString limit fp with
    | .fault => .fault
    | .stop => .stop
    | .ok str rest =>
      match if i = 0 then nextMulti strcasecmp multi str else some multi with
      | none => .stop
      | some multi =>
        if i + 1 = 2 ^ 31 then .fault
        else
          match readArgs limit left (i + 1) multi rest with
          | .fault => .fault
          | .stop => .stop
          | .ok (multi, argv) rest => .ok (multi, str :: argv) rest

/-- `pos` is kept from the last command outside of a transaction. Beside it stand the commands
that were read so far, and those of them that lie before `pos`. -/
def processLoop (limit size : Nat) : (fuel : Nat) → (multi : Bool) → (pos : Nat) → (valid read : List Argv) →
    (fp : List UInt8) → Option (Nat × List Argv)
  | 0, _, _, _, _, _ => none
  | fuel + 1, multi, pos, valid, read, fp =>
    let (pos, valid) := if multi then (pos, valid) else (size - fp.length, read)
    match readArgc fp with
    | none => some (pos, valid)
    | some (argc, rest) =>
      match readArgs limit argc.toNat 0 multi rest with
      | .fault => none
      | .stop => some (pos, valid)
      | .ok (multi, argv) rest => processLoop limit size fuel multi pos valid (read ++ [argv]) rest

def process (limit : Nat) (fp : List UInt8) : Option (Nat × List Argv) :=
  processLoop limit fp.length (fp.length + 1) false 0 [] [] fp

inductive AofError where
  | fmterr
  | readerr
  | fault
deriving DecidableEq

/-- The two bytes after an argument are not looked at. A negative length is a fault. -/
def loadArgs : Nat → List UInt8 → Except AofError (Argv × List UInt8)
  | 0, fp => .ok ([], fp)
  | left + 1, fp =>
    match fgets 128 fp with
    | none => .error .readerr
    | some (buf, rest) =>
      if buf.head? ≠ some 36 then .error .fmterr
      else
        let len := (strtol buf.tail).1
        if len < 0 then .error .fault
        else if rest.length < len.toNat + 2 then .error .readerr
        else
          match loadArgs left (rest.drop (len.toNat + 2)) with
          | .error error => .error error
          | .ok (argv, after) => .ok (rest.take len.toNat :: argv, after)

def loadCommand (fp : List UInt8) : Except AofError (Argv × List UInt8) :=
  match fgets 128 fp with
  | none => .error .readerr
  | some (buf, rest) =>
    if buf.head? ≠ some 42 then .error .fmterr
    else if buf.tail.headD 0 = 0 then .error .readerr
    else
      let argc := (BitVec.ofInt 32 (strtol buf.tail).1).toInt
      if argc < 1 then .error .fmterr else loadArgs argc.toNat rest

def loadLoop : (fuel : Nat) → List UInt8 → Except AofError (List Argv)
  | 0, fp => if fp.isEmpty then .ok [] else .error .fault
  | fuel + 1, fp =>
    if fp.isEmpty then .ok []
    else
      match loadCommand fp with
      | .error error => .error error
      | .ok (argv, rest) =>
        match loadLoop fuel rest with
        | .error error => .error error
        | .ok commands => .ok (argv :: commands)

def loadAppendOnlyFile (fp : List UInt8) : Except AofError (List Argv) := loadLoop fp.length fp

def catBulk (arg : List UInt8) : List UInt8 := 36 :: ll2string 31 arg.length ++ [13, 10] ++ arg ++ [13, 10]

def catAppendOnlyGenericCommand (argv : Argv) : List UInt8 :=
  42 :: ll2string 31 argv.length ++ [13, 10] ++ (argv.map catBulk).flatten

end Cplusplus.Redis.CheckAof
