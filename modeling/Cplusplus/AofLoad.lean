import Cplusplus.CheckAof

/-! `loadAppendOnlyFile` of `aof.c` with the cut of a file that ends too early. What a command
does to the dataset is a parameter, but for those that begin or end a transaction. -/

namespace Cplusplus.Redis.AofLoad
open CheckAof

/-- The dataset, with the database that the fake client has selected, and its flag REDIS_MULTI. -/
structure Loading (σ : Type) where
  dataset : σ
  multi : Bool

section
variable {σ : Type} (commands : List UInt8 → Option Command) (call : σ → Argv → σ)

/-- `cmd->proc(fakeClient)`. The proc of a command runs at once, also after MULTI: only
`processCommand` queues commands, so that EXEC finds none. -/
def proc (cmd : Command) (argv : Argv) (s : Loading σ) : Loading σ :=
  match cmd with
  | .multi => if s.multi then s else { s with multi := true }
  | .exec | .discard => if s.multi then { s with multi := false } else s
  | _ => { s with dataset := call s.dataset argv }

/-- `feof` after the read that failed. A text of "*" alone and one of "*" and a zero byte look the
same to the loader. -/
def feofAfter (fp : List UInt8) : Bool :=
  let (buf, rest) := readLine 127 fp
  if buf.head? = some 42 ∧ buf.tail.headD 0 = 0 then rest.isEmpty && buf.length < 127 && buf.getLast? ≠ some 10 else true

inductive LoadEnd where
  | eof
  | uxeof
  | exit
deriving DecidableEq

def loadLoop (loadTruncated : Bool) : (fuel : Nat) → Loading σ → (pos validUpTo : Nat) → List UInt8 → Loading σ × Nat × LoadEnd
  | 0, s, _, validUpTo, _ => (s, validUpTo, .exit)
  | fuel + 1, s, pos, validUpTo, fp =>
    if fp.isEmpty then (s, validUpTo, .eof)
    else
      match loadCommand fp with
      | .error .readerr => (s, validUpTo, if feofAfter fp then .uxeof else .exit)
      | .error _ => (s, validUpTo, .exit)
      | .ok (argv, rest) =>
        match commands (argv.headD []) with
        | none => (s, validUpTo, .exit)
        | some cmd =>
          let pos := pos + (fp.length - rest.length)
          loadLoop loadTruncated fuel (proc call cmd argv s) pos (if loadTruncated then pos else validUpTo) rest

/-- The dataset and the file that is left, or none for `exit(1)`. An empty file is not read. -/
def loadAppendOnlyFile (loadTruncated : Bool) (dataset : σ) (file : List UInt8) : Option (σ × List UInt8) :=
  let uxeof := fun (s : Loading σ) (validUpTo : Nat) =>
    if loadTruncated then some (s.dataset, file.take validUpTo) else none
  if file.isEmpty then some (dataset, file)
  else
    match loadLoop commands call loadTruncated (file.length + 1) ⟨dataset, false⟩ 0 0 file with
    | (s, validUpTo, .eof) => if s.multi then uxeof s validUpTo else some (s.dataset, file)
    | (s, validUpTo, .uxeof) => uxeof s validUpTo
    | (_, _, .exit) => none

end

/-- What the server appends: a command, or a transaction with the EXEC of the client. -/
inductive Entry where
  | command (argv : Argv)
  | transaction (body : List Argv) (exec : Argv)

def multiArgv : Argv := [[77, 85, 76, 84, 73]]

def Entry.commands : Entry → List Argv
  | .command argv => [argv]
  | .transaction body exec => multiArgv :: body ++ [exec]

def Entry.effects : Entry → List Argv
  | .command argv => [argv]
  | .transaction body _ => body

def written (argvs : List Argv) : List UInt8 := argvs.flatMap catAppendOnlyGenericCommand

def logFile (log : List Entry) : List UInt8 := written (log.flatMap Entry.commands)

def replay {σ : Type} (call : σ → Argv → σ) (dataset : σ) (log : List Entry) : σ := (log.flatMap Entry.effects).foldl call dataset

def Entry.size (e : Entry) : Nat := (written e.commands).length

def whole : List Argv → Nat → List Argv
  | [], _ => []
  | argv :: argvs, n =>
    let size := (catAppendOnlyGenericCommand argv).length
    if size ≤ n then argv :: whole argvs (n - size) else []

def complete : List Entry → Nat → List Entry
  | [], _ => []
  | e :: log, n => if e.size ≤ n then e :: complete log (n - e.size) else []

/-- The whole commands of the transaction that a cut falls into, without its MULTI. -/
def begun : List Entry → Nat → List Argv
  | [], _ => []
  | e :: log, n =>
    if e.size ≤ n then begun log (n - e.size)
    else
      match e with
      | .command _ => []
      | .transaction body _ => whole body (n - (catAppendOnlyGenericCommand multiArgv).length)

structure Plain (commands : List UInt8 → Option Command) (argv : Argv) : Prop where
  named : argv ≠ []
  few : argv.length < 2 ^ 31
  fits : ∀ arg ∈ argv, arg.length + 2 < 2 ^ 63
  known : ∃ cmd, commands (argv.headD []) = some cmd ∧ cmd ≠ .multi ∧ cmd ≠ .exec ∧ cmd ≠ .discard

def Entry.Appended (commands : List UInt8 → Option Command) : Entry → Prop
  | .command argv => Plain commands argv
  | .transaction body exec =>
    commands [77, 85, 76, 84, 73] = some .multi ∧ (∀ argv ∈ body, Plain commands argv) ∧
      exec ≠ [] ∧ exec.length < 2 ^ 31 ∧ (∀ arg ∈ exec, arg.length + 2 < 2 ^ 63) ∧ commands (exec.headD []) = some .exec

/-- A file that is cut after `n` bytes loads as the entries that are whole, and the file that is
left loads as these and everything that is appended to it. -/
def LoadsExactly (commands : List UInt8 → Option Command) (log : List Entry) (n : Nat) : Prop :=
  ∀ (σ : Type) (call : σ → Argv → σ) (dataset : σ), ∃ kept,
    loadAppendOnlyFile commands call true dataset ((logFile log).take n) = some (replay call dataset (complete log n), kept) ∧
    ∀ more : List Entry, (∀ e ∈ more, e.Appended commands) → ∃ file,
      loadAppendOnlyFile commands call true dataset (kept ++ logFile more) =
        some (replay call (replay call dataset (complete log n)) more, file)

end Cplusplus.Redis.AofLoad
