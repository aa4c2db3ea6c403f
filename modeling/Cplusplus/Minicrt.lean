import Mathlib.Data.Finmap
import Mathlib.Data.Nat.Digits.Defs

/-! The heap of `malloc.c`. The headers are kept by address, and what a header that is written over
a part of another one does to it is left out. A result that is none is an access where no header
is, or a loop without an end. -/

namespace Cplusplus.Minicrt

section
inductive Platform where
  | linux64
  | win32
deriving DecidableEq

/-- The number of values of `size_t` and of pointers. -/
def Platform.word : Platform → Nat
  | .linux64 => 2 ^ 64
  | .win32 => 2 ^ 32

def Platform.headerSize : Platform → Nat
  | .linux64 => 24
  | .win32 => 16

inductive HeapBlock where
  | free
  | used
deriving DecidableEq

/-- `heap_header`, with 0 for NULL. `size` is an `unsigned`. -/
structure HeapHeader where
  type : HeapBlock
  size : Nat
  next : Nat
  prev : Nat
deriving DecidableEq

structure Heap where
  listHead : Nat
  mem : Finmap fun _ : Nat => HeapHeader

def Heap.set (h : Heap) (addr : Nat) (header : HeapHeader) : Heap := { h with mem := h.mem.insert addr header }

variable (p : Platform)

/-- A sum or a difference in `size_t`. -/
def Platform.wrap (n : Int) : Nat := (n % p.word).toNat

def unsigned (n : Nat) : Nat := n % 2 ^ 32

def Platform.addrAdd (a : Nat) (o : Int) : Nat := p.wrap (a + o)

/-- `header` splits: the remainder is a free block behind the one that is returned. The stores are
in the order of the source. -/
def split (size : Nat) (h : Heap) (header : Nat) : Option Heap := do
  let next := p.addrAdd header (p.wrap (size + p.headerSize))
  let b ← h.mem.lookup header
  let rest : HeapHeader := ⟨.free, unsigned (p.wrap (b.size - p.wrap (size - p.headerSize))), b.next, header⟩
  let h := h.set next rest
  let b ← h.mem.lookup header
  pure (h.set header { b with next := next, size := unsigned (p.wrap (size + p.headerSize)), type := .used })

def mallocLoop (size : Nat) : Nat → Heap → Nat → Option (Heap × Nat)
  | 0, _, _ => none
  | fuel + 1, h, header =>
    if header = 0 then some (h, 0)
    else
      (h.mem.lookup header).bind fun b =>
        if b.type = .used then mallocLoop size fuel h b.next
        else
          let h :=
            if p.wrap (size + p.headerSize) < b.size ∧ b.size ≤ p.wrap (size + p.headerSize * 2) then
              h.set header { b with type := .used }
            else h
          if p.wrap (size + p.headerSize * 2) < b.size then
            (split p size h header).map fun h => (h, p.addrAdd header p.headerSize)
          else mallocLoop size fuel h b.next

def malloc (size : Nat) (h : Heap) : Option (Heap × Nat) :=
  if size = 0 then some (h, 0) else mallocLoop p size (h.mem.keys.card + 1) h h.listHead

def mergePrev (h : Heap) (header : Nat) : Option (Heap × Nat) := do
  let b ← h.mem.lookup header
  if b.prev = 0 then pure (h, header)
  else
    let prev ← h.mem.lookup b.prev
    if prev.type = .free then
      let h := h.set b.prev { prev with next := b.next }
      let b ← h.mem.lookup header
      let h ←
        if b.next = 0 then pure h
        else do
          let next ← h.mem.lookup b.next
          pure (h.set b.next { next with prev := b.prev })
      let b ← h.mem.lookup header
      let prev ← h.mem.lookup b.prev
      let h := h.set b.prev { prev with size := unsigned (prev.size + b.size) }
      let b ← h.mem.lookup header
      pure (h, b.prev)
    else pure (h, header)

def mergeNext (h : Heap) (header : Nat) : Option Heap := do
  let b ← h.mem.lookup header
  if b.next = 0 then pure h
  else
    let next ← h.mem.lookup b.next
    if next.type = .free then pure (h.set header { b with size := unsigned (b.size + next.size), next := next.next })
    else pure h

def free (h : Heap) (ptr : Nat) : Option Heap := do
  let header := p.addrAdd ptr (-p.headerSize)
  let b ← h.mem.lookup header
  if b.type = .free then pure h
  else
    let (h, header) ← mergePrev (h.set header { b with type := .free }) header
    mergeNext h header

def heapSize : Nat := 1024 * 1024 * 32

def miniCrtHeapInit (base : Nat) : Heap := ⟨base, (∅ : Finmap fun _ : Nat => HeapHeader).insert base ⟨.free, heapSize, 0, 0⟩⟩

structure State where
  heap : Heap
  live : List (Nat × Nat)

inductive Op where
  | malloc (size : UInt32)
  | free (ptr : Nat)

def step (s : State) : Op → Option State
  | .malloc size => (malloc p size.toNat s.heap).map fun (heap, ptr) => ⟨heap, if ptr = 0 then s.live else (ptr, size.toNat) :: s.live⟩
  | .free ptr =>
    match s.live.find? fun block => block.1 = ptr with
    | none => some s
    | some block => (free p s.heap ptr).map fun heap => ⟨heap, s.live.erase block⟩

def run (base : Nat) (ops : List Op) : Option State := ops.foldlM (step p) ⟨miniCrtHeapInit base, []⟩

inductive Tiled (mem : Finmap fun _ : Nat => HeapHeader) (last : Nat) : Nat → Nat → List (Nat × HeapHeader) → Prop
  | final {prev here : Nat} {b : HeapHeader} : mem.lookup here = some b → b.prev = prev → b.next = 0 → p.headerSize ≤ b.size →
      here + b.size = last → Tiled mem last prev here [(here, b)]
  | cons {prev here : Nat} {b : HeapHeader} {blocks : List (Nat × HeapHeader)} : mem.lookup here = some b → b.prev = prev →
      b.next = here + b.size → p.headerSize ≤ b.size → Tiled mem last here (here + b.size) blocks →
      Tiled mem last prev here ((here, b) :: blocks)

def Apart (one other : Nat × Nat) : Prop := one.1 + one.2 ≤ other.1 ∨ other.1 + other.2 ≤ one.1

structure Invariant (base : Nat) (s : State) (blocks : List (Nat × HeapHeader)) : Prop where
  head : s.heap.listHead = base
  tiled : Tiled p s.heap.mem (base + heapSize) 0 base blocks
  merged : blocks.IsChain fun one other => ¬ (one.2.type = .free ∧ other.2.type = .free)
  used : ∀ block ∈ blocks, block.2.type = .used ↔ ∃ size, (block.1 + p.headerSize, size) ∈ s.live
  usable : ∀ q ∈ s.live, ∃ block ∈ blocks, q.1 = block.1 + p.headerSize ∧ p.headerSize + q.2 ≤ block.2.size
  apart : s.live.Pairwise Apart

def Holds (base : Nat) (ops : List Op) : Prop :=
  ∀ done, done <+: ops → ∃ s blocks, run p base done = some s ∧ Invariant p base s blocks

def Refused (size : Nat) : Prop :=
  size = 0 ∨ heapSize ≤ p.wrap (size + p.headerSize) ∧ heapSize ≤ p.wrap (size + p.headerSize * 2)

end

/-! `itoa` of minicrt's `string.c` and the formatted output of `printf.c`, for a file whose every
`fwrite` succeeds. A result that is none is an access or an arithmetic without a defined result. -/

/-- `char digit[] = "0123456789ABCDEFGHIJKLMNOPQRSTUVWSYZ"` -/
def digitTable : List UInt8 :=
  [48, 49, 50, 51, 52, 53, 54, 55, 56, 57, 65, 66, 67, 68, 69, 70, 71, 72, 73, 74, 75, 76, 77, 78, 79, 80, 81, 82, 83, 84, 85, 86,
    87, 83, 89, 90]

def digitLoop (radix : Nat) : Nat → Nat → List UInt8 → Option (List UInt8)
  | 0, _, _ => none
  | fuel + 1, n, str =>
    if n = 0 then some str else digitTable[n % radix]?.bind fun c => digitLoop radix fuel (n / radix) (str ++ [c])

def reverseLoop : Nat → List UInt8 → Nat → Nat → List UInt8
  | 0, str, _, _ => str
  | fuel + 1, str, head, p =>
    if head < p then reverseLoop fuel ((str.set head (str.getD p 0)).set p (str.getD head 0)) (head + 1) (p - 1) else str

/-- The bytes that are written from `str` on, and how far behind `str` the result points. `-n` of the
smallest `int` overflows. -/
def itoa (n : Int) (radix : Nat) : Option (List UInt8 × Nat) :=
  if radix < 2 ∨ 36 < radix then some ([], 0)
  else if radix ≠ 10 ∧ n < 0 then some ([], 0)
  else if n = 0 then some ([48, 0], 1)
  else if n = -2147483648 then none
  else
    -- `head` stays at `str`, also behind a sign
    (digitLoop radix 32 n.natAbs (if radix = 10 ∧ n < 0 then [45] else [])).map fun str =>
      (reverseLoop str.length str 0 (str.length - 1) ++ [0], 0)

def digitChar (d : Nat) : UInt8 := if d < 10 then .ofNat (48 + d) else .ofNat (55 + d)

def natural (radix n : Nat) : List UInt8 := if n = 0 then [48] else (radix.digits n).reverse.map digitChar

def numeral (radix : Nat) (n : Int) : List UInt8 := if n < 0 then 45 :: natural radix n.natAbs else natural radix n.natAbs

def digitValue (c : UInt8) : Nat := if c < 58 then c.toNat - 48 else c.toNat - 55

def decode (radix : Nat) : List UInt8 → Int
  | 45 :: text => -Nat.ofDigits radix (text.reverse.map digitValue)
  | text => Nat.ofDigits radix (text.reverse.map digitValue)

def ItoaRight (radix : Nat) (n : Int) : Prop :=
  ∃ text, itoa n radix = some (text ++ [0], 0) ∧ text = numeral radix n ∧ decode radix text = n

/-- The value of a `char`, which is signed. -/
def charValue (c : UInt8) : Int := if c < 128 then c.toNat else c.toNat - 256

/-- The functions return a number that is negative for EOF, and what was written so far. -/
abbrev Output := Int × List UInt8

def fputc (c : UInt8) (out : List UInt8) : Output := (charValue c, out ++ [c])

def fputs (str out : List UInt8) : Output := if 256 ≤ str.length then (-1, out) else (str.length, out ++ str)

inductive Arg where
  | int (n : Int)
  | str (s : List UInt8)

/-- `return EOF` if the output failed. -/
def unlessEof (done : Output) (next : List UInt8 → Option Output) : Option Output :=
  if done.1 < 0 then some (-1, done.2) else next done.2

def vfprintfLoop : List UInt8 → List Arg → Bool → Int → List UInt8 → Option Output
  | [], _, _, ret, out => some (ret, out)
  | c :: p, arglist, translating, ret, out =>
    if c = 37 then
      if translating then unlessEof (fputc 37 out) (vfprintfLoop p arglist false (ret + 1))
      else vfprintfLoop p arglist true ret out
    else if c = 100 ∧ translating then
      match arglist with
      | .int n :: arglist =>
        (itoa n 10).bind fun buf =>
          let str := buf.1.takeWhile (· ≠ 0)
          unlessEof (fputs str out) (vfprintfLoop p arglist false (ret + str.length))
      | _ => none
    else if c = 115 ∧ translating then
      match arglist with
      | .str str :: arglist => unlessEof (fputs str out) (vfprintfLoop p arglist false (ret + str.length))
      | _ => none
    else unlessEof (fputc c out) (vfprintfLoop p arglist false (ret + 1))

def vfprintf (format : List UInt8) (arglist : List Arg) : Option Output := vfprintfLoop format arglist false 0 []

inductive Piece where
  | plain (c : UInt8)
  | int (n : Int)
  | str (s : List UInt8)
  | percent

def Piece.format : Piece → List UInt8
  | .plain c => [c]
  | .int _ => [37, 100]
  | .str _ => [37, 115]
  | .percent => [37, 37]

def Piece.args : Piece → List Arg
  | .int n => [.int n]
  | .str s => [.str s]
  | _ => []

def Piece.expansion : Piece → List UInt8
  | .plain c => [c]
  | .int n => numeral 10 n
  | .str s => s
  | .percent => [37]

/-- What a format, an `int` and a C string can be. -/
def Piece.Valid : Piece → Prop
  | .plain c => c ≠ 37 ∧ c ≠ 0
  | .int n => -2147483648 ≤ n ∧ n < 2147483648
  | .str s => 0 ∉ s
  | .percent => True

def PrintsRight (pieces : List Piece) : Prop :=
  vfprintf (pieces.flatMap Piece.format) (pieces.flatMap Piece.args) =
    some (((pieces.flatMap Piece.expansion).length : Int), pieces.flatMap Piece.expansion)

def Piece.Printable : Piece → Prop
  | .plain c => c < 128
  | .int n => 0 ≤ n
  | .str s => s.length < 256
  | .percent => True

/-! The start and the end of a program under minicrt: the command line of `mini_crt_entry` on
Windows, and the exit handlers of `atexit.c`. -/

section
/-- The entries of `char* argv[16]` that are in use. A store behind the last one is undefined. -/
def storeArg (argv : List Nat) (arg : Nat) : Option (List Nat) :=
  if argv.length < 16 then some (argv ++ [arg]) else none

def unquote (line : List UInt8) : List UInt8 := line.map fun c => if c = 34 then 32 else c

def wordStarts : List UInt8 → Bool
  | [] => false
  | c :: _ => c ≠ 32

def splitLoop : List UInt8 → List UInt8 → List Nat → Option (List UInt8 × List Nat)
  | [], done, argv => some (done, argv)
  | c :: rest, done, argv =>
    if c = 32 then
      (if wordStarts rest then storeArg argv (done.length + 1) else some argv).bind (splitLoop rest (done ++ [0]))
    else splitLoop rest (done ++ [c]) argv

def miniCrtEntry (line : List UInt8) : Option (List UInt8 × List Nat) := splitLoop (unquote line) [] [0]

def cString (mem : List UInt8) (ptr : Nat) : List UInt8 := (mem.drop ptr).takeWhile (· ≠ 0)

def words (line : List UInt8) : List (List UInt8) := ((unquote line).splitOnP (· = 32)).filter (· ≠ [])

def ArgvRight (line : List UInt8) : Prop :=
  ∃ mem argv, miniCrtEntry line = some (mem, argv) ∧ argv.map (cString mem) = words line

structure FuncNode where
  func : Nat
  arg : Nat
  isCxa : Bool
  next : Nat

/-- A call of `atexit` or of `__cxa_atexit`, with a function that is not NULL if it succeeds. -/
inductive Registration where
  | atexit (func : Nat)
  | cxaAtexit (func arg : Nat)
deriving DecidableEq

def Registration.func : Registration → Nat
  | .atexit func => func
  | .cxaAtexit func _ => func

inductive Event where
  | register (r : Registration) (node : Nat)
  | call (r : Registration)
  | free (node : Nat)
  | next (node : Nat)
deriving DecidableEq

abbrev Events := List Event

def live : Events → List Nat
  | [] => []
  | .register _ node :: events => node :: live events
  | .free node :: events => (live events).erase node
  | _ :: events => live events

structure Program where
  malloc : Events → Nat
  body : List Registration → List Registration

structure Exit where
  atexitList : Nat
  nodes : Nat → Option FuncNode
  events : Events

variable (program : Program)

def registration (func arg : Nat) (isCxa : Bool) : Registration := if isCxa then .cxaAtexit func arg else .atexit func

def registerAtexit (func arg : Nat) (isCxa : Bool) (s : Exit) : Exit × Int :=
  if func = 0 then (s, -1)
  else
    let ptr := program.malloc s.events
    if ptr = 0 then (s, -1)
    else
      (⟨ptr, Function.update s.nodes ptr (some ⟨func, arg, isCxa, s.atexitList⟩), .register (registration func arg isCxa) ptr :: s.events⟩, 0)

def register (s : Exit) : Registration → Exit
  | .atexit func => (registerAtexit program func 0 false s).1
  | .cxaAtexit func arg => (registerAtexit program func arg true s).1

def FuncNode.registration (node : FuncNode) : Registration := Minicrt.registration node.func node.arg node.isCxa

/-- The loop, for at most `fuel` rounds. `free` writes to headers only: the node that it freed still
has its `next`. -/
def exitLoop : Nat → List Registration → Exit → Nat → Option Exit
  | 0, _, _, _ => none
  | fuel + 1, calls, s, p =>
    if p = 0 then some { s with atexitList := 0 }
    else
      (s.nodes p).bind fun node =>
        let calls := calls ++ [node.registration]
        let s := (program.body calls).foldl (register program) { s with events := .call node.registration :: s.events }
        (s.nodes p).bind fun node => exitLoop fuel calls { s with events := .next p :: .free p :: s.events } node.next

def miniCrtCallExitRoutine (s : Exit) : Option Exit := exitLoop program (s.events.length + 1) [] s s.atexitList

def exitRun (rs : List Registration) : Option Exit :=
  miniCrtCallExitRoutine program (rs.foldl (register program) ⟨0, fun _ => none, []⟩)

def pending : Events → Option (List Registration)
  | [] => some []
  | .register r _ :: events => (pending events).map (r :: ·)
  | .call r :: events => (pending events).bind fun rs => if rs.head? = some r then some rs.tail else none
  | _ :: events => pending events

def LinksLive : Events → Prop
  | [] => True
  | .next node :: events => node ∈ live events ∧ LinksLive events
  | _ :: events => LinksLive events

/-- All registrations succeed: no function is NULL, and `malloc` returns a block that is not in use. -/
structure Successful (rs : List Registration) : Prop where
  some : ∀ r ∈ rs, r.func ≠ 0
  later : ∀ calls, ∀ r ∈ program.body calls, r.func ≠ 0
  fresh : ∀ events, program.malloc events ≠ 0 ∧ program.malloc events ∉ live events

def QuietFrom : List Registration → List Registration → Prop
  | _, [] => True
  | calls, r :: rest => program.body (calls ++ [r]) = [] ∧ QuietFrom (calls ++ [r]) rest

def Quiet (rs : List Registration) : Prop := QuietFrom program [] rs.reverse

end

end Cplusplus.Minicrt
