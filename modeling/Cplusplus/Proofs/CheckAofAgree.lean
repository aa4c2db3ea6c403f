import Cplusplus.CheckAof

/-! The readers of the checker and of the loader on one piece of text: a line with a number, an
argument, a command. -/

namespace Cplusplus.Redis.CheckAof

open List Option

section

variable {fp other t u : List UInt8} {multi : Bool} {fuel pos : Nat} {found : List Argv}
/-- A line is cut off the front of the file. With its newline it does not depend on what follows. -/
theorem readLine_spec (n : Nat) (fp : List UInt8) :
    fp = (readLine n fp).1 ++ (readLine n fp).2 ∧ (10 ∈ (readLine n fp).1 → ∀ t, readLine n ((readLine n fp).1 ++ t) = ((readLine n fp).1, t)) := by
  induction n generalizing fp with
  | zero => exact ⟨rfl, fun member => absurd member not_mem_nil⟩
  | succ n ih =>
    cases fp with
    | nil => exact ⟨rfl, fun member => absurd member not_mem_nil⟩
    | cons c fp =>
      obtain ⟨split, kept⟩ := ih fp
      by_cases newline : c = 10
      · subst newline
        simp only [readLine, if_true]
        exact ⟨rfl, fun _ t => rfl⟩
      · simp only [readLine, if_neg newline]
        refine ⟨congrArg (c :: ·) split, fun member t => ?_⟩
        rw [cons_append, readLine, if_neg newline, kept (by simpa [Ne.symm newline] using member) t]

structure Line (line : List UInt8) (mark : UInt8) (value : Int) : Prop where
  read : ∀ t, fgets 128 (line ++ t) = some (line, t)
  head : line.head? = some mark
  number : (strtol line.tail).1 = value
  newline : consumeNewline (strtol line.tail).2 = true

variable {line text : List UInt8} {mark : UInt8} {value : Int}

theorem Line.ne_nil (parsed : Line line mark value) : line ≠ [] := by
  rintro rfl
  exact absurd parsed.head (some_ne_none _).symm

theorem Line.readLong (parsed : Line line mark value) (t : List UInt8) : readLong (line ++ t) mark = some (value, t) := by
  rw [CheckAof.readLong, parsed.read]
  have head := parsed.head
  have number := parsed.number
  have newline := parsed.newline
  cases line with
  | nil => exact absurd rfl parsed.ne_nil
  | cons c buf =>
    simp only [head?_cons, some.injEq, tail_cons] at head number newline
    simp only [head, newline, number, and_self, if_true]

theorem strtol_suffix (s : List UInt8) : ∃ front, s = front ++ (strtol s).2 := by
  have signed : ∀ t, ∃ front, t = front ++ (strtolSign t).2 := by
    intro t
    cases t with
    | nil => exact ⟨[], rfl⟩
    | cons c t =>
      rw [strtolSign]
      split
      next minus => exact ⟨[c], rfl⟩
      next =>
        split
        next plus => exact ⟨[c], rfl⟩
        next => exact ⟨[], rfl⟩
  simp only [strtol]
  split
  next => exact ⟨[], rfl⟩
  next =>
    obtain ⟨sign, split⟩ := signed (s.dropWhile isspace)
    refine ⟨s.takeWhile isspace ++ sign ++ ((strtolSign (s.dropWhile isspace)).2).takeWhile isDigit, ?_⟩
    rw [append_assoc, append_assoc, takeWhile_append_dropWhile, ← split, takeWhile_append_dropWhile]

theorem consumeNewline_mem {buf : List UInt8} (newline : consumeNewline buf = true) : 10 ∈ buf := by
  rw [consumeNewline, decide_eq_true_eq] at newline
  apply mem_of_mem_take (i := 2)
  rw [newline]
  simp

variable {rest : List UInt8}

theorem readLong_line (accepted : readLong fp mark = some (value, rest)) : ∃ line, fp = line ++ rest ∧ Line line mark value := by
  rw [CheckAof.readLong] at accepted
  split at accepted
  next => exact absurd accepted (some_ne_none _).symm
  next => exact absurd accepted (some_ne_none _).symm
  next c buf after found =>
    split at accepted
    next good =>
      obtain ⟨rfl, newline⟩ := good
      cases accepted
      rw [fgets] at found
      split at found
      next => exact absurd found (some_ne_none _).symm
      next more =>
        have same := some.inj found
        obtain ⟨split, kept⟩ := readLine_spec 127 fp
        rw [same] at split kept
        obtain ⟨front, suffix⟩ := strtol_suffix buf
        have member : 10 ∈ c :: buf := by
          rw [suffix]
          exact mem_cons_of_mem _ (mem_append_right _ (consumeNewline_mem newline))
        refine ⟨c :: buf, split, ⟨fun t => ?_, rfl, rfl, newline⟩⟩
        rw [fgets, if_neg (by simp)]
        exact congrArg some (kept member t)
    next => exact absurd accepted (some_ne_none _).symm

theorem Line.unique {value' : Int} (first : Line line mark value) (second : Line other mark value')
    (same : line ++ t = other ++ u) : line = other ∧ t = u ∧ value = value' := by
  have read := first.read t
  rw [same, second.read u] at read
  cases read
  exact ⟨rfl, rfl, first.number.symm.trans second.number⟩

structure Bulk (limit : Nat) (text arg : List UInt8) : Prop where
  fits : arg.length + 2 ≤ limit ∧ arg.length + 2 < 2 ^ 63
  parts : ∃ line, Line line 36 arg.length ∧ text = line ++ (arg ++ [13, 10])

variable {limit : Nat} {arg : List UInt8}

theorem Bulk.readString (bulk : Bulk limit text arg) (t : List UInt8) : readString limit (text ++ t) = .ok arg t := by
  obtain ⟨line, parsed, rfl⟩ := bulk.parts
  have fits := bulk.fits
  rw [append_assoc, CheckAof.readString, parsed.readLong]
  simp only [Int.toNat_natCast, append_assoc]
  rw [if_neg (by omega), if_neg (by simp), if_pos (by simp [consumeNewline])]
  rw [take_left, ← drop_drop, drop_left]
  rfl

theorem readString_bulk (accepted : readString limit fp = .ok arg rest) : ∃ text, fp = text ++ rest ∧ Bulk limit text arg := by
  rw [CheckAof.readString] at accepted
  split at accepted
  next => cases accepted
  next len after found =>
    obtain ⟨line, rfl, parsed⟩ := readLong_line found
    split at accepted
    next => cases accepted
    next fits =>
      split at accepted
      next => cases accepted
      next long =>
        split at accepted
        next newline =>
          cases accepted
          rw [consumeNewline, decide_eq_true_eq] at newline
          have length : (after.take len.toNat).length = len.toNat := by
            rw [length_take]
            omega
          refine ⟨line ++ (after.take len.toNat ++ [13, 10]), ?_, ⟨by omega, line, ?_, rfl⟩⟩
          · rw [← newline, append_assoc, append_assoc, ← drop_drop, take_append_drop,
              take_append_drop]
          · rw [length, Int.toNat_of_nonneg (by omega)]
            exact parsed
        next => cases accepted

theorem Bulk.loadArgs (bulk : Bulk limit text arg) (left : Nat) {after : List UInt8} {argv : Argv}
    (loaded : loadArgs left t = .ok (argv, after)) : loadArgs (left + 1) (text ++ t) = .ok (arg :: argv, after) := by
  obtain ⟨line, parsed, rfl⟩ := bulk.parts
  rw [append_assoc, CheckAof.loadArgs, parsed.read]
  simp only [parsed.head, parsed.number, Int.toNat_natCast, append_assoc]
  rw [if_neg (by simp), if_neg (by omega), if_neg (by simp), ← drop_drop, drop_left, take_left]
  simp only [cons_append, nil_append, drop_succ_cons, drop_zero, loaded]

theorem Bulk.unique {arg' : List UInt8} (first : Bulk limit text arg) (second : Bulk limit other arg')
    (same : text ++ t = other ++ u) : text = other ∧ t = u ∧ arg = arg' := by
  obtain ⟨line, parsed, rfl⟩ := first.parts
  obtain ⟨line', parsed', rfl⟩ := second.parts
  simp only [append_assoc] at same
  obtain ⟨rfl, rest, equal⟩ := parsed.unique parsed' same
  have length : arg.length = arg'.length := by omega
  obtain ⟨rfl, after⟩ := append_inj rest length
  exact ⟨rfl, append_cancel_left after, rfl⟩

inductive Bulks (limit : Nat) : List UInt8 → Argv → Prop where
  | nil : Bulks limit [] []
  | cons {text arg more : List UInt8} {argv : Argv} (bulk : Bulk limit text arg) (bulks : Bulks limit more argv) :
      Bulks limit (text ++ more) (arg :: argv)

variable {argv : Argv}

theorem Bulks.loadArgs (bulks : Bulks limit text argv) (t : List UInt8) : loadArgs argv.length (text ++ t) = .ok (argv, t) := by
  induction bulks with
  | nil => rfl
  | cons bulk bulks ih =>
    rw [append_assoc, length_cons]
    exact bulk.loadArgs _ ih

theorem Bulks.unique {argv' : Argv} (first : Bulks limit text argv) (second : Bulks limit other argv')
    (length : argv.length = argv'.length) (same : text ++ t = other ++ u) : text = other ∧ t = u ∧ argv = argv' := by
  induction first generalizing other argv' with
  | nil =>
    cases second with
    | nil => exact ⟨rfl, same, rfl⟩
    | cons => simp at length
  | cons bulk bulks ih =>
    cases second with
    | nil => simp at length
    | cons bulk' bulks' =>
      simp only [append_assoc] at same
      obtain ⟨rfl, rest, rfl⟩ := bulk.unique bulk' same
      obtain ⟨rfl, rest, rfl⟩ := ih bulks' (by simpa using length) rest
      exact ⟨rfl, rest, rfl⟩

theorem Bulks.readArgs (bulks : Bulks limit text argv) {i : Nat} (few : i + argv.length < 2 ^ 31) (later : i ≠ 0)
    (t : List UInt8) : readArgs limit argv.length i multi (text ++ t) = .ok (multi, argv) t := by
  induction bulks generalizing i with
  | nil => rfl
  | cons bulk bulks ih =>
    rw [length_cons] at few
    rw [append_assoc, length_cons, CheckAof.readArgs, bulk.readString]
    simp only [if_neg later]
    rw [if_neg (by omega), ih (by omega) (by omega)]

theorem readArgs_bulks {left i : Nat} {after : Bool} (accepted : readArgs limit left i multi fp = .ok (after, argv) rest) (later : i ≠ 0)
    (small : i < 2 ^ 31) : ∃ text, fp = text ++ rest ∧ Bulks limit text argv ∧ argv.length = left ∧ after = multi ∧ i + left < 2 ^ 31 := by
  induction left generalizing i fp argv with
  | zero =>
    rw [CheckAof.readArgs] at accepted
    cases accepted
    exact ⟨[], rfl, .nil, rfl, rfl, small⟩
  | succ left ih =>
    rw [CheckAof.readArgs] at accepted
    cases found : readString limit fp with
    | fault => rw [found] at accepted; cases accepted
    | stop => rw [found] at accepted; cases accepted
    | ok str middle =>
      obtain ⟨text, rfl, bulk⟩ := readString_bulk found
      rw [found] at accepted
      simp only [if_neg later] at accepted
      split at accepted
      next => cases accepted
      next =>
        cases more : CheckAof.readArgs limit left (i + 1) multi middle with
        | fault => rw [more] at accepted; cases accepted
        | stop => rw [more] at accepted; cases accepted
        | ok result last =>
          obtain ⟨final, argv'⟩ := result
          rw [more] at accepted
          cases accepted
          obtain ⟨text', rfl, bulks, length, same, few⟩ := ih more (Nat.succ_ne_zero i) (by omega)
          exact ⟨text ++ text', (append_assoc ..).symm, .cons bulk bulks, by simp [length], same, by omega⟩

structure CommandText (limit : Nat) (text : List UInt8) (argc : Int) (argv : Argv) : Prop where
  few : argc < 2 ^ 31
  length : argv.length = argc.toNat
  parts : ∃ line more, Line line 42 argc ∧ Bulks limit more argv ∧ text = line ++ more

variable {argc : Int}

theorem CommandText.ne_nil (command : CommandText limit text argc argv) : text ≠ [] := by
  obtain ⟨line, more, parsed, bulks, rfl⟩ := command.parts
  simp [parsed.ne_nil]

theorem CommandText.unique {argc' : Int} {argv' : Argv} (first : CommandText limit text argc argv)
    (second : CommandText limit other argc' argv') (same : text ++ t = other ++ u) :
    text = other ∧ t = u ∧ argc = argc' ∧ argv = argv' := by
  obtain ⟨line, more, parsed, bulks, rfl⟩ := first.parts
  obtain ⟨line', more', parsed', bulks', rfl⟩ := second.parts
  simp only [append_assoc] at same
  obtain ⟨rfl, rest, rfl⟩ := parsed.unique parsed' same
  obtain ⟨rfl, rest, rfl⟩ := bulks.unique bulks' (first.length.trans second.length.symm) rest
  exact ⟨rfl, rest, rfl, rfl⟩

theorem Line.tail_head (parsed : Line line mark value) : line.tail.headD 0 ≠ 0 := by
  intro zero
  have newline := parsed.newline
  cases body : line.tail with
  | nil =>
    rw [body] at newline
    exact absurd newline (by decide)
  | cons c rest =>
    rw [body, headD_cons] at zero
    subst zero
    rw [body] at newline
    exact absurd newline (by simp [strtol, strtolSign, isspace, isDigit, consumeNewline])

theorem CommandText.loadCommand (command : CommandText limit text argc argv) (positive : 1 ≤ argc) (t : List UInt8) :
    loadCommand (text ++ t) = .ok (argv, t) := by
  obtain ⟨line, more, parsed, bulks, rfl⟩ := command.parts
  have few := command.few
  have exact' : (BitVec.ofInt 32 argc).toInt = argc := by
    rw [BitVec.toInt_ofInt]
    apply Int.bmod_eq_of_le <;> omega
  rw [append_assoc, CheckAof.loadCommand, parsed.read]
  simp only [parsed.head, parsed.number, exact']
  rw [if_neg (by simp), if_neg parsed.tail_head, if_neg (by omega), ← command.length]
  exact bulks.loadArgs t

def afterCommand (same : List UInt8 → List UInt8 → Bool) (multi : Bool) : Argv → Option Bool
  | [] => some multi
  | name :: _ => nextMulti same multi name

theorem Bulks.readCommand {more : List UInt8} (bulks : Bulks limit more argv) (few : argv.length < 2 ^ 31)
    (t : List UInt8) : CheckAof.readArgs limit argv.length 0 multi (more ++ t) = match afterCommand strcasecmp multi argv with
      | some after => .ok (after, argv) t
      | none => .stop := by
  cases bulks with
  | nil => rfl
  | cons bulk bulks =>
    rw [length_cons] at few
    rw [append_assoc, length_cons, CheckAof.readArgs, bulk.readString]
    simp only [if_true, afterCommand]
    cases nextMulti strcasecmp multi _ with
    | none => rfl
    | some after =>
      simp only
      rw [if_neg (by omega), bulks.readArgs (by omega) (by omega)]

theorem readArgs_command {after : Bool} {middle rest : List UInt8} (count : readArgc fp = some (argc, middle))
    (accepted : readArgs limit argc.toNat 0 multi middle = .ok (after, argv) rest) :
    ∃ text, fp = text ++ rest ∧ CommandText limit text argc argv ∧ afterCommand strcasecmp multi argv = some after := by
  obtain ⟨line, rfl, parsed⟩ := readLong_line count
  cases number : argc.toNat with
  | zero =>
    rw [number, CheckAof.readArgs] at accepted
    cases accepted
    exact ⟨line, rfl, ⟨by omega, number.symm, line, [], parsed, .nil, (append_nil _).symm⟩, rfl⟩
  | succ left =>
    rw [number, CheckAof.readArgs] at accepted
    cases found : readString limit middle with
    | fault => rw [found] at accepted; cases accepted
    | stop => rw [found] at accepted; cases accepted
    | ok str middle' =>
      obtain ⟨text, rfl, bulk⟩ := readString_bulk found
      rw [found] at accepted
      simp only [if_true] at accepted
      split at accepted
      next => cases accepted
      next multi' allowed =>
        split at accepted
        next => cases accepted
        next =>
          cases more : CheckAof.readArgs limit left (0 + 1) multi' middle' with
          | fault => rw [more] at accepted; cases accepted
          | stop => rw [more] at accepted; cases accepted
          | ok result last =>
            obtain ⟨final, argv'⟩ := result
            rw [more] at accepted
            cases accepted
            obtain ⟨text', rfl, bulks, length, rfl, few⟩ := readArgs_bulks more (by omega) (by omega)
            refine ⟨line ++ (text ++ text'), by simp only [append_assoc], ?_, allowed⟩
            exact ⟨by omega, by simp [length, number], line, text ++ text', parsed, .cons bulk bulks, rfl⟩

end

/-! What the checker reports, and that the loader reads the same commands there. -/

section
variable {limit : Nat} {text : List UInt8} {argc : Int} {argv : Argv}

inductive Texts (limit : Nat) : List UInt8 → List (Int × Argv) → Prop where
  | nil : Texts limit [] []
  | cons {text more : List UInt8} {argc : Int} {argv : Argv} {commands : List (Int × Argv)}
      (command : CommandText limit text argc argv) (texts : Texts limit more commands) :
      Texts limit (text ++ more) ((argc, argv) :: commands)

variable {commands : List (Int × Argv)}

theorem Texts.snoc {last : List UInt8} (texts : Texts limit text commands) (command : CommandText limit last argc argv) :
    Texts limit (text ++ last) (commands ++ [(argc, argv)]) := by
  induction texts with
  | nil =>
    have single := Texts.cons command .nil
    rw [append_nil] at single
    exact single
  | cons first texts ih =>
    rw [append_assoc]
    exact .cons first ih

theorem Texts.inv (texts : Texts limit text commands) : (text = [] ∧ commands = []) ∨
    ∃ first more argc argv rest, text = first ++ more ∧ commands = (argc, argv) :: rest ∧
      CommandText limit first argc argv ∧ Texts limit more rest := by
  cases texts with
  | nil => exact .inl ⟨rfl, rfl⟩
  | cons command texts => exact .inr ⟨_, _, _, _, _, rfl, rfl, command, texts⟩

/-- The state of the transaction after a list of commands, if MULTI and EXEC take turns. -/
def transaction (same : List UInt8 → List UInt8 → Bool) (multi : Bool) : List Argv → Option Bool
  | [] => some multi
  | argv :: commands => (afterCommand same multi argv).bind fun multi => transaction same multi commands

theorem transaction_append (same : List UInt8 → List UInt8 → Bool) (multi : Bool) (front back : List Argv) :
    transaction same multi (front ++ back) = (transaction same multi front).bind fun multi => transaction same multi back := by
  induction front generalizing multi with
  | nil => rfl
  | cons argv front ih =>
    simp only [cons_append, transaction]
    cases afterCommand same multi argv with
    | none => rfl
    | some after => exact ih after

def exactName (s name : List UInt8) : Bool := s.map lower = name.map lower

def PlainName (argv : Argv) : Prop :=
  ∀ name, argv.head? = some name →
    strcasecmp name multiName = exactName name multiName ∧ strcasecmp name execName = exactName name execName

theorem transaction_plain {read : List Argv} (plain : ∀ argv ∈ read, PlainName argv) (multi : Bool) :
    transaction strcasecmp multi read = transaction exactName multi read := by
  induction read generalizing multi with
  | nil => rfl
  | cons argv read ih =>
    have same : afterCommand strcasecmp multi argv = afterCommand exactName multi argv := by
      cases argv with
      | nil => rfl
      | cons name args =>
        obtain ⟨first, second⟩ := plain (name :: args) (by simp) name rfl
        simp only [afterCommand, nextMulti, first, second]
    simp only [transaction, same]
    cases afterCommand exactName multi argv with
    | none => rfl
    | some after => exact ih (fun argv member => plain argv (by simp [member])) after

theorem Texts.loadLoop (texts : Texts limit text commands) (positive : ∀ command ∈ commands, 1 ≤ command.1)
    (enough : text.length ≤ fuel) : loadLoop fuel text = .ok (commands.map Prod.snd) := by
  induction texts generalizing fuel with
  | nil => cases fuel <;> rfl
  | @cons text more argc argv commands command texts ih =>
    have present := length_pos_iff.mpr command.ne_nil
    rw [length_append] at enough
    obtain ⟨fuel, rfl⟩ := Nat.exists_eq_succ_of_ne_zero (show fuel ≠ 0 by omega)
    rw [CheckAof.loadLoop, if_neg (by simp [command.ne_nil]), command.loadCommand (positive (argc, argv) (by simp))]
    simp only
    rw [ih (fun command member => positive command (by simp [member])) (by omega)]
    rfl

theorem loadArgs_ne_nil {left : Nat} {rest : List UInt8} (loaded : loadArgs (left + 1) fp = .ok (argv, rest)) : argv ≠ [] := by
  rw [loadArgs] at loaded
  rintro rfl
  split at loaded
  next => cases loaded
  next =>
    simp only at loaded
    split at loaded
    next => cases loaded
    next =>
      split at loaded
      next => cases loaded
      next =>
        split at loaded
        next => cases loaded
        next => split at loaded <;> cases loaded

theorem loadCommand_ne_nil {rest : List UInt8} (loaded : loadCommand fp = .ok (argv, rest)) : argv ≠ [] := by
  rw [loadCommand] at loaded
  split at loaded
  next => cases loaded
  next buf after found =>
    split at loaded
    next => cases loaded
    next =>
      split at loaded
      next => cases loaded
      next =>
        simp only at loaded
        split at loaded
        next => cases loaded
        next positive =>
          obtain ⟨left, same⟩ := Nat.exists_eq_succ_of_ne_zero
            (show (BitVec.ofInt 32 (strtol buf.tail).1).toInt.toNat ≠ 0 by omega)
          rw [same] at loaded
          exact loadArgs_ne_nil loaded

theorem loadLoop_ne_nil {read : List Argv} (loaded : loadLoop fuel fp = .ok read) : ∀ argv ∈ read, argv ≠ [] := by
  induction fuel generalizing fp read with
  | zero =>
    rw [loadLoop] at loaded
    split at loaded
    next =>
      cases loaded
      exact fun argv member => absurd member not_mem_nil
    next => cases loaded
  | succ fuel ih =>
    rw [loadLoop] at loaded
    split at loaded
    next =>
      cases loaded
      exact fun argv member => absurd member not_mem_nil
    next =>
      split at loaded
      next => cases loaded
      next argv rest first =>
        split at loaded
        next => cases loaded
        next more later =>
          cases loaded
          intro other member
          rcases mem_cons.mp member with rfl | member
          · exact loadCommand_ne_nil first
          · exact ih later other member

def Checked (limit : Nat) (b : List UInt8) (pos : Nat) (valid : List Argv) : Prop :=
  ∃ commands, Texts limit (b.take pos) commands ∧ commands.map Prod.snd = valid ∧ transaction strcasecmp false valid = some false

variable {valid read : List Argv}

theorem processLoop_checked {last : Nat} {front : List UInt8}
    (reported : processLoop limit (front ++ fp).length fuel multi pos valid read fp = some (last, found))
    (texts : Texts limit front commands) (same : commands.map Prod.snd = read) (state : transaction strcasecmp false read = some multi)
    (checked : Checked limit (front ++ fp) pos valid) : Checked limit (front ++ fp) last found := by
  induction fuel generalizing multi pos valid read front fp commands with
  | zero => exact absurd reported (some_ne_none _).symm
  | succ fuel ih =>
    have now : Checked limit (front ++ fp) (if multi then (pos, valid) else ((front ++ fp).length - fp.length, read)).1
        (if multi then (pos, valid) else ((front ++ fp).length - fp.length, read)).2 := by
      cases multi with
      | true => exact checked
      | false =>
        refine ⟨commands, ?_, same, state⟩
        simp only [Bool.false_eq_true, if_false, length_append, Nat.add_sub_cancel, take_left]
        exact texts
    rw [processLoop] at reported
    generalize (if multi then (pos, valid) else ((front ++ fp).length - fp.length, read)) = kept at now reported
    obtain ⟨pos', valid'⟩ := kept
    simp only at reported now
    split at reported
    next =>
      cases reported
      exact now
    next argc middle count =>
      split at reported
      next => exact absurd reported (some_ne_none _).symm
      next =>
        cases reported
        exact now
      next after argv rest accepted =>
        obtain ⟨text, rfl, command, next⟩ := readArgs_command count accepted
        rw [← append_assoc] at reported now ⊢
        apply ih reported (texts.snoc command) _ _ now
        · rw [map_append, same]
          rfl
        · rw [transaction_append, state, bind_some, transaction, next]
          rfl

theorem process_checked {b : List UInt8} (reported : process limit b = some (pos, found)) : Checked limit b pos found := by
  have start : Checked limit ([] ++ b) 0 [] := ⟨[], .nil, rfl, rfl⟩
  have whole : processLoop limit ([] ++ b).length (b.length + 1) false 0 [] [] b = some (pos, found) := reported
  exact processLoop_checked whole .nil rfl rfl start

theorem processLoop_kept {size last : Nat}
    (reported : processLoop limit size fuel multi pos valid read fp = some (last, found)) (earlier : valid <+: read)
    (before : pos ≤ size - fp.length) : pos ≤ last ∧ valid <+: found ∧ (multi = false → size - fp.length ≤ last ∧ read <+: found) := by
  induction fuel generalizing multi pos valid read fp with
  | zero => exact absurd reported (some_ne_none _).symm
  | succ fuel ih =>
    rw [processLoop] at reported
    have now : ∃ pos' valid', (if multi then (pos, valid) else (size - fp.length, read)) = (pos', valid') ∧ pos ≤ pos' ∧
        valid <+: valid' ∧ valid' <+: read ∧ pos' ≤ size - fp.length ∧
        (multi = false → size - fp.length ≤ pos' ∧ read <+: valid') := by
      cases multi with
      | true => exact ⟨pos, valid, rfl, Nat.le_refl _, prefix_refl _, earlier, before, fun open' => absurd open' Bool.noConfusion⟩
      | false => exact ⟨_, read, rfl, before, earlier, prefix_refl _, Nat.le_refl _, fun _ => ⟨Nat.le_refl _, prefix_refl _⟩⟩
    obtain ⟨pos', valid', same, later, more, earlier', before', closed⟩ := now
    simp only [same] at reported
    split at reported
    next =>
      cases reported
      exact ⟨later, more, closed⟩
    next argc middle count =>
      split at reported
      next => exact absurd reported (some_ne_none _).symm
      next =>
        cases reported
        exact ⟨later, more, closed⟩
      next after argv rest accepted =>
        obtain ⟨text, rfl, command, next⟩ := readArgs_command count accepted
        rw [length_append] at before'
        obtain ⟨above, kept, -⟩ := ih reported (earlier'.trans (prefix_append read [argv])) (by omega)
        exact ⟨Nat.le_trans later above, more.trans kept, fun open' => ⟨Nat.le_trans (closed open').1 above, (closed open').2.trans kept⟩⟩

theorem processLoop_through {size last : Nat} {rest : List UInt8} (texts : Texts limit text commands)
    (closed : transaction strcasecmp multi (commands.map Prod.snd) = some false)
    (reported : processLoop limit size fuel multi pos valid read (text ++ rest) = some (last, found)) (earlier : valid <+: read)
    (before : pos ≤ size - (text ++ rest).length) : size - rest.length ≤ last ∧ read ++ commands.map Prod.snd <+: found := by
  induction texts generalizing fuel multi pos valid read with
  | nil =>
    cases closed
    rw [map_nil, append_nil]
    exact (processLoop_kept reported earlier before).2.2 rfl
  | @cons text more argc argv commands command texts ih =>
    cases fuel with
    | zero => exact absurd reported (some_ne_none _).symm
    | succ fuel =>
      have few := command.few
      have length := command.length
      obtain ⟨line, args, parsed, bulks, rfl⟩ := command.parts
      rw [map_cons, transaction, bind_eq_some_iff] at closed
      obtain ⟨after, next, closed⟩ := closed
      rw [processLoop] at reported
      simp only [append_assoc, readArgc, parsed.readLong] at reported
      rw [← length, bulks.readCommand (by omega), next] at reported
      have shorter : (more ++ rest).length ≤ (line ++ args ++ more ++ rest).length := by
        simp only [length_append]
        omega
      rw [map_cons, ← singleton_append, ← append_assoc]
      cases multi with
      | true =>
        simp only [if_true] at reported
        exact ih closed reported (earlier.trans (prefix_append _ _)) (by omega)
      | false =>
        simp only [Bool.false_eq_true, if_false] at reported
        apply ih closed reported (prefix_append _ _)
        simp only [length_append]
        omega

end

end Cplusplus.Redis.CheckAof
