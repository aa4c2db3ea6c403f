import Cplusplus.Proofs.CheckAofAgree
import Cplusplus.Proofs.IntegerText

/-! The file that the server writes, cut at any byte. -/

namespace Cplusplus.Redis.CheckAof

open List

section
variable {limit : Nat} {text front : List UInt8} {argc : Int} {argv : Argv} {mark : UInt8} {value : Int} {line arg : List UInt8}

def Cut (front text : List UInt8) : Prop := ∃ missing, missing ≠ [] ∧ text = front ++ missing

theorem Cut.append {left right : List UInt8} (cut : Cut front (left ++ right)) :
    Cut front left ∨ ∃ more, front = left ++ more ∧ Cut more right := by
  obtain ⟨missing, present, same⟩ := cut
  rcases append_eq_append_iff.mp same with ⟨more, rfl, rfl⟩ | ⟨more, rfl, rfl⟩
  · exact .inr ⟨more, rfl, missing, present, rfl⟩
  · cases more with
    | nil => exact .inr ⟨[], by simp, right, present, rfl⟩
    | cons c more => exact .inl ⟨c :: more, cons_ne_nil _ _, rfl⟩

theorem Cut.length (cut : Cut front text) : front.length < text.length := by
  obtain ⟨missing, present, rfl⟩ := cut
  have positive := length_pos_iff.mpr present
  rw [length_append]
  omega

theorem readLine_last {n : Nat} {fp front back : List UInt8} (split : (readLine n fp).1 = front ++ back) (newline : 10 ∈ front) :
    back = [] := by
  induction n generalizing fp front with
  | zero =>
    rw [readLine] at split
    exact (append_eq_nil_iff.mp split.symm).2
  | succ n ih =>
    cases fp with
    | nil =>
      rw [readLine] at split
      exact (append_eq_nil_iff.mp split.symm).2
    | cons c fp =>
      cases front with
      | nil => exact absurd newline not_mem_nil
      | cons d front =>
        rw [readLine] at split
        split at split
        next =>
          obtain ⟨-, rest⟩ := cons.inj split
          exact (append_eq_nil_iff.mp rest.symm).2
        next other =>
          obtain ⟨rfl, rest⟩ := cons.inj split
          exact ih rest (by simpa [Ne.symm other] using newline)

theorem readLine_length (n : Nat) (fp : List UInt8) : (readLine n fp).1.length ≤ n := by
  induction n generalizing fp with
  | zero => exact Nat.le_refl 0
  | succ n ih =>
    cases fp with
    | nil => exact Nat.zero_le _
    | cons c fp =>
      rw [readLine]
      split
      next => simp
      next => exact Nat.succ_le_succ (ih fp)

theorem readLine_short {n : Nat} {fp : List UInt8} (absent : 10 ∉ fp) (short : fp.length ≤ n) : readLine n fp = (fp, []) := by
  induction n generalizing fp with
  | zero =>
    obtain rfl := length_eq_zero_iff.mp (Nat.le_zero.mp short)
    rfl
  | succ n ih =>
    cases fp with
    | nil => rfl
    | cons c fp =>
      have other : c ≠ 10 := fun same => absent (by simp [same])
      rw [readLine, if_neg other, ih (fun member => absent (by simp [member])) (by simpa using short)]

theorem Line.cut (parsed : Line line mark value) (cut : Cut front line) : 10 ∉ front ∧ front.length ≤ 127 := by
  obtain ⟨missing, present, rfl⟩ := cut
  have read := parsed.read []
  rw [fgets, if_neg (by simp [present]), Option.some.injEq] at read
  have line := congrArg Prod.fst read
  have long := readLine_length 127 (front ++ missing ++ [])
  simp only at line
  refine ⟨fun newline => present (readLine_last line newline), ?_⟩
  rw [line, length_append] at long
  omega

theorem fgets_cut (parsed : Line line mark value) (cut : Cut front line) (more : front ≠ []) : fgets 128 front = some (front, []) := by
  obtain ⟨absent, short⟩ := parsed.cut cut
  rw [fgets, if_neg (by simp [more]), readLine_short absent short]

theorem readLong_cut (parsed : Line line mark value) (cut : Cut front line) : readLong front mark = none := by
  cases found : readLong front mark with
  | none => rfl
  | some result =>
    obtain ⟨other, same, again⟩ := readLong_line found
    obtain ⟨absent, -⟩ := parsed.cut cut
    obtain ⟨start, suffix⟩ := strtol_suffix other.tail
    have newline : 10 ∈ other.tail := by
      rw [suffix]
      exact mem_append_right _ (consumeNewline_mem again.newline)
    exact absurd (same ▸ mem_append_left _ (mem_of_mem_tail newline)) absent

theorem Cut.head (cut : Cut front line) (more : front ≠ []) : front.head? = line.head? := by
  obtain ⟨missing, -, rfl⟩ := cut
  obtain ⟨c, rest, rfl⟩ := exists_cons_of_ne_nil more
  rfl

theorem Bulk.cut (bulk : Bulk limit text arg) (cut : Cut front text) : CheckAof.readString limit front = .stop := by
  obtain ⟨line, parsed, rfl⟩ := bulk.parts
  have fits := bulk.fits
  rcases cut.append with inner | ⟨more, rfl, inner⟩
  · rw [CheckAof.readString, readLong_cut parsed inner]
  · have short := inner.length
    rw [length_append, length_cons, length_singleton] at short
    rw [CheckAof.readString, parsed.readLong]
    simp only [Int.toNat_natCast]
    rw [if_neg (by omega), if_pos short]

theorem Bulks.cut (bulks : Bulks limit text argv) (cut : Cut front text) (i : Nat) (few : i + argv.length < 2 ^ 31) (multi : Bool) :
    CheckAof.readArgs limit argv.length i multi front = .stop := by
  induction bulks generalizing front i multi with
  | nil =>
    obtain ⟨missing, present, same⟩ := cut
    exact absurd (append_eq_nil_iff.mp same.symm).2 present
  | cons bulk bulks ih =>
    rw [length_cons] at few ⊢
    rw [CheckAof.readArgs]
    rcases cut.append with inner | ⟨more, rfl, inner⟩
    · rw [bulk.cut inner]
    · rw [bulk.readString]
      simp only
      split
      next => rfl
      next after _ =>
        rw [if_neg (by omega), ih inner (i + 1) (by omega)]

theorem Bulks.loadArgs_cut (bulks : Bulks limit text argv) (cut : Cut front text) :
    ∃ error, CheckAof.loadArgs argv.length front = .error error := by
  induction bulks generalizing front with
  | nil =>
    obtain ⟨missing, present, same⟩ := cut
    exact absurd (append_eq_nil_iff.mp same.symm).2 present
  | cons bulk bulks ih =>
    obtain ⟨line, parsed, rfl⟩ := bulk.parts
    rw [length_cons, CheckAof.loadArgs]
    rw [append_assoc] at cut
    rcases cut.append with inner | ⟨more, rfl, inner⟩
    · by_cases empty : front = []
      · subst empty
        exact ⟨.readerr, rfl⟩
      · rw [fgets_cut parsed inner empty]
        simp only [inner.head empty, parsed.head]
        rw [if_neg (by simp)]
        split
        · exact ⟨_, rfl⟩
        · exact ⟨.readerr, by rw [if_pos (by simp)]⟩
    · rw [parsed.read]
      simp only [parsed.head, parsed.number, Int.toNat_natCast]
      rw [if_neg (by simp), if_neg (by omega)]
      rcases inner.append with short' | ⟨rest, rfl, last⟩
      · have short := short'.length
        rw [length_append, length_cons, length_singleton] at short
        exact ⟨.readerr, by rw [if_pos short]⟩
      · obtain ⟨error, failed⟩ := ih last
        refine ⟨error, ?_⟩
        rw [if_neg (by simp), ← drop_drop, append_assoc, drop_left]
        simp only [cons_append, nil_append, drop_succ_cons, drop_zero, failed]

theorem CommandText.cut (command : CommandText limit text argc argv) (cut : Cut front text) (multi : Bool) :
    readArgc front = none ∨ ∃ count rest, readArgc front = some (count, rest) ∧ CheckAof.readArgs limit count.toNat 0 multi rest = .stop := by
  have few := command.few
  have length := command.length
  obtain ⟨line, more, parsed, bulks, rfl⟩ := command.parts
  rcases cut.append with inner | ⟨rest, rfl, inner⟩
  · exact .inl (readLong_cut parsed inner)
  · refine .inr ⟨argc, rest, parsed.readLong rest, ?_⟩
    rw [← length]
    exact bulks.cut inner 0 (by omega) multi

theorem CommandText.loadCommand_cut (command : CommandText limit text argc argv) (positive : 1 ≤ argc) (cut : Cut front text) :
    ∃ error, CheckAof.loadCommand front = .error error := by
  have few := command.few
  have length := command.length
  have exact' : (BitVec.ofInt 32 argc).toInt = argc := by
    rw [BitVec.toInt_ofInt]
    apply Int.bmod_eq_of_le <;> omega
  obtain ⟨line, more, parsed, bulks, rfl⟩ := command.parts
  rw [CheckAof.loadCommand]
  rcases cut.append with inner | ⟨rest, rfl, inner⟩
  · by_cases empty : front = []
    · subst empty
      exact ⟨.readerr, rfl⟩
    · rw [fgets_cut parsed inner empty]
      simp only [inner.head empty, parsed.head]
      rw [if_neg (by simp)]
      split
      · exact ⟨_, rfl⟩
      · split
        · exact ⟨_, rfl⟩
        · obtain ⟨left, same⟩ := Nat.exists_eq_succ_of_ne_zero
            (show (BitVec.ofInt 32 (strtol front.tail).1).toInt.toNat ≠ 0 by omega)
          rw [same]
          exact ⟨.readerr, rfl⟩
  · obtain ⟨error, failed⟩ := bulks.loadArgs_cut inner
    refine ⟨error, ?_⟩
    rw [parsed.read]
    simp only [parsed.head, parsed.number, exact']
    rw [if_neg (by simp), if_neg parsed.tail_head, if_neg (by omega), ← length, failed]

variable {commands : List (Int × Argv)}

def Remnant (limit : Nat) (front : List UInt8) : Prop :=
  front = [] ∨ front ≠ [] ∧ ∃ text argc argv, CommandText limit text argc argv ∧ 1 ≤ argc ∧ Cut front text

theorem Texts.take (texts : Texts limit text commands) (positive : ∀ command ∈ commands, 1 ≤ command.1) (n : Nat) :
    ∃ whole remnant kept, text.take n = whole ++ remnant ∧ Texts limit whole kept ∧ kept <+: commands ∧ Remnant limit remnant := by
  induction texts generalizing n with
  | nil => exact ⟨[], [], [], by simp, .nil, prefix_refl _, .inl rfl⟩
  | @cons text more argc argv commands command texts ih =>
    rcases Nat.lt_or_ge n text.length with inside | beyond
    · refine ⟨[], text.take n, [], ?_, .nil, nil_prefix, ?_⟩
      · rw [take_append_of_le_length (Nat.le_of_lt inside), nil_append]
      · by_cases empty : text.take n = []
        · exact .inl empty
        · refine .inr ⟨empty, text, argc, argv, command, positive (argc, argv) (by simp), text.drop n, ?_, ?_⟩
          · intro none
            rw [drop_eq_nil_iff] at none
            omega
          · exact (take_append_drop n text).symm
    · obtain ⟨whole, remnant, kept, same, found, earlier, rest⟩ :=
        ih (fun command member => positive command (by simp [member])) (n - text.length)
      refine ⟨text ++ whole, remnant, (argc, argv) :: kept, ?_, .cons command found, ?_, rest⟩
      · rw [take_append, take_of_length_le beyond, same, append_assoc]
      · exact (prefix_cons_inj _).mpr earlier

variable {remnant : List UInt8}

theorem Texts.unique {others : List (Int × Argv)} (texts : Texts limit text commands)
    (again : Texts limit (text ++ remnant) others) (rest : Remnant limit remnant) : remnant = [] ∧ others = commands := by
  induction texts generalizing others with
  | nil =>
    rw [nil_append] at again
    rcases again.inv with ⟨rfl, rfl⟩ | ⟨first, more, argc, argv, others, rfl, rfl, command, _⟩
    · exact ⟨rfl, rfl⟩
    · rcases rest with empty | ⟨_, text, argc', argv', whole, _, missing, present, same⟩
      · exact absurd (append_eq_nil_iff.mp empty).1 command.ne_nil
      · have equal : first ++ (more ++ missing) = text ++ [] := by rw [same, append_nil, append_assoc]
        obtain ⟨-, none, -⟩ := command.unique whole equal
        exact absurd (append_eq_nil_iff.mp none).2 present
  | @cons text more argc argv commands command texts ih =>
    rw [append_assoc] at again
    rcases again.inv with ⟨empty, rfl⟩ | ⟨first, more', argc', argv', others, same, rfl, command', later⟩
    · exact absurd (append_eq_nil_iff.mp empty).1 command.ne_nil
    · obtain ⟨rfl, rfl, rfl, rfl⟩ := command.unique command' same
      obtain ⟨none, rfl⟩ := ih later
      exact ⟨none, rfl⟩

theorem loadLoop_remnant {read : List Argv} {fuel : Nat} (texts : Texts limit text commands)
    (positive : ∀ command ∈ commands, 1 ≤ command.1) (rest : Remnant limit remnant)
    (loaded : CheckAof.loadLoop fuel (text ++ remnant) = .ok read) : remnant = [] := by
  induction texts generalizing fuel read with
  | nil =>
    rcases rest with empty | ⟨more, text, argc, argv, command, counted, cut⟩
    · exact empty
    · obtain ⟨error, failed⟩ := command.loadCommand_cut counted cut
      rw [nil_append] at loaded
      cases fuel with
      | zero =>
        rw [CheckAof.loadLoop, if_neg (by simp [more])] at loaded
        cases loaded
      | succ fuel =>
        rw [CheckAof.loadLoop, if_neg (by simp [more]), failed] at loaded
        cases loaded
  | @cons text more argc argv commands command texts ih =>
    rw [append_assoc] at loaded
    cases fuel with
    | zero =>
      rw [CheckAof.loadLoop, if_neg (by simp [command.ne_nil])] at loaded
      cases loaded
    | succ fuel =>
      rw [CheckAof.loadLoop, if_neg (by simp [command.ne_nil]), command.loadCommand (positive (argc, argv) (by simp))] at loaded
      simp only at loaded
      cases later : CheckAof.loadLoop fuel (more ++ remnant) with
      | error error =>
        rw [later] at loaded
        cases loaded
      | ok more' => exact ih (fun command member => positive command (by simp [member])) later

theorem processLoop_reports {fuel size pos : Nat} {multi : Bool} {valid read : List Argv}
    (texts : Texts limit text commands) (rest : Remnant limit remnant) (enough : (text ++ remnant).length < fuel) :
    ∃ result, processLoop limit size fuel multi pos valid read (text ++ remnant) = some result := by
  induction texts generalizing fuel multi pos valid read with
  | nil =>
    obtain ⟨fuel, rfl⟩ := Nat.exists_eq_succ_of_ne_zero (show fuel ≠ 0 by omega)
    rw [nil_append, processLoop]
    rcases rest with rfl | ⟨_, text, argc, argv, command, counted, cut⟩
    · exact ⟨_, rfl⟩
    · rcases command.cut cut multi with none | ⟨count, middle, found, stopped⟩
      · rw [none]
        exact ⟨_, rfl⟩
      · rw [found]
        simp only [stopped]
        exact ⟨_, rfl⟩
  | @cons text more argc argv commands command texts ih =>
    have present := length_pos_iff.mpr command.ne_nil
    have few := command.few
    have length := command.length
    simp only [length_append] at enough
    obtain ⟨fuel, rfl⟩ := Nat.exists_eq_succ_of_ne_zero (show fuel ≠ 0 by omega)
    obtain ⟨line, args, parsed, bulks, rfl⟩ := command.parts
    rw [processLoop]
    simp only [append_assoc, readArgc, parsed.readLong]
    rw [← length, bulks.readCommand (by omega)]
    cases afterCommand strcasecmp multi argv with
    | none => exact ⟨_, rfl⟩
    | some after =>
      apply ih
      simp only [length_append] at present enough ⊢
      omega

end

/-! The checker against the loader, for any file and for the files of the server. -/

section
open Cplusplus.Decimal

variable {limit : Nat} {argv : Argv} {b : List UInt8}

theorem readLine_front {n : Nat} {front : List UInt8} (absent : 10 ∉ front) (short : front.length < n) (t : List UInt8) :
    readLine n (front ++ 10 :: t) = (front ++ [10], t) := by
  induction n generalizing front with
  | zero => exact absurd short (Nat.not_lt_zero _)
  | succ n ih =>
    cases front with
    | nil => rfl
    | cons c front =>
      have other : c ≠ 10 := fun same => absent (by simp [same])
      rw [cons_append, readLine, if_neg other, ih (fun member => absent (by simp [member])) (by simpa using short)]
      rfl

theorem line_written {mark : UInt8} (other : mark ≠ 10) {n : Nat} (bound : n < 2 ^ 63) : Line (mark :: ll2string 31 n ++ [13, 10]) mark n := by
  have text : ll2string 31 n = decimal n := by
    rw [ll2string_roomy (by omega) (by omega), numeral, if_neg (by omega), nil_append, Int.natAbs_natCast]
  have short : (decimal n).length ≤ 19 := by
    rw [decimal, length_map, Nat.length_toDigits_le_iff (by decide) (by decide)]
    omega
  have absent : 10 ∉ mark :: decimal n ++ [13] := by
    simp only [cons_append, mem_cons, mem_append, not_mem_nil, or_false, not_or]
    refine ⟨other.symm, fun member => ?_, by decide⟩
    exact absurd (decimal_digits n 10 member) (by decide)
  rw [text]
  refine ⟨fun t => ?_, rfl, ?_, ?_⟩
  · have read := readLine_front absent (show (mark :: decimal n ++ [13]).length < 127 by simp; omega) t
    rw [fgets, if_neg (by simp)]
    simpa using congrArg some read
  · rw [cons_append, tail_cons, strtol_decimal bound]
  · rw [cons_append, tail_cons, strtol_decimal bound]
    rfl

/-- A command as it is appended to the file: it has a name, the name has no zero byte, and the
sizes are those of the types and of the memory. -/
structure Written (limit : Nat) (argv : Argv) : Prop where
  named : ∃ name args, argv = name :: args ∧ 0 ∉ name
  few : argv.length < 2 ^ 31
  fits : ∀ arg ∈ argv, arg.length + 2 ≤ limit ∧ arg.length + 2 < 2 ^ 63

theorem bulks_written (fits : ∀ arg ∈ argv, arg.length + 2 ≤ limit ∧ arg.length + 2 < 2 ^ 63) :
    Bulks limit (argv.map catBulk).flatten argv := by
  induction argv with
  | nil => exact .nil
  | cons arg argv ih =>
    have bounds := fits arg (by simp)
    have bulk : Bulk limit (catBulk arg) arg := by
      refine ⟨bounds, 36 :: ll2string 31 arg.length ++ [13, 10], line_written (by decide) (by omega), ?_⟩
      rw [catBulk, append_assoc _ arg]
    exact .cons bulk (ih fun arg member => fits arg (by simp [member]))

theorem Written.command (written : Written limit argv) : CommandText limit (catAppendOnlyGenericCommand argv) argv.length argv := by
  have few := written.few
  refine ⟨by omega, by simp, 42 :: ll2string 31 argv.length ++ [13, 10], (argv.map catBulk).flatten, ?_, ?_, rfl⟩
  · exact line_written (by decide) (by omega)
  · exact bulks_written written.fits

theorem Written.plain (written : Written limit argv) : PlainName argv := by
  obtain ⟨name, args, rfl, absent⟩ := written.named
  intro other same
  cases same
  have whole : cString name = name := by
    rw [cString, takeWhile_eq_self_iff]
    intro c member
    simp only [decide_eq_true_eq]
    rintro rfl
    exact absent member
  simp only [strcasecmp, exactName, whole]
  exact ⟨rfl, rfl⟩

theorem texts_written {commands : List Argv} (written : ∀ argv ∈ commands, Written limit argv) :
    Texts limit (commands.map catAppendOnlyGenericCommand).flatten (commands.map fun argv => ((argv.length : Int), argv)) := by
  induction commands with
  | nil => exact .nil
  | cons argv commands ih =>
    exact .cons (written argv (by simp)).command (ih fun argv member => written argv (by simp [member]))

/-- The loader takes the file and gets these commands from it, and every MULTI has its EXEC. -/
structure Accepted (fp : List UInt8) (commands : List Argv) : Prop where
  loads : loadAppendOnlyFile fp = .ok commands
  closed : transaction exactName false commands = some false

def Passed (limit : Nat) (b : List UInt8) (commands : List (Int × Argv)) : Prop :=
  ∃ front rest, b = front ++ rest ∧ Texts limit front commands ∧
    transaction strcasecmp false (commands.map Prod.snd) = some false

def CountsPositive (limit : Nat) (b : List UInt8) : Prop :=
  ∀ commands, Passed limit b commands → ∀ command ∈ commands, 1 ≤ command.1

/-- None is named MULTI or EXEC up to a zero byte only. -/
def NamesPlain (limit : Nat) (b : List UInt8) : Prop :=
  ∀ commands, Passed limit b commands → ∀ command ∈ commands, PlainName command.2

theorem checked_accepted {fp : List UInt8} {commands : List (Int × Argv)} {valid : List Argv} (texts : Texts limit fp commands)
    (same : commands.map Prod.snd = valid) (closed : transaction strcasecmp false valid = some false)
    (positive : ∀ command ∈ commands, 1 ≤ command.1) (plain : ∀ command ∈ commands, PlainName command.2) :
    Accepted fp valid where
  loads := by
    rw [← same]
    exact texts.loadLoop positive (Nat.le_refl _)
  closed := by
    rw [← closed]
    apply (transaction_plain _ false).symm
    intro argv member
    rw [← same] at member
    obtain ⟨command, listed, rfl⟩ := List.mem_map.mp member
    exact plain command listed

variable {pos : Nat}

theorem Checked.passed {valid : List Argv} (checked : Checked limit b pos valid) :
    ∃ commands, Texts limit (b.take pos) commands ∧ commands.map Prod.snd = valid ∧
      transaction strcasecmp false valid = some false ∧ Passed limit b commands := by
  obtain ⟨commands, texts, rfl, closed⟩ := checked
  exact ⟨commands, texts, rfl, closed, b.take pos, b.drop pos, (take_append_drop pos b).symm, texts, closed⟩

variable {found : List Argv}

theorem process_passed {front rest : List UInt8} {commands : List (Int × Argv)}
    (reported : process limit (front ++ rest) = some (pos, found)) (texts : Texts limit front commands)
    (closed : transaction strcasecmp false (commands.map Prod.snd) = some false) :
    front.length ≤ pos ∧ commands.map Prod.snd <+: found := by
  obtain ⟨above, kept⟩ := processLoop_through texts closed reported (prefix_refl []) (Nat.zero_le _)
  rw [length_append, Nat.add_sub_cancel] at above
  exact ⟨above, kept⟩

theorem process_accepted (reported : process limit b = some (pos, found))
    (counts : CountsPositive limit b) (names : NamesPlain limit b) : Accepted (b.take pos) found := by
  obtain ⟨commands, texts, same, closed, passed⟩ := (process_checked reported).passed
  exact checked_accepted texts same closed (counts commands passed) (names commands passed)

theorem accepted_counts (reported : process limit b = some (pos, found))
    (accepted : Accepted (b.take pos) found) : CountsPositive limit b := by
  rintro commands ⟨front, rest, rfl, texts, closed⟩ ⟨argc, argv⟩ member
  obtain ⟨-, earlier⟩ := process_passed reported texts closed
  have named : argv ≠ [] := by
    apply loadLoop_ne_nil accepted.loads
    exact earlier.subset (List.mem_map.mpr ⟨(argc, argv), member, rfl⟩)
  have counted : argv.length = argc.toNat := by
    clear closed earlier reported accepted
    induction texts with
    | nil => exact absurd member not_mem_nil
    | cons command texts ih =>
      rcases mem_cons.mp member with same | member
      · cases same
        exact command.length
      · exact ih member
  have positive := length_pos_iff.mpr named
  simp only
  omega

structure LongestAccepted (b : List UInt8) (pos : Nat) (found : List Argv) : Prop where
  accepted : Accepted (b.take pos) found
  longest : ∀ n ≤ b.length, ∀ commands, Accepted (b.take n) commands → n ≤ pos

theorem process_written {commands : List Argv} (written : ∀ argv ∈ commands, Written limit argv) (n : Nat) :
    ∃ pos found, process limit ((commands.map catAppendOnlyGenericCommand).flatten.take n) = some (pos, found) ∧
      LongestAccepted ((commands.map catAppendOnlyGenericCommand).flatten.take n) pos found := by
  have texts := texts_written written
  have counted : ∀ command ∈ commands.map fun argv => ((argv.length : Int), argv), 1 ≤ command.1 ∧ PlainName command.2 := by
    intro command member
    obtain ⟨argv, listed, rfl⟩ := List.mem_map.mp member
    refine ⟨?_, (written argv listed).plain⟩
    obtain ⟨name, args, rfl, -⟩ := (written argv listed).named
    simp only [length_cons]
    omega
  generalize (commands.map catAppendOnlyGenericCommand).flatten = text at texts ⊢
  generalize commands.map (fun argv => ((argv.length : Int), argv)) = commands at texts counted
  have positive : ∀ command ∈ commands, 1 ≤ command.1 := fun command member => (counted command member).1
  -- every prefix of the cut file is cut in the same way
  have parts : ∀ m, ∃ whole remnant kept, (text.take n).take m = whole ++ remnant ∧ Texts limit whole kept ∧
      (∀ command ∈ kept, 1 ≤ command.1 ∧ PlainName command.2) ∧ Remnant limit remnant := by
    intro m
    rw [take_take]
    obtain ⟨whole, remnant, kept, same, found, earlier, rest⟩ := texts.take positive (min m n)
    exact ⟨whole, remnant, kept, same, found, fun command member => counted command (earlier.subset member), rest⟩
  obtain ⟨whole, remnant, _, same, begun, _, rest⟩ := texts.take positive n
  obtain ⟨⟨pos, valid⟩, reached⟩ := processLoop_reports begun rest (Nat.lt_succ_self (whole ++ remnant).length)
  have reported : process limit (text.take n) = some (pos, valid) := by
    rw [same]
    exact reached
  refine ⟨pos, valid, reported, ?_, fun m short found accepted => ?_⟩
  · obtain ⟨others, read, equal, closed, -⟩ := (process_checked reported).passed
    obtain ⟨front, back, kept, split, inside, good, last⟩ := parts pos
    rw [split] at read ⊢
    obtain ⟨rfl, rfl⟩ := inside.unique read last
    exact checked_accepted read equal closed (fun command member => (good command member).1)
      fun command member => (good command member).2
  · obtain ⟨front, back, kept, split, inside, good, last⟩ := parts m
    have loads := accepted.loads
    rw [split] at loads
    obtain rfl := loadLoop_remnant inside (fun command member => (good command member).1) last loads
    rw [append_nil] at split loads
    have read := inside.loadLoop (fun command member => (good command member).1) (Nat.le_refl _)
    rw [loadAppendOnlyFile, read] at loads
    have closed : transaction strcasecmp false (kept.map Prod.snd) = some false := by
      rw [transaction_plain]
      · rw [Except.ok.inj loads]
        exact accepted.closed
      · intro argv member
        obtain ⟨command, listed, rfl⟩ := List.mem_map.mp member
        exact (good command listed).2
    have length : front.length = m := by
      rw [← split, length_take]
      omega
    rw [← take_append_drop m (text.take n), split] at reported
    rw [← length]
    exact (process_passed reported inside closed).1

def pingFile : List UInt8 := ([[[80, 73, 78, 71]]].map catAppendOnlyGenericCommand).flatten

def emptyCommand : List UInt8 := [42, 48, 13, 10]

end

end Cplusplus.Redis.CheckAof
