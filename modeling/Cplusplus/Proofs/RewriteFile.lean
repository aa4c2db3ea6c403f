import Cplusplus.Proofs.AofCommands
import Cplusplus.RewriteObjects

/-! What the loader makes of the bytes of a rewrite: a command is read back if the length of every
argument is an int, and a length that is not stops the loader. -/

namespace Cplusplus.Redis.Rewrite

open List

section
open CheckAof
open Decimal (decimal decimal_ne_nil)

theorem newline_ended : ∀ c ∈ ([13, 10] : Bytes).head?, isDigit c = false := by
  rintro c ⟨⟩
  rfl

theorem strtol_numeral {v : Int} (low : -2 ^ 63 ≤ v) (high : v < 2 ^ 63) : strtol (numeral v ++ [13, 10]) = (v, [13, 10]) := by
  rw [numeral]
  split
  next negative =>
    have whole : (decimal v.natAbs ++ [13, 10]).takeWhile isDigit = decimal v.natAbs := by
      rw [takeWhile_append_of_pos (decimal_digits _)]
      simp [newline_ended 13 rfl]
    have rest : (decimal v.natAbs ++ [13, 10]).dropWhile isDigit = [13, 10] := by
      rw [dropWhile_append_of_pos (decimal_digits _)]
      simp [newline_ended 13 rfl]
    have solid : isspace 45 = false := rfl
    have sign : strtolSign ((45 :: (decimal v.natAbs ++ [13, 10])).dropWhile isspace) = (true, decimal v.natAbs ++ [13, 10]) := by
      rw [dropWhile_cons, solid]
      rfl
    rw [singleton_append, cons_append]
    simp only [strtol, sign, whole, rest, digitsValue_decimal, if_true]
    rw [if_neg (by simp [decimal_ne_nil])]
    simp only [Prod.mk.injEq, and_true]
    omega
  next =>
    rw [nil_append, strtol_decimal (by omega)]
    simp only [Prod.mk.injEq, and_true]
    omega

theorem line_number {mark : UInt8} (other : mark ≠ 10) {v : Int} (low : -2 ^ 31 ≤ v) (high : v < 2 ^ 31) :
    Line (mark :: ll2string 127 v ++ [13, 10]) mark v := by
  have text : ll2string 127 v = numeral v := ll2string_roomy (by omega) (by omega)
  have digits : (decimal v.natAbs).length ≤ 10 := by
    rw [decimal, length_map, Nat.length_toDigits_le_iff (by decide) (by decide)]
    omega
  have short : (numeral v).length ≤ 11 := by
    rw [numeral, length_append]
    split <;> simp <;> omega
  have plain : 10 ∉ numeral v := by
    rw [numeral, mem_append, not_or]
    refine ⟨?_, fun member => absurd (decimal_digits _ 10 member) (by decide)⟩
    split <;> simp
  have absent : 10 ∉ mark :: numeral v ++ [13] := by
    simp only [cons_append, mem_cons, mem_append, not_mem_nil, or_false, not_or]
    exact ⟨other.symm, plain, by decide⟩
  rw [text]
  refine ⟨fun t => ?_, rfl, ?_, ?_⟩
  · have read := readLine_front absent (show (mark :: numeral v ++ [13]).length < 127 by simp; omega) t
    rw [fgets, if_neg (by simp)]
    simpa using congrArg some read
  · rw [cons_append, tail_cons, strtol_numeral (by omega) (by omega)]
  · rw [cons_append, tail_cons, strtol_numeral (by omega) (by omega)]
    rfl

theorem count_line {mark : UInt8} (other : mark ≠ 10) (count : Int) :
    Line (rioWriteBulkCount mark count) mark (BitVec.ofInt 32 count).toInt := by
  have low := BitVec.le_toInt (BitVec.ofInt 32 count)
  have high := BitVec.toInt_lt (x := BitVec.ofInt 32 count)
  exact line_number other (by omega) (by omega)

/-! An unsigned int that is passed as an int. -/

theorem int_of_short {n : Nat} (short : n < 2 ^ 31) : (BitVec.ofInt 32 (n : Int)).toInt = n := by
  rw [BitVec.toInt_ofInt]
  apply Int.bmod_eq_of_le <;> omega

theorem int_of_long {n : Nat} (long : 2 ^ 31 ≤ n) (bound : n < 2 ^ 32) : (BitVec.ofInt 32 (n : Int)).toInt < 0 := by
  rw [BitVec.toInt_ofInt, Int.bmod_eq_emod]
  split <;> omega

def Short (text : Bytes) : Prop := text.length < 2 ^ 31

instance (text : Bytes) : Decidable (Short text) := inferInstanceAs (Decidable (_ < _))

theorem integer_short {v : Int} (low : -2 ^ 63 ≤ v) (high : v < 2 ^ 63) : Short (ll2string 32 v) := by
  have digits : (decimal v.natAbs).length ≤ 19 := by
    rw [decimal, length_map, Nat.length_toDigits_le_iff (by decide) (by decide)]
    omega
  rw [ll2string_roomy (by omega) (by decide), Short, numeral, length_append]
  split <;> simp <;> omega

/-- A length is an unsigned int. -/
def Sds (text : Bytes) : Prop := text.length < 2 ^ 32

instance (text : Bytes) : Decidable (Sds text) := inferInstanceAs (Decidable (_ < _))

def rioCommand (argv : Argv) : Bytes := rioWriteBulkCount 42 argv.length ++ argv.flatMap rioWriteBulkString

theorem rioCommand_ne_nil (argv : Argv) : rioCommand argv ≠ [] := by
  simp [rioCommand, rioWriteBulkCount]

theorem bulk_eq {text : Bytes} (short : Short text) : rioWriteBulkString text = catBulk text := by
  have number := int_of_short short
  have bound : (text.length : Int).natAbs < 2 ^ 64 := by
    unfold Short at short
    omega
  rw [rioWriteBulkString, rioWriteBulkCount, number, catBulk, ll2string_roomy bound (by decide), ll2string_roomy bound (by decide)]

variable {argv : Argv}

/-- Where every length is an int, the bytes are those that are appended for the command. -/
theorem rioCommand_eq (few : argv.length < 2 ^ 31) (short : ∀ arg ∈ argv, Short arg) : rioCommand argv = catAppendOnlyGenericCommand argv := by
  have number := int_of_short few
  have bound : (argv.length : Int).natAbs < 2 ^ 64 := by omega
  rw [rioCommand, rioWriteBulkCount, number, catAppendOnlyGenericCommand, ll2string_roomy bound (by decide),
    ll2string_roomy bound (by decide), flatMap_def, map_congr_left fun arg member => bulk_eq (short arg member)]

theorem loadArgs_bulks (sds : ∀ arg ∈ argv, Sds arg) (rest : Bytes) : loadArgs argv.length (argv.flatMap rioWriteBulkString ++ rest) =
      if ∀ arg ∈ argv, Short arg then .ok (argv, rest) else .error .fault := by
  induction argv with
  | nil => simp [loadArgs]
  | cons arg argv ih =>
    have line := @count_line 36 (by decide) arg.length
    have bound : Sds arg := sds arg mem_cons_self
    have later := ih fun other member => sds other (mem_cons_of_mem _ member)
    rw [flatMap_cons, append_assoc, rioWriteBulkString, append_assoc, append_assoc, length_cons, loadArgs, line.read]
    simp only [line.head, line.number, ne_eq, not_true_eq_false, if_false]
    by_cases short : Short arg
    · rw [int_of_short short, if_neg (by omega), Int.toNat_natCast, if_neg (by simp), ← drop_drop, drop_left, take_left]
      have behind : ([13, 10] ++ (argv.flatMap rioWriteBulkString ++ rest)).drop 2 = argv.flatMap rioWriteBulkString ++ rest := rfl
      rw [behind, later]
      by_cases all : ∀ other ∈ argv, Short other
      · rw [if_pos all, if_pos (forall_mem_cons.mpr ⟨short, all⟩)]
      · rw [if_neg all, if_neg fun whole => all (forall_mem_cons.mp whole).2]
    · rw [if_pos (int_of_long (Nat.le_of_not_lt short) bound), if_neg fun whole => short (forall_mem_cons.mp whole).1]

theorem loadCommand_rioCommand (some_ : argv ≠ []) (few : argv.length < 2 ^ 31) (sds : ∀ arg ∈ argv, Sds arg) (rest : Bytes) :
    loadCommand (rioCommand argv ++ rest) = if ∀ arg ∈ argv, Short arg then .ok (argv, rest) else .error .fault := by
  have line := @count_line 42 (by decide) argv.length
  have number := int_of_short few
  have positive := length_pos_iff.mpr some_
  rw [rioCommand, append_assoc, loadCommand, line.read]
  simp only [line.head, line.number, number, ne_eq, not_true_eq_false, if_false]
  rw [if_neg line.tail_head, if_neg (by omega), Int.toNat_natCast]
  exact loadArgs_bulks sds rest

def Parses (bytes : Bytes) (argvs : List Argv) : Prop :=
  ∀ fuel rest, (bytes ++ rest).length ≤ fuel →
    ∃ left, rest.length ≤ left ∧ loadLoop fuel (bytes ++ rest) = (loadLoop left rest).map (argvs ++ ·)

def Breaks (bytes : Bytes) : Prop :=
  ∀ fuel rest argvs, (bytes ++ rest).length ≤ fuel → loadLoop fuel (bytes ++ rest) ≠ .ok argvs

theorem parses_nil : Parses [] [] := by
  intro fuel rest enough
  refine ⟨fuel, enough, ?_⟩
  rw [nil_append]
  cases loadLoop fuel rest <;> rfl

theorem Parses.append {front back : Bytes} {first second : List Argv} (one : Parses front first) (two : Parses back second) :
    Parses (front ++ back) (first ++ second) := by
  intro fuel rest enough
  rw [append_assoc] at enough ⊢
  obtain ⟨between, room, loaded⟩ := one fuel (back ++ rest) enough
  obtain ⟨left, kept, later⟩ := two between rest room
  refine ⟨left, kept, ?_⟩
  rw [loaded, later]
  cases loadLoop left rest with
  | error => rfl
  | ok argvs => simp [Except.map]

theorem Parses.breaks {front back : Bytes} {first : List Argv} (one : Parses front first) (two : Breaks back) : Breaks (front ++ back) := by
  intro fuel rest argvs enough
  rw [append_assoc] at enough ⊢
  obtain ⟨left, room, loaded⟩ := one fuel (back ++ rest) enough
  rw [loaded]
  cases later : loadLoop left (back ++ rest) with
  | error =>
    intro same
    cases same
  | ok others => exact absurd later (two left rest others room)

theorem Breaks.append {front : Bytes} (stop : Breaks front) (back : Bytes) : Breaks (front ++ back) := by
  intro fuel rest argvs enough
  rw [append_assoc] at enough ⊢
  exact stop fuel (back ++ rest) argvs enough

theorem loadLoop_ok {fp rest : Bytes} (more : fp ≠ []) (read : loadCommand fp = .ok (argv, rest)) (left : Nat) :
    loadLoop (left + 1) fp = (loadLoop left rest).map (argv :: ·) := by
  rw [loadLoop, if_neg (by simpa using more), read]
  simp only
  cases loadLoop left rest <;> rfl

theorem loadLoop_error {fp : Bytes} {error : AofError} (more : fp ≠ []) (refused : loadCommand fp = .error error) (fuel : Nat)
    (argvs : List Argv) : loadLoop fuel fp ≠ .ok argvs := by
  have nonempty : ¬ fp.isEmpty = true := by simpa using more
  intro loaded
  cases fuel with
  | zero =>
    rw [loadLoop, if_neg nonempty] at loaded
    cases loaded
  | succ left =>
    rw [loadLoop, if_neg nonempty, refused] at loaded
    cases loaded

theorem breaks_mark {c : UInt8} (other : c ≠ 42) (bytes : Bytes) : Breaks (c :: bytes) := by
  intro fuel rest argvs _
  have first : (readLine 127 (c :: (bytes ++ rest))).1.head? = some c := by
    rw [readLine]
    split
    next newline => rw [newline]; rfl
    next => rfl
  have refused : loadCommand (c :: (bytes ++ rest)) = .error .fmterr := by
    simp only [loadCommand, fgets, isEmpty_cons, Bool.false_eq_true, if_false, Nat.add_one_sub_one]
    rw [first, if_pos]
    exact fun same => other (Option.some.inj same)
  exact loadLoop_error (cons_ne_nil c (bytes ++ rest)) refused fuel argvs

theorem parses_command (some_ : argv ≠ []) (few : argv.length < 2 ^ 31) (short : ∀ arg ∈ argv, Short arg) :
    Parses (rioCommand argv) [argv] := by
  intro fuel rest enough
  have sds : ∀ arg ∈ argv, Sds arg := fun arg member => Nat.lt_trans (short arg member) (by decide)
  have nonempty := rioCommand_ne_nil argv
  have positive := length_pos_iff.mpr nonempty
  rw [length_append] at enough
  obtain ⟨left, rfl⟩ := Nat.exists_eq_succ_of_ne_zero (show fuel ≠ 0 by omega)
  have read := loadCommand_rioCommand some_ few sds rest
  rw [if_pos short] at read
  exact ⟨left, by omega, loadLoop_ok (by simp [nonempty]) read left⟩

theorem breaks_command (some_ : argv ≠ []) (few : argv.length < 2 ^ 31) (sds : ∀ arg ∈ argv, Sds arg)
    (long : ¬ ∀ arg ∈ argv, Short arg) : Breaks (rioCommand argv) := by
  intro fuel rest argvs _
  have read := loadCommand_rioCommand some_ few sds rest
  rw [if_neg long] at read
  exact loadLoop_error (by simp [rioCommand_ne_nil argv]) read fuel argvs

theorem Breaks.after (some_ : argv ≠ []) (few : argv.length < 2 ^ 31) (sds : ∀ arg ∈ argv, Sds arg) {bytes : Bytes}
    (stop : Breaks bytes) : Breaks (rioCommand argv ++ bytes) := by
  by_cases short : ∀ arg ∈ argv, Short arg
  · exact (parses_command some_ few short).breaks stop
  · exact (breaks_command some_ few sds short).append bytes

structure Fine (argv : Argv) : Prop where
  some_ : argv ≠ []
  few : argv.length < 2 ^ 31
  short : ∀ arg ∈ argv, Short arg

theorem parses_commands {argvs : List Argv} (fine : ∀ argv ∈ argvs, Fine argv) : Parses (argvs.flatMap rioCommand) argvs := by
  induction argvs with
  | nil => exact parses_nil
  | cons argv argvs ih =>
    rw [forall_mem_cons] at fine
    exact (parses_command fine.1.some_ fine.1.few fine.1.short).append (ih fine.2)

structure Outcome (bytes : Bytes) (good : Prop) (p : List Argv → Prop) : Prop where
  reads : good → ∃ argvs, bytes = argvs.flatMap rioCommand ∧ (∀ argv ∈ argvs, Fine argv) ∧ p argvs
  breaks : ¬ good → Breaks bytes

variable {bytes front back : Bytes} {good first second : Prop} {p q r : List Argv → Prop}

theorem Outcome.nil (holds : p []) : Outcome [] True p where
  reads _ := ⟨[], rfl, fun _ member => absurd member not_mem_nil, holds⟩
  breaks never := absurd trivial never

theorem Outcome.imp (outcome : Outcome bytes good p) (same : good ↔ first) (implies : ∀ argvs, p argvs → q argvs) : Outcome bytes first q where
  reads holds := by
    obtain ⟨argvs, written, fine, property⟩ := outcome.reads (same.mpr holds)
    exact ⟨argvs, written, fine, implies argvs property⟩
  breaks fails := outcome.breaks fun holds => fails (same.mp holds)

theorem Outcome.append (one : Outcome front first p) (two : Outcome back second q) (both : ∀ x y, p x → q y → r (x ++ y)) :
    Outcome (front ++ back) (first ∧ second) r where
  reads := by
    rintro ⟨left, right⟩
    obtain ⟨x, rfl, fineX, propertyX⟩ := one.reads left
    obtain ⟨y, rfl, fineY, propertyY⟩ := two.reads right
    refine ⟨x ++ y, by rw [flatMap_append], fun argv member => ?_, both x y propertyX propertyY⟩
    exact (mem_append.mp member).elim (fineX argv) (fineY argv)
  breaks fails := by
    by_cases left : first
    · obtain ⟨x, rfl, fine, _⟩ := one.reads left
      exact (parses_commands fine).breaks (two.breaks fun right => fails ⟨left, right⟩)
    · exact (one.breaks left).append back

theorem Outcome.command (some_ : argv ≠ []) (few : argv.length < 2 ^ 31) (sds : ∀ arg ∈ argv, Sds arg) :
    Outcome (rioCommand argv) (∀ arg ∈ argv, Short arg) (· = [argv]) where
  reads short := by
    refine ⟨[argv], by rw [flatMap_singleton], fun other member => ?_, rfl⟩
    rw [mem_singleton.mp member]
    exact ⟨some_, few, short⟩
  breaks := breaks_command some_ few sds

theorem Outcome.commands {argvs : List Argv} (sized : ∀ argv ∈ argvs, argv ≠ [] ∧ argv.length < 2 ^ 31 ∧ ∀ arg ∈ argv, Sds arg) :
    Outcome (argvs.flatMap rioCommand) (∀ argv ∈ argvs, ∀ arg ∈ argv, Short arg) (· = argvs) := by
  induction argvs with
  | nil =>
    have none : Outcome [] True (· = ([] : List Argv)) := Outcome.nil rfl
    exact none.imp (by simp) fun _ same => same
  | cons argv argvs ih =>
    rw [forall_mem_cons] at sized
    obtain ⟨⟨some_, few, sds⟩, later⟩ := sized
    have both := (Outcome.command some_ few sds).append (ih later) (r := (· = argv :: argvs)) fun x y one two => by
      rw [one, two, singleton_append]
    exact both.imp (by rw [forall_mem_cons]) fun _ same => same

end

/-! The loop that writes the items of an object: every command takes as many items as its count
says, and where the count is too small the loader stops. -/

section
open CheckAof (Argv)

variable {name key : Bytes} {width : Nat}

def bulks (item : List Bytes) : Bytes := item.flatMap rioWriteBulkString

def itemsCommand (name key : Bytes) (items : List (List Bytes)) : Argv := name :: key :: items.flatten

theorem flatMap_flatten (items : List (List Bytes)) : items.flatten.flatMap rioWriteBulkString = (items.map bulks).flatten := by
  induction items with
  | nil => rfl
  | cons item items ih => rw [flatten_cons, flatMap_append, ih, map_cons, flatten_cons, bulks]

variable {items : List (List Bytes)}

theorem flatten_length (each : ∀ item ∈ items, item.length = width) : items.flatten.length = items.length * width := by
  induction items with
  | nil => simp
  | cons item items ih =>
    rw [forall_mem_cons] at each
    rw [flatten_cons, length_append, ih each.2, each.1, length_cons, Nat.succ_mul, Nat.add_comm]

theorem emitItems_rest (l : List Bytes) {count : Nat} (started : 0 < count) (open_ : count < itemsPerCmd) (items : Int) :
    emitItems name key width count items l = (l.take (itemsPerCmd - count)).flatten ++
        emitItems name key width 0 (items - (itemsPerCmd - count : Nat)) (l.drop (itemsPerCmd - count)) := by
  induction l generalizing count items with
  | nil => simp [emitItems]
  | cons item l ih =>
    obtain ⟨left, same⟩ := Nat.exists_eq_succ_of_ne_zero (show itemsPerCmd - count ≠ 0 by omega)
    rw [emitItems, if_neg (by omega), same, nil_append, take_succ_cons, drop_succ_cons, flatten_cons]
    by_cases full : count + 1 = itemsPerCmd
    · obtain rfl : left = 0 := by omega
      rw [if_pos full]
      simp
    · have next : itemsPerCmd - (count + 1) = left := by omega
      have less : items - 1 - (left : Int) = items - (left.succ : Nat) := by omega
      rw [if_neg full, ih (by omega) (by omega), next, less, append_assoc]

theorem emitItems_batch {l : List Bytes} (more : l ≠ []) (items : Int) : emitItems name key width 0 items l =
      emitHeader name key width items ++ (l.take itemsPerCmd).flatten ++
        emitItems name key width 0 (items - itemsPerCmd) (l.drop itemsPerCmd) := by
  obtain ⟨item, rest, rfl⟩ := exists_cons_of_ne_nil more
  have first : itemsPerCmd = (itemsPerCmd - 1) + 1 := rfl
  have less : items - 1 - ((itemsPerCmd - 1 : Nat) : Int) = items - itemsPerCmd := by
    simp only [itemsPerCmd]
    omega
  rw [emitItems, if_pos rfl, if_neg (by decide), emitItems_rest rest (by decide) (by decide), Nat.zero_add, less]
  conv_rhs => rw [first, take_succ_cons, drop_succ_cons, flatten_cons]
  simp only [append_assoc]
  rfl

theorem emitHeader_command (each : ∀ item ∈ items, item.length = width) {count : Int} (announced : cmdItems count = items.length) :
    emitHeader name key width count ++ (items.map bulks).flatten = rioCommand (itemsCommand name key items) := by
  have length : ((itemsCommand name key items).length : Int) = 2 + cmdItems count * width := by
    rw [announced, itemsCommand, length_cons, length_cons, flatten_length each, Nat.cast_add, Nat.cast_add, Nat.cast_mul]
    omega
  rw [rioCommand, length, emitHeader, itemsCommand, flatMap_cons, flatMap_cons, flatMap_flatten]
  simp only [append_assoc]

/-- The items of the commands, in order, and none without an item. -/
structure Batches (items : List (List Bytes)) (chunks : List (List (List Bytes))) : Prop where
  all : chunks.flatten = items
  some_ : ∀ chunk ∈ chunks, chunk ≠ []
  few : ∀ chunk ∈ chunks, chunk.length ≤ itemsPerCmd

theorem emitItems_batches (items : List (List Bytes)) (each : ∀ item ∈ items, item.length = width) : ∃ chunks, Batches items chunks ∧
      emitItems name key width 0 items.length (items.map bulks) = (chunks.map (itemsCommand name key)).flatMap rioCommand := by
  generalize size : items.length = total
  induction total using Nat.strongRecOn generalizing items with
  | _ total ih =>
    by_cases empty : items = []
    · subst empty
      exact ⟨[], ⟨rfl, fun _ member => absurd member not_mem_nil, fun _ member => absurd member not_mem_nil⟩, rfl⟩
    · have positive := length_pos_iff.mpr empty
      have less : (items.drop itemsPerCmd).length < total := by
        rw [length_drop, itemsPerCmd]
        omega
      obtain ⟨chunks, batches, later⟩ := ih _ less (items.drop itemsPerCmd) (fun item member => each item (mem_of_mem_drop member)) rfl
      have announced : cmdItems total = (items.take itemsPerCmd).length := by
        rw [cmdItems, length_take, size]
        split <;> omega
      have header := @emitHeader_command name key width (items.take itemsPerCmd)
        (fun item member => each item (mem_of_mem_take member)) total announced
      refine ⟨items.take itemsPerCmd :: chunks, ⟨?_, ?_, ?_⟩, ?_⟩
      · rw [flatten_cons, batches.all, take_append_drop]
      · rw [forall_mem_cons]
        refine ⟨fun none => ?_, batches.some_⟩
        rw [take_eq_nil_iff] at none
        exact none.elim (by decide) empty
      · rw [forall_mem_cons]
        exact ⟨length_take_le _ _, batches.few⟩
      · have nonempty : items.map bulks ≠ [] := by simpa using empty
        rw [emitItems_batch nonempty, ← map_take, ← map_drop, header, map_cons, flatMap_cons, ← later]
        by_cases last : items.drop itemsPerCmd = []
        · simp [last, emitItems]
        · have count : (total : Int) - itemsPerCmd = (items.drop itemsPerCmd).length := by
            have rest := length_pos_iff.mpr last
            rw [length_drop] at rest ⊢
            omega
          rw [count]

theorem bulks_mark {item : List Bytes} (some_ : item ≠ []) : ∃ rest, bulks item = 36 :: rest := by
  obtain ⟨arg, args, rfl⟩ := exists_cons_of_ne_nil some_
  exact ⟨_, rfl⟩

/-- What the values of the type need: there are few arguments, and none is longer than a string. -/
structure Sized (name key : Bytes) (width : Nat) (items : List (List Bytes)) : Prop where
  wide : 0 < width
  narrow : width < 2 ^ 8
  each : ∀ item ∈ items, item.length = width
  name : Sds name
  key : Sds key
  args : ∀ item ∈ items, ∀ arg ∈ item, Sds arg

theorem Sized.subset {items part : List (List Bytes)} (sized : Sized name key width items) (inside : part ⊆ items) :
    Sized name key width part :=
  { sized with each := fun item member => sized.each item (inside member), args := fun item member => sized.args item (inside member) }

theorem Sized.command (sized : Sized name key width items) (few : items.length ≤ itemsPerCmd) :
    itemsCommand name key items ≠ [] ∧ (itemsCommand name key items).length < 2 ^ 31 ∧ ∀ arg ∈ itemsCommand name key items, Sds arg := by
  refine ⟨cons_ne_nil _ _, ?_, ?_⟩
  · have narrow := sized.narrow
    have most : items.length * width ≤ itemsPerCmd * 2 ^ 8 := Nat.mul_le_mul few (Nat.le_of_lt narrow)
    rw [itemsPerCmd] at most
    rw [itemsCommand, length_cons, length_cons, flatten_length sized.each]
    omega
  · rw [itemsCommand, forall_mem_cons, forall_mem_cons]
    refine ⟨sized.name, sized.key, fun arg member => ?_⟩
    obtain ⟨item, inside, member⟩ := mem_flatten.mp member
    exact sized.args item inside arg member

theorem emitItems_breaks (sized : Sized name key width items) {count : Nat} (less : count < items.length) :
    Breaks (emitItems name key width 0 count (items.map bulks)) := by
  induction count using Nat.strongRecOn generalizing items with
  | _ count ih =>
    have nonempty : items.map bulks ≠ [] := by
      rw [ne_eq, map_eq_nil_iff]
      exact length_pos_iff.mp (by omega)
    rw [emitItems_batch nonempty, ← map_take, ← map_drop]
    rcases Nat.lt_or_ge count itemsPerCmd with last | full
    · -- The header announces all of `count`, and at least one item more follows.
      have split : items.take itemsPerCmd = items.take count ++ (items.take itemsPerCmd).drop count := by
        conv_lhs => rw [← take_append_drop count (items.take itemsPerCmd)]
        rw [take_take, Nat.min_eq_left (Nat.le_of_lt last)]
      have announced : cmdItems count = (items.take count).length := by
        rw [cmdItems, length_take, if_neg (by omega)]
        omega
      have front := sized.subset (take_subset count items)
      have header := @emitHeader_command name key _ _ front.each _ announced
      obtain ⟨some_, few, sds⟩ := front.command (by rw [length_take]; omega)
      have left : (items.take itemsPerCmd).drop count ≠ [] := by
        apply length_pos_iff.mp
        rw [length_drop, length_take]
        omega
      obtain ⟨item, others, more⟩ := exists_cons_of_ne_nil left
      have inside : item ∈ items := mem_of_mem_take (mem_of_mem_drop (more ▸ mem_cons_self))
      have wide := sized.wide
      have length := sized.each item inside
      obtain ⟨rest, mark⟩ := @bulks_mark item (length_pos_iff.mp (by omega))
      rw [split, more, map_append, List.flatten_append, ← append_assoc, header, append_assoc, map_cons,
        flatten_cons, mark, cons_append, cons_append]
      exact (breaks_mark (by decide) _).after some_ few sds
    · have announced : cmdItems count = (items.take itemsPerCmd).length := by
        rw [cmdItems, length_take]
        split <;> omega
      have front := sized.subset (take_subset itemsPerCmd items)
      have header := @emitHeader_command name key _ _ front.each _ announced
      obtain ⟨some_, few, sds⟩ := front.command (length_take_le _ _)
      have rest : (count : Int) - itemsPerCmd = (count - itemsPerCmd : Nat) := by omega
      have smaller : count - itemsPerCmd < count := by
        rw [itemsPerCmd] at full ⊢
        omega
      rw [header, rest]
      refine (ih _ smaller (sized.subset (drop_subset itemsPerCmd items)) ?_).after some_ few sds
      rw [length_drop]
      omega

end

end Cplusplus.Redis.Rewrite
