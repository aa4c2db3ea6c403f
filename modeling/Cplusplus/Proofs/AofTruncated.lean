import Cplusplus.AofLoad
import Cplusplus.Proofs.CheckAofWritten

/-! A file of the server that is cut anywhere loads as its whole commands. They are the whole
entries when no command of a transaction without its end is whole. -/

namespace Cplusplus.Redis.AofLoad
open CheckAof Decimal List

structure Sized (argv : Argv) : Prop where
  named : argv ≠ []
  few : argv.length < 2 ^ 31
  fits : ∀ arg ∈ argv, arg.length + 2 < 2 ^ 63

variable {argv : Argv} {front : List UInt8}

theorem Sized.bulks (sized : Sized argv) : Bulks (2 ^ 63) (argv.map catBulk).flatten argv :=
  bulks_written fun arg member => ⟨Nat.le_of_lt (sized.fits arg member), sized.fits arg member⟩

theorem Sized.loads (sized : Sized argv) (t : List UInt8) : loadCommand (catAppendOnlyGenericCommand argv ++ t) = .ok (argv, t) := by
  have few := sized.few
  have positive := length_pos_iff.mpr sized.named
  have command : CommandText (2 ^ 63) (catAppendOnlyGenericCommand argv) argv.length argv :=
    ⟨by omega, by simp, _, _, line_written (by decide) (by omega), sized.bulks, rfl⟩
  exact command.loadCommand (by omega) t

theorem cut_number {n : Nat} {front : List UInt8} (cut : Cut front (decimal n ++ [13, 10])) :
    front = [] ∨ ∃ digits rest, front = digits ++ rest ∧ digits ≠ [] ∧ digits <+: decimal n ∧ ∀ c ∈ rest.head?, isDigit c = false := by
  by_cases empty : front = []
  · exact .inl empty
  · refine .inr ?_
    rcases cut.append with ⟨missing, _, same⟩ | ⟨rest, rfl, inner⟩
    · exact ⟨front, [], by simp, empty, ⟨missing, same.symm⟩, by simp⟩
    · refine ⟨decimal n, rest, rfl, decimal_ne_nil n, prefix_refl _, ?_⟩
      obtain ⟨missing, present, same⟩ := inner
      intro c first
      cases rest with
      | nil => cases first
      | cons head rest =>
        rw [head?_cons, Option.mem_some_iff] at first
        subst first
        rw [cons_append] at same
        rw [← (cons.inj same).1]
        decide

theorem digitsValue_grows (value : Nat) (digits : List UInt8) : value ≤ digits.foldl (fun value c => 10 * value + (c.toNat - 48)) value := by
  induction digits generalizing value with
  | nil => exact Nat.le_refl _
  | cons c digits ih =>
    have more := ih (10 * value + (c.toNat - 48))
    rw [foldl_cons]
    omega

theorem digitsValue_prefix {digits all : List UInt8} (start : digits <+: all) : digitsValue digits ≤ digitsValue all := by
  obtain ⟨rest, rfl⟩ := start
  rw [digitsValue, digitsValue, foldl_append]
  exact digitsValue_grows _ _

theorem decimal_head {n : Nat} (positive : 0 < n) : ∃ c rest, decimal n = c :: rest ∧ 48 < c.toNat := by
  induction n using Nat.strongRecOn with
  | _ n ih =>
    rcases Nat.lt_or_ge n 10 with small | large
    · exact ⟨digit n, [], decimal_of_lt small, by rw [digit_toNat small]; omega⟩
    · obtain ⟨c, rest, parts, solid⟩ := ih (n / 10) (by omega) (by omega)
      exact ⟨c, rest ++ [digit (n % 10)], by rw [decimal_split large, parts]; rfl, solid⟩

theorem digitsValue_positive {n : Nat} (positive : 0 < n) {digits : List UInt8} (some_ : digits ≠ []) (start : digits <+: decimal n) :
    0 < digitsValue digits := by
  obtain ⟨c, rest, parts, solid⟩ := decimal_head positive
  rw [parts] at start
  obtain ⟨d, more, rfl⟩ := exists_cons_of_ne_nil some_
  obtain ⟨rfl, _⟩ := cons_prefix_cons.mp start
  have grows := digitsValue_grows (10 * 0 + (d.toNat - 48)) more
  rw [digitsValue, foldl_cons]
  omega

theorem strtol_cut {n : Nat} (bound : n < 2 ^ 63) {front : List UInt8} (cut : Cut front (decimal n ++ [13, 10])) :
    (front = [] ∧ (strtol front).1 = 0) ∨
      (front ≠ [] ∧ front.headD 0 ≠ 0 ∧ 0 ≤ (strtol front).1 ∧ (strtol front).1 ≤ n ∧ (0 < n → 0 < (strtol front).1)) := by
  obtain rfl | ⟨digits, rest, rfl, some_, start, ended⟩ := cut_number cut
  · exact .inl ⟨rfl, rfl⟩
  · have value := digitsValue_prefix start
    rw [digitsValue_decimal] at value
    have figures : ∀ c ∈ digits, isDigit c = true := fun c member => decimal_digits n c (start.subset member)
    rw [strtol_digits figures some_ ended (by omega)]
    obtain ⟨c, more, rfl⟩ := exists_cons_of_ne_nil some_
    refine .inr ⟨by simp, ?_, by omega, by omega, fun positive => ?_⟩
    · intro zero
      rw [cons_append, headD_cons] at zero
      have figure := figures c mem_cons_self
      rw [zero] at figure
      exact absurd figure (by decide)
    · have above := digitsValue_positive positive some_ start
      omega

theorem written_line (mark : UInt8) {n : Nat} (bound : n < 2 ^ 63) : mark :: ll2string 31 n ++ [13, 10] = mark :: (decimal n ++ [13, 10]) := by
  rw [ll2string_roomy (by omega) (by omega), numeral, if_neg (by omega), nil_append, Int.natAbs_natCast]
  rfl

theorem cut_line {mark : UInt8} {n : Nat} (bound : n < 2 ^ 63) {front : List UInt8} (some_ : front ≠ [])
    (cut : Cut front (mark :: ll2string 31 n ++ [13, 10])) : ∃ more, front = mark :: more ∧ Cut more (decimal n ++ [13, 10]) := by
  rw [written_line mark bound] at cut
  obtain ⟨missing, present, same⟩ := cut
  obtain ⟨c, more, rfl⟩ := exists_cons_of_ne_nil some_
  obtain ⟨rfl, rest⟩ := cons.inj same
  exact ⟨more, rfl, missing, present, rest⟩

theorem loadArgs_readerr {argv : Argv} (fits : ∀ arg ∈ argv, arg.length + 2 < 2 ^ 63) {front : List UInt8}
    (cut : Cut front (argv.map catBulk).flatten) : loadArgs argv.length front = .error .readerr := by
  induction argv generalizing front with
  | nil =>
    obtain ⟨missing, present, same⟩ := cut
    exact absurd (append_eq_nil_iff.mp same.symm).2 present
  | cons arg argv ih =>
    have bound := fits arg mem_cons_self
    have parsed : Line (36 :: ll2string 31 arg.length ++ [13, 10]) 36 arg.length := line_written (by decide) (by omega)
    have text : ((arg :: argv).map catBulk).flatten =
        (36 :: ll2string 31 arg.length ++ [13, 10]) ++ ((arg ++ [13, 10]) ++ (argv.map catBulk).flatten) := by
      simp only [map_cons, flatten_cons, catBulk, append_assoc]
    rw [text] at cut
    rw [length_cons, CheckAof.loadArgs]
    rcases cut.append with inner | ⟨more, rfl, inner⟩
    · by_cases empty : front = []
      · rw [empty]
        rfl
      · rw [fgets_cut parsed inner empty]
        obtain ⟨more, rfl, number⟩ := cut_line (by omega) empty inner
        have value : 0 ≤ (strtol more).1 := by
          obtain ⟨_, zero⟩ | ⟨_, _, above, _⟩ := strtol_cut (by omega) number
          · exact Int.le_of_eq zero.symm
          · exact above
        have missing : 0 < (strtol more).1.toNat + 2 := Nat.succ_pos _
        simp only [head?_cons, ne_eq, not_true_eq_false, if_false, tail_cons, length_nil, Int.not_lt.mpr value, missing, if_true]
    · rw [parsed.read]
      simp only [parsed.head, parsed.number, Int.toNat_natCast]
      rw [if_neg (by simp), if_neg (by omega)]
      rcases inner.append with short' | ⟨rest, rfl, last⟩
      · have short := short'.length
        rw [length_append, length_cons, length_singleton] at short
        rw [if_pos short]
      · have failed := ih (fun arg member => fits arg (mem_cons_of_mem _ member)) last
        rw [if_neg (by simp), ← drop_drop, append_assoc, drop_left]
        simp only [cons_append, nil_append, drop_succ_cons, drop_zero, failed]

theorem Sized.cut (sized : Sized argv) {front : List UInt8} (cut : Cut front (catAppendOnlyGenericCommand argv)) (some_ : front ≠ []) :
    loadCommand front = .error .readerr ∧ feofAfter front = true := by
  have few := sized.few
  have positive := length_pos_iff.mpr sized.named
  have parsed : Line (42 :: ll2string 31 argv.length ++ [13, 10]) 42 argv.length := line_written (by decide) (by omega)
  rw [CheckAof.loadCommand]
  rcases cut.append with inner | ⟨more, rfl, inner⟩
  · rw [fgets_cut parsed inner some_]
    obtain ⟨more, rfl, number⟩ := cut_line (by omega) some_ inner
    obtain ⟨rfl, -⟩ | ⟨-, solid, -, above, below⟩ := strtol_cut (by omega) number
    · exact ⟨rfl, by decide⟩
    · have exact' : (BitVec.ofInt 32 (strtol more).1).toInt = (strtol more).1 := by
        rw [BitVec.toInt_ofInt]
        have := below positive
        apply Int.bmod_eq_of_le <;> omega
      have counted := below positive
      obtain ⟨left, same⟩ := Nat.exists_eq_succ_of_ne_zero (show (strtol more).1.toNat ≠ 0 by omega)
      have many : ¬ (strtol more).1 < 1 := by omega
      simp only [head?_cons, ne_eq, not_true_eq_false, if_false, tail_cons, solid, exact', many, same]
      refine ⟨rfl, ?_⟩
      obtain ⟨absent, short⟩ := parsed.cut inner
      simp only [feofAfter, readLine_short absent short, head?_cons, tail_cons, solid, and_false, if_false]
  · rw [parsed.read]
    have exact' : (BitVec.ofInt 32 (argv.length : Int)).toInt = argv.length := by
      rw [BitVec.toInt_ofInt]
      apply Int.bmod_eq_of_le <;> omega
    have failed := loadArgs_readerr sized.fits inner
    simp only [parsed.head, parsed.number, exact']
    rw [if_neg (by simp), if_neg parsed.tail_head, if_neg (by omega), Int.toNat_natCast, failed]
    refine ⟨rfl, ?_⟩
    have read := parsed.read more
    rw [fgets, if_neg (by simp), Option.some.injEq] at read
    simp only [feofAfter, read, parsed.tail_head, and_false, if_false]

structure Known (commands : List UInt8 → Option Command) (argv : Argv) : Prop extends Sized argv where
  known : (commands (argv.headD [])).isSome = true

section
variable {σ : Type} (commands : List UInt8 → Option Command) (call : σ → Argv → σ)

/-- Neither MULTI nor EXEC nor DISCARD. -/
def changes (argv : Argv) : Bool :=
  match commands (argv.headD []) with
  | some .multi | some .exec | some .discard => false
  | _ => true

def procs (argvs : List Argv) (s : Loading σ) : Loading σ :=
  argvs.foldl (fun s argv => (commands (argv.headD [])).elim s fun cmd => proc call cmd argv s) s

variable {commands call}

theorem procs_dataset {argvs : List Argv} (known : ∀ argv ∈ argvs, Known commands argv) (s : Loading σ) :
    (procs commands call argvs s).dataset = (argvs.filter (changes commands)).foldl call s.dataset := by
  induction argvs generalizing s with
  | nil => rfl
  | cons argv argvs ih =>
    have later := ih fun argv member => known argv (mem_cons_of_mem _ member)
    obtain ⟨cmd, found⟩ := Option.isSome_iff_exists.mp (known argv mem_cons_self).known
    have start : procs commands call (argv :: argvs) s = procs commands call argvs (proc call cmd argv s) := by
      rw [procs, foldl_cons, found]
      rfl
    rw [start, later, List.filter_cons, changes, found]
    cases cmd
    case multi | exec | discard =>
      unfold proc
      by_cases open_ : s.multi = true <;> simp [open_]
    all_goals rfl

theorem loadLoop_whole {argvs : List Argv} (known : ∀ argv ∈ argvs, Known commands argv) {fuel : Nat} (s : Loading σ) (pos : Nat)
    (t : List UInt8) (enough : (written argvs ++ t).length < fuel) :
    ∃ rest, t.length < rest ∧ loadLoop commands call true fuel s pos pos (written argvs ++ t) =
      loadLoop commands call true rest (procs commands call argvs s) (pos + (written argvs).length) (pos + (written argvs).length) t := by
  induction argvs generalizing fuel s pos with
  | nil => exact ⟨fuel, enough, rfl⟩
  | cons argv argvs ih =>
    have first := known argv mem_cons_self
    obtain ⟨cmd, found⟩ := Option.isSome_iff_exists.mp first.known
    have text : written (argv :: argvs) ++ t = catAppendOnlyGenericCommand argv ++ (written argvs ++ t) := by
      rw [written, flatMap_cons, append_assoc]
      rfl
    have size : (written (argv :: argvs)).length = (catAppendOnlyGenericCommand argv).length + (written argvs).length := by
      rw [written, flatMap_cons, length_append]
      rfl
    have some_ : 0 < (catAppendOnlyGenericCommand argv).length := by simp [catAppendOnlyGenericCommand]
    rw [text, length_append] at enough
    obtain ⟨fuel, rfl⟩ := Nat.exists_eq_succ_of_ne_zero (show fuel ≠ 0 by omega)
    obtain ⟨rest, left, onward⟩ := ih (fun argv member => known argv (mem_cons_of_mem _ member)) (proc call cmd argv s)
      (pos + (catAppendOnlyGenericCommand argv).length) (show _ < fuel by omega)
    refine ⟨rest, left, ?_⟩
    have nonempty : (catAppendOnlyGenericCommand argv ++ (written argvs ++ t)).isEmpty = false := by simp [catAppendOnlyGenericCommand]
    have start : procs commands call (argv :: argvs) s = procs commands call argvs (proc call cmd argv s) := by
      rw [procs, foldl_cons, found]
      rfl
    rw [text, loadLoop, nonempty, if_neg Bool.false_ne_true, first.loads, start, size, ← Nat.add_assoc]
    simp only [found, length_append, Nat.add_sub_cancel, if_true]
    exact onward

def Rest (t : List UInt8) : Prop := t = [] ∨ t ≠ [] ∧ ∃ argv, Sized argv ∧ Cut t (catAppendOnlyGenericCommand argv)

theorem loadAppendOnlyFile_whole {argvs : List Argv} (known : ∀ argv ∈ argvs, Known commands argv) (dataset : σ) {t : List UInt8}
    (rest : Rest t) : loadAppendOnlyFile commands call true dataset (written argvs ++ t) =
      some ((argvs.filter (changes commands)).foldl call dataset, written argvs) := by
  have final := @procs_dataset σ commands call argvs known ⟨dataset, false⟩
  unfold loadAppendOnlyFile
  by_cases empty : written argvs ++ t = []
  · obtain ⟨none, rfl⟩ := append_eq_nil_iff.mp empty
    have blank : argvs = [] := by
      cases argvs with
      | nil => rfl
      | cons argv argvs => simp [written, catAppendOnlyGenericCommand] at none
    subst blank
    rfl
  · obtain ⟨fuel, left, looped⟩ := @loadLoop_whole σ commands call argvs known _ ⟨dataset, false⟩ 0 t (Nat.lt_succ_self _)
    obtain ⟨fuel, rfl⟩ := Nat.exists_eq_succ_of_ne_zero (show fuel ≠ 0 by omega)
    rw [if_neg (by simpa using empty), looped, loadLoop, Nat.zero_add]
    obtain rfl | ⟨some_, argv, sized, cut⟩ := rest
    · simp only [isEmpty_nil, if_true, append_nil, take_length, final]
      split <;> rfl
    · obtain ⟨failed, ended⟩ := sized.cut cut some_
      have more : t.isEmpty = false := by simpa using some_
      simp only [more, Bool.false_eq_true, if_false, failed, ended, if_true, take_left, final]

end

theorem written_append (first second : List Argv) : written (first ++ second) = written first ++ written second := flatMap_append

theorem written_cons (argv : Argv) (argvs : List Argv) : written (argv :: argvs) = catAppendOnlyGenericCommand argv ++ written argvs :=
  flatMap_cons

theorem command_size (argv : Argv) : 0 < (catAppendOnlyGenericCommand argv).length := by simp [catAppendOnlyGenericCommand]

theorem written_take {argvs : List Argv} (sized : ∀ argv ∈ argvs, Sized argv) (n : Nat) :
    whole argvs n <+: argvs ∧ ∃ t, (written argvs).take n = written (whole argvs n) ++ t ∧ Rest t := by
  induction argvs generalizing n with
  | nil => exact ⟨prefix_refl _, [], by simp [written, whole], .inl rfl⟩
  | cons argv argvs ih =>
    rw [whole, written_cons]
    split
    next fits =>
      obtain ⟨start, t, taken, rest⟩ :=
        ih (fun argv member => sized argv (mem_cons_of_mem _ member)) (n - (catAppendOnlyGenericCommand argv).length)
      refine ⟨(prefix_cons_inj _).mpr start, t, ?_, rest⟩
      rw [take_append, take_of_length_le fits, taken, written_cons, append_assoc]
    next cut =>
      refine ⟨ nil_prefix, (catAppendOnlyGenericCommand argv).take n, ?_, ?_⟩
      · rw [take_append_of_le_length (by omega)]
        rfl
      · by_cases empty : (catAppendOnlyGenericCommand argv).take n = []
        · exact .inl empty
        · refine .inr ⟨empty, argv, sized argv mem_cons_self, (catAppendOnlyGenericCommand argv).drop n, ?_, ?_⟩
          · intro none
            rw [drop_eq_nil_iff] at none
            omega
          · exact (take_append_drop n _).symm

theorem whole_append {first second : List Argv} {n : Nat} (fits : (written first).length ≤ n) :
    whole (first ++ second) n = first ++ whole second (n - (written first).length) := by
  induction first generalizing n with
  | nil => rfl
  | cons argv first ih =>
    rw [written_cons, length_append] at fits
    rw [cons_append, whole, if_pos (by omega), ih (by omega), written_cons, length_append, cons_append, Nat.sub_sub]

theorem whole_cut {first second : List Argv} {n : Nat} (cut : n < (written first).length) : whole (first ++ second) n = whole first n := by
  induction first generalizing n with
  | nil => exact absurd cut (Nat.not_lt_zero _)
  | cons argv first ih =>
    rw [written_cons, length_append] at cut
    rw [cons_append, whole, whole]
    split
    next fits => rw [ih (by omega)]
    next => rfl

theorem whole_zero (argvs : List Argv) : whole argvs 0 = [] := by
  cases argvs with
  | nil => rfl
  | cons argv argvs => rw [whole, if_neg (by have := command_size argv; omega)]

theorem whole_concat {body : List Argv} {last : Argv} {n : Nat} (cut : n < (written (body ++ [last])).length) :
    whole (body ++ [last]) n = whole body n := by
  rcases Nat.lt_or_ge n (written body).length with inside | beyond
  · exact whole_cut inside
  · have size : (written [last]).length = (catAppendOnlyGenericCommand last).length := by
      rw [written_cons, length_append]
      rfl
    have all := @whole_append body [] n beyond
    rw [written_append, length_append, size] at cut
    rw [whole, append_nil] at all
    rw [whole_append beyond, whole, if_neg (by omega), append_nil, all]

variable {commands : List UInt8 → Option Command} {log : List Entry}

theorem Plain.changes (plain : Plain commands argv) : changes commands argv = true := by
  obtain ⟨cmd, found, multi, exec, discard⟩ := plain.known
  unfold AofLoad.changes
  rw [found]
  cases cmd
  case multi => exact absurd rfl multi
  case exec => exact absurd rfl exec
  case discard => exact absurd rfl discard
  all_goals rfl

theorem Plain.toKnown (plain : Plain commands argv) : Known commands argv := by
  obtain ⟨cmd, found, _⟩ := plain.known
  exact ⟨⟨plain.named, plain.few, plain.fits⟩, by rw [found]; rfl⟩

theorem Entry.Appended.commands_known {e : Entry} (appended : e.Appended commands) :
    (∀ argv ∈ e.commands, Known commands argv) ∧ e.commands.filter (changes commands) = e.effects := by
  cases e with
  | command argv =>
    have plain : Plain commands argv := appended
    refine ⟨fun other member => ?_, by simp [Entry.commands, Entry.effects, plain.changes]⟩
    rw [Entry.commands, mem_singleton] at member
    subst member
    exact plain.toKnown
  | transaction body exec =>
    obtain ⟨multi, plain, named, few, fits, execs⟩ := appended
    have start : changes commands multiArgv = false := by
      unfold changes multiArgv
      rw [headD_cons, multi]
    have finish : changes commands exec = false := by
      unfold changes
      rw [execs]
    have inner : body.filter (changes commands) = body := filter_eq_self.mpr fun argv member => (plain argv member).changes
    refine ⟨fun argv member => ?_, ?_⟩
    · rw [Entry.commands, mem_append, mem_cons, mem_singleton] at member
      obtain (rfl | member) | rfl := member
      · exact ⟨⟨by decide, by decide, by decide⟩, by rw [multiArgv, headD_cons, multi]; rfl⟩
      · exact (plain argv member).toKnown
      · exact ⟨⟨named, few, fits⟩, by rw [execs]; rfl⟩
    · rw [Entry.commands, filter_append, filter_cons_of_neg (by rw [start]; decide), inner,
        filter_cons_of_neg (by rw [finish]; decide), filter_nil, append_nil]
      rfl

theorem log_known (appended : ∀ e ∈ log, e.Appended commands) : (∀ argv ∈ log.flatMap Entry.commands, Known commands argv) ∧
      (log.flatMap Entry.commands).filter (changes commands) = log.flatMap Entry.effects := by
  refine ⟨fun argv member => ?_, ?_⟩
  · obtain ⟨e, inside, part⟩ := mem_flatMap.mp member
    exact (appended e inside).commands_known.1 argv part
  · induction log with
    | nil => rfl
    | cons e log ih =>
      rw [flatMap_cons, filter_append, (appended e mem_cons_self).commands_known.2,
        ih fun e member => appended e (mem_cons_of_mem _ member), flatMap_cons]

/-- The whole commands that change the dataset are those of the whole entries, and the first ones
of a transaction that is cut. -/
theorem whole_effects (appended : ∀ e ∈ log, e.Appended commands) (n : Nat) :
    (whole (log.flatMap Entry.commands) n).filter (changes commands) = (complete log n).flatMap Entry.effects ++ begun log n := by
  induction log generalizing n with
  | nil => rfl
  | cons e log ih =>
    have first := appended e mem_cons_self
    have later := ih fun e member => appended e (mem_cons_of_mem _ member)
    rw [flatMap_cons, complete]
    rcases Nat.lt_or_ge n e.size with cut | fits
    · rw [if_neg (by omega), whole_cut cut, flatMap_nil, nil_append]
      cases e with
      | command argv =>
        rw [begun, if_neg (by omega)]
        have small : ¬ (catAppendOnlyGenericCommand argv).length ≤ n := by
          simp only [Entry.size, Entry.commands, written, flatMap_cons, flatMap_nil, append_nil] at cut
          omega
        rw [Entry.commands, whole, if_neg small]
        rfl
      | transaction body exec =>
        obtain ⟨multi, plain, -⟩ := first
        have start : changes commands multiArgv = false := by
          unfold changes multiArgv
          rw [headD_cons, multi]
        have inner : ∀ k, (whole body k).filter (changes commands) = whole body k := fun k =>
          filter_eq_self.mpr fun argv member =>
            (plain argv ((written_take (fun argv member => (plain argv member).toKnown.toSized) k).1.subset member)).changes
        rw [begun, if_neg (by omega)]
        simp only [Entry.size, Entry.commands, cons_append] at cut ⊢
        rw [written_cons, length_append] at cut
        rw [whole]
        split
        next begins =>
          rw [whole_concat (by omega), filter_cons_of_neg (by rw [start]; decide), inner]
        next early =>
          rw [Nat.sub_eq_zero_of_le (by omega), whole_zero]
          rfl
    · have onward : begun (e :: log) n = begun log (n - e.size) := by
        cases e <;> rw [begun, if_pos fits]
      rw [if_pos fits, onward, whole_append fits, filter_append, first.commands_known.2, flatMap_cons, append_assoc]
      exact congrArg (_ ++ ·) (later _)

/-- With aof-load-truncated a file of the server that is cut loads exactly, and stays safe to append to,
if and only if no command of a transaction without its end is whole. -/
theorem truncated_loads_exactly (commands : List UInt8 → Option Command) (log : List Entry) (appended : ∀ e ∈ log, e.Appended commands)
    (n : Nat) : LoadsExactly commands log n ↔ begun log n = [] := by
  obtain ⟨known, _⟩ := log_known appended
  obtain ⟨start, t, taken, rest⟩ := written_take (fun argv member => (known argv member).toSized) n
  have kept : ∀ argv ∈ whole (log.flatMap Entry.commands) n, Known commands argv := fun argv member => known argv (start.subset member)
  have effects := whole_effects appended n
  constructor
  · intro exactly
    obtain ⟨file, loaded, _⟩ := exactly (List Argv) (fun argvs argv => argvs ++ [argv]) []
    rw [logFile, taken, loadAppendOnlyFile_whole kept [] rest, effects, Option.some.injEq, Prod.mk.injEq, replay] at loaded
    have listed : ∀ argvs acc : List Argv, argvs.foldl (fun argvs argv => argvs ++ [argv]) acc = acc ++ argvs := by
      intro argvs
      induction argvs with
      | nil => exact fun acc => (append_nil acc).symm
      | cons argv argvs ih =>
        intro acc
        rw [foldl_cons, ih, append_assoc]
        rfl
    rw [listed, listed] at loaded
    simpa using loaded.1
  · intro none σ call dataset
    rw [none, append_nil] at effects
    refine ⟨written (whole (log.flatMap Entry.commands) n), ?_, fun more inMore => ?_⟩
    · rw [logFile, taken, loadAppendOnlyFile_whole kept dataset rest, effects]
      rfl
    · obtain ⟨knownMore, effectsMore⟩ := log_known inMore
      have both : ∀ argv ∈ whole (log.flatMap Entry.commands) n ++ more.flatMap Entry.commands, Known commands argv := by
        intro argv member
        exact (mem_append.mp member).elim (kept argv) (knownMore argv)
      have loaded := @loadAppendOnlyFile_whole σ commands call _ both dataset [] (.inl rfl)
      rw [append_nil, written_append, filter_append, effects, effectsMore, foldl_append] at loaded
      exact ⟨_, loaded⟩

/-- MULTI, SET a 1, EXEC with the names in capitals. -/
def cutLog : List Entry := [.transaction [[[83, 69, 84], [97], [49]]] [[69, 88, 69, 67]]]

def cutCommands (name : List UInt8) : Option Command :=
  if name = [77, 85, 76, 84, 73] then some .multi
  else if name = [69, 88, 69, 67] then some .exec
  else if name = [83, 69, 84] then some .set
  else none

theorem cutLog_appended : ∀ e ∈ cutLog, e.Appended cutCommands := by
  intro e member
  obtain rfl := mem_singleton.mp member
  refine ⟨rfl, ?_, by decide, by decide, by decide, rfl⟩
  intro argv inside
  obtain rfl := mem_singleton.mp inside
  exact ⟨by decide, by decide, by decide, .set, rfl, by decide, by decide, by decide⟩

/-- The same file, cut after MULTI. -/
theorem truncated_loads_exactly_multi : LoadsExactly cutCommands cutLog 15 :=
  (truncated_loads_exactly cutCommands cutLog cutLog_appended 15).mpr (by decide)

theorem truncated_loads_part : ¬ ∀ (commands : List UInt8 → Option Command) (log : List Entry),
    (∀ e ∈ log, e.Appended commands) → ∀ n, LoadsExactly commands log n := by
  intro all
  obtain ⟨kept, loaded, _⟩ := all cutCommands cutLog cutLog_appended 42 (List Argv) (fun argvs argv => argvs ++ [argv]) []
  have part : loadAppendOnlyFile cutCommands (fun (argvs : List Argv) argv => argvs ++ [argv]) true [] ((logFile cutLog).take 42) =
      some ([[[83, 69, 84], [97], [49]]], (logFile cutLog).take 42) := by decide +kernel
  rw [part, Option.some.injEq, Prod.mk.injEq] at loaded
  exact absurd loaded.1 (by decide)

end Cplusplus.Redis.AofLoad
