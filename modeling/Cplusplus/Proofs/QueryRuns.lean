import Cplusplus.Library.Run
import Cplusplus.Proofs.UtilText
import Cplusplus.QueryBuffer

/-! What `processMultibulkBuffer` reads of a stream of multibulk requests, however much of it has arrived. -/

namespace Cplusplus.Redis.Query

open List

section
open Decimal

def line (mark : UInt8) (n : Nat) : Bytes := mark :: (decimal n ++ [13, 10])

def bulk (arg : Bytes) : Bytes := line 36 arg.length ++ (arg ++ [13, 10])

def multibulk (argv : List Bytes) : Bytes := line 42 argv.length ++ argv.flatMap bulk

variable {mark : UInt8} {n : Nat} {u more rest : Bytes}

theorem strchr_none {target : UInt8} {s : Bytes} (absent : ∀ c ∈ s, c ≠ target) : strchr target s = none := by
  induction s with
  | nil => rfl
  | cons c s ih =>
    obtain ⟨other, absent⟩ := forall_mem_cons.mp absent
    rw [strchr, if_neg other, ih absent]
    split <;> rfl

theorem strchr_found {target : UInt8} {front : Bytes} (absent : ∀ c ∈ front, c ≠ target ∧ c ≠ 0) (s : Bytes) :
    strchr target (front ++ target :: s) = some front.length := by
  induction front with
  | nil => rw [nil_append, strchr, if_pos rfl, length_nil]
  | cons c front ih =>
    obtain ⟨⟨other, nonzero⟩, absent⟩ := forall_mem_cons.mp absent
    rw [cons_append, strchr, if_neg other, if_neg nonzero, ih absent, Option.map_some, length_cons]

section
variable (plain : mark ≠ 13 ∧ mark ≠ 0)
include plain

theorem line_plain (n : Nat) : ∀ c ∈ mark :: decimal n, c ≠ 13 ∧ c ≠ 0 := by
  refine forall_mem_cons.mpr ⟨plain, fun c digit => ?_⟩
  have range := decimal_between n c digit
  constructor <;>
  · rintro rfl
    exact absurd range.1 (by decide)

theorem line_arrives (same : u ++ more = line mark n ++ rest) : (∃ v, u = line mark n ++ v ∧ v ++ more = rest) ∨
      (more ≠ [] ∧ u.length < (line mark n).length ∧ (strchr 13 u = none ∨ ∃ newline, strchr 13 u = some newline ∧ (u.length : Int) - 2 < newline)) := by
  obtain ⟨v, whole, left⟩ | ⟨missing, front, left⟩ := append_eq_append_iff.mp same.symm
  · exact .inl ⟨v, whole, left.symm⟩
  · cases missing with
    | nil => exact .inl ⟨[], by rw [append_nil] at front ⊢; exact front.symm, left⟩
    | cons next missing =>
      refine .inr ⟨by rw [left]; exact cons_ne_nil _ _, ?_, ?_⟩
      · rw [front, length_append, length_cons]
        omega
      have text : (mark :: decimal n) ++ [13, 10] = u ++ next :: missing := front
      obtain ⟨w, inside, _⟩ | ⟨w, rfl, ending⟩ := append_eq_append_iff.mp text.symm
      · refine .inl (strchr_none fun c member => (line_plain plain n c ?_).1)
        rw [inside]
        exact mem_append_left w member
      · cases w with
        | nil =>
          rw [append_nil]
          exact .inl (strchr_none fun c member => (line_plain plain n c member).1)
        | cons c w =>
          -- Only the end of the line is missing.
          obtain ⟨rfl, ending⟩ := cons.inj ending
          have length := congrArg List.length ending
          obtain rfl : w = [] := by
            apply length_eq_zero_iff.mp
            simp only [length_append, length_cons, length_nil] at length
            omega
          refine .inr ⟨_, strchr_found (line_plain plain n) [], ?_⟩
          simp only [length_append, length_cons, length_nil]
          omega

theorem strchr_line (n : Nat) (v : Bytes) : strchr 13 (line mark n ++ v) = some ((decimal n).length + 1) := by
  have split : line mark n ++ v = (mark :: decimal n) ++ 13 :: (10 :: v) := by
    rw [line, cons_append, append_assoc]
    rfl
  rw [split, strchr_found (line_plain plain n), length_cons]

end

theorem string2ll_line (mark : UInt8) {n : Nat} (small : (n : Int) < 2 ^ 63) (v : Bytes) :
    string2ll (((line mark n ++ v).drop 1).take ((decimal n).length + 1 - 1)) = some (n : Int) := by
  have digits : ((line mark n ++ v).drop 1).take ((decimal n).length + 1 - 1) = numeral n := by
    rw [numeral, if_neg (by omega), Int.natAbs_natCast, nil_append, Nat.add_sub_cancel, line, cons_append, drop_succ_cons,
      drop_zero, append_assoc, take_left]
  rw [digits]
  exact string2ll_complete (by omega) small

def Client.others (c : Client) : ReqType × Bool × Bool × Bool × Bool × List ProtocolError × List (List Bytes) :=
  (c.reqtype, c.slave, c.blocked, c.closeAfterReply, c.freed, c.errors, c.commands)

theorem getD_drop (l : Bytes) (i : Nat) : l.getD i 0 = (l.drop i).headD 0 := by
  rw [getD_eq_getElem?_getD, headD_eq_head?_getD, head?_drop]

/-- The length of a bulk is read, or more is to come, or the error is that of the limit on the buffer. -/
theorem bulkHeader_spec {c : Client} {pos : Nat} (inside : pos ≤ c.querybuf.length) (unknown : c.bulklen = none) {arg : Bytes}
    (fits : arg.length ≤ 512 * 1024 * 1024) (same : c.querybuf.drop pos ++ more = bulk arg ++ rest) :
    (bulkHeader c pos = .error (protocolError c .tooBigBulkCount 0) ∧ more ≠ []) ∨ (bulkHeader c pos = .incomplete ∧ more ≠ []) ∨
      ∃ c' pos', bulkHeader c pos = .length c' pos' arg.length ∧ pos' ≤ c'.querybuf.length ∧ c'.bulklen = some arg.length ∧
        c'.argv = c.argv ∧ c'.multibulklen = c.multibulklen ∧ c'.others = c.others ∧
        c'.querybuf.drop pos' ++ more = arg ++ [13, 10] ++ rest := by
  have plain : (36 : UInt8) ≠ 13 ∧ (36 : UInt8) ≠ 0 := by decide
  have length : (c.querybuf.drop pos).length = c.querybuf.length - pos := length_drop
  rw [bulk, append_assoc] at same
  unfold bulkHeader
  rw [unknown]
  simp only
  obtain ⟨v, whole, left⟩ | ⟨coming, -, none_ | ⟨newline, found, early⟩⟩ := line_arrives plain same
  · have size : (line 36 arg.length).length = (decimal arg.length).length + 3 := by
      simp only [line, length_cons, length_append, length_nil]
    have total := congrArg List.length whole
    rw [length, length_append, size] at total
    have behind : c.querybuf.drop (pos + ((decimal arg.length).length + 1) + 2) = v := by
      rw [show pos + ((decimal arg.length).length + 1) + 2 = pos + (line 36 arg.length).length by omega, ← drop_drop, whole, drop_left]
    have mark : c.byte pos = 36 := by
      rw [Client.byte, getD_drop, whole]
      rfl
    have number := string2ll_line 36 (show (arg.length : Int) < 2 ^ 63 by omega) v
    rw [← whole, drop_drop] at number
    rw [whole, strchr_line plain]
    simp only [mark, number]
    rw [if_neg (by omega), if_neg (by simp), if_neg (by omega)]
    have text : v ++ more = arg ++ [13, 10] ++ rest := left
    split
    · refine .inr (.inr ⟨_, 0, rfl, Nat.zero_le _, rfl, rfl, rfl, rfl, ?_⟩)
      rw [drop_zero]
      simp only [behind, text]
    · refine .inr (.inr ⟨_, _, rfl, ?_, rfl, rfl, rfl, rfl, ?_⟩)
      · simp only
        omega
      · simp only [behind, text]
  · rw [none_]
    simp only
    split
    · exact .inl ⟨rfl, coming⟩
    · exact .inr (.inl ⟨rfl, coming⟩)
  · rw [found]
    simp only
    rw [if_pos (by omega)]
    exact .inr (.inl ⟨rfl, coming⟩)

/-- What is left of the bulks of these arguments, given what is known of the first one. -/
def Unread (bulklen : Option Nat) (args : List Bytes) (rest text : Bytes) : Prop :=
  (bulklen = none ∧ text = args.flatMap bulk ++ rest) ∨
    ∃ arg args', args = arg :: args' ∧ bulklen = some arg.length ∧ text = arg ++ [13, 10] ++ (args'.flatMap bulk ++ rest)

/-- How the loop over the bulks of these arguments ends: with the error of the limit on the buffer, or in
front of an argument that has not arrived. -/
def Reads (c : Client) (args : List Bytes) (rest more : Bytes) (result : Client × Nat × Bool) : Prop :=
  (result.2.2 = true ∧ more ≠ [] ∧ result.1.errors = c.errors ++ [.tooBigBulkCount] ∧ result.1.closeAfterReply = true ∧
      result.1.commands = c.commands ∧ result.1.freed = c.freed) ∨
    result.2.2 = false ∧ result.1.others = c.others ∧ ∃ done left, args = done ++ left ∧ result.1.argv = c.argv ++ done ∧
      result.1.multibulklen = left.length ∧ Unread result.1.bulklen left rest (result.1.querybuf.drop result.2.1 ++ more) ∧
      (left ≠ [] → more ≠ [])

theorem Reads.cons {c after : Client} {arg : Bytes} {args : List Bytes} {result : Client × Nat × Bool} (reads : Reads after args rest more result)
    (argv : after.argv = c.argv ++ [arg]) (others : after.others = c.others) : Reads c (arg :: args) rest more result := by
  obtain ⟨error, coming, errors, close, commands, freed⟩ | ⟨fine, same, done, left, split, appended, count, unread, coming⟩ := reads
  · simp only [Client.others, Prod.mk.injEq] at others
    exact .inl ⟨error, coming, errors.trans (by rw [others.2.2.2.2.2.1]), close, commands.trans others.2.2.2.2.2.2,
      freed.trans others.2.2.2.2.1⟩
  · refine .inr ⟨fine, same.trans others, arg :: done, left, by rw [split, cons_append], ?_, count, unread, coming⟩
    rw [appended, argv, append_assoc, singleton_append]

theorem multibulkLoop_spec {args : List Bytes} (fits : ∀ arg ∈ args, arg.length ≤ 512 * 1024 * 1024) {c : Client} {pos : Nat}
    (inside : pos ≤ c.querybuf.length) (count : c.multibulklen = args.length)
    (same : Unread c.bulklen args rest (c.querybuf.drop pos ++ more)) : Reads c args rest more (multibulkLoop args.length c pos) := by
  induction args generalizing c pos with
  | nil => exact .inr ⟨rfl, rfl, [], [], rfl, (append_nil _).symm, count, same, fun some_ => absurd rfl some_⟩
  | cons arg args ih =>
    obtain ⟨fit, fits⟩ := forall_mem_cons.mp fits
    -- The length is known: the argument has arrived, or is waited for.
    have body : ∀ (c' : Client) (pos' : Nat), pos' ≤ c'.querybuf.length → c'.bulklen = some arg.length → c'.argv = c.argv →
        c'.multibulklen = c.multibulklen → c'.others = c.others →
        c'.querybuf.drop pos' ++ more = arg ++ [13, 10] ++ (args.flatMap bulk ++ rest) →
        bulkHeader c pos = .length c' pos' arg.length → Reads c (arg :: args) rest more (multibulkLoop (args.length + 1) c pos) := by
      intro c' pos' inside' known argv' count' others' text header
      have length : (c'.querybuf.drop pos').length = c'.querybuf.length - pos' := length_drop
      rw [multibulkLoop, header]
      simp only
      by_cases short : c'.querybuf.length - pos' < arg.length + 2
      · rw [if_pos short]
        refine .inr ⟨rfl, others', [], arg :: args, rfl, argv'.trans (append_nil _).symm, count'.trans count,
          .inr ⟨arg, args, rfl, known, text⟩, fun _ nothing => ?_⟩
        have total := congrArg List.length text
        rw [nothing, append_nil, length] at total
        simp only [length_append, length_cons, length_nil] at total
        omega
      · obtain ⟨w, whole, left⟩ : ∃ w, c'.querybuf.drop pos' = arg ++ [13, 10] ++ w ∧ w ++ more = args.flatMap bulk ++ rest := by
          obtain ⟨w, whole, left⟩ | ⟨w, whole, left⟩ := append_eq_append_iff.mp text.symm
          · exact ⟨w, whole, left.symm⟩
          · have total := congrArg List.length whole
            simp only [length_append, length_cons, length_nil, length] at total
            obtain rfl : w = [] := length_eq_zero_iff.mp (by omega)
            exact ⟨[], by rw [append_nil] at whole ⊢; exact whole.symm, left⟩
        have front : (c'.querybuf.drop pos').take arg.length = arg := by
          rw [whole, append_assoc, take_left]
        rw [if_neg short]
        by_cases alone : pos' = 0 ∧ mbulkBigArg ≤ arg.length ∧ c'.querybuf.length = arg.length + 2
        · -- The buffer becomes the argument.
          rw [if_pos alone]
          obtain ⟨rfl, -, all⟩ := alone
          rw [drop_zero] at front whole
          have total := congrArg List.length whole
          simp only [length_append, length_cons, length_nil] at total
          obtain rfl : w = [] := length_eq_zero_iff.mp (by omega)
          refine Reads.cons (ih fits (Nat.zero_le _) rfl (.inl ⟨rfl, left⟩)) ?_ others'
          rw [front, argv']
        · rw [if_neg alone]
          have behind : c'.querybuf.drop (pos' + (arg.length + 2)) = w := by
            rw [← drop_drop, whole, show arg.length + 2 = (arg ++ [13, 10] : Bytes).length by simp, drop_left]
          refine Reads.cons (ih fits ?_ rfl (.inl ⟨rfl, ?_⟩)) ?_ others'
          · simp only
            omega
          · simp only [behind, left]
          · rw [front, argv']
    obtain ⟨unknown, text⟩ | ⟨first, args', split, known, text⟩ := same
    · rw [flatMap_cons, append_assoc] at text
      obtain ⟨error, coming⟩ | ⟨incomplete, coming⟩ | ⟨c', pos', header, inside', known, argv', count', others', text'⟩ :=
        bulkHeader_spec inside unknown fit text
      · rw [length_cons, multibulkLoop, error]
        exact .inl ⟨rfl, coming, rfl, rfl, rfl, rfl⟩
      · rw [length_cons, multibulkLoop, incomplete]
        refine .inr ⟨rfl, rfl, [], arg :: args, rfl, (append_nil _).symm, count, .inl ⟨unknown, ?_⟩, fun _ => coming⟩
        rw [text, flatMap_cons, append_assoc]
      · exact body c' pos' inside' known argv' count' others' text' header
    · obtain ⟨rfl, rfl⟩ := cons.inj split
      refine body c pos inside known rfl rfl rfl text ?_
      rw [bulkHeader, known]

end

/-! Multibulk requests that arrive in any pieces, for a client that may be blocked or paused meanwhile. -/

section
open CheckAof (strcasecmp)
open Decimal

def stream (vectors : List (List Bytes)) : Bytes := vectors.flatMap multibulk

/-- The limits of the protocol, and it is not QUIT. -/
structure Sized (argv : List Bytes) : Prop where
  few : argv.length ≤ 1024 * 1024
  fits : ∀ arg ∈ argv, arg.length ≤ 512 * 1024 * 1024
  stays : strcasecmp (argv.headD []) quitName = false

variable {c : Client} {todo : List (List Bytes)} {more : Bytes}

def Position (c : Client) (todo : List (List Bytes)) (text : Bytes) : Prop :=
  (c.multibulklen = 0 ∧ c.bulklen = none ∧ c.argv = [] ∧ (c.reqtype = .unknown ∨ c.reqtype = .multibulk ∧ c.querybuf ≠ []) ∧
      text = stream todo) ∨
    ∃ left rest, todo = (c.argv ++ left) :: rest ∧ left ≠ [] ∧ c.multibulklen = left.length ∧ c.reqtype = .multibulk ∧
      Unread c.bulklen left (stream rest) text

structure TooBig (c after : Client) : Prop where
  errors : after.errors = c.errors ++ [.tooBigBulkCount]
  close : after.closeAfterReply = true
  commands : after.commands = c.commands
  freed : after.freed = c.freed

variable {left : List Bytes}

theorem readBulks_spec {rest : Bytes} (fits : ∀ arg ∈ left, arg.length ≤ 512 * 1024 * 1024) {pos : Nat} (inside : pos ≤ c.querybuf.length)
    (count : c.multibulklen = left.length) (same : Unread c.bulklen left rest (c.querybuf.drop pos ++ more)) :
    ∃ after ok, readBulks c pos = (after, ok) ∧ ((ok = false ∧ more ≠ [] ∧ TooBig c after) ∨
        (ok = false ∧ after.others = c.others ∧ more ≠ [] ∧ ∃ done left', left = done ++ left' ∧ left' ≠ [] ∧ after.argv = c.argv ++ done ∧
          after.multibulklen = left'.length ∧ Unread after.bulklen left' rest (after.querybuf ++ more)) ∨
        ok = true ∧ after.others = c.others ∧ after.argv = c.argv ++ left ∧ after.querybuf ++ more = rest) := by
  have loop := multibulkLoop_spec fits inside count same
  rw [← count] at loop
  unfold readBulks
  generalize multibulkLoop c.multibulklen c pos = result at loop
  obtain ⟨after, pos', error⟩ := result
  obtain ⟨rfl, coming, errors, close, commands, freed⟩ | ⟨rfl, others, done, left', split, argv, count', unread, coming⟩ := loop
  · exact ⟨after, false, rfl, .inl ⟨rfl, coming, errors, close, commands, freed⟩⟩
  · simp only at others argv count' unread
    refine ⟨{ after with querybuf := after.querybuf.drop pos' }, decide (after.multibulklen = 0), rfl, ?_⟩
    cases left' with
    | nil =>
      rw [append_nil] at split
      refine .inr (.inr ⟨decide_eq_true count', others, by rw [argv, split], ?_⟩)
      obtain ⟨-, text⟩ | ⟨_, _, impossible, -⟩ := unread
      · exact text
      · cases impossible
    | cons arg left' =>
      have waits : after.multibulklen ≠ 0 := by
        rw [count', length_cons]
        omega
      exact .inr (.inl ⟨decide_eq_false waits, others, coming (cons_ne_nil _ _), done, arg :: left', split, cons_ne_nil _ _, argv,
        count', unread⟩)

theorem line_length_lt {n : Nat} (few : n ≤ 1024 * 1024) (mark : UInt8) : (line mark n).length ≤ 10 := by
  have digits : (decimal n).length ≤ 7 := by
    have low : Nat.log 10 n = 0 ∨ 10 ^ Nat.log 10 n ≤ n := by
      rcases Nat.eq_zero_or_pos n with rfl | positive
      · exact .inl rfl
      · exact .inr (Nat.pow_log_le_self 10 (by omega))
    rw [decimal_length low (Nat.lt_pow_succ_log_self (by decide) n)]
    exact Nat.log_lt_of_lt_pow' (by decide) (by omega)
  simp only [line, length_cons, length_append, length_nil]
  omega

theorem Unread.longer {bulklen : Option Nat} {rest text : Bytes} (unread : Unread bulklen left rest text) (some_ : left ≠ []) :
    rest.length < text.length := by
  obtain ⟨-, rfl⟩ | ⟨arg, left', -, -, rfl⟩ := unread
  · obtain ⟨arg, left, rfl⟩ := exists_cons_of_ne_nil some_
    simp only [flatMap_cons, bulk, line, length_append, length_cons, length_nil]
    omega
  · simp only [length_append, length_cons, length_nil]
    omega

theorem readBulks_request (c : Client) (pos : Nat) {rest : List (List Bytes)} (sized : Sized (c.argv ++ left))
    (some_ : left ≠ []) (multi : c.reqtype = .multibulk) (inside : pos ≤ c.querybuf.length) (count : c.multibulklen = left.length)
    (unread : Unread c.bulklen left (stream rest) (c.querybuf.drop pos ++ more)) :
    ∃ after ok, readBulks c pos = (after, ok) ∧ ((ok = false ∧ more ≠ [] ∧ TooBig c after) ∨
        (ok = false ∧ after.others = c.others ∧ more ≠ [] ∧ Position after ((c.argv ++ left) :: rest) (after.querybuf ++ more)) ∨
        ok = true ∧ after.others = c.others ∧ after.argv = c.argv ++ left ∧ after.querybuf ++ more = stream rest ∧
          after.querybuf.length < c.querybuf.length) := by
  have fits : ∀ arg ∈ left, arg.length ≤ 512 * 1024 * 1024 := fun arg member => sized.fits arg (mem_append_right _ member)
  obtain ⟨after, ok, read, error | ⟨rfl, others, coming, done, left', rfl, more_, argv, count', unread'⟩ | ⟨rfl, others, argv, text⟩⟩ :=
    readBulks_spec fits inside count unread
  · exact ⟨after, ok, read, .inl error⟩
  · refine ⟨after, false, read, .inr (.inl ⟨rfl, others, coming, .inr ⟨left', rest, ?_, more_, count', ?_, unread'⟩⟩)⟩
    · rw [argv, append_assoc]
    · exact (congrArg Prod.fst others).trans multi
  · refine ⟨after, true, read, .inr (.inr ⟨rfl, others, argv, text, ?_⟩)⟩
    have longer := unread.longer some_
    rw [← text, length_append, length_append, length_drop] at longer
    omega

theorem processMultibulkBuffer_spec (c : Client) (sized : ∀ argv ∈ todo, Sized argv) (multi : c.reqtype = .multibulk) (some_ : c.querybuf ≠ [])
    (at_ : Position c todo (c.querybuf ++ more)) :
    ∃ after ok, processMultibulkBuffer c = some (after, ok) ∧ ((ok = false ∧ more ≠ [] ∧ TooBig c after) ∨
        (ok = false ∧ after.others = c.others ∧ more ≠ [] ∧ Position after todo (after.querybuf ++ more)) ∨
        ok = true ∧ after.others = c.others ∧ ∃ rest, todo = after.argv :: rest ∧ after.querybuf ++ more = stream rest ∧
          after.querybuf.length < c.querybuf.length) := by
  obtain ⟨zero, unknown, none_, -, text⟩ | ⟨left, rest, rfl, waits, count, -, unread⟩ := at_
  · cases todo with
    | nil =>
      rw [stream, flatMap_nil] at text
      exact absurd (append_eq_nil_iff.mp text).1 some_
    | cons argv rest =>
      have fine := sized argv mem_cons_self
      have plain : (42 : UInt8) ≠ 13 ∧ (42 : UInt8) ≠ 0 := by decide
      have header : c.querybuf ++ more = line 42 argv.length ++ (argv.flatMap bulk ++ stream rest) := by
        rw [text, stream, flatMap_cons, multibulk, append_assoc]
        rfl
      have short := line_length_lt fine.few 42
      unfold processMultibulkBuffer
      rw [if_neg (by simp [zero]), if_neg (by simp [none_])]
      obtain ⟨v, whole, left⟩ | ⟨coming, early, missing | ⟨newline, found, end_⟩⟩ := line_arrives plain header
      · have size : (line 42 argv.length).length = (decimal argv.length).length + 3 := by
          simp only [line, length_cons, length_append, length_nil]
        have total := congrArg List.length whole
        rw [length_append, size] at total
        have behind : c.querybuf.drop ((decimal argv.length).length + 1 + 2) = v := by
          rw [whole, ← size, drop_left]
        have mark : c.byte 0 = 42 := by
          rw [Client.byte, whole]
          rfl
        have few := fine.few
        have number := string2ll_line 42 (show (argv.length : Int) < 2 ^ 63 by omega) v
        rw [← whole] at number
        rw [whole, strchr_line plain, ← whole]
        simp only [mark, number]
        rw [if_neg (by omega), if_neg (by simp), if_neg (by omega)]
        by_cases empty : argv = []
        · subst empty
          rw [if_pos (by simp)]
          refine ⟨_, true, rfl, .inr (.inr ⟨rfl, rfl, rest, by rw [none_], ?_, ?_⟩)⟩
          · simp only [behind, left]
            rfl
          · simp only [behind]
            omega
        · have positive := length_pos_iff.mpr empty
          rw [if_neg (by omega)]
          obtain ⟨after, ok, read, outcome⟩ :=
            readBulks_request { c with multibulklen := (argv.length : Int).toNat } ((decimal argv.length).length + 1 + 2)
              (by rw [none_]; exact fine) empty multi (by simp only; omega) (by simp) (.inl ⟨unknown, by rw [behind]; exact left⟩)
          refine ⟨after, ok, by rw [read], ?_⟩
          obtain ⟨rfl, coming, error⟩ | waiting | ⟨rfl, others, all, text', shorter⟩ := outcome
          · exact .inl ⟨rfl, coming, error.errors, error.close, error.commands, error.freed⟩
          · rw [none_] at waiting
            exact .inr (.inl waiting)
          · exact .inr (.inr ⟨rfl, others, rest, by rw [all, none_]; rfl, text', shorter⟩)
      · have small : ¬ inlineMaxSize < c.querybuf.length := by
          unfold inlineMaxSize
          omega
        rw [missing]
        simp only [if_neg small]
        exact ⟨c, false, rfl, .inr (.inl ⟨rfl, rfl, coming, .inl ⟨zero, unknown, none_, .inr ⟨multi, some_⟩, text⟩⟩)⟩
      · rw [found]
        simp only [if_pos end_]
        exact ⟨c, false, rfl, .inr (.inl ⟨rfl, rfl, coming, .inl ⟨zero, unknown, none_, .inr ⟨multi, some_⟩, text⟩⟩)⟩
  · have nonzero : c.multibulklen ≠ 0 := by
      rw [count]
      exact fun zero => waits (length_eq_zero_iff.mp zero)
    obtain ⟨after, ok, read, outcome⟩ := readBulks_request c 0 (sized _ mem_cons_self) waits multi (Nat.zero_le _) count unread
    refine ⟨after, ok, by rw [processMultibulkBuffer, if_pos nonzero, read], ?_⟩
    obtain error | waiting | ⟨rfl, others, argv, text, shorter⟩ := outcome
    · exact .inl error
    · exact .inr (.inl waiting)
    · exact .inr (.inr ⟨rfl, others, rest, by rw [argv], text, shorter⟩)

variable {s : State} {vectors : List (List Bytes)}

structure Follows (vectors : List (List Bytes)) (s : State) : Prop where
  front : ∃ done todo, vectors = done ++ todo ∧ s.client.commands = done.filter (· ≠ []) ∧
    Position s.client todo (s.client.querybuf ++ s.arriving)
  fine : s.client.errors = []
  stays : s.client.closeAfterReply = false

structure Refused (vectors : List (List Bytes)) (s : State) : Prop where
  front : ∃ done todo, vectors = done ++ todo ∧ s.client.commands = done.filter (· ≠ [])
  error : s.client.errors = [.tooBigBulkCount]
  closes : s.client.closeAfterReply = true

def Rests (s : State) : Prop :=
  s.client.querybuf = [] ∨ (s.client.slave = false ∧ s.paused = true) ∨ s.client.blocked = true ∨ s.arriving ≠ []

theorem determineType_known (type : c.reqtype = .multibulk) : determineType c = { c with reqtype := .multibulk } := by
  cases c
  obtain rfl := type
  rfl

theorem determineType_eq (some_ : c.querybuf ≠ []) (at_ : Position c todo (c.querybuf ++ more)) :
    determineType c = { c with reqtype := .multibulk } ∧ Position { c with reqtype := .multibulk } todo (c.querybuf ++ more) := by
  obtain ⟨zero, unknown, none_, type, text⟩ | ⟨left, rest, split, waits, count, type, unread⟩ := at_
  · refine ⟨?_, .inl ⟨zero, unknown, none_, .inr ⟨rfl, some_⟩, text⟩⟩
    obtain type | ⟨type, -⟩ := type
    · have first : c.byte 0 = 42 := by
        obtain ⟨b, q, buffer⟩ := exists_cons_of_ne_nil some_
        cases todo with
        | nil =>
          rw [buffer] at text
          cases text
        | cons argv rest =>
          rw [buffer, stream, flatMap_cons, multibulk, line] at text
          rw [Client.byte, buffer]
          exact (cons.inj text).1
      rw [determineType, type]
      simp only [first, if_true]
    · exact determineType_known type
  · refine ⟨?_, .inr ⟨left, rest, split, waits, count, rfl, unread⟩⟩
    exact determineType_known type

theorem position_reset {rest : List (List Bytes)} {text : Bytes} (same : text = stream rest) : Position (resetClient c) rest text :=
  .inl ⟨rfl, rfl, rfl, .inl rfl, same⟩

theorem Follows.process (server : Server) (sized : ∀ argv ∈ vectors, Sized argv) {fuel : Nat} (enough : s.client.querybuf.length ≤ fuel) (follows : Follows vectors s) :
    ∃ after, inputLoop server fuel s = some after ∧ after.client.freed = s.client.freed ∧ after.arriving = s.arriving ∧
      (Refused vectors after ∧ s.arriving ≠ [] ∨ Follows vectors after ∧ Rests after) := by
  induction fuel generalizing s with
  | zero =>
    have empty : s.client.querybuf = [] := length_eq_zero_iff.mp (Nat.le_zero.mp enough)
    exact ⟨s, rfl, rfl, rfl, .inr ⟨follows, .inl empty⟩⟩
  | succ fuel ih =>
    obtain ⟨⟨done, todo, rfl, commands, at_⟩, fine, stays⟩ := follows
    have here : Follows (done ++ todo) s := ⟨⟨done, todo, rfl, commands, at_⟩, fine, stays⟩
    rw [inputLoop]
    by_cases empty : s.client.querybuf = []
    · rw [if_pos empty]
      exact ⟨s, rfl, rfl, rfl, .inr ⟨here, .inl empty⟩⟩
    rw [if_neg empty]
    by_cases paused : (!s.client.slave && s.paused) = true
    · rw [if_pos paused]
      refine ⟨s, rfl, rfl, rfl, .inr ⟨here, .inr (.inl ?_)⟩⟩
      simpa using paused
    rw [if_neg paused]
    by_cases blocked : s.client.blocked = true
    · rw [if_pos blocked]
      exact ⟨s, rfl, rfl, rfl, .inr ⟨here, .inr (.inr (.inl blocked))⟩⟩
    rw [if_neg blocked, if_neg (by simp [stays])]
    obtain ⟨type, at_⟩ := determineType_eq empty at_
    obtain ⟨after, ok, read, outcome⟩ := processMultibulkBuffer_spec { s.client with reqtype := .multibulk }
      (fun argv member => sized argv (mem_append_right _ member)) rfl empty at_
    rw [type]
    simp only [read, Option.bind_eq_bind, Option.bind_some]
    obtain ⟨rfl, coming, error⟩ | ⟨rfl, others, coming, at'⟩ | ⟨rfl, others, rest, rfl, text, shorter⟩ := outcome
    · refine ⟨{ s with client := after }, rfl, error.freed, rfl,
        .inl ⟨⟨⟨done, todo, rfl, error.commands.trans commands⟩, ?_, error.close⟩, coming⟩⟩
      exact error.errors.trans (by rw [fine]; rfl)
    · simp only [Client.others, Prod.mk.injEq] at others
      obtain ⟨-, -, -, close, freed, errors, commands'⟩ := others
      refine ⟨{ s with client := after }, rfl, freed, rfl, .inr ⟨⟨⟨done, todo, rfl, commands'.trans commands, at'⟩, errors.trans fine,
        close.trans stays⟩, .inr (.inr (.inr coming))⟩⟩
    · simp only [Client.others, Prod.mk.injEq] at others
      obtain ⟨-, -, -, close, freed, errors, commands'⟩ := others
      simp only [Bool.not_true, Bool.false_eq_true, if_false]
      have fits : after.querybuf.length ≤ fuel := Nat.le_of_lt_succ (Nat.lt_of_lt_of_le shorter enough)
      by_cases none_ : after.argv = []
      · rw [if_pos none_]
        have next : Follows (done ++ after.argv :: rest) { s with client := resetClient after } := by
          refine ⟨⟨done ++ [[]], rest, ?_, ?_, position_reset text⟩, errors.trans fine, close.trans stays⟩
          · rw [none_, append_assoc, singleton_append]
          · rw [filter_append, filter_cons_of_neg (by simp), filter_nil, append_nil]
            exact commands'.trans commands
        obtain ⟨last, run, freed', arriving', result⟩ := ih (s := { s with client := resetClient after }) fits next
        exact ⟨last, run, freed'.trans freed, arriving', result⟩
      · have name := (sized after.argv (mem_append_right _ mem_cons_self)).stays
        rw [if_neg none_, processCommand]
        simp only [name, Bool.false_eq_true, if_false, if_true]
        generalize server.call (after.commands ++ [after.argv]) = effect
        have next : Follows (done ++ after.argv :: rest)
            { s with client := resetClient { after with commands := after.commands ++ [after.argv], blocked := effect.blocks,
                                                        slave := after.slave || effect.enslaves }
                     paused := s.paused || effect.pauses } := by
          refine ⟨⟨done ++ [after.argv], rest, ?_, ?_, position_reset text⟩, errors.trans fine, close.trans stays⟩
          · rw [append_assoc, singleton_append]
          · rw [filter_append, filter_cons_of_pos (by simpa using none_), filter_nil]
            exact congrArg (· ++ [after.argv]) (commands'.trans commands)
        obtain ⟨last, run, freed', arriving', result⟩ := ih fits next
        exact ⟨last, run, freed'.trans freed, arriving', result⟩

theorem inputLoop_closed (server : Server) (closes : s.client.closeAfterReply = true) (fuel : Nat) : inputLoop server fuel s = some s := by
  cases fuel with
  | zero => rfl
  | succ fuel =>
    rw [inputLoop, if_pos closes]
    repeat
      split
      · rfl
    rfl

def InStream (vectors : List (List Bytes)) (s : State) : Prop := Refused vectors s ∨ Follows vectors s

theorem InStream.flags (inStream : InStream vectors s) (freed blocked paused : Bool) :
    InStream vectors { s with client := { s.client with freed, blocked }, paused } :=
  inStream.imp (fun refused => ⟨refused.front, refused.error, refused.closes⟩) fun follows => ⟨follows.front, follows.fine, follows.stays⟩

theorem InStream.append {bytes arriving : Bytes} (freed : Bool) (inStream : InStream vectors s) (split : s.arriving = bytes ++ arriving) :
    InStream vectors { s with client := { s.client with querybuf := s.client.querybuf ++ bytes, freed }, arriving } := by
  obtain ⟨front, error, closes⟩ | ⟨⟨done, todo, whole, commands, at_⟩, fine, stays⟩ := inStream
  · exact .inl ⟨front, error, closes⟩
  · refine .inr ⟨⟨done, todo, whole, commands, ?_⟩, fine, stays⟩
    rw [split, ← append_assoc] at at_
    obtain ⟨zero, unknown, none_, type, text⟩ | inside := at_
    · refine .inl ⟨zero, unknown, none_, type.imp_right fun multi => ⟨multi.1, ?_⟩, text⟩
      exact fun empty => multi.2 (append_eq_nil_iff.mp empty).1
    · exact .inr inside

theorem InStream.process (server : Server) (sized : ∀ argv ∈ vectors, Sized argv) (inStream : InStream vectors s) :
    ∃ after, processInputBuffer server s = some after ∧ after.client.freed = s.client.freed ∧ after.arriving = s.arriving ∧ InStream vectors after := by
  obtain refused | follows := inStream
  · exact ⟨s, inputLoop_closed server refused.closes _, rfl, rfl, .inl refused⟩
  · obtain ⟨after, run, freed, arriving, result⟩ := follows.process server sized (Nat.le_refl _)
    exact ⟨after, run, freed, arriving, result.imp And.left And.left⟩

theorem InStream.read (server : Server) (sized : ∀ argv ∈ vectors, Sized argv) (inStream : InStream vectors s) (n : Nat) :
    ∃ after, readQueryFromClient server s n = some after ∧ InStream vectors after := by
  unfold readQueryFromClient
  split
  · exact ⟨_, rfl, inStream.flags true s.client.blocked s.paused⟩
  · generalize min n (readLength s.client).toNat = asked
    have split : s.arriving = s.arriving.take asked ++ s.arriving.drop (s.arriving.take asked).length :=
      (prefix_iff_eq_append.mp ( take_prefix asked s.arriving)).symm
    simp only
    split
    · exact ⟨s, rfl, inStream⟩
    · split
      · exact ⟨_, rfl, inStream.append true split⟩
      · obtain ⟨after, run, -, -, kept⟩ := (inStream.append s.client.freed split).process server sized
        exact ⟨after, run, kept⟩

theorem InStream.step (server : Server) (sized : ∀ argv ∈ vectors, Sized argv) (inStream : InStream vectors s) (event : Event) :
    ∃ after, step server s event = some after ∧ InStream vectors after := by
  unfold Query.step
  split
  · exact ⟨s, rfl, inStream⟩
  · cases event with
    | read n => exact inStream.read server sized n
    | process =>
      obtain ⟨after, run, -, -, kept⟩ := inStream.process server sized
      exact ⟨after, run, kept⟩
    | unblock => exact ⟨_, rfl, inStream.flags s.client.freed false s.paused⟩
    | pause => exact ⟨_, rfl, inStream.flags s.client.freed s.client.blocked true⟩
    | unpause => exact ⟨_, rfl, inStream.flags s.client.freed s.client.blocked false⟩

def run (server : Server) (s : State) (events : List Event) : Option State := events.foldlM (Query.step server) s

theorem InStream.run (server : Server) (sized : ∀ argv ∈ vectors, Sized argv) (inStream : InStream vectors s) (events : List Event) :
    ∃ after, Query.run server s events = some after ∧ InStream vectors after :=
  Run.foldlM_total (fun _ event kept => kept.step server sized event) events inStream

theorem Position.done (at_ : Position c todo []) : todo = [] := by
  obtain ⟨-, -, -, -, text⟩ | ⟨left, rest, -, waits, -, -, unread⟩ := at_
  · cases todo with
    | nil => rfl
    | cons argv todo =>
      rw [stream, flatMap_cons, multibulk, line] at text
      cases text
  · exact absurd (unread.longer waits) (Nat.not_lt_zero _)

end

end Cplusplus.Redis.Query
