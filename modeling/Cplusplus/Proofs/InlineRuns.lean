import Cplusplus.Proofs.SplitArguments
import Cplusplus.Proofs.QueryRuns

/-! Inline requests that arrive in any pieces. Each line gives the vector of its words, and nothing of the
next one is lost, as long as no line that ends in LF only is followed by more in the buffer. -/

namespace Cplusplus.Redis.Query

open List
open CheckAof (strcasecmp)
open Sds (words Unquoted)

structure InlineLine where
  content : Bytes
  crlf : Bool

def InlineLine.text (line : InlineLine) : Bytes := line.content ++ if line.crlf then [13, 10] else [10]

structure InlineLine.Plain (line : InlineLine) : Prop where
  unquoted : Unquoted line.content
  single : 10 ∉ line.content
  mark : line.content.head? ≠ some 42
  ending : line.crlf = false → line.content.getLast? ≠ some 13

def linesText (lines : List InlineLine) : Bytes := lines.flatMap InlineLine.text

variable {c : Client} {line : InlineLine} {lines todo : List InlineLine} {buffer front back u v more : Bytes} {s : State}

theorem InlineLine.text_ne_nil (line : InlineLine) : line.text ≠ [] := by
  obtain ⟨content, crlf⟩ := line
  cases crlf <;> simp [InlineLine.text]

theorem InlineLine.text_split (line : InlineLine) : ∃ body, line.text = body ++ [10] ∧ (∀ c ∈ body, c ∈ line.content ∨ c = 13) := by
  obtain ⟨content, crlf⟩ := line
  cases crlf with
  | true =>
    refine ⟨content ++ [13], by simp [InlineLine.text], fun c member => ?_⟩
    rcases mem_append.mp member with member | member
    · exact .inl member
    · exact .inr (mem_singleton.mp member)
  | false => exact ⟨content, rfl, fun c member => .inl member⟩

theorem words_filter (text : Bytes) : (words text).filter (· ≠ []) = words text := by
  rw [words, List.filter_filter]
  simp

theorem InlineLine.Plain.no_carriage (plain : line.Plain) (bare : line.crlf = false) (rest : Bytes) :
    ¬ (0 < line.content.length ∧ (line.content ++ rest).getD (line.content.length - 1) 0 = 13) := by
  rintro ⟨positive, carriage⟩
  have inside : line.content.length - 1 < line.content.length := by omega
  rw [getD_eq_getElem?_getD, getElem?_append_left inside, ← getLast?_eq_getElem?] at carriage
  refine plain.ending bare ?_
  cases last : line.content.getLast? with
  | none =>
    rw [last] at carriage
    cases carriage
  | some b =>
    rw [last] at carriage
    exact congrArg some carriage

theorem processInlineBuffer_split {newline querylen : Nat} {argv : List Bytes} (found : strchr 10 c.querybuf = some newline)
    (length : (if newline ≠ 0 ∧ c.byte (newline - 1) = 13 then newline - 1 else newline) = querylen)
    (split : Sds.sdssplitargs (c.querybuf.take querylen) = some argv) :
    processInlineBuffer c = ({ c with querybuf := c.querybuf.drop (querylen + 2), argv := argv.filter (· ≠ []) }, true) := by
  rw [processInlineBuffer, found]
  simp only [length, split]

theorem processInlineBuffer_line (plain : line.Plain) (same : c.querybuf = line.text ++ v) (alone : line.crlf = false → v = []) :
    processInlineBuffer c = ({ c with querybuf := v, argv := words line.content }, true) := by
  obtain ⟨content, crlf⟩ := line
  have unquoted := plain.unquoted
  have split := Sds.sdssplitargs_words unquoted
  have inside : ∀ c ∈ content, c ≠ 10 ∧ c ≠ 0 := fun c member =>
    ⟨fun same => plain.single (same ▸ member), (unquoted.plain c member).1⟩
  cases crlf with
  | true =>
    have inside' : ∀ c ∈ content ++ [13], c ≠ 10 ∧ c ≠ 0 := by
      intro c member
      rcases mem_append.mp member with member | member
      · exact inside c member
      · obtain rfl := mem_singleton.mp member
        decide
    have text : c.querybuf = (content ++ [13]) ++ 10 :: v := by simp [same, InlineLine.text]
    have found := strchr_found inside' v
    rw [← text, length_append, length_singleton] at found
    have carriage : c.byte (content.length + 1 - 1) = 13 := by simp [Client.byte, text]
    have taken : c.querybuf.take content.length = content := by simp [text]
    have left : c.querybuf.drop (content.length + 2) = v := by
      have size : content.length + 2 = (content ++ [13, 10]).length := by simp
      have whole : c.querybuf = (content ++ [13, 10]) ++ v := by simp [text]
      rw [whole, size, drop_left]
    have length : (if content.length + 1 ≠ 0 ∧ c.byte (content.length + 1 - 1) = 13 then content.length + 1 - 1 else content.length + 1) =
        content.length := if_pos ⟨Nat.succ_ne_zero _, carriage⟩
    rw [processInlineBuffer_split found length (by rw [taken]; exact split), left, words_filter]
  | false =>
    obtain rfl := alone rfl
    have text : c.querybuf = content ++ 10 :: [] := by simp [same, InlineLine.text]
    have found := strchr_found inside []
    rw [← text] at found
    have other : ¬ (content.length ≠ 0 ∧ c.byte (content.length - 1) = 13) := by
      rw [Client.byte, text, ← Nat.pos_iff_ne_zero]
      exact plain.no_carriage rfl [10]
    have taken : c.querybuf.take content.length = content := by simp [text]
    have left : c.querybuf.drop (content.length + 2) = [] := by simp [text]
    rw [processInlineBuffer_split found (if_neg other) (by rw [taken]; exact split), left, words_filter]

theorem processInlineBuffer_waits (none_ : 10 ∉ c.querybuf) (short : c.querybuf.length ≤ inlineMaxSize) : processInlineBuffer c = (c, false) := by
  have missing : strchr 10 c.querybuf = none := strchr_none fun b member same => none_ (same ▸ member)
  rw [processInlineBuffer, missing]
  simp only [if_neg (Nat.not_lt.mpr short)]

structure Fits (clientMaxQuerybufLen : Nat) (buffer : Bytes) : Prop where
  alone : ∀ i < buffer.length, buffer.getD i 0 = 10 → 0 < i ∧ buffer.getD (i - 1) 0 = 13 ∨ i + 1 = buffer.length
  short : (buffer.reverse.takeWhile (· ≠ 10)).length ≤ inlineMaxSize
  small : buffer.length ≤ clientMaxQuerybufLen

variable {limit : Nat}

theorem Fits.behind (fits : Fits limit (front ++ 10 :: v)) : Fits limit v := by
  obtain ⟨alone, short, small⟩ := fits
  refine ⟨fun i inside here => ?_, ?_, ?_⟩
  · have at_ : ∀ j, (front ++ 10 :: v).getD (front.length + 1 + j) 0 = v.getD j 0 := by
      intro j
      rw [getD_drop, getD_drop, ← drop_drop, show front.length + 1 = (front ++ [10]).length by simp,
        show front ++ 10 :: v = (front ++ [10]) ++ v by simp, drop_left]
    have length : (front ++ 10 :: v).length = front.length + 1 + v.length := by
      rw [length_append, length_cons]
      omega
    obtain ⟨-, carriage⟩ | last := alone (front.length + 1 + i) (by omega) (by rw [at_, here])
    · cases i with
      | zero =>
        have before : (front ++ 10 :: v).getD (front.length + 1 + 0 - 1) 0 = 10 := by simp
        rw [before] at carriage
        cases carriage
      | succ i =>
        rw [show front.length + 1 + (i + 1) - 1 = front.length + 1 + i by omega, at_] at carriage
        exact .inl ⟨Nat.succ_pos i, carriage⟩
    · exact .inr (by omega)
  · rw [reverse_append, reverse_cons, append_assoc, singleton_append, takeWhile_append] at short
    split at short
    next whole =>
      rw [whole]
      simp only [length_append] at short
      omega
    next => exact short
  · rw [length_append, length_cons] at small
    omega

theorem Fits.waiting (fits : Fits limit buffer) (none_ : 10 ∉ buffer) : buffer.length ≤ inlineMaxSize := by
  have whole : buffer.reverse.takeWhile (· ≠ 10) = buffer.reverse := by
    have other : ∀ c ∈ buffer.reverse, decide (c ≠ 10) = true := fun c member =>
      decide_eq_true fun same => none_ (same ▸ mem_reverse.mp member)
    have whole : (buffer.reverse ++ []).takeWhile (· ≠ 10) = _ := takeWhile_append_of_pos other
    rwa [append_nil, takeWhile_nil, append_nil] at whole
  have short := fits.short
  rwa [whole, length_reverse] at short

theorem Fits.lone (fits : Fits limit (line.text ++ v)) (plain : line.Plain) (bare : line.crlf = false) : v = [] := by
  obtain ⟨content, crlf⟩ := line
  obtain rfl : crlf = false := bare
  have text : InlineLine.text ⟨content, false⟩ ++ v = content ++ 10 :: v := by simp [InlineLine.text]
  rw [text] at fits
  have here : (content ++ 10 :: v).getD content.length 0 = 10 := by simp
  obtain carriage | last := fits.alone content.length (by simp) here
  · exact absurd carriage (plain.no_carriage rfl (10 :: v))
  · rw [length_append, length_cons] at last
    exact length_eq_zero_iff.mp (by omega)

/-- The lines in front have given the vectors of their words, an empty one is not processed, and all the
text of the others is still there. -/
def Taken (lines : List InlineLine) (s : State) : Prop :=
  ∃ done todo, lines = done ++ todo ∧ s.client.commands = (done.map fun line => words line.content).filter (· ≠ []) ∧
    s.client.querybuf ++ s.arriving = linesText todo

structure InLines (limit : Nat) (lines : List InlineLine) (s : State) : Prop where
  taken : Taken lines s
  type : s.client.reqtype ≠ .multibulk
  fits : Fits limit s.client.querybuf
  fine : s.client.errors = []
  alive : s.client.freed = false

def Waits (s : State) : Prop :=
  10 ∉ s.client.querybuf ∨ (s.client.slave = false ∧ s.paused = true) ∨ s.client.blocked = true ∨ s.client.closeAfterReply = true

theorem inline_arrives (plain : line.Plain) (same : u ++ more = line.text ++ back) : (∃ v, u = line.text ++ v ∧ v ++ more = back) ∨ 10 ∉ u := by
  obtain ⟨body, text, inside⟩ := line.text_split
  have clean : 10 ∉ body := by
    intro member
    rcases inside 10 member with member | same
    · exact plain.single member
    · cases same
  obtain ⟨v, whole, left⟩ | ⟨missing, whole, left⟩ := append_eq_append_iff.mp same.symm
  · exact .inl ⟨v, whole, left.symm⟩
  · rcases eq_nil_or_concat missing with rfl | ⟨missing, last, rfl⟩
    · exact .inl ⟨[], by rw [append_nil] at whole ⊢; exact whole.symm, left⟩
    · rw [text, concat_eq_append, ← append_assoc] at whole
      obtain ⟨rfl, -⟩ := append_inj' whole rfl
      exact .inr fun member => clean (mem_append_left _ member)

theorem first_not_star (plain : line.Plain) (some_ : c.querybuf ≠ []) (same : c.querybuf ++ more = line.text ++ back) : c.byte 0 ≠ 42 := by
  obtain ⟨b, q, buffer⟩ := exists_cons_of_ne_nil some_
  obtain ⟨content, crlf⟩ := line
  have mark := plain.mark
  rw [Client.byte, buffer]
  rw [buffer] at same
  cases content with
  | nil => cases crlf <;> (obtain ⟨rfl, -⟩ := cons.inj same; exact fun star => by cases star)
  | cons first content =>
    obtain ⟨rfl, -⟩ := cons.inj same
    exact fun star => mark (congrArg some star)

theorem determineType_inline (type : c.reqtype ≠ .multibulk) (first : c.byte 0 ≠ 42) : determineType c = { c with reqtype := .inline } := by
  obtain ⟨querybuf, reqtype, multibulklen, bulklen, argv, slave, blocked, closeAfterReply, freed, errors, commands⟩ := c
  cases reqtype with
  | unknown =>
    simp only [determineType]
    rw [if_neg first]
  | inline => rfl
  | multibulk => exact absurd rfl type

theorem InLines.process (call : List (List Bytes) → Effect) (plain : ∀ line ∈ lines, line.Plain) {fuel : Nat}
    (enough : s.client.querybuf.length ≤ fuel) (inLines : InLines limit lines s) :
    ∃ after, inputLoop (inlineServer limit call) fuel s = some after ∧ InLines limit lines after ∧ Waits after ∧ after.arriving = s.arriving := by
  induction fuel generalizing s with
  | zero =>
    have empty : s.client.querybuf = [] := length_eq_zero_iff.mp (Nat.le_zero.mp enough)
    exact ⟨s, rfl, inLines, .inl (by rw [empty]; exact not_mem_nil), rfl⟩
  | succ fuel ih =>
    rw [inputLoop]
    by_cases empty : s.client.querybuf = []
    · rw [if_pos empty]
      exact ⟨s, rfl, inLines, .inl (by rw [empty]; exact not_mem_nil), rfl⟩
    rw [if_neg empty]
    by_cases paused : (!s.client.slave && s.paused) = true
    · rw [if_pos paused]
      exact ⟨s, rfl, inLines, .inr (.inl (by simpa using paused)), rfl⟩
    rw [if_neg paused]
    by_cases blocked : s.client.blocked = true
    · rw [if_pos blocked]
      exact ⟨s, rfl, inLines, .inr (.inr (.inl blocked)), rfl⟩
    rw [if_neg blocked]
    by_cases closes : s.client.closeAfterReply = true
    · rw [if_pos closes]
      exact ⟨s, rfl, inLines, .inr (.inr (.inr closes)), rfl⟩
    rw [if_neg closes]
    have here := inLines
    obtain ⟨⟨done, todo, rfl, commands, text⟩, type, fits, fine, alive⟩ := inLines
    cases todo with
    | nil => exact absurd (append_eq_nil_iff.mp text).1 empty
    | cons line todo =>
      have plain' := plain line (mem_append_right _ mem_cons_self)
      have text' : s.client.querybuf ++ s.arriving = line.text ++ linesText todo := text
      rw [determineType_inline type (first_not_star plain' empty text')]
      obtain ⟨v, whole, left⟩ | coming := inline_arrives plain' text'
      · have alone : line.crlf = false → v = [] := (whole ▸ fits).lone plain'
        have read : processInlineBuffer { s.client with reqtype := .inline } = _ := processInlineBuffer_line plain' whole alone
        simp only [inlineServer, read, Option.bind_eq_bind, Option.bind_some, Bool.not_true, Bool.false_eq_true, if_false]
        obtain ⟨body, ends, -⟩ := line.text_split
        have behind : Fits limit v := by
          rw [whole, ends, append_assoc] at fits
          exact fits.behind
        have shorter : v.length ≤ fuel := by
          have positive := length_pos_iff.mpr line.text_ne_nil
          rw [whole, length_append] at enough
          omega
        have split : done ++ line :: todo = (done ++ [line]) ++ todo := by rw [append_assoc, singleton_append]
        by_cases none_ : words line.content = []
        · rw [if_pos none_]
          have commands' : s.client.commands = ((done ++ [line]).map fun line => words line.content).filter (· ≠ []) := by
            rw [map_append, filter_append, map_singleton, none_]
            simpa using commands
          exact ih shorter ⟨⟨done ++ [line], todo, split, commands', left⟩, (fun type => by cases type), behind, fine, alive⟩
        · rw [if_neg none_]
          have commands' : s.client.commands ++ [words line.content] =
              ((done ++ [line]).map fun line => words line.content).filter (· ≠ []) := by
            rw [map_append, filter_append, map_singleton, filter_cons_of_pos (by simpa using none_), filter_nil, commands]
          simp only [processCommand]
          by_cases quit : strcasecmp ((words line.content).headD []) quitName = true
          · simp only [quit, if_true, Bool.false_eq_true, if_false]
            exact ih shorter ⟨⟨done ++ [line], todo, split, commands', left⟩, (fun type => by cases type), behind, fine, alive⟩
          · simp only [quit, Bool.false_eq_true, if_false, if_true]
            exact ih shorter ⟨⟨done ++ [line], todo, split, commands', left⟩, (fun type => by cases type), behind, fine, alive⟩
      · have read : processInlineBuffer { s.client with reqtype := .inline } = _ := processInlineBuffer_waits coming (fits.waiting coming)
        simp only [inlineServer, read, Option.bind_eq_bind, Option.bind_some, Bool.not_false, if_true]
        exact ⟨_, rfl, ⟨⟨done, line :: todo, rfl, commands, text⟩, (fun type => by cases type), fits, fine, alive⟩, .inl coming, rfl⟩

def buffered (s : State) (n : Nat) : Bytes := s.client.querybuf ++ s.arriving.take (min n (readLength s.client).toNat)

def ReadFits (limit : Nat) (s : State) : Event → Prop
  | .read n => Fits limit (buffered s n)
  | _ => True

theorem readLength_inline (type : c.reqtype ≠ .multibulk) : readLength c = iobufLen := by
  unfold readLength
  split
  next multi _ => exact absurd multi type
  next => rfl

theorem InLines.step (call : List (List Bytes) → Effect) (plain : ∀ line ∈ lines, line.Plain) (inLines : InLines limit lines s) (event : Event)
    (fits : ReadFits limit s event) : ∃ after, step (inlineServer limit call) s event = some after ∧ InLines limit lines after := by
  unfold Query.step
  rw [if_neg (by simp [inLines.alive])]
  cases event with
  | read n =>
    have length := readLength_inline inLines.type
    have positive : ¬ readLength s.client ≤ 0 := by
      rw [length]
      decide
    simp only
    rw [readQueryFromClient, if_neg positive]
    have split : s.arriving = s.arriving.take (min n (readLength s.client).toNat) ++
        s.arriving.drop (s.arriving.take (min n (readLength s.client).toNat)).length :=
      (prefix_iff_eq_append.mp ( take_prefix _ s.arriving)).symm
    have fits' : Fits limit (s.client.querybuf ++ s.arriving.take (min n (readLength s.client).toNat)) := fits
    generalize s.arriving.take (min n (readLength s.client).toNat) = bytes at split fits'
    simp only
    split
    · exact ⟨s, rfl, inLines⟩
    · have small : ¬ (inlineServer limit call).clientMaxQuerybufLen < (s.client.querybuf ++ bytes).length := Nat.not_lt.mpr fits'.small
      rw [if_neg small]
      obtain ⟨⟨done, todo, whole, commands, text⟩, type, -, fine, alive⟩ := inLines
      have joined : (s.client.querybuf ++ bytes) ++ s.arriving.drop bytes.length = linesText todo := by
        rw [append_assoc, ← split]
        exact text
      obtain ⟨after, run, kept, -⟩ := InLines.process call plain (Nat.le_refl _)
        (s := { s with client := { s.client with querybuf := s.client.querybuf ++ bytes }, arriving := s.arriving.drop bytes.length })
        ⟨⟨done, todo, whole, commands, joined⟩, type, fits', fine, alive⟩
      exact ⟨after, run, kept⟩
  | process =>
    obtain ⟨after, run, kept, -⟩ := inLines.process call plain (Nat.le_refl _)
    exact ⟨after, run, kept⟩
  | unblock => exact ⟨_, rfl, inLines.taken, inLines.type, inLines.fits, inLines.fine, inLines.alive⟩
  | pause => exact ⟨_, rfl, inLines.taken, inLines.type, inLines.fits, inLines.fine, inLines.alive⟩
  | unpause => exact ⟨_, rfl, inLines.taken, inLines.type, inLines.fits, inLines.fine, inLines.alive⟩

def inlineStep (limit : Nat) (call : List (List Bytes) → Effect) (s : State) (event : Event) : Option (State × List (List Bytes)) :=
  (step (inlineServer limit call) s event).map fun after => (after, after.client.commands)

theorem fits_nil (limit : Nat) : Fits limit [] := ⟨fun i inside => absurd inside (Nat.not_lt_zero i), Nat.zero_le _, Nat.zero_le _⟩

def inlineStart (slave paused : Bool) (lines : List InlineLine) : State :=
  { client := newClient slave, paused, arriving := linesText lines }

theorem inLines_start (limit : Nat) (slave paused : Bool) (lines : List InlineLine) : InLines limit lines (inlineStart slave paused lines) :=
  ⟨⟨[], lines, rfl, rfl, rfl⟩, (fun type => by cases type), fits_nil limit, rfl, rfl⟩

theorem Taken.all (taken : Taken lines s) (read : s.arriving = []) (none_ : 10 ∉ s.client.querybuf) :
    s.client.commands = (lines.map fun line => words line.content).filter (· ≠ []) := by
  obtain ⟨done, todo, rfl, commands, text⟩ := taken
  cases todo with
  | nil => rw [append_nil, commands]
  | cons line todo =>
    obtain ⟨body, ends, -⟩ := line.text_split
    rw [read, append_nil] at text
    rw [text, linesText, flatMap_cons, ends] at none_
    simp at none_

/-- For any lines without quotes and any pieces that meet the condition on the buffer. -/
theorem inline_chunks (limit : Nat) (call : List (List Bytes) → Effect) (slave paused : Bool) {lines : List InlineLine}
    (plain : ∀ line ∈ lines, line.Plain) (events : List Event)
    (allowed : Run.Allowed (inlineStep limit call) (ReadFits limit) (inlineStart slave paused lines) events) :
    ∃ s results, Run.exec (inlineStep limit call) (inlineStart slave paused lines) events = some (s, results) ∧
      s.client.errors = [] ∧ s.client.freed = false ∧ Taken lines s ∧
      ∃ after, step (inlineServer limit call) s .process = some after ∧ Taken lines after ∧ Waits after ∧
        (s.arriving = [] → 10 ∉ after.client.querybuf →
          after.client.commands = (lines.map fun line => words line.content).filter (· ≠ [])) := by
  have progress : ∀ s event, InLines limit lines s → ReadFits limit s event →
      ∃ after, inlineStep limit call s event = some after ∧ InLines limit lines after.1 := by
    intro s event inLines fits
    obtain ⟨after, run, kept⟩ := inLines.step call plain event fits
    exact ⟨(after, _), by rw [inlineStep, run]; rfl, kept⟩
  obtain ⟨s, results, run, inLines⟩ := Run.exec_total progress events (inLines_start limit slave paused lines) allowed
  obtain ⟨after, processed, kept, waits, arriving⟩ := inLines.process call plain (Nat.le_refl _)
  refine ⟨s, results, run, inLines.fine, inLines.alive, inLines.taken, after, ?_, kept.taken, waits, fun read => kept.taken.all (arriving.trans read)⟩
  unfold Query.step
  rw [if_neg (by simp [inLines.alive])]
  exact processed

instance (limit : Nat) (buffer : Bytes) : Decidable (Fits limit buffer) :=
  decidable_of_iff ((∀ i < buffer.length, buffer.getD i 0 = 10 → 0 < i ∧ buffer.getD (i - 1) 0 = 13 ∨ i + 1 = buffer.length) ∧
      (buffer.reverse.takeWhile (· ≠ 10)).length ≤ inlineMaxSize ∧ buffer.length ≤ limit)
    ⟨fun all => ⟨all.1, all.2.1, all.2.2⟩, fun fits => ⟨fits.alone, fits.short, fits.small⟩⟩

instance (limit : Nat) (s : State) (event : Event) : Decidable (ReadFits limit s event) := by
  cases event <;> unfold ReadFits <;> infer_instance

theorem plain_ping : ∀ line ∈ [⟨[112, 105, 110, 103], false⟩, ⟨[97, 32, 98], true⟩], InlineLine.Plain line := by
  intro line member
  rcases mem_cons.mp member with rfl | member
  · exact ⟨Sds.unquoted_of_plain (by decide), by decide, by decide, by decide⟩
  · obtain rfl := mem_singleton.mp member
    exact ⟨Sds.unquoted_of_plain (by decide), by decide, by decide, by decide⟩

/-- PING and LF alone, then a second line in pieces. -/
theorem inline_chunks_pieces :
    ∃ s results, Run.exec (inlineStep 1000 fun _ => ⟨false, false, false⟩)
        (inlineStart false false [⟨[112, 105, 110, 103], false⟩, ⟨[97, 32, 98], true⟩]) [.read 5, .read 4, .read 9] = some (s, results) ∧
      s.client.errors = [] := by
  obtain ⟨s, results, run, fine, -⟩ := inline_chunks 1000 (fun _ => ⟨false, false, false⟩) false false plain_ping [.read 5, .read 4, .read 9] (by decide)
  exact ⟨s, results, run, fine⟩

/-- The lines a and b with LF only, read at once: the second one is lost. -/
theorem inline_lost :
    ∃ s results, Run.exec (inlineStep 1000 fun _ => ⟨false, false, false⟩)
        (inlineStart false false [⟨[97], false⟩, ⟨[98], false⟩]) [.read 9] = some (s, results) ∧
      s.client.commands = [[[97]]] ∧ s.client.querybuf = [] ∧ s.arriving = [] ∧ ¬ Taken [⟨[97], false⟩, ⟨[98], false⟩] s := by
  refine ⟨_, _, rfl, rfl, rfl, rfl, fun taken => ?_⟩
  have all := taken.all rfl not_mem_nil
  exact absurd all (by decide)

end Cplusplus.Redis.Query
