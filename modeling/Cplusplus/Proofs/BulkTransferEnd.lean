import Cplusplus.BulkTransfer
import Cplusplus.Library.Buffered
import Cplusplus.Proofs.IntegerText

/-! The dataset ends with the last byte that was announced, by a mark or by a count, however it is cut
into reads. -/

namespace Cplusplus.Redis.BulkTransfer

open List Option
open CheckAof (cString strtol strtol_digits decimal_digits digitsValue_decimal)
open Buffered (Split)
open Decimal (decimal decimal_ne_nil)

variable {t after : Transfer} {s bytes whole mark line : List UInt8} {io : Outcomes}

structure RdbPayload where
  bytes : List UInt8
  magic : [82, 69, 68, 73, 83] <+: bytes
  size : bytes.length < 2 ^ 63

def Outcomes.Fine (io : Outcomes) : Prop := io.written = true ∧ io.truncated = true ∧ io.renamed = true ∧ io.loaded = true

/-- The transfer does not end before the last read, whatever fails. It ends with the last read if nothing
fails, and then the file is the payload. -/
structure EndsExactly (t : Transfer) (payload : List UInt8) (reads : List (Outcomes × List UInt8)) : Prop where
  before : ∀ front back, reads = front ++ back → back ≠ [] →
    ∃ after, receive t front = some after ∧ after.replState ≠ .connected ∧ ((∀ read ∈ front, read.1.Fine) → after.replState = .transfer)
  at_end : (∀ read ∈ reads, read.1.Fine) → ∃ after, receive t reads = some after ∧ after.replState = .connected ∧ after.tmpfile = payload

theorem event_over (over_ : t.replState ≠ .transfer) (io : Outcomes) (arriving : Option (List UInt8)) : event t io arriving = some t :=
  if_neg over_

theorem receive_over (over_ : t.replState ≠ .transfer) (reads : List (Outcomes × List UInt8)) : receive t reads = some t := by
  induction reads with
  | nil => rfl
  | cons read reads ih => rw [receive, event_over over_, bind_some, ih]

structure Progress (Going : Transfer → List UInt8 → Prop) (whole payload : List UInt8) : Prop where
  state : ∀ t s, Going t s → t.replState = .transfer
  onward : ∀ t s bytes more io, Going t s → bytes ≠ [] → bytes.length ≤ 4096 → more ≠ [] → whole = s ++ bytes ++ more →
    ∃ after, event t io (some bytes) = some after ∧
      (io.written = true → Going after (s ++ bytes)) ∧ (io.written = false → after.replState = .connect)
  last : ∀ t s bytes io, Going t s → bytes ≠ [] → bytes.length ≤ 4096 → whole = s ++ bytes → io.Fine →
    ∃ after, event t io (some bytes) = some after ∧ after.replState = .connected ∧ after.tmpfile = payload

variable {Going : Transfer → List UInt8 → Prop} {payload : List UInt8}

theorem Progress.before (progress : Progress Going whole payload) {front : List (Outcomes × List UInt8)} {more : List UInt8} (going : Going t s)
    (nonempty : ∀ read ∈ front, read.2 ≠ []) (short : ∀ read ∈ front, read.2.length ≤ 4096) (some_ : more ≠ [])
    (split : whole = s ++ (front.map Prod.snd).flatten ++ more) :
    ∃ after, receive t front = some after ∧ after.replState ≠ .connected ∧
      ((∀ read ∈ front, read.1.Fine) → Going after (s ++ (front.map Prod.snd).flatten)) := by
  induction front generalizing t s with
  | nil =>
    refine ⟨t, rfl, ?_, fun _ => by simpa using going⟩
    rw [progress.state t s going]
    decide
  | cons read front ih =>
    obtain ⟨io, bytes⟩ := read
    rw [map_cons, flatten_cons] at split ⊢
    have rest : (front.map Prod.snd).flatten ++ more ≠ [] := by simp [some_]
    obtain ⟨after, run, kept, stopped⟩ := progress.onward t s bytes _ io going (nonempty _ mem_cons_self) (short _ mem_cons_self)
      rest (by rw [split]; simp)
    rw [receive, run, bind_some, ← append_assoc]
    cases written : io.written with
    | true =>
      obtain ⟨last, run', waits, kept'⟩ := ih (kept written) (fun read member => nonempty read (mem_cons_of_mem _ member))
        (fun read member => short read (mem_cons_of_mem _ member)) (by rw [split]; simp)
      exact ⟨last, run', waits, fun fine => kept' fun read member => fine read (mem_cons_of_mem _ member)⟩
    | false =>
      have over_ : after.replState = .connect := stopped written
      refine ⟨after, receive_over (by rw [over_]; decide) front, by rw [over_]; decide, fun fine => ?_⟩
      have wrote := (fine _ mem_cons_self).1
      rw [written] at wrote
      cases wrote

theorem receive_append (t : Transfer) (front back : List (Outcomes × List UInt8)) :
    receive t (front ++ back) = (receive t front).bind fun t => receive t back := by
  induction front generalizing t with
  | nil => rfl
  | cons read front ih =>
    rw [cons_append, receive, receive]
    cases event t read.1 (some read.2) with
    | none => rfl
    | some after => rw [bind_some, bind_some, ih]

theorem Progress.endsExactly (progress : Progress Going whole payload) (going : Going t []) (some_ : whole ≠ []) (split : Split 4096 whole)
    {reads : List (Outcomes × List UInt8)} (same : reads.map Prod.snd = split.blocks) : EndsExactly t payload reads := by
  have nonempty : ∀ read ∈ reads, read.2 ≠ [] := fun read member => split.nonempty _ (same ▸ List.mem_map_of_mem member)
  have short : ∀ read ∈ reads, read.2.length ≤ 4096 := fun read member => split.short _ (same ▸ List.mem_map_of_mem member)
  have parts := split.flatten
  rw [← same] at parts
  refine ⟨?_, fun fine => ?_⟩
  · rintro front back rfl left
    obtain ⟨read, back, rfl⟩ := exists_cons_of_ne_nil left
    have more : ((read :: back).map Prod.snd).flatten ≠ [] := by
      simp [nonempty read (mem_append_right _ mem_cons_self)]
    obtain ⟨after, run, waits, kept⟩ := progress.before going (fun read member => nonempty read (mem_append_left _ member))
      (fun read member => short read (mem_append_left _ member)) more
      (by rw [nil_append, ← parts, map_append, List.flatten_append])
    exact ⟨after, run, waits, fun fine => progress.state _ _ (kept fine)⟩
  · rcases eq_nil_or_concat reads with rfl | ⟨front, read, rfl⟩
    · exact absurd parts.symm some_
    · rw [concat_eq_append] at nonempty short parts fine ⊢
      rw [map_append, List.flatten_append, map_singleton, flatten_singleton] at parts
      have filled := nonempty read (by simp)
      obtain ⟨middle, run, -, kept⟩ := progress.before going (fun read member => nonempty read (mem_append_left _ member))
        (fun read member => short read (mem_append_left _ member)) filled (by rw [nil_append, parts])
      have going' := kept fun read member => fine read (mem_append_left _ member)
      rw [nil_append] at going'
      obtain ⟨after, run', connected, file⟩ := progress.last middle _ read.2 read.1 going' filled (short read (by simp)) parts.symm
        (fine read (by simp))
      refine ⟨after, ?_, connected, file⟩
      rw [receive_append, run, bind_some, receive, run', bind_some, receive]

structure Counted (size : Nat) (t : Transfer) (s : List UInt8) : Prop where
  state : t.replState = .transfer
  usemark : t.usemark = false
  size : t.transferSize = size
  read : t.transferRead = s.length
  file : t.tmpfile = s

theorem event_bytes (state : t.replState = .transfer) (counting : t.transferSize ≠ -1) (nonempty : bytes ≠ [])
    (fits : (bytes.length : Int) ≤ readLength t) : event t io (some bytes) = some (writeBulkData io t bytes) := by
  have whole : bytes.take (readLength t).toNat = bytes := take_of_length_le (by omega)
  have positive := length_pos_iff.mpr nonempty
  rw [event, if_pos state, readSyncBulkPayload, if_neg counting, if_neg (by omega), map_some, whole]
  cases bytes with
  | nil => exact absurd rfl nonempty
  | cons c bytes => rfl

theorem finishTransfer_fine (fine : io.Fine) (t : Transfer) : finishTransfer io t = { t with replState := .connected } := by
  obtain ⟨-, -, renamed, loaded⟩ := fine
  simp [finishTransfer, renamed, loaded]

theorem Counted.event_eq {size : Nat} (counted : Counted size t s) (nonempty : bytes ≠ []) (short : bytes.length ≤ 4096)
    (inside : s.length + bytes.length ≤ size) : event t io (some bytes) = some (writeBulkData io t bytes) := by
  refine event_bytes counted.state (by rw [counted.size]; omega) nonempty ?_
  rw [readLength, counted.usemark, if_neg Bool.false_ne_true, counted.size, counted.read]
  have buf : bufSize = 4096 := rfl
  dsimp only
  split <;> omega

theorem counted_progress (payload : List UInt8) : Progress (Counted payload.length) payload payload where
  state _ _ counted := counted.state
  onward t s bytes more io counted nonempty short some_ split := by
    have length := congrArg List.length split
    have left := length_pos_iff.mpr some_
    simp only [length_append] at length
    refine ⟨_, counted.event_eq nonempty short (by omega), ?_⟩
    have between : (t.transferRead + bytes.length == t.transferSize) = false := by
      rw [counted.read, counted.size, beq_eq_false_iff_ne]
      omega
    constructor
    · intro written
      simp only [writeBulkData, counted.usemark, written, between, Bool.false_eq_true, if_false, Bool.not_true, Bool.false_and, Bool.not_false,
        Bool.true_and]
      exact ⟨counted.state, rfl, counted.size, by simp [counted.read], by rw [counted.file]⟩
    · intro failed
      simp [writeBulkData, counted.usemark, failed, replicationAbortSyncTransfer]
  last t s bytes io counted nonempty short split fine := by
    have length := congrArg List.length split
    simp only [length_append] at length
    refine ⟨_, counted.event_eq nonempty short (by omega), ?_⟩
    have ended : (t.transferRead + bytes.length == t.transferSize) = true := by
      rw [counted.read, counted.size, beq_iff_eq]
      omega
    simp only [writeBulkData, counted.usemark, fine.1, ended, Bool.false_eq_true, if_false, Bool.not_true, Bool.false_and, Bool.not_false,
      Bool.true_and, if_true]
    rw [finishTransfer_fine fine]
    exact ⟨rfl, by rw [counted.file, split]⟩

def lastOf (s : List UInt8) : List UInt8 := (replicate runIdSize 0 ++ s).drop s.length

structure Marked (mark : List UInt8) (t : Transfer) (s : List UInt8) : Prop where
  state : t.replState = .transfer
  usemark : t.usemark = true
  size : t.transferSize = 0
  eofmark : t.eofmark = mark
  lastbytes : t.lastbytes = lastOf s
  read : t.transferRead = s.length
  file : t.tmpfile = s

theorem lastOf_length (s : List UInt8) : (lastOf s).length = runIdSize := by
  rw [lastOf, length_drop, length_append, length_replicate]
  omega

theorem updateLastbytes_spec (s bytes : List UInt8) : updateLastbytes (lastOf s) bytes = lastOf (s ++ bytes) := by
  have length := lastOf_length s
  have shifted : lastOf (s ++ bytes) = (lastOf s ++ bytes).drop bytes.length := by
    rw [lastOf, lastOf, ← append_assoc, length_append, ← drop_drop, drop_append_of_le_length (by rw [length_append]; omega)]
  rw [shifted, updateLastbytes]
  split
  next long =>
    have front : (lastOf s).drop bytes.length = [] := drop_eq_nil_of_le (by omega)
    rw [drop_append, front, length, nil_append]
  next short => rw [drop_append_of_le_length (by omega)]

def OnlyAtEnd (payload mark : List UInt8) : Prop := ∀ front back, payload ++ mark = front ++ mark ++ back → back = []

theorem lastOf_mark (marked : mark.length = runIdSize) (front : List UInt8) : lastOf (front ++ mark) = mark := by
  rw [lastOf, ← append_assoc]
  have length : (front ++ mark).length = (replicate runIdSize (0 : UInt8) ++ front).length := by
    rw [length_append, length_append, length_replicate, marked, Nat.add_comm]
  rw [length, drop_left]

theorem ends_with_mark (solid : (0 : UInt8) ∉ mark) (same : lastOf s = mark) : ∃ front, s = front ++ mark := by
  rcases Nat.lt_or_ge s.length runIdSize with short | long
  · rw [lastOf, drop_append_of_le_length (by rw [length_replicate]; omega), drop_replicate] at same
    have zero : (0 : UInt8) ∈ mark := by
      rw [← same]
      exact mem_append_left _ (mem_replicate.mpr ⟨by omega, rfl⟩)
    exact absurd zero solid
  · refine ⟨s.take (s.length - runIdSize), ?_⟩
    rw [lastOf, drop_append, drop_eq_nil_of_le (by rw [length_replicate]; omega), nil_append, length_replicate] at same
    rw [← same, take_append_drop]

theorem Marked.event_eq (going : Marked mark t s) (nonempty : bytes ≠ []) (short : bytes.length ≤ 4096) :
    event t io (some bytes) = some (writeBulkData io t bytes) := by
  refine event_bytes going.state (by rw [going.size]; decide) nonempty ?_
  rw [readLength, going.usemark, if_pos rfl]
  simp only [bufSize]
  omega

theorem marked_progress (marked : mark.length = runIdSize) (solid : (0 : UInt8) ∉ mark) (onlyEnd : OnlyAtEnd payload mark) :
    Progress (Marked mark) (payload ++ mark) payload where
  state _ _ going := going.state
  onward t s bytes more io going nonempty short some_ split := by
    refine ⟨_, going.event_eq nonempty short, ?_⟩
    have unmarked : (updateLastbytes t.lastbytes bytes == t.eofmark) = false := by
      rw [going.lastbytes, updateLastbytes_spec, going.eofmark, beq_eq_false_iff_ne]
      intro same
      obtain ⟨front, ends⟩ := ends_with_mark solid same
      exact some_ (onlyEnd front more (by rw [split, ends]))
    constructor
    · intro written
      simp only [writeBulkData, going.usemark, if_true, unmarked, written, Bool.and_false, Bool.not_true, Bool.false_eq_true, if_false,
        Bool.false_and]
      exact ⟨going.state, rfl, going.size, going.eofmark, by rw [going.lastbytes, updateLastbytes_spec], by simp [going.read],
        by rw [going.file]⟩
    · intro failed
      simp [writeBulkData, going.usemark, failed, replicationAbortSyncTransfer]
  last t s bytes io going nonempty short split fine := by
    refine ⟨_, going.event_eq nonempty short, ?_⟩
    have found : (updateLastbytes t.lastbytes bytes == t.eofmark) = true := by
      rw [going.lastbytes, updateLastbytes_spec, going.eofmark, ← split, lastOf_mark marked, beq_self_eq_true]
    have length := congrArg List.length split
    rw [length_append, length_append, marked] at length
    have cut : ftruncate (t.tmpfile ++ bytes) (t.transferRead + bytes.length - runIdSize) = some payload := by
      have size : t.transferRead + bytes.length - runIdSize = (payload.length : Int) := by
        rw [going.read]
        omega
      rw [size, going.file, ← split, ftruncate, if_neg (by omega), Int.toNat_natCast, take_left, length_append,
        Nat.sub_eq_zero_of_le (Nat.le_add_right _ _), replicate_zero, append_nil]
    simp only [writeBulkData, going.usemark, if_true, found, fine.1, fine.2.1, Bool.and_true, Bool.not_true, Bool.false_eq_true, if_false, cut]
    rw [finishTransfer_fine fine]
    exact ⟨rfl, rfl⟩

theorem cString_solid (s : List UInt8) : (0 : UInt8) ∉ cString s := by
  intro inside
  simpa using mem_takeWhile_imp inside

theorem readBulkCount_dollar {text : List UInt8} (dollar : cString line = 36 :: text) : readBulkCount t (some line) =
    if text.take 4 = eofName ∧ runIdSize ≤ (text.drop 4).length then
      { t with usemark := true, eofmark := (text.drop 4).take runIdSize, lastbytes := replicate runIdSize 0, transferSize := 0 }
    else { t with usemark := false, transferSize := (strtol text).1 } := by
  have error : ¬ (36 :: text).headD 0 = 45 := by
    rw [headD_cons]
    decide
  have ping : ¬ (36 :: text).headD 0 = 0 := by
    rw [headD_cons]
    decide
  rw [readBulkCount, map_some, dollar]
  simp only
  rw [if_neg error, if_neg ping, if_neg (not_not_intro (headD_cons ..))]
  rfl

theorem RdbPayload.nonempty (payload : RdbPayload) : payload.bytes ≠ [] := by
  obtain ⟨bytes, ⟨rest, rfl⟩, -⟩ := payload
  exact cons_ne_nil _ _

/-- The transfer ends exactly with the last byte, after a line `$EOF:` with a mark and after a line with
the number of bytes, and the file is the payload. -/
theorem readSyncBulkPayload_ends (t : Transfer) (state : t.replState = .transfer) (size : t.transferSize = -1) (read : t.transferRead = 0)
    (file : t.tmpfile = []) (payload : RdbPayload) (io : Outcomes) (line : List UInt8) :
    (∀ mark rest, mark.length = runIdSize → cString line = 36 :: (eofName ++ mark ++ rest) → OnlyAtEnd payload.bytes mark →
      ∃ announced, event t io (some line) = some announced ∧
        ∀ (split : Split 4096 (payload.bytes ++ mark)) (reads : List (Outcomes × List UInt8)), reads.map Prod.snd = split.blocks →
          EndsExactly announced payload.bytes reads) ∧
    (cString line = 36 :: decimal payload.bytes.length →
      ∃ announced, event t io (some line) = some announced ∧
        ∀ (split : Split 4096 payload.bytes) (reads : List (Outcomes × List UInt8)), reads.map Prod.snd = split.blocks →
          EndsExactly announced payload.bytes reads) := by
  have first : event t io (some line) = some (readBulkCount t (some line)) := by
    rw [event, if_pos state, readSyncBulkPayload, if_pos size]
  rw [first]
  refine ⟨fun mark rest marked text onlyEnd => ⟨_, rfl, fun split reads same => ?_⟩, fun text => ⟨_, rfl, fun split reads same => ?_⟩⟩
  · have solid : (0 : UInt8) ∉ mark := by
      intro inside
      refine cString_solid line ?_
      rw [text]
      exact mem_cons_of_mem _ (mem_append_left _ (mem_append_right _ inside))
    have cutMark : (mark ++ rest).take runIdSize = mark := by rw [← marked, take_left]
    have announced : readBulkCount t (some line) =
        { t with usemark := true, eofmark := mark, lastbytes := replicate runIdSize 0, transferSize := 0 } := by
      rw [readBulkCount_dollar text, if_pos ⟨rfl, by simp [eofName, marked]⟩]
      simp [eofName, cutMark]
    rw [announced]
    have going : Marked mark { t with usemark := true, eofmark := mark, lastbytes := replicate runIdSize 0, transferSize := 0 } [] :=
      ⟨state, rfl, rfl, rfl, by simp [lastOf], read, file⟩
    exact (marked_progress marked solid onlyEnd).endsExactly going (by simp [payload.nonempty]) split same
  · obtain ⟨c, digits, numeral⟩ := exists_cons_of_ne_nil (decimal_ne_nil payload.bytes.length)
    have figure := decimal_digits payload.bytes.length c (by rw [numeral]; exact mem_cons_self)
    have ended : ∀ c ∈ ([] : List UInt8).head?, isDigit c = false := by simp
    have value := strtol_digits (decimal_digits payload.bytes.length) (decimal_ne_nil _) ended (by rw [digitsValue_decimal]; exact payload.size)
    rw [append_nil, digitsValue_decimal] at value
    have unmarked : ¬ ((decimal payload.bytes.length).take 4 = eofName ∧ runIdSize ≤ ((decimal payload.bytes.length).drop 4).length) := by
      rw [numeral, take_succ_cons]
      rintro ⟨name, -⟩
      rw [(cons.inj name).1] at figure
      exact absurd figure (by decide)
    have announced : readBulkCount t (some line) = { t with usemark := false, transferSize := payload.bytes.length } := by
      rw [readBulkCount_dollar text, if_neg unmarked, value]
    rw [announced]
    have going : Counted payload.bytes.length { t with usemark := false, transferSize := payload.bytes.length } [] :=
      ⟨state, rfl, rfl, read, file⟩
    exact (counted_progress payload.bytes).endsExactly going payload.nonempty split same

theorem onlyAtEnd_of_head {c : UInt8} {rest : List UInt8} (absent : c ∉ payload) : OnlyAtEnd payload (c :: rest) := by
  intro front back same
  have length := congrArg List.length same
  simp only [length_append, length_cons] at length
  rcases Nat.lt_or_ge front.length payload.length with inside | beyond
  · have here := congrArg (fun stream : List UInt8 => stream[front.length]?) same
    simp only [append_assoc, getElem?_append_left inside, getElem?_append_right (Nat.le_refl _), Nat.sub_self,
      cons_append, getElem?_cons_zero] at here
    exact absurd (mem_of_getElem? here) absent
  · exact length_eq_zero_iff.mp (by omega)

/-- The mark begins in one read and ends in the next. -/
theorem readSyncBulkPayload_ends_marked :
    let io : Outcomes := ⟨true, true, true, true⟩
    let mark := replicate 40 (97 : UInt8)
    let first : Transfer := ⟨.transfer, -1, 0, [], [], [], false⟩
    ∃ announced, event first io (some (36 :: (eofName ++ mark ++ []))) = some announced ∧
      EndsExactly announced [82, 69, 68, 73, 83] [(io, [82, 69, 68, 73, 83] ++ mark.take 3), (io, mark.drop 3)] := by
  intro io mark first
  have onlyEnd : OnlyAtEnd [82, 69, 68, 73, 83] mark := onlyAtEnd_of_head (by decide)
  obtain ⟨announced, line, ends⟩ := (readSyncBulkPayload_ends first rfl rfl rfl rfl ⟨[82, 69, 68, 73, 83], prefix_refl _, by decide⟩ io
    (36 :: (eofName ++ mark ++ []))).1 mark [] rfl (by decide +kernel) onlyEnd
  exact ⟨announced, line, ends ⟨[[82, 69, 68, 73, 83] ++ mark.take 3, mark.drop 3], by decide, by decide, by decide⟩ _ rfl⟩

end Cplusplus.Redis.BulkTransfer
