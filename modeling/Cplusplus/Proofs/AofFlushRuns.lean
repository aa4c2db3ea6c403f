import Cplusplus.AofFlush

/-! Nothing is lost by a flush, except where an int has to hold the length of a buffer of 2 GB. -/

namespace Cplusplus.Redis.AofFlush

open List
open OutputBuffer (Sds sdsempty sdsText)

variable {s : Server}

structure Accounted (s : Server) : Prop where
  content : s.file ++ s.aofBuf.buf = s.appended
  size : s.aofCurrentSize = s.file.length

structure Sound (s : Server) : Prop extends Accounted s where
  fits : s.aofBuf.buf.length < 2 ^ 32

def Server.postponed (s : Server) (call : Call) : Bool :=
  call.aofFsync = .everysec && !call.force && s.syncInProgress call &&
    (s.aofFlushPostponedStart = 0 || decide (s.unixtime - s.aofFlushPostponedStart < 2))

def Recoverable (len : Nat) : WriteResult → Prop
  | .error => len ≠ 2 ^ 32 - 1
  | .written n ftruncated => ftruncated = true ∨ n = 0 ∨ len ≤ n ∨ len < 2 ^ 31

def Lossless (s : Server) : Event → Prop
  | .feed data => s.aofBuf.buf.length + data.length < 2 ^ 32
  | .flush call _ => s.postponed call = true ∨ Recoverable s.aofBuf.buf.length call.result
  | .clock _ => True
  | .fsyncDone => True

theorem int32_small {x : Int} (low : 0 ≤ x) (high : x < 2 ^ 31) : int32 x = x := by
  apply Int.bmod_eq_of_le <;> omega

theorem int32_large {x : Int} (low : 2 ^ 31 ≤ x) (high : x < 2 ^ 32) : int32 x = x - 2 ^ 32 := by
  have same : (x - 2 ^ 32).bmod (2 ^ 32) = x - 2 ^ 32 := by apply Int.bmod_eq_of_le <;> omega
  rw [int32, ← same]
  exact (Int.sub_bmod_right x (2 ^ 32)).symm

theorem sdsrange_small (s : Sds) {nwritten : Nat} (some_ : 0 < nwritten) (short : nwritten ≤ s.buf.length)
    (small : s.buf.length < 2 ^ 31) : (sdsrange s nwritten (-1)).buf = s.buf.drop nwritten := by
  have stop : int32 ((s.buf.length : Int) + -1) = s.buf.length - 1 := by
    rw [int32_small] <;> omega
  have len : int32 s.buf.length = s.buf.length := by
    rw [int32_small] <;> omega
  have nonempty : s.buf.length ≠ 0 := by omega
  have positive : ¬ ((nwritten : Int) < 0) := by omega
  have last : max 0 ((s.buf.length : Int) - 1) = s.buf.length - 1 := by omega
  simp only [sdsrange, nonempty, if_false, positive, stop, len, last, Int.reduceNeg, Int.reduceLT, if_true]
  by_cases all : nwritten = s.buf.length
  · simp [all]
  · have inside : ¬ (s.buf.length : Int) - 1 < nwritten := by omega
    have start : ¬ (s.buf.length : Int) ≤ nwritten := by omega
    have end_ : ¬ (s.buf.length : Int) ≤ s.buf.length - 1 := by omega
    simp only [inside, start, end_, if_false, Int.toNat_natCast]
    apply take_of_length_le
    rw [length_drop]
    omega

theorem sdsrange_large (s : Sds) (start : Int) (large : 2 ^ 31 ≤ s.buf.length) (fits : s.buf.length < 2 ^ 32) :
    (sdsrange s start (-1)).buf = [] := by
  have len := int32_large (x := s.buf.length) (by omega) (by omega)
  have nonempty : s.buf.length ≠ 0 := by omega
  simp only [sdsrange, nonempty, if_false, len]
  have past : (s.buf.length : Int) - 2 ^ 32 ≤ if start < 0 then max 0 (int32 (s.buf.length + start)) else start := by
    split <;> omega
  simp only [past, if_true, ite_self, take_zero]

theorem writeDone_buf (s : Server) (call : Call) (nwritten : Int) :
    (s.writeDone call nwritten).aofBuf.buf = [] ∧ (s.writeDone call nwritten).file = s.file ∧
    (s.writeDone call nwritten).aofCurrentSize = s.aofCurrentSize + nwritten ∧
    (s.writeDone call nwritten).appended = s.appended := by
  have empty : (if s.aofBuf.buf.length + s.aofBuf.free.toNat < 4000 then sdsclear s.aofBuf else sdsempty).buf = [] := by
    split <;> rfl
  simp only [Server.writeDone]
  split
  next => exact ⟨empty, rfl, rfl, rfl⟩
  next =>
    split
    next => exact ⟨empty, rfl, rfl, rfl⟩
    next => split <;> exact ⟨empty, rfl, rfl, rfl⟩

theorem writeFailed_undone (s : Server) (call : Call) (recovers : call.aofFsync ≠ .always) {nwritten : Int}
    (undone : nwritten ≤ 0) : s.writeFailed call nwritten = { s with aofLastWriteStatus := false } := by
  have nothing : ¬ 0 < nwritten := by omega
  simp [Server.writeFailed, recovers, nothing]

theorem ftruncate_append (file more : List UInt8) : ftruncate (file ++ more) file.length = file := by
  simp [ftruncate]

theorem Sound.write_error (sound : Sound s) (call : Call) (recovers : call.aofFsync ≠ .always) (error : call.result = .error) :
    if s.aofBuf.buf.length ≠ 2 ^ 32 - 1 then Sound (s.write call) else ¬ Accounted (s.write call) := by
  have fits := sound.fits
  split
  next other =>
    have refused : -1 ≠ int32 s.aofBuf.buf.length := by
      by_cases small : s.aofBuf.buf.length < 2 ^ 31
      · rw [int32_small] <;> omega
      · rw [int32_large] <;> omega
    simp only [Server.write, error, if_pos refused]
    rw [writeFailed_undone _ call recovers (by omega)]
    exact ⟨⟨sound.content, sound.size⟩, fits⟩
  next same =>
    have taken : ¬ (-1 ≠ int32 s.aofBuf.buf.length) := by
      rw [int32_large] <;> omega
    simp only [Server.write, error, if_neg taken]
    obtain ⟨_, file, size, _⟩ := writeDone_buf { s with aofFlushPostponedStart := 0 } call (-1)
    intro accounted
    have counted := accounted.size
    have before := sound.size
    rw [file, size] at counted
    simp only at counted
    omega

variable {n : Nat}

theorem Sound.write_taken (sound : Sound s) (call : Call) {ftruncated : Bool} (written : call.result = .written n ftruncated)
    (complete : s.aofBuf.buf.length ≤ n) (small : s.aofBuf.buf.length < 2 ^ 31) : Sound (s.write call) := by
  have all : min n s.aofBuf.buf.length = s.aofBuf.buf.length := by omega
  have same : ¬ ((s.aofBuf.buf.length : Int) ≠ int32 s.aofBuf.buf.length) := by
    rw [int32_small] <;> omega
  simp only [Server.write, written, all, take_length, if_neg same]
  obtain ⟨empty, file, size, appended⟩ :=
    writeDone_buf { s with aofFlushPostponedStart := 0, file := s.file ++ s.aofBuf.buf } call s.aofBuf.buf.length
  refine ⟨⟨?_, ?_⟩, ?_⟩
  · rw [empty, file, appended, append_nil]
    exact sound.content
  · rw [size, file, length_append, sound.size]
    rfl
  · rw [empty]
    decide

theorem short_of (len : Nat) (n : Nat) (fits : len < 2 ^ 32) (other : ¬ (len ≤ n ∧ len < 2 ^ 31)) : ((min n len : Nat) : Int) ≠ int32 len := by
  by_cases small : len < 2 ^ 31
  · rw [int32_small] <;> omega
  · rw [int32_large] <;> omega

theorem Sound.write_undone (sound : Sound s) (call : Call) (recovers : call.aofFsync ≠ .always) (written : call.result = .written n true)
    (other : ¬ (s.aofBuf.buf.length ≤ n ∧ s.aofBuf.buf.length < 2 ^ 31)) : Sound (s.write call) := by
  have short := short_of _ n sound.fits other
  have undoable : 0 ≤ s.aofCurrentSize := by
    rw [sound.size]
    omega
  simp only [Server.write, written, if_pos short, true_and, if_pos undoable]
  rw [writeFailed_undone _ call recovers (by omega)]
  have length : s.aofCurrentSize.toNat = s.file.length := by
    rw [sound.size]
    rfl
  refine ⟨⟨?_, ?_⟩, sound.fits⟩
  · simp only [length, ftruncate_append]
    exact sound.content
  · simp only [length, ftruncate_append]
    exact sound.size

theorem Sound.write_nothing (sound : Sound s) (call : Call) (recovers : call.aofFsync ≠ .always)
    (written : call.result = .written 0 false) (other : ¬ (s.aofBuf.buf.length ≤ 0 ∧ s.aofBuf.buf.length < 2 ^ 31)) :
    Sound (s.write call) := by
  have short := short_of s.aofBuf.buf.length 0 sound.fits other
  simp only [Server.write, written, if_pos short, Bool.false_eq_true, false_and, if_false]
  rw [writeFailed_undone _ call recovers (by omega)]
  simp only [Nat.zero_min, take_zero, append_nil]
  exact ⟨⟨sound.content, sound.size⟩, sound.fits⟩

theorem Sound.write_cut (sound : Sound s) (call : Call) (recovers : call.aofFsync ≠ .always) (positive : n ≠ 0)
    (written : call.result = .written n false) (small : s.aofBuf.buf.length < 2 ^ 31)
    (other : ¬ s.aofBuf.buf.length ≤ n) : Sound (s.write call) := by
  have short := short_of s.aofBuf.buf.length n sound.fits (fun both => other both.1)
  have taken : min n s.aofBuf.buf.length = n := by omega
  have more : (0 : Int) < n := by omega
  have cast : int32 n = n := int32_small (by omega) (by omega)
  have cut : (sdsrange s.aofBuf n (-1)).buf = s.aofBuf.buf.drop n := sdsrange_small s.aofBuf (by omega) (by omega) small
  rw [taken] at short
  simp only [Server.write, written, taken, if_pos short, Bool.false_eq_true, false_and, if_false, Server.writeFailed,
    if_neg recovers, if_pos more, cast]
  refine ⟨⟨?_, ?_⟩, ?_⟩
  · simp only [cut, append_assoc, take_append_drop]
    exact sound.content
  · simp only [length_append, length_take, taken, sound.size]
    omega
  · simp only [cut, length_drop]
    have fits := sound.fits
    omega

theorem write_dropped (s : Server) (call : Call) (recovers : call.aofFsync ≠ .always) (positive : n ≠ 0)
    (written : call.result = .written n false) (large : 2 ^ 31 ≤ s.aofBuf.buf.length) (fits : s.aofBuf.buf.length < 2 ^ 32) :
    (s.write call).file = s.file ++ s.aofBuf.buf.take n ∧ (s.write call).aofBuf.buf = [] ∧
    (s.write call).aofCurrentSize = s.aofCurrentSize + (min n s.aofBuf.buf.length : Nat) ∧
    (s.write call).appended = s.appended := by
  have short := short_of s.aofBuf.buf.length n fits (fun both => by omega)
  have more : (0 : Int) < (min n s.aofBuf.buf.length : Nat) := by omega
  simp only [Server.write, written, if_pos short, Bool.false_eq_true, false_and, if_false, Server.writeFailed, if_neg recovers, if_pos more]
  refine ⟨?_, sdsrange_large s.aofBuf _ large fits, trivial, trivial⟩
  rw [← take_eq_take_min]

theorem Sound.write_exact (sound : Sound s) (call : Call) (recovers : call.aofFsync ≠ .always) :
    (Recoverable s.aofBuf.buf.length call.result → Sound (s.write call)) ∧
    (Accounted (s.write call) → Recoverable s.aofBuf.buf.length call.result) := by
  cases result : call.result with
  | error =>
    have outcome := sound.write_error call recovers result
    split at outcome
    next other => exact ⟨fun _ => outcome, fun _ => other⟩
    next same => exact ⟨fun other => absurd other same, fun accounted => absurd accounted outcome⟩
  | written n ftruncated =>
    by_cases taken : s.aofBuf.buf.length ≤ n ∧ s.aofBuf.buf.length < 2 ^ 31
    · exact ⟨fun _ => sound.write_taken call result taken.1 taken.2, fun _ => .inr (.inr (.inl taken.1))⟩
    cases ftruncated with
    | true => exact ⟨fun _ => sound.write_undone call recovers result taken, fun _ => .inl rfl⟩
    | false =>
      by_cases nothing : n = 0
      · subst nothing
        exact ⟨fun _ => sound.write_nothing call recovers result taken, fun _ => .inr (.inl rfl)⟩
      by_cases small : s.aofBuf.buf.length < 2 ^ 31
      · have other : ¬ s.aofBuf.buf.length ≤ n := fun complete => taken ⟨complete, small⟩
        exact ⟨fun _ => sound.write_cut call recovers nothing result small other, fun _ => .inr (.inr (.inr small))⟩
      obtain ⟨file, empty, size, appended⟩ := write_dropped s call recovers nothing result (by omega) sound.fits
      constructor
      · rintro (never | never | complete | never)
        · exact absurd never Bool.false_ne_true
        · exact absurd never nothing
        · refine ⟨⟨?_, ?_⟩, ?_⟩
          · rw [file, empty, appended, take_of_length_le complete, append_nil]
            exact sound.content
          · rw [size, file, sound.size, length_append, length_take]
            omega
          · rw [empty]
            decide
        · exact absurd never small
      · intro accounted
        have content := accounted.content
        rw [file, empty, appended, append_nil, ← sound.content] at content
        have length := congrArg List.length (append_cancel_left content)
        rw [length_take] at length
        exact .inr (.inr (.inl (by omega)))

theorem Sound.flush_exact (sound : Sound s) (call : Call) (recovers : call.aofFsync ≠ .always) :
    (Lossless s (.flush call recovers) → Sound (flushAppendOnlyFile s call)) ∧
    (Accounted (flushAppendOnlyFile s call) → Lossless s (.flush call recovers)) := by
  have later : Sound { s with aofDelayedFsync := s.aofDelayedFsync + 1 } := ⟨⟨sound.content, sound.size⟩, sound.fits⟩
  unfold flushAppendOnlyFile
  split
  next empty =>
    refine ⟨fun _ => sound, fun _ => .inr ?_⟩
    rw [empty]
    cases call.result with
    | error => exact fun same => by cases same
    | written n _ => exact .inr (.inr (.inl (Nat.zero_le n)))
  next =>
    split
    next waits =>
      obtain ⟨everysec, unforced, fsync⟩ := waits
      split
      next first =>
        have waits : s.postponed call = true := by simp_all [Server.postponed]
        exact ⟨fun _ => ⟨⟨sound.content, sound.size⟩, sound.fits⟩, fun _ => .inl waits⟩
      next again =>
        split
        next soon =>
          have waits : s.postponed call = true := by simp_all [Server.postponed]
          exact ⟨fun _ => sound, fun _ => .inl waits⟩
        next late =>
          have goes : ¬ s.postponed call = true := by simp [Server.postponed, again, late]
          obtain ⟨kept, only⟩ := later.write_exact call recovers
          exact ⟨fun lossless => kept (lossless.resolve_left goes), fun accounted => .inr (only accounted)⟩
    next goes =>
      have goes : ¬ s.postponed call = true := by
        intro waits
        simp only [Server.postponed, Bool.and_eq_true, decide_eq_true_eq] at waits
        exact goes ⟨waits.1.1.1, waits.1.1.2, waits.1.2⟩
      obtain ⟨kept, only⟩ := sound.write_exact call recovers
      exact ⟨fun lossless => kept (lossless.resolve_left goes), fun accounted => .inr (only accounted)⟩

theorem sdsText_fits {text : List UInt8} (fits : text.length < 2 ^ 32) : sdsText text = text := by
  rw [sdsText, Nat.mod_eq_of_lt fits, take_length]

theorem Sound.feed_exact (sound : Sound s) (data : List UInt8) :
    (Lossless s (.feed data) → Sound (s.feed data)) ∧ (Accounted (s.feed data) → Lossless s (.feed data)) := by
  have buffer : (s.feed data).aofBuf.buf = sdsText (s.aofBuf.buf ++ data) := rfl
  constructor
  · intro fits
    have whole : sdsText (s.aofBuf.buf ++ data) = s.aofBuf.buf ++ data := by
      apply sdsText_fits
      rw [length_append]
      exact fits
    refine ⟨⟨?_, sound.size⟩, ?_⟩
    · rw [buffer, whole, ← append_assoc]
      exact congrArg (· ++ data) sound.content
    · rw [buffer, whole, length_append]
      exact fits
  · intro accounted
    have content : s.file ++ sdsText (s.aofBuf.buf ++ data) = s.appended ++ data := accounted.content
    have length := congrArg List.length content
    rw [← sound.content, sdsText] at length
    simp only [length_append, length_take] at length
    have rest := Nat.mod_lt (s.aofBuf.buf.length + data.length) (show 0 < 2 ^ 32 by decide)
    apply Nat.lt_of_le_of_lt _ rest
    omega

theorem Sound.step_exact (sound : Sound s) (event : Event) :
    (Lossless s event → Sound (step s event)) ∧ (Accounted (step s event) → Lossless s event) := by
  cases event with
  | feed data => exact sound.feed_exact data
  | flush call recovers => exact sound.flush_exact call recovers
  | clock unixtime => exact ⟨fun _ => ⟨⟨sound.content, sound.size⟩, sound.fits⟩, fun _ => trivial⟩
  | fsyncDone => exact ⟨fun _ => ⟨⟨sound.content, sound.size⟩, sound.fits⟩, fun _ => trivial⟩

theorem initial_sound (file : List UInt8) (unixtime : Int) : Sound (Server.initial file unixtime) :=
  ⟨⟨append_nil file, rfl⟩, Nat.two_pow_pos 32⟩

/-- The file, the buffer and the size agree with what was appended in all the states of a run exactly when no
step loses data to the ranges of an int and of the length of a string. -/
theorem flushAppendOnlyFile_accounts (file : List UInt8) (unixtime : Int) (events : List Event) :
    (∀ before after, events = before ++ after → Accounted (before.foldl step (Server.initial file unixtime))) ↔
      Run.Meets step Lossless (Server.initial file unixtime) events := by
  have keeps : ∀ s event, Sound s → Lossless s event → Sound (step s event) :=
    fun _ event sound => (sound.step_exact event).1
  have exact : ∀ s event, Sound s → (Lossless s event ↔ Accounted (step s event)) :=
    fun _ event sound => ⟨fun lossless => (keeps _ event sound lossless).toAccounted, (sound.step_exact event).2⟩
  have start := initial_sound file unixtime
  exact (Run.meets_iff_reached keeps exact events start start.toAccounted).symm

def shortWrite : Call := ⟨true, .no, false, false, .written 1 false⟩

theorem short_write_loses (data : List UInt8) (large : 2 ^ 31 ≤ data.length) (fits : data.length < 2 ^ 32) :
    ¬ Accounted ([Event.feed data, .flush shortWrite (fun same => by cases same)].foldl step (Server.initial [] 0)) := by
  have fed : Lossless (Server.initial [] 0) (.feed data) := (Nat.zero_add _).trans_lt fits
  have sound := ((initial_sound [] 0).feed_exact data).1 fed
  have buffer : ((Server.initial [] 0).feed data).aofBuf.buf = data := sdsText_fits fits
  intro accounted
  obtain waits | recoverable := (sound.flush_exact shortWrite (fun same => by cases same)).2 accounted
  · exact absurd waits Bool.false_ne_true
  · rw [buffer] at recoverable
    obtain undone | nothing | complete | small := recoverable
    · exact absurd undone Bool.false_ne_true
    · exact absurd nothing Nat.one_ne_zero
    · omega
    · omega

theorem flushAppendOnlyFile_drops :
    ¬ Accounted ([Event.feed (replicate (2 ^ 31) 0), .flush shortWrite (fun same => by cases same)].foldl step
      (Server.initial [] 0)) := by
  apply short_write_loses
  · rw [length_replicate]
  · rw [length_replicate]
    decide

end Cplusplus.Redis.AofFlush
