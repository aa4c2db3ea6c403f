import Cplusplus.AofRewrite

/-! No block is overrun, and no byte is lost between the buffer of the parent, the pipe and the file
of the child. -/

namespace Cplusplus.Redis.AofRewrite

open List Option

variable {block : Block} {blocks : List Block}

structure Block.Fits (block : Block) : Prop where
  size : block.buf.length = aofRwBufBlockSize
  room : block.used + block.free ≤ aofRwBufBlockSize

def Block.data (block : Block) : Bytes := block.buf.take block.used

def contents (blocks : List Block) : Bytes := (blocks.map Block.data).flatten

theorem contents_concat (init : List Block) (block : Block) : contents (init ++ [block]) = contents init ++ block.data := by
  simp only [contents, map_append, List.flatten_append, map_cons, map_nil, flatten_singleton]

theorem contents_cons (block : Block) (blocks : List Block) : contents (block :: blocks) = block.data ++ contents blocks := rfl

theorem new_fits : Block.new.Fits := ⟨length_replicate, Nat.le_of_eq (Nat.zero_add _)⟩

theorem new_data : Block.new.data = [] := take_zero

theorem memcpy_spec {buf s : Bytes} {offset : Nat} (fits : offset + s.length ≤ buf.length) :
    ∃ after, memcpy buf offset s = some after ∧ after.length = buf.length ∧ after.take (offset + s.length) = buf.take offset ++ s := by
  refine ⟨_, if_pos fits, ?_, ?_⟩
  · simp only [length_append, length_take, length_drop]
    omega
  · have front : (buf.take offset ++ s).length = offset + s.length := by
      rw [length_append, length_take_of_le (by omega)]
    rw [← front, take_left]

section
variable (fits : block.Fits)
include fits

theorem Block.Fits.read : block.read = some block.data := by
  have size := fits.size
  have room := fits.room
  exact if_pos (by omega)

theorem Block.Fits.data_length : block.data.length = block.used := by
  have size := fits.size
  have room := fits.room
  exact length_take_of_le (by omega)

theorem Block.Fits.append (s : Bytes) : ∃ after, block.append s = some (after, s.drop (min block.free s.length)) ∧ after.Fits ∧
      after.data = block.data ++ s.take (min block.free s.length) := by
  have size := fits.size
  have room := fits.room
  have taken : (s.take (min block.free s.length)).length = min block.free s.length := length_take_of_le (Nat.min_le_right _ _)
  have inside : block.used + (s.take (min block.free s.length)).length ≤ block.buf.length := by omega
  obtain ⟨buf, copied, same, front⟩ := memcpy_spec inside
  refine ⟨⟨block.used + min block.free s.length, block.free - min block.free s.length, buf⟩, ?_, ⟨same.trans size, ?_⟩, ?_⟩
  · simp only [Block.append, copied, map_some]
  · simp only
    omega
  · rw [taken] at front
    exact front

theorem Block.Fits.shift {nwritten : Nat} (sent : nwritten ≤ block.used) :
    ∃ after, block.shift nwritten = some after ∧ after.Fits ∧ after.data = block.data.drop nwritten := by
  have size := fits.size
  have room := fits.room
  have left : (block.data.drop nwritten).length = block.used - nwritten := by rw [length_drop, fits.data_length]
  have inside : 0 + (block.data.drop nwritten).length ≤ block.buf.length := by omega
  obtain ⟨buf, moved, same, front⟩ := memcpy_spec inside
  refine ⟨⟨block.used - nwritten, block.free, buf⟩, ?_, ⟨same.trans size, ?_⟩, ?_⟩
  · simp only [Block.shift, fits.read, bind_eq_bind, bind_some, moved]
  · simp only
    omega
  · rw [Nat.zero_add, left] at front
    exact front

end

theorem fillLast_spec (fit : ∀ block ∈ blocks, block.Fits) (s : Bytes) :
    ∃ after rest, fillLast blocks s = some (after, rest) ∧ (∀ block ∈ after, block.Fits) ∧
      contents after ++ rest = contents blocks ++ s ∧ rest.length ≤ s.length := by
  unfold fillLast
  cases last : blocks.getLast? with
  | none => exact ⟨blocks, s, rfl, fit, rfl, Nat.le_refl _⟩
  | some block =>
    obtain ⟨init, rfl⟩ := getLast?_eq_some_iff.mp last
    obtain ⟨after, appended, fits, data⟩ := (fit block (by simp)).append s
    refine ⟨init ++ [after], s.drop (min block.free s.length), ?_, fun other member => ?_, ?_, ?_⟩
    · simp only [appended, map_some, dropLast_concat]
    · rcases mem_append.mp member with before | new
      · exact fit other (mem_append_left _ before)
      · exact mem_singleton.mp new ▸ fits
    · rw [contents_concat, contents_concat, data, append_assoc, append_assoc, take_append_drop, append_assoc]
    · rw [length_drop]
      exact Nat.sub_le _ _

theorem fillLast_shorter {init : List Block} (room : 0 < block.free) {s : Bytes} (some_ : s ≠ []) {after : List Block}
    {rest : Bytes} (filled : fillLast (init ++ [block]) s = some (after, rest)) : rest.length < s.length := by
  have positive : 0 < s.length := length_pos_iff.mpr some_
  simp only [fillLast, getLast?_concat, Block.append, Option.map_map, map_eq_some_iff, Function.comp_apply, Prod.mk.injEq] at filled
  obtain ⟨_, -, -, rfl⟩ := filled
  rw [length_drop]
  omega

/-- A round more than the bytes is enough, and one for each byte if the last block has room. -/
theorem appendLoop_spec (fuel : Nat) (fit : ∀ block ∈ blocks, block.Fits) {s : Bytes}
    (enough : s.length < fuel ∨ s.length ≤ fuel ∧ ∃ init block, blocks = init ++ [block] ∧ 0 < block.free) :
    ∃ after, appendLoop fuel blocks s = some after ∧ (∀ block ∈ after, block.Fits) ∧ contents after = contents blocks ++ s := by
  induction fuel generalizing blocks s with
  | zero =>
    have none : s.length = 0 := by omega
    obtain rfl := eq_nil_of_length_eq_zero none
    exact ⟨_, rfl, fit, (append_nil _).symm⟩
  | succ fuel ih =>
    by_cases empty : s = []
    · subst empty
      exact ⟨_, rfl, fit, (append_nil _).symm⟩
    · obtain ⟨after, rest, filled, fits, same, shorter⟩ := fillLast_spec fit s
      have few : rest.length ≤ fuel := by
        rcases enough with long | ⟨long, init, block, rfl, room⟩
        · omega
        · have consumed := fillLast_shorter room empty filled
          omega
      simp only [appendLoop, if_neg empty, filled, bind_eq_bind, bind_some]
      by_cases done : rest = []
      · subst done
        rw [append_nil] at same
        exact ⟨after, if_pos rfl, fits, same⟩
      · rw [if_neg done]
        have more : ∀ other ∈ after ++ [Block.new], other.Fits := fun other member =>
          (mem_append.mp member).elim (fits other) fun new => mem_singleton.mp new ▸ new_fits
        obtain ⟨last, looped, kept, all⟩ := ih more (.inr ⟨few, after, Block.new, rfl, by decide⟩)
        refine ⟨last, looped, kept, ?_⟩
        rw [all, contents_concat, new_data, append_nil, same]

theorem aofRewriteBufferAppend_spec (fit : ∀ block ∈ blocks, block.Fits) (s : Bytes) :
    ∃ after, aofRewriteBufferAppend blocks s = some after ∧ (∀ block ∈ after, block.Fits) ∧ contents after = contents blocks ++ s :=
  appendLoop_spec (s.length + 1) fit (.inl (Nat.lt_succ_self _))

theorem contents_dropWhile : contents (blocks.dropWhile fun block => block.used = 0) = contents blocks := by
  induction blocks with
  | nil => rfl
  | cons block blocks ih =>
    rw [dropWhile_cons]
    split
    next empty =>
      have none : block.data = [] := by rw [Block.data, of_decide_eq_true empty, take_zero]
      rw [ih, contents_cons, none, nil_append]
    next => rfl

theorem sendLoop_spec (writes : List Nat) (fit : ∀ block ∈ blocks, block.Fits) (pipe : Bytes) :
    ∃ after sent, sendLoop writes blocks pipe = some (after, sent) ∧ (∀ block ∈ after, block.Fits) ∧
      sent ++ contents after = pipe ++ contents blocks := by
  induction writes generalizing blocks pipe with
  | nil =>
    refine ⟨_, pipe, rfl, fun block member => fit block ((dropWhile_sublist _).subset member), ?_⟩
    rw [contents_dropWhile]
  | cons nwritten writes ih =>
    rw [← contents_dropWhile, sendLoop]
    have kept : ∀ block ∈ blocks.dropWhile (fun block => block.used = 0), block.Fits := fun block member =>
      fit block ((dropWhile_sublist _).subset member)
    generalize blocks.dropWhile (fun block => block.used = 0) = left at kept ⊢
    cases left with
    | nil => exact ⟨[], pipe, rfl, kept, rfl⟩
    | cons block left =>
      have fits := kept block mem_cons_self
      simp only
      split
      next => exact ⟨block :: left, pipe, rfl, kept, rfl⟩
      next =>
        obtain ⟨shifted, moved, fits', data⟩ := fits.shift (Nat.min_le_right nwritten block.used)
        have others : ∀ other ∈ shifted :: left, other.Fits := fun other member =>
          (mem_cons.mp member).elim (fun same => same ▸ fits') fun inside => kept other (mem_cons_of_mem _ inside)
        obtain ⟨after, sent, looped, fit', same⟩ := ih others (pipe ++ block.data.take (min nwritten block.used))
        refine ⟨after, sent, ?_, fit', ?_⟩
        · simp only [fits.read, moved, bind_eq_bind, bind_some]
          exact looped
        · rw [same, contents_cons, contents_cons, data, append_assoc, ← append_assoc (List.take ..), take_append_drop]

theorem aofRewriteBufferWrite_spec (fit : ∀ block ∈ blocks, block.Fits) : aofRewriteBufferWrite blocks = some (contents blocks) := by
  induction blocks with
  | nil => rfl
  | cons block blocks ih =>
    have rest := ih fun other member => fit other (mem_cons_of_mem _ member)
    simp only [aofRewriteBufferWrite, (fit block mem_cons_self).read, rest, bind_eq_bind, bind_some]
    rfl

def Rewrite.Located (child : Rewrite) (stop : Bool) (rest : Bytes) : Phase → Prop
  | .rewriting | .asked => child.file = [] ∧ child.fed = child.diff ++ child.pipe ++ rest
  | .agreed => stop = true ∧ child.file = [] ∧ child.fed = child.diff ++ child.pipe ++ rest
  | .exited true => stop = true ∧ child.fed = child.file ++ rest
  | .exited false => True

def Rewrite.Accounts (child : Rewrite) (stop : Bool) (rest : Bytes) : Prop :=
  (child.toChild = true → stop = true) ∧ child.Located stop rest child.phase

variable {child : Rewrite} {stop : Bool} {rest : Bytes}

theorem Rewrite.Accounts.feed (accounts : child.Accounts stop rest) (buf : Bytes) :
    ({ child with fed := child.fed ++ buf } : Rewrite).Accounts stop (rest ++ buf) := by
  obtain ⟨first, located⟩ := accounts
  refine ⟨first, ?_⟩
  revert located
  unfold Rewrite.Located
  simp only
  split
  · rintro ⟨file, fed⟩
    exact ⟨file, by rw [fed, append_assoc]⟩
  · rintro ⟨file, fed⟩
    exact ⟨file, by rw [fed, append_assoc]⟩
  · rintro ⟨stopped, file, fed⟩
    exact ⟨stopped, file, by rw [fed, append_assoc]⟩
  · rintro ⟨stopped, fed⟩
    exact ⟨stopped, by rw [fed, append_assoc]⟩
  · exact id

theorem Rewrite.Accounts.send (accounts : child.Accounts false rest) {pipe left : Bytes} (same : pipe ++ left = child.pipe ++ rest) :
    ({ child with pipe } : Rewrite).Accounts false left := by
  obtain ⟨first, located⟩ := accounts
  refine ⟨first, ?_⟩
  revert located
  unfold Rewrite.Located
  simp only
  split
  · rintro ⟨file, fed⟩
    exact ⟨file, by rw [fed, append_assoc, append_assoc, same]⟩
  · rintro ⟨file, fed⟩
    exact ⟨file, by rw [fed, append_assoc, append_assoc, same]⟩
  · exact fun stopped => Bool.noConfusion stopped.1
  · exact fun stopped => Bool.noConfusion stopped.1
  · exact id

section
variable (accounts : child.Accounts stop rest)
include accounts

theorem Rewrite.Accounts.read (nread : Nat) : (child.aofReadDiffFromParent nread).Accounts stop rest := by
  obtain ⟨first, located⟩ := accounts
  unfold Rewrite.aofReadDiffFromParent
  split
  next reads =>
    refine ⟨first, ?_⟩
    have bytes : child.diff ++ child.pipe.take nread ++ child.pipe.drop nread = child.diff ++ child.pipe := by
      rw [append_assoc, take_append_drop]
    rcases reads with phase | phase
    · rw [phase] at located
      simp only [phase]
      exact ⟨located.1, by rw [bytes]; exact located.2⟩
    · rw [phase] at located
      simp only [phase]
      exact ⟨located.1, located.2.1, by rw [bytes]; exact located.2.2⟩
  next => exact ⟨first, located⟩

theorem Rewrite.Accounts.ask : child.ask.Accounts stop rest := by
  obtain ⟨first, located⟩ := accounts
  unfold Rewrite.ask
  split
  next phase =>
    rw [phase] at located
    exact ⟨first, located⟩
  next => exact ⟨first, located⟩

theorem Rewrite.Accounts.answer (acknowledged : Bool) :
    ({ child with readable := false, toParent := false, toChild := acknowledged } : Rewrite).Accounts true rest := by
  obtain ⟨-, located⟩ := accounts
  refine ⟨fun _ => rfl, ?_⟩
  revert located
  unfold Rewrite.Located
  simp only
  split
  · exact id
  · exact id
  · exact fun before => ⟨trivial, before.2⟩
  · exact fun before => ⟨trivial, before.2⟩
  · exact id

theorem Rewrite.Accounts.agree : child.agree.Accounts stop rest := by
  obtain ⟨first, located⟩ := accounts
  unfold Rewrite.agree
  split
  next answered =>
    rw [answered.1] at located
    exact ⟨fun none => Bool.noConfusion none, first answered.2, located⟩
  next => exact ⟨first, located⟩

theorem Rewrite.Accounts.finish : child.finish.Accounts stop rest := by
  obtain ⟨first, located⟩ := accounts
  unfold Rewrite.finish
  split
  next empty =>
    rw [empty.1] at located
    obtain ⟨stopped, file, fed⟩ := located
    refine ⟨first, stopped, ?_⟩
    rw [fed, empty.2, file, append_nil, nil_append]
  next => exact ⟨first, located⟩

theorem Rewrite.Accounts.fail : child.fail.Accounts stop rest := by
  unfold Rewrite.fail
  split
  next => exact accounts
  next => exact ⟨accounts.1, trivial⟩

end

structure Lossless (s : Server) : Prop where
  fit : ∀ block ∈ s.blocks, block.Fits
  idle : s.child = none → s.blocks = []
  accounts : ∀ child, s.child = some child → child.Accounts s.stopSendingDiff (contents s.blocks)
  written : ∀ log ∈ s.written, log.1 = log.2

variable {s : Server}

section
variable (lossless : Lossless s)
include lossless

theorem Lossless.change {change : Rewrite → Rewrite}
    (kept : ∀ child stop rest, child.Accounts stop rest → (change child).Accounts stop rest) :
    Lossless { s with child := s.child.map change } := by
  refine ⟨lossless.fit, fun none => lossless.idle (map_eq_none_iff.mp none), fun child there => ?_, lossless.written⟩
  obtain ⟨before, same, rfl⟩ := map_eq_some_iff.mp there
  exact kept before _ _ (lossless.accounts before same)

theorem Lossless.cleanup : Lossless s.cleanup :=
  ⟨fun _ member => absurd member (not_mem_nil), fun _ => rfl, fun _ there => absurd there.symm (some_ne_none _), lossless.written⟩

theorem Lossless.fork (forked : Bool) : Lossless (s.rewriteAppendOnlyFileBackground forked) := by
  unfold Server.rewriteAppendOnlyFileBackground
  split
  next => exact lossless
  next none =>
    have empty := lossless.idle none
    refine ⟨lossless.fit, fun _ => empty, fun child there => ?_, lossless.written⟩
    simp only [ite_none_right_eq_some, some.injEq] at there
    obtain ⟨-, rfl⟩ := there
    rw [show contents _ = [] from congrArg contents empty]
    exact ⟨fun none => Bool.noConfusion none, rfl, rfl⟩

theorem Lossless.feed (buf : Bytes) : ∃ after, s.feedAppendOnlyFile buf = some after ∧ Lossless after := by
  unfold Server.feedAppendOnlyFile
  split
  next => exact ⟨s, rfl, lossless⟩
  next child there =>
    obtain ⟨blocks, appended, fit, same⟩ := aofRewriteBufferAppend_spec lossless.fit buf
    rw [appended]
    refine ⟨_, rfl, fit, fun none => absurd none (some_ne_none _), fun after now => ?_, lossless.written⟩
    cases now
    simp only [same]
    exact (lossless.accounts child there).feed buf

theorem Lossless.send (writes : List Nat) : ∃ after, s.aofChildWriteDiffData writes = some after ∧ Lossless after := by
  unfold Server.aofChildWriteDiffData
  split
  next => exact ⟨s, rfl, lossless⟩
  next child there =>
    split
    next => exact ⟨s, rfl, lossless⟩
    next =>
      split
      next => exact ⟨_, rfl, lossless.fit, lossless.idle, lossless.accounts, lossless.written⟩
      next going =>
        obtain ⟨blocks, pipe, sent, fit, same⟩ := sendLoop_spec writes lossless.fit child.pipe
        have running : s.stopSendingDiff = false := by simpa using going
        rw [sent]
        refine ⟨_, rfl, fit, fun none => absurd none (some_ne_none _), fun after now => ?_, lossless.written⟩
        cases now
        have accounts := lossless.accounts child there
        simp only [running] at accounts ⊢
        exact accounts.send same

theorem Lossless.answer (acknowledged : Bool) : Lossless (s.aofChildPipeReadable acknowledged) := by
  unfold Server.aofChildPipeReadable
  split
  next => exact lossless
  next child there =>
    split
    next =>
      refine ⟨lossless.fit, fun none => absurd none (some_ne_none _), fun after now => ?_, lossless.written⟩
      cases now
      exact (lossless.accounts child there).answer acknowledged
    next => exact lossless

theorem Lossless.done (complete : Bool) : ∃ after, s.backgroundRewriteDoneHandler complete = some after ∧ Lossless after := by
  unfold Server.backgroundRewriteDoneHandler
  split
  next => exact ⟨s, rfl, lossless⟩
  next child there =>
    have accounts := (lossless.accounts child there).2
    split
    next exited =>
      rw [exited] at accounts
      obtain ⟨fit, idle, accounts', written⟩ := lossless.cleanup
      rw [aofRewriteBufferWrite_spec lossless.fit]
      refine ⟨_, rfl, fit, idle, accounts', fun log member => ?_⟩
      simp only at member
      split at member
      next =>
        rcases mem_cons.mp member with rfl | before
        · exact accounts.2.symm
        · exact lossless.written log before
      next => exact lossless.written log member
    next => exact ⟨_, rfl, lossless.cleanup⟩
    next => exact ⟨s, rfl, lossless⟩

end

theorem Lossless.step (s : Server) (event : Event) (lossless : Lossless s) : ∃ after, step s event = some after ∧ Lossless after := by
  cases event with
  | fork success => exact ⟨_, rfl, lossless.fork success⟩
  | feedAppendOnlyFile buf => exact lossless.feed buf
  | childWriteDiffData writes => exact lossless.send writes
  | childReads nread => exact ⟨_, rfl, lossless.change fun _ _ _ accounts => accounts.read nread⟩
  | childAsks => exact ⟨_, rfl, lossless.change fun _ _ _ accounts => accounts.ask⟩
  | childPipeReadable acknowledged => exact ⟨_, rfl, lossless.answer acknowledged⟩
  | childAgrees => exact ⟨_, rfl, lossless.change fun _ _ _ accounts => accounts.agree⟩
  | childFinishes => exact ⟨_, rfl, lossless.change fun _ _ _ accounts => accounts.finish⟩
  | childFails => exact ⟨_, rfl, lossless.change fun _ _ _ accounts => accounts.fail⟩
  | rewriteDone complete => exact lossless.done complete
  | stopAppendOnly => exact ⟨_, rfl, lossless.cleanup⟩

end Cplusplus.Redis.AofRewrite
