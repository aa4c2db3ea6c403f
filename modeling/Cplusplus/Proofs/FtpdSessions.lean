import Cplusplus.Ftpd
import Cplusplus.Library.Run
import Mathlib.Data.List.TakeWhile

/-! The login of the server. `ftpd_cur_user` is set by USER and not by PASS, so that the login
check tells only what the last of the two has left. -/

namespace Cplusplus.Ftpd

section
open List Option

section
variable {s : Server} {buff : List UInt8}

theorem ftpdDoUser_acts (s : Server) (cmd : List UInt8) : executed (ftpdDoUser s cmd).2 = false := by
  unfold ftpdDoUser
  split
  · rfl
  · simp only
    split
    all_goals split <;> rfl

theorem ftpdDoPass_acts (s : Server) (cmd : List UInt8) : executed (ftpdDoPass s cmd).2 = false := by
  unfold ftpdDoPass
  split
  · split <;> rfl
  · rfl

theorem Handler.run_executed (handler : Handler) (s : Server) (cmd : List UInt8) :
    executed (handler.run s cmd).2 = (handler.checksLogin cmd && s.ftpdCurUser.isSome) := by
  have checked : ∀ (after : Server) (act : Handler) (arg : Option (List UInt8)),
      executed (ftpdCheckLogin s (after, [.body act arg])).2 = s.ftpdCurUser.isSome := by
    intro after act arg
    unfold ftpdCheckLogin
    cases s.ftpdCurUser <;> rfl
  have late : ∀ (act : Handler) (num : Nat) (missing : String),
      executed (checkedAfterArgument s act cmd num missing).2 = ((argument cmd).isSome && s.ftpdCurUser.isSome) := by
    intro act num missing
    unfold checkedAfterArgument
    cases argument cmd with
    | none => rfl
    | some arg => rw [checked, isSome_some, Bool.true_and]
  cases handler with
  | auth => rfl
  | user => exact ftpdDoUser_acts s cmd
  | pass => exact ftpdDoPass_acts s cmd
  | mkd => exact late .mkd 550 _
  | rmd => exact late .rmd 550 _
  | type => exact late .type 500 _
  | _ => exact checked _ _ _

theorem ftpdDoRequest_executed (s : Server) (buff : List UInt8) :
    executed (ftpdDoRequest s buff).2 = (needsLogin buff && s.ftpdCurUser.isSome) := by
  unfold ftpdDoRequest needsLogin
  cases dispatch buff with
  | none => rfl
  | some found => exact found.1.run_executed s found.2

theorem Handler.run_user {handler : Handler} (user : handler ≠ .user) (pass : handler ≠ .pass) (s : Server) (cmd : List UInt8) :
    (handler.run s cmd).1.ftpdCurUser = s.ftpdCurUser := by
  have checked : ∀ rest : Server × List Act, rest.1.ftpdCurUser = s.ftpdCurUser → (ftpdCheckLogin s rest).1.ftpdCurUser = s.ftpdCurUser := by
    intro rest same
    unfold ftpdCheckLogin
    split
    · rfl
    · exact same
  have late : ∀ (act : Handler) (num : Nat) (missing : String), (checkedAfterArgument s act cmd num missing).1.ftpdCurUser = s.ftpdCurUser := by
    intro act num missing
    unfold checkedAfterArgument
    split
    · exact checked _ rfl
    · rfl
  cases handler with
  | user => exact absurd rfl user
  | pass => exact absurd rfl pass
  | auth => rfl
  | mkd => exact late .mkd 550 _
  | rmd => exact late .rmd 550 _
  | type => exact late .type 500 _
  | _ => exact checked _ rfl

theorem ftpdDoPass_user (s : Server) (cmd : List UInt8) (set : (ftpdDoPass s cmd).1.ftpdCurUser.isSome = true) :
    s.ftpdCurUser.any (fun user => (argument cmd).any fun password => passwordRight user password) = true := by
  unfold ftpdDoPass at set
  split at set
  next user password current arg =>
    split at set
    next right => simp only [current, arg, any_some, right]
    next => cases set
  next => cases set

def acceptStep (accepted : Bool) (entry : Server × List UInt8 × List Act) : Bool :=
  if isUser entry.2.1 then false else accepted || accepts entry.1 entry.2.1

def passStep (last : Bool) (buff : List UInt8) : Bool := if isUser buff then false else last || isPass buff

/-- When a user is set and the last of USER and PASS was PASS, it was accepted. -/
structure Linked (accepted last : Bool) (s : Server) : Prop where
  right : last = true → s.ftpdCurUser.isSome = true → accepted = true
  passed : accepted = true → last = true

theorem Linked.step {accepted last : Bool} (linked : Linked accepted last s) (acts : List Act) :
    Linked (acceptStep accepted (s, buff, acts)) (passStep last buff) (ftpdDoRequest s buff).1 := by
  unfold acceptStep passStep ftpdDoRequest isUser isPass accepts isPass
  cases found : dispatch buff with
  | none => simpa using linked
  | some entry =>
    obtain ⟨handler, cmd⟩ := entry
    simp only [any_some]
    by_cases user : handler = .user
    · subst user
      exact ⟨(fun passed => by cases passed), fun accepted => by cases accepted⟩
    · by_cases pass : handler = .pass
      · subst pass
        refine ⟨fun _ set => ?_, fun _ => by simp⟩
        have right := ftpdDoPass_user s cmd set
        simp [right]
      · have same := Handler.run_user user pass s cmd
        simp only [user, pass, decide_false, Bool.false_eq_true, if_false, Bool.or_false, Bool.false_and]
        exact ⟨fun passed set => linked.right passed (same ▸ set), linked.passed⟩

theorem linked_run {accepted last : Bool} (linked : Linked accepted last s) {requests : List (List UInt8)}
    {before after : List (Server × List UInt8 × List Act)} {s' : Server} {acts : List Act}
    (run : ftpdCtrlConnHandler s requests = before ++ (s', buff, acts) :: after) :
    Linked (before.foldl acceptStep accepted) ((before.map fun entry => entry.2.1).foldl passStep last) s' ∧
      acts = (ftpdDoRequest s' buff).2 := by
  induction requests generalizing s accepted last before with
  | nil => simp [ftpdCtrlConnHandler] at run
  | cons request rest ih =>
    simp only [ftpdCtrlConnHandler] at run
    cases before with
    | nil =>
      obtain ⟨same, -⟩ := cons.inj run
      simp only [Prod.mk.injEq] at same
      obtain ⟨rfl, rfl, rfl⟩ := same
      exact ⟨linked, rfl⟩
    | cons entry before =>
      obtain ⟨rfl, tail⟩ := cons.inj run
      split at tail
      next => simp at tail
      next => exact ih (linked.step _) tail

/-- Nothing is executed before the login exactly when no command that needs it is sent between a
USER and its PASS. -/
theorem protected_when_pass_follows (requests : List (List UInt8)) : Protected requests ↔ PassFollowsUser requests := by
  have start : Linked false false Server.start := ⟨(fun last => by cases last), fun accepted => by cases accepted⟩
  constructor
  · intro kept before s buff acts after run needs set
    obtain ⟨linked, rfl⟩ := linked_run start run
    apply linked.passed
    apply kept before s buff _ after run
    rw [ftpdDoRequest_executed, needs, set, Bool.and_self]
  · intro order before s buff acts after run done
    obtain ⟨linked, rfl⟩ := linked_run start run
    rw [ftpdDoRequest_executed, Bool.and_eq_true] at done
    exact linked.right (order before s buff _ after run done.1 done.2) done.2

/-- "USER ftp" and "LIST": the listing comes without a password. -/
theorem user_alone_lists : ¬ Protected [[85, 83, 69, 82, 32, 102, 116, 112, 13, 10], [76, 73, 83, 84, 13, 10]] := by
  intro kept
  have accepted := kept [_] _ _ _ [] rfl (by decide)
  exact absurd accepted (by decide)

end

/-! The reads of the control connection against the commands. A read is taken for one command, so
that the commands come through when the reads fall together with the lines. -/

section
open Buffered (Split)

variable {s : Server}

theorem requestLine_iff (buff cmd : List UInt8) : requestLine buff = some cmd ↔ requestString buff = cmd ++ [13, 10] := by
  unfold requestLine
  simp only
  rw [← requestString]
  constructor
  · intro line
    split at line
    next ends =>
      obtain ⟨front, same⟩ := ends
      rw [← same] at line ⊢
      rw [length_append, length_cons, length_singleton, Nat.add_sub_cancel, take_left] at line
      rw [some.inj line]
    next => cases line
  · intro line
    rw [line, if_pos (suffix_append _ _), length_append, length_cons, length_singleton, Nat.add_sub_cancel, take_left]

theorem ftpdDoRequest_line {buff cmd : List UInt8} (line : requestLine buff = some cmd) : ftpdDoRequest s buff = ftpdDoLine s cmd := by
  unfold ftpdDoRequest ftpdDoLine dispatch
  rw [line, bind_some]
  cases ftpdCmds.find? fun entry => entry.1 = cmd.takeWhile (· ≠ 32) with
  | none => rfl
  | some entry => rfl

theorem handled_reads (s : Server) (reads : List (List UInt8)) :
    ((ftpdCtrlConnHandler s reads).map fun entry => entry.2.1) = reads.take (ftpdCtrlConnHandler s reads).length := by
  induction reads generalizing s with
  | nil => rfl
  | cons buff reads ih =>
    simp only [ftpdCtrlConnHandler, map_cons, length_cons, take_succ_cons]
    split
    · rfl
    · rw [ih]

/-- Reads that fall together with the lines, when none is left or the session has ended before. -/
theorem handled_aligned (s : Server) (commands : List Command) (reads : List (List UInt8))
    (whole : (reads.take (served s commands).length).map requestString = (served s commands).map Command.line)
    (all : reads.length = (served s commands).length ∨ (served s commands).length < commands.length) :
    ((ftpdCtrlConnHandler s reads).map fun entry => requestLine entry.2.1) = (served s commands).map fun command => some command.text := by
  induction commands generalizing s reads with
  | nil =>
    have none : reads = [] := length_eq_zero_iff.1 (all.resolve_right (Nat.lt_irrefl _))
    subst none
    rfl
  | cons command commands ih =>
    cases reads with
    | nil =>
      rw [take_nil, served] at whole
      cases whole
    | cons buff reads =>
      simp only [served, length_cons, take_succ_cons, map_cons, cons.injEq, Nat.add_right_cancel_iff, Nat.add_lt_add_iff_right] at whole all ⊢
      obtain ⟨first, rest⟩ := whole
      have line : requestLine buff = some command.text := (requestLine_iff buff command.text).2 first
      simp only [ftpdCtrlConnHandler, ftpdDoRequest_line line, map_cons, line, cons.injEq, true_and]
      split
      · rfl
      next goes =>
        rw [if_neg goes] at rest all
        exact ih _ reads rest all

theorem reads_length {commands : List Command} (reads : Split maxline (sentLines commands))
    (whole : (reads.blocks.take commands.length).map requestString = commands.map Command.line) :
    reads.blocks.length = commands.length := by
  have shorter : ∀ blocks : List (List UInt8), (blocks.map requestString).flatten.length ≤ blocks.flatten.length := by
    intro blocks
    induction blocks with
    | nil => exact Nat.le_refl _
    | cons block blocks ih =>
      have first : (requestString block).length ≤ block.length := (takeWhile_sublist _).length_le
      simp only [map_cons, flatten_cons, length_append]
      omega
  have bytes : (reads.blocks.take commands.length).flatten.length + (reads.blocks.drop commands.length).flatten.length =
      (sentLines commands).length := by
    rw [← length_append, ← List.flatten_append, take_append_drop, reads.flatten]
  have lines := shorter (reads.blocks.take commands.length)
  rw [whole, ← sentLines] at lines
  have none : reads.blocks.drop commands.length = [] := by
    cases rest : reads.blocks.drop commands.length with
    | nil => rfl
    | cons block blocks =>
      have member : block ∈ reads.blocks := mem_of_mem_drop (by rw [rest]; exact mem_cons_self)
      have positive := length_pos_of_ne_nil (reads.nonempty block member)
      rw [rest, flatten_cons, length_append] at bytes
      omega
  have count := congrArg List.length whole
  rw [length_map, length_map, length_take] at count
  have few := drop_eq_nil_iff.1 none
  omega

theorem served_length (s : Server) (commands : List Command) : served s commands = commands ∨ (served s commands).length < commands.length := by
  induction commands generalizing s with
  | nil => exact .inl rfl
  | cons command commands ih =>
    rw [served]
    split
    · cases commands with
      | nil => exact .inl rfl
      | cons next commands =>
        refine .inr ?_
        simp only [length_cons, length_nil]
        omega
    · obtain same | fewer := ih (ftpdDoLine s command.text).1
      · exact .inl (by rw [same])
      · exact .inr (Nat.succ_lt_succ fewer)

/-- The commands come through exactly when each read up to the end of the session is one line that
does not fill the buffer. -/
theorem commands_dispatched (commands : List Command) (reads : Split maxline (sentLines commands)) :
    Dispatched commands reads.blocks ↔ Aligned commands reads.blocks := by
  constructor
  · rintro ⟨bounds, lines⟩
    have count : (ftpdCtrlConnHandler .start reads.blocks).length = (served .start commands).length := by
      simpa using congrArg List.length lines
    have buffs := handled_reads .start reads.blocks
    rw [count] at buffs
    constructor
    · rw [← buffs, List.map_map]
      apply ext_getElem (by simpa using count)
      intro i first second
      have line := congrArg (fun lines => lines[i]?) lines
      simp only [length_map] at first second
      simp only [getElem?_map, getElem?_eq_getElem first, getElem?_eq_getElem second, map_some,
        some.injEq] at line
      simp only [getElem_map, Function.comp_apply]
      exact (requestLine_iff _ _).1 line
    · intro buff member
      rw [← buffs] at member
      obtain ⟨entry, handled, rfl⟩ := List.mem_map.1 member
      have inside := bounds entry handled
      simp only [inBounds, Bool.and_eq_true, decide_eq_true_eq] at inside
      exact inside.1.1
  · rintro ⟨whole, room⟩
    have lines : ((ftpdCtrlConnHandler .start reads.blocks).map fun entry => requestLine entry.2.1) =
        (served .start commands).map fun command => some command.text := by
      apply handled_aligned .start commands reads.blocks whole
      obtain same | fewer := served_length .start commands
      · rw [same] at whole ⊢
        exact .inl (reads_length reads whole)
      · exact .inr fewer
    have count : (ftpdCtrlConnHandler .start reads.blocks).length = (served .start commands).length := by
      simpa using congrArg List.length lines
    refine ⟨fun entry handled => ?_, lines⟩
    have member : entry.2.1 ∈ reads.blocks.take (served .start commands).length := by
      rw [← count, ← handled_reads]
      exact List.mem_map_of_mem handled
    have string : requestString entry.2.1 ∈ (served .start commands).map Command.line := by
      rw [← whole]
      exact List.mem_map_of_mem member
    obtain ⟨command, _, line⟩ := List.mem_map.1 string
    have long : (requestString entry.2.1).length = command.text.length + 2 := by
      rw [← line, Command.line, length_append]
      rfl
    simp only [inBounds, Bool.and_eq_true, decide_eq_true_eq, Bool.not_eq_true', isEmpty_eq_false_iff]
    refine ⟨⟨room entry.2.1 member, ?_⟩, ?_⟩
    · exact ne_nil_of_length_pos (by omega)
    · intro single
      rw [single] at long
      simp at long

/-- "SYST" in two reads: the first has no end of line, and the second is not the command. -/
theorem command_in_two_reads : ¬ ∀ (commands : List Command) (reads : Split maxline (sentLines commands)),
    Dispatched commands reads.blocks := by
  intro always
  have dispatched := always [⟨[83, 89, 83, 84], by decide, by decide⟩] ⟨[[83, 89], [83, 84, 13, 10]], rfl, by decide, by decide⟩
  exact absurd dispatched.lines (by decide)

end

end

/-! The table of children over every order of forks and exits. While the accounts are right the
entries fill the first slots in the order of their arrival. No slot in use ever becomes free. -/

section
open List
open Option hiding or_assoc

theorem replaceFirst_none {old new : Int} {slots : List Int} (absent : old ∉ slots) : replaceFirst old new slots = none := by
  induction slots with
  | nil => rfl
  | cons slot slots ih =>
    obtain ⟨other, absent⟩ := not_or.1 (mt mem_cons.2 absent)
    rw [replaceFirst, if_neg (Ne.symm other), ih absent, map_none]

theorem replaceFirst_append {old new : Int} {front : List Int} (absent : old ∉ front) (rest : List Int) :
    replaceFirst old new (front ++ old :: rest) = some (front ++ new :: rest) := by
  induction front with
  | nil => exact if_pos rfl
  | cons slot front ih =>
    obtain ⟨other, absent⟩ := not_or.1 (mt mem_cons.2 absent)
    rw [cons_append, replaceFirst, if_neg (Ne.symm other), ih absent, map_some, cons_append]

structure Packed (s : System) : Prop where
  slots : ∃ free, s.table.pids = s.added ++ List.replicate free (-1)
  nchild : s.table.ftpdNchild = s.added.length
  alive : ∀ pid ∈ s.added, s.child pid
  positive : ∀ pid, s.child pid → 0 < pid
  forked : ∀ pid, s.forked = some pid → 0 < pid

variable {s : System}

section
variable (packed : Packed s)
include packed

theorem Packed.added_positive {pid : Int} (member : pid ∈ s.added) : 0 < pid := packed.positive pid (packed.alive pid member)

theorem Packed.free_notin : -1 ∉ s.added := by
  intro member
  have positive := packed.added_positive member
  omega

theorem Packed.recorded : s.table.recorded = s.added := by
  obtain ⟨free, slots⟩ := packed.slots
  unfold Table.recorded
  rw [slots, filter_append, filter_eq_self.2, filter_eq_nil_iff.2, append_nil]
  · intro slot member
    have empty := eq_of_mem_replicate member
    simp [empty]
  · intro slot member
    have positive := packed.added_positive member
    simp only [decide_eq_true_eq]
    omega

theorem Packed.room : (-1 ∉ s.table.pids ∧ s.table.pids = s.added) ∨
    (-1 ∈ s.table.pids ∧ ∃ free, s.table.pids = s.added ++ -1 :: List.replicate free (-1)) := by
  obtain ⟨free, slots⟩ := packed.slots
  cases free with
  | zero =>
    have full : s.table.pids = s.added := by simpa using slots
    exact .inl ⟨full ▸ packed.free_notin, full⟩
  | succ free =>
    rw [replicate_succ] at slots
    refine .inr ⟨?_, free, slots⟩
    rw [slots]
    simp

theorem Packed.accounted : Accounted s := by
  refine ⟨?_, ?_, ?_⟩
  · rw [packed.recorded]
  · rw [packed.recorded, packed.nchild]
  · intro kill signalled pid _ recorded
    rw [packed.recorded] at recorded
    obtain ⟨free, slots⟩ := packed.slots
    have taken : s.table.pids.take s.table.ftpdNchild.toNat = s.added := by
      rw [slots, packed.nchild, Int.toNat_natCast, take_left]
    have used : s.added.filter (· ≠ -1) = s.added := by
      apply filter_eq_self.2
      intro slot member
      have positive := packed.added_positive member
      simp only [decide_eq_true_eq]
      omega
    unfold Ftpd.ftpdSigInt
    rw [taken, used, takeWhile_eq_self_iff.2]
    · exact recorded
    · exact fun slot member => signalled slot (packed.alive slot member)

end

theorem packed_start : Packed .start := by
  refine ⟨⟨9, rfl⟩, rfl, ?_, ?_, ?_⟩
  · exact fun _ member => absurd member not_mem_nil
  · exact fun _ child => child.elim (absurd · not_mem_nil) (absurd · not_mem_nil)
  · exact fun _ forked => absurd forked (some_ne_none _).symm

section
variable (packed : Packed s)
include packed

theorem Packed.fork (pid : Int) : Packed (s.fork pid) := by
  unfold System.fork
  split
  · exact packed
  next possible =>
    have positive : 0 < pid := Int.not_le.1 (not_or.1 (not_or.1 possible).2).1
    have children : ∀ other, System.child { s with forked := some pid, running := pid :: s.running } other ↔ other = pid ∨ s.child other := by
      intro other
      simp only [System.child, mem_cons, or_assoc]
    refine ⟨packed.slots, packed.nchild, ?_, ?_, ?_⟩
    · exact fun other member => (children other).2 (.inr (packed.alive other member))
    · intro other child
      obtain rfl | child := (children other).1 child
      · exact positive
      · exact packed.positive other child
    · rintro other ⟨⟩
      exact positive

theorem Packed.exit (pid : Int) : Packed (s.exit pid) := by
  unfold System.exit
  split
  next running =>
    have children : ∀ other, System.child { s with running := s.running.erase pid, exited := pid :: s.exited } other ↔ s.child other := by
      intro other
      simp only [System.child, mem_cons]
      by_cases same : other = pid
      · simp [same, running]
      · simp [same, mem_erase_of_ne same]
    refine ⟨packed.slots, packed.nchild, ?_, ?_, packed.forked⟩
    · exact fun other member => (children other).2 (packed.alive other member)
    · exact fun other child => packed.positive other ((children other).1 child)
  · exact packed

theorem Packed.add_cases : (s.forked = none ∧ s.add = s) ∨ (-1 ∉ s.table.pids ∧ s.add = { s with forked := none }) ∨
    (∃ pid free, s.forked = some pid ∧ -1 ∈ s.table.pids ∧
      s.add = { s with table := ⟨s.added ++ pid :: List.replicate free (-1), s.table.ftpdNchild + 1⟩, forked := none,
                       added := if s.child pid then s.added ++ [pid] else s.added }) := by
  unfold System.add
  cases forked : s.forked with
  | none => exact .inl ⟨rfl, rfl⟩
  | some pid =>
    obtain ⟨full, _⟩ | ⟨open', free, slots⟩ := packed.room
    · refine .inr (.inl ⟨full, ?_⟩)
      simp only [add2pids, replaceFirst_none full, map_none]
    · refine .inr (.inr ⟨pid, free, rfl, open', ?_⟩)
      simp only [add2pids, slots, replaceFirst_append packed.free_notin, map_some]

theorem Packed.add (reapable : Reapable s .add) : Packed s.add := by
  obtain ⟨_, same⟩ | ⟨_, same⟩ | ⟨pid, free, forked, empty, same⟩ := packed.add_cases
  · rw [same]
    exact packed
  · rw [same]
    exact ⟨packed.slots, packed.nchild, packed.alive, packed.positive, fun _ gone => absurd gone (some_ne_none _).symm⟩
  · have child := (reapable pid forked).resolve_right (not_not_intro empty)
    rw [same, if_pos child]
    refine ⟨⟨free, ?_⟩, ?_, ?_, packed.positive, fun _ gone => absurd gone (some_ne_none _).symm⟩
    · simp only [append_assoc, singleton_append]
    · simp only [packed.nchild, length_append, length_singleton, Int.natCast_add, Int.natCast_one]
    · intro other member
      obtain member | last := mem_append.1 member
      · exact packed.alive other member
      · exact mem_singleton.1 last ▸ child

theorem Packed.add_reapable (accounted : Accounted s.add) : Reapable s .add := by
  intro pid forked
  obtain ⟨none, _⟩ | ⟨full, _⟩ | ⟨other, free, same, _, after⟩ := packed.add_cases
  · rw [forked] at none
    exact absurd none (some_ne_none _)
  · exact .inr full
  · obtain rfl : pid = other := some.inj (forked.symm.trans same)
    by_contra reaped
    have gone : ¬ s.child pid := fun child => reaped (.inl child)
    have positive := packed.forked pid forked
    rw [after, if_neg gone] at accounted
    have entry : pid ∈ s.added := accounted.entries.mem_iff.1 (by
      simp only [Table.recorded, mem_filter, mem_append, mem_cons]
      refine ⟨.inr (.inl trivial), ?_⟩
      simp only [decide_eq_true_eq]
      omega)
    exact gone (packed.alive pid entry)

theorem Packed.sigchld_cases : ((s.running ≠ [] ∨ -1 ∉ s.table.pids) ∧ deleFromPids s.waitpidLast s.table = s.table) ∨
    (s.running = [] ∧ -1 ∈ s.table.pids ∧ deleFromPids s.waitpidLast s.table = ⟨s.table.pids, s.table.ftpdNchild - 1⟩) := by
  unfold deleFromPids System.waitpidLast
  have unused : (0 : Int) ∉ s.table.pids := by
    obtain ⟨free, slots⟩ := packed.slots
    rw [slots, mem_append]
    rintro (member | empty)
    · exact Int.lt_irrefl _ (packed.added_positive member)
    · exact absurd (eq_of_mem_replicate empty) (by decide)
  cases running : s.running with
  | cons pid running =>
    refine .inl ⟨.inl (cons_ne_nil _ _), ?_⟩
    simp only [isEmpty_cons, Bool.false_eq_true, if_false, replaceFirst_none unused]
  | nil =>
    simp only [isEmpty_nil, if_true]
    obtain ⟨full, _⟩ | ⟨empty, free, slots⟩ := packed.room
    · refine .inl ⟨.inr full, ?_⟩
      simp only [replaceFirst_none full]
    · refine .inr ⟨trivial, empty, ?_⟩
      simp only [slots, replaceFirst_append packed.free_notin]

theorem Packed.sigchld (reapable : Reapable s .sigchld) : Packed s.ftpdSigChld := by
  have unchanged : deleFromPids s.waitpidLast s.table = s.table := by
    obtain ⟨_, same⟩ | ⟨none, empty, _⟩ := packed.sigchld_cases
    · exact same
    · exact absurd reapable.2 (not_or_intro (not_not_intro none) (not_not_intro empty))
  have others : ∀ pid ∈ s.added, pid ∉ s.exited := by
    intro pid member exited
    exact reapable.1 pid exited (packed.recorded ▸ member)
  have added : s.added.filter (· ∉ s.exited) = s.added := by
    apply filter_eq_self.2
    exact fun pid member => decide_eq_true (others pid member)
  unfold System.ftpdSigChld
  rw [unchanged, added]
  refine ⟨packed.slots, packed.nchild, ?_, ?_, packed.forked⟩
  · exact fun pid member => .inl ((packed.alive pid member).resolve_right (others pid member))
  · exact fun pid child => packed.positive pid (child.imp_right (absurd · not_mem_nil))

theorem Packed.sigchld_reapable (accounted : Accounted s.ftpdSigChld) : Reapable s .sigchld := by
  have pids : (deleFromPids s.waitpidLast s.table).pids = s.table.pids := by
    obtain ⟨_, same⟩ | ⟨_, _, same⟩ := packed.sigchld_cases
    all_goals rw [same]
  have recorded : s.ftpdSigChld.table.recorded = s.added := by
    rw [← packed.recorded]
    exact congrArg (List.filter _) pids
  constructor
  · intro pid exited entry
    rw [packed.recorded, ← recorded] at entry
    have kept := accounted.entries.mem_iff.1 entry
    exact of_decide_eq_true (mem_filter.1 kept).2 exited
  · obtain ⟨other, _⟩ | ⟨_, _, counter⟩ := packed.sigchld_cases
    · exact other
    · have count := accounted.nchild
      rw [recorded] at count
      have fewer : s.ftpdSigChld.table.ftpdNchild = s.added.length - 1 := by
        unfold System.ftpdSigChld
        rw [counter, ← packed.nchild]
      omega

theorem Packed.step (event : Event) (reapable : Reapable s event) : Packed (s.step event) := by
  cases event with
  | fork pid => exact packed.fork pid
  | add => exact packed.add reapable
  | exit pid => exact packed.exit pid
  | sigchld => exact packed.sigchld reapable

theorem Packed.step_exact (event : Event) : Reapable s event ↔ Accounted (s.step event) := by
  refine ⟨fun reapable => (packed.step event reapable).accounted, fun accounted => ?_⟩
  cases event with
  | fork pid => trivial
  | add => exact packed.add_reapable accounted
  | exit pid => trivial
  | sigchld => exact packed.sigchld_reapable accounted

end

/-- The accounts are right in all the states of a run exactly when no child that is in the table is
ever reaped, a SIGCHLD leaves another child, and no child is reaped before it is added. -/
theorem children_accounted (events : List Event) :
    (∀ before after, events = before ++ after → Accounted (before.foldl System.step .start)) ↔
      Run.Meets System.step Reapable .start events := by
  have keeps : ∀ s event, Packed s → Reapable s event → Packed (s.step event) :=
    fun _ event packed reapable => packed.step event reapable
  have exact : ∀ s event, Packed s → (Reapable s event ↔ Accounted (s.step event)) :=
    fun _ event packed => packed.step_exact event
  exact (Run.meets_iff_reached keeps exact events packed_start packed_start.accounted).symm

/-- A child that is added and exits: its pid stays in the table, and the counter is zero. -/
theorem reaped_child_recorded : ¬ ∀ events before after : List Event, events = before ++ after →
    Accounted (before.foldl System.step .start) := by
  intro always
  have accounted := always [.fork 2, .add, .exit 2, .sigchld] [.fork 2, .add, .exit 2, .sigchld] [] rfl
  have entry : (2 : Int) ∈ ([] : List Int) := accounted.entries.mem_iff.1 (by decide)
  exact not_mem_nil entry

end

end Cplusplus.Ftpd
