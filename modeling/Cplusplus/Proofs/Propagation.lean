import Cplusplus.Proofs.HllCommands
import Cplusplus.Transactions

/-! The stream that is propagated. MULTI is sent on the first queued command without the
flag of a read command, EXEC if `server.dirty` is higher than before the transaction. The
two agree if read commands leave `server.dirty` alone and nothing lowers it. -/

namespace Cplusplus.Redis.Transactions

open List Option

variable {S : Type} {procs : Procs S}

/-- One item of the stream; the state is the transaction that is open. A change that a
transaction makes is not allowed outside. -/
def frameStep : Option Nat → Propagated → Option (Option Nat)
  | none, .multi tx => some (some tx)
  | none, .command tx _ _ _ changes => if tx = none ∨ changes = false then some none else none
  | none, .exec _ => none
  | some tx, .command tx' _ _ _ _ => if tx' = some tx then some (some tx) else none
  | some tx, .exec tx' => if tx' = tx then some none else none
  | some _, .multi _ => none

def frames : Option Nat → List Propagated → Option (Option Nat)
  | state, [] => some state
  | state, item :: items => (frameStep state item).bind fun state => frames state items

/-- MULTI and EXEC alternate, an EXEC closes the MULTI of its own transaction, and the
changes of a transaction are between them. -/
def Framed (stream : List Propagated) : Prop := frames none stream = some none

theorem frames_append (state : Option Nat) (items items' : List Propagated) :
    frames state (items ++ items') = (frames state items).bind fun state => frames state items' := by
  induction items generalizing state with
  | nil => rfl
  | cons item items ih =>
    rw [cons_append, frames, frames, bind_assoc]
    exact Option.bind_congr fun state _ => ih state

theorem framed_append {stream : List Propagated} (framed : Framed stream) (items : List Propagated) :
    Framed (stream ++ items) ↔ frames none items = some none := by
  have before : frames none stream = some none := framed
  rw [Framed, frames_append, before, bind_some]

def Propagated.toAof : Propagated → Bool
  | .command _ _ aof _ _ => aof
  | _ => true

def Propagated.toSlaves : Propagated → Bool
  | .command _ _ _ repl _ => repl
  | _ => true

theorem frames_filter {target : Propagated → Bool} (keeps : ∀ tx, target (.multi tx) = true ∧ target (.exec tx) = true)
    (items : List Propagated) : ∀ state last, frames state items = some last → frames state (items.filter target) = some last := by
  induction items with
  | nil => exact fun state last done => done
  | cons item items ih =>
    intro state last done
    rw [frames] at done
    obtain ⟨next, first, rest⟩ := bind_eq_some_iff.mp done
    rw [List.filter_cons]
    split
    next => rw [frames, first, bind_some, ih next last rest]
    next dropped =>
      have same : next = state := by
        cases item with
        | multi tx => exact absurd (keeps tx).1 dropped
        | exec tx => exact absurd (keeps tx).2 dropped
        | command tx mc aof repl changes =>
          cases state with
          | none =>
            rw [frameStep] at first
            split at first
            next => exact (some.inj first).symm
            next => cases first
          | some open_ =>
            rw [frameStep] at first
            split at first
            next => exact (some.inj first).symm
            next => cases first
      exact same ▸ ih next last rest

def writes (commands : List MultiCmd) : Bool := commands.any fun mc => !mc.cmd.hasFlag 'r'

def dirtyAfter (procs : Procs S) : List MultiCmd → S → Int → Client → Int
  | [], _, dirty, _ => dirty
  | mc :: rest, data, dirty, c =>
    let outcome := procs data dirty c mc
    dirtyAfter procs rest outcome.data outcome.dirty (afterProc c mc outcome)

def ReadsKeep (procs : Procs S) : List MultiCmd → S → Int → Client → Prop
  | [], _, _, _ => True
  | mc :: rest, data, dirty, c =>
    mc.cmd.hasFlag 'r' = true → (procs data dirty c mc).dirty ≤ dirty ∧
      ReadsKeep procs rest (procs data dirty c mc).data (procs data dirty c mc).dirty (afterProc c mc (procs data dirty c mc))

theorem dirtyAfter_le : ∀ {commands : List MultiCmd} {data : S} {dirty : Int} {c : Client},
    ReadsKeep procs commands data dirty c → writes commands = false → dirtyAfter procs commands data dirty c ≤ dirty := by
  intro commands
  induction commands with
  | nil => exact fun _ _ => Int.le_refl _
  | cons mc rest ih =>
    intro data dirty c keeps reads
    rw [writes, any_cons, Bool.or_eq_false_iff, Bool.not_eq_false'] at reads
    obtain ⟨first, later⟩ := keeps reads.1
    exact Int.le_trans (ih later reads.2) first

def Steady (procs : Procs S) (server : Server S) (c : Client) : Prop :=
  ReadsKeep procs c.commands server.data server.dirty c ∧
    (writes c.commands = true → server.dirty ≤ dirtyAfter procs c.commands server.data server.dirty c)

def callItems (tx : Option Nat) (dirty : Int) (outcome : Outcome S) : List Propagated :=
  let changes := decide (0 < outcome.dirty - dirty)
  if (outcome.forceAof || changes) || (outcome.forceRepl || changes) then
    [.command tx outcome.mc (outcome.forceAof || changes) (outcome.forceRepl || changes) changes] else []

theorem callItems_open (tx : Nat) (dirty : Int) (outcome : Outcome S) :
    frames (some tx) (callItems (some tx) dirty outcome) = some (some tx) := by
  rw [callItems]
  split
  next => simp only [frames, frameStep, if_true, bind_some]
  next => rfl

theorem callItems_closed (tx : Nat) (dirty : Int) (outcome : Outcome S) :
    frames none (callItems (some tx) dirty outcome) = if outcome.dirty ≤ dirty then some none else none := by
  have same : (0 < outcome.dirty - dirty) ↔ ¬ outcome.dirty ≤ dirty := by omega
  by_cases keeps : outcome.dirty ≤ dirty
  · have changes : decide (0 < outcome.dirty - dirty) = false := decide_eq_false fun more => same.mp more keeps
    rw [callItems, if_pos keeps]
    simp only [changes, Bool.or_false]
    split
    next => rfl
    next => rfl
  · have changes : decide (0 < outcome.dirty - dirty) = true := decide_eq_true (same.mpr keeps)
    rw [callItems, if_neg keeps]
    simp only [changes, Bool.or_true, if_true, frames, frameStep]
    rfl

theorem callItems_alone (dirty : Int) (outcome : Outcome S) : frames none (callItems none dirty outcome) = some none := by
  rw [callItems]
  split
  next => simp only [frames, frameStep, true_or, if_true, bind_some]
  next => rfl

theorem execCommands_open (tx : Nat) : ∀ (commands : List MultiCmd) (server : Server S) (c : Client),
    ∃ items data c', execCommands procs tx commands true server c =
        (true, ⟨data, dirtyAfter procs commands server.data server.dirty c, server.propagated ++ items, server.execs⟩, c') ∧
      frames (some tx) items = some (some tx) := by
  intro commands
  induction commands with
  | nil => exact fun server c => ⟨[], server.data, c, by rw [append_nil]; rfl, rfl⟩
  | cons mc rest ih =>
    intro server c
    obtain ⟨items, data, c', ran, framed⟩ := ih
      ⟨(procs server.data server.dirty c mc).data, (procs server.data server.dirty c mc).dirty,
        server.propagated ++ callItems (some tx) server.dirty (procs server.data server.dirty c mc), server.execs⟩
      (afterProc c mc (procs server.data server.dirty c mc))
    refine ⟨callItems (some tx) server.dirty (procs server.data server.dirty c mc) ++ items, data, c', ?_, ?_⟩
    · rw [← append_assoc]
      exact ran
    · rw [frames_append, callItems_open, bind_some, framed]

/-- The loop before MULTI is sent: it is sent at the first command that is no read command,
unless a read command before it has been propagated as a change. -/
theorem execCommands_closed (procs : Procs S) (tx : Nat) : ∀ (commands : List MultiCmd) (server : Server S) (c : Client),
    ∃ items data c', execCommands procs tx commands false server c =
        (writes commands, ⟨data, dirtyAfter procs commands server.data server.dirty c, server.propagated ++ items, server.execs⟩, c') ∧
      (ReadsKeep procs commands server.data server.dirty c → frames none items = some (if writes commands then some tx else none)) ∧
      (¬ ReadsKeep procs commands server.data server.dirty c → frames none items = none) := by
  intro commands
  induction commands with
  | nil => exact fun server c => ⟨[], server.data, c, by rw [append_nil]; rfl, fun _ => rfl, fun no => absurd trivial no⟩
  | cons mc rest ih =>
    intro server c
    cases read : mc.cmd.hasFlag 'r' with
    | true =>
      have same : writes (mc :: rest) = writes rest := by
        rw [writes, any_cons, read, Bool.not_true, Bool.false_or, writes]
      obtain ⟨items, data, c', ran, keep, lose⟩ := ih
        ⟨(procs server.data server.dirty c mc).data, (procs server.data server.dirty c mc).dirty,
          server.propagated ++ callItems (some tx) server.dirty (procs server.data server.dirty c mc), server.execs⟩
        (afterProc c mc (procs server.data server.dirty c mc))
      refine ⟨callItems (some tx) server.dirty (procs server.data server.dirty c mc) ++ items, data, c', ?_, ?_, ?_⟩
      · rw [execCommands, read, ← append_assoc, same]
        exact ran
      · intro keeps
        obtain ⟨first, later⟩ := keeps read
        rw [frames_append, callItems_closed, if_pos first, bind_some, keep later, same]
      · intro no
        rw [frames_append, callItems_closed]
        split
        next first =>
          rw [bind_some, lose fun later => no fun _ => ⟨first, later⟩]
        next => rfl
    | false =>
      have one : writes (mc :: rest) = true := by rw [writes, any_cons, read, Bool.not_false, Bool.true_or]
      obtain ⟨items, data, c', ran, framed⟩ := execCommands_open tx rest
        ⟨(procs server.data server.dirty c mc).data, (procs server.data server.dirty c mc).dirty,
          (server.propagated ++ [.multi tx]) ++ callItems (some tx) server.dirty (procs server.data server.dirty c mc),
          server.execs⟩
        (afterProc c mc (procs server.data server.dirty c mc))
      refine ⟨.multi tx :: (callItems (some tx) server.dirty (procs server.data server.dirty c mc) ++ items), data, c', ?_, ?_, ?_⟩
      · have order : server.propagated ++ .multi tx :: (callItems (some tx) server.dirty
            (procs server.data server.dirty c mc) ++ items) =
            (server.propagated ++ [.multi tx]) ++ callItems (some tx) server.dirty (procs server.data server.dirty c mc) ++
              items := by simp
        rw [execCommands, read, one, order]
        exact ran
      · intro _
        rw [one, frames, frameStep, bind_some, frames_append, callItems_open, bind_some, framed]
        rfl
      · intro no
        refine absurd ?_ no
        intro flagged
        rw [read] at flagged
        cases flagged

variable {server : Server S} {c : Client}

theorem callExec_framed (framed : Framed server.propagated) (open_ : c.multi = true)
    (clean : (c.dirtyCas || c.dirtyExec) = false) : Framed (callExec procs server c).1.propagated ↔ Steady procs server c := by
  obtain ⟨items, data, c', ran, keep, lose⟩ := execCommands_closed procs server.execs c.commands
    { server with execs := server.execs + 1 } c
  have stream : (callExec procs server c).1.propagated = server.propagated ++ (items ++
      if server.dirty < dirtyAfter procs c.commands server.data server.dirty c + (if writes c.commands then 1 else 0) then
        [.exec server.execs] else []) := by
    rw [callExec, execCommand, open_, clean]
    simp only [Bool.not_true, Bool.false_eq_true, if_false, ran]
    cases writes c.commands with
    | true =>
      simp only [if_true, append_assoc, Int.sub_pos]
    | false =>
      simp only [Bool.false_eq_true, if_false, append_assoc, Int.sub_pos, Int.add_zero]
  rw [stream, framed_append framed, frames_append]
  by_cases keeps : ReadsKeep procs c.commands server.data server.dirty c
  · rw [keep keeps, bind_some]
    cases written : writes c.commands with
    | true =>
      rw [Steady, written]
      by_cases enough : server.dirty ≤ dirtyAfter procs c.commands server.data server.dirty c
      · have sent : server.dirty < dirtyAfter procs c.commands server.data server.dirty c + 1 := by omega
        simp only [if_true, sent, frames, frameStep, bind_some, enough, keeps, imp_self, and_self]
      · have missing : ¬ server.dirty < dirtyAfter procs c.commands server.data server.dirty c + 1 := by omega
        simp only [if_true, missing, if_false, frames, enough, imp_false, not_true, and_false, iff_false]
        exact fun same => by cases some.inj same
    | false =>
      have lower : dirtyAfter procs c.commands server.data server.dirty c ≤ server.dirty := dirtyAfter_le keeps written
      have silent : ¬ server.dirty < dirtyAfter procs c.commands server.data server.dirty c + 0 := by omega
      rw [Steady, written]
      simp only [Bool.false_eq_true, if_false, silent, frames, keeps, true_and, false_implies]
  · rw [lose keeps, bind_none, Steady]
    exact ⟨fun no => (by cases no), fun steady => absurd steady.1 keeps⟩

def EventSteady (procs : Procs S) (w : World S) : Event → Prop
  | .request id state argv =>
    (w.clients id).closeAfterReply = false → isQuit argv = false → state.commands (argv.getD 0 []) = some .exec →
      refusal state (w.clients id) .exec argv = none → (w.clients id).multi = true →
      ((w.clients id).dirtyCas || (w.clients id).dirtyExec) = false → Steady procs w.server (w.clients id)
  | _ => True

def SteadyRun (procs : Procs S) : World S → List Event → Prop
  | _, [] => True
  | w, event :: events => EventSteady procs w event ∧ SteadyRun procs (worldStep procs w event) events

theorem callExec_aborted (aborts : c.multi = true → (c.dirtyCas || c.dirtyExec) = true) :
    (callExec procs server c).1.propagated = server.propagated := by
  rw [callExec, execCommand]
  cases open_ : c.multi with
  | false => simp only [Bool.not_false, if_true, Int.sub_self, Int.lt_irrefl, if_false, append_nil]
  | true =>
    simp only [Bool.not_true, Bool.false_eq_true, if_false, aborts open_, if_true, Int.sub_self, Int.lt_irrefl, append_nil]

theorem processCommand_framed {state : ServerState} {argv : List (List UInt8)}
    (framed : Framed server.propagated)
    (steady : isQuit argv = false → state.commands (argv.getD 0 []) = some .exec → refusal state c .exec argv = none →
      c.multi = true → (c.dirtyCas || c.dirtyExec) = false → Steady procs server c) :
    Framed (processCommand procs state server c argv).1.propagated := by
  by_cases quit : isQuit argv = true
  · simp only [processCommand, quit, if_true]
    exact framed
  · cases found : state.commands (argv.getD 0 []) with
    | none =>
      simp only [processCommand, quit, found, Bool.false_eq_true, if_false]
      exact framed
    | some cmd =>
      cases taken : refusal state c cmd argv with
      | some exit =>
        simp only [processCommand, quit, found, taken, Bool.false_eq_true, if_false]
        exact framed
      | none =>
        simp only [processCommand, quit, found, taken, Bool.false_eq_true, if_false]
        split
        next => exact framed
        next =>
          split
          next =>
            by_cases runs : c.multi = true ∧ (c.dirtyCas || c.dirtyExec) = false
            · exact (callExec_framed framed runs.1 runs.2).mpr
                (steady (Bool.eq_false_iff.mpr quit) found taken runs.1 runs.2)
            · rw [callExec_aborted]
              · exact framed
              · intro open_
                exact Bool.eq_true_of_not_eq_false fun clean => runs ⟨open_, clean⟩
          next => exact framed
          next => exact framed
          next => exact framed
          next => exact (framed_append framed _).mpr (callItems_alone _ _)

theorem worldStep_framed {w : World S} {event : Event} (framed : Framed w.server.propagated)
    (steady : EventSteady procs w event) : Framed (worldStep procs w event).server.propagated := by
  cases event with
  | request id state argv =>
    simp only [worldStep]
    split
    next => exact framed
    next closed => exact processCommand_framed framed (steady (Bool.eq_false_iff.mpr closed))
  | touch => exact framed
  | connect => exact framed

theorem worldRun_framed : ∀ (events : List Event) (w : World S), Framed w.server.propagated → SteadyRun procs w events →
    Framed (worldRun procs w events).server.propagated := by
  intro events
  induction events with
  | nil => exact fun w framed _ => framed
  | cons event events ih => exact fun w framed steady => ih _ (worldStep_framed framed steady.1) steady.2

/-- If every transaction that runs is steady, then the stream is framed, and so is what
the AOF and the slaves receive of it. -/
theorem propagated_framed {w : World S} {events : List Event} (framed : Framed w.server.propagated)
    (steady : SteadyRun procs w events) :
    Framed (worldRun procs w events).server.propagated ∧
      Framed ((worldRun procs w events).server.propagated.filter Propagated.toAof) ∧
      Framed ((worldRun procs w events).server.propagated.filter Propagated.toSlaves) := by
  have all := worldRun_framed events w framed steady
  exact ⟨all, frames_filter (fun _ => ⟨rfl, rfl⟩) _ _ _ all, frames_filter (fun _ => ⟨rfl, rfl⟩) _ _ _ all⟩

def writer : Procs Unit := fun _ dirty c mc =>
  { mc := mc, data := (), dirty := if mc.cmd.hasFlag 'w' then dirty + 1 else dirty, pubsub := c.pubsub,
    authenticated := c.authenticated }

def writerState : ServerState where
  commands name :=
    if name = [109, 117, 108, 116, 105] then some .multi
    else if name = [101, 120, 101, 99] then some .exec
    else if name = [115, 101, 116] then some .set
    else none

def setInMulti : List Event :=
  [.request 0 writerState [[109, 117, 108, 116, 105]], .request 0 writerState [[115, 101, 116], [107], [118]],
    .request 0 writerState [[101, 120, 101, 99]]]

def writerWorld : World Unit := ⟨⟨(), 0, [], 0⟩, fun _ => {}⟩

theorem propagated_framed_set : Framed (worldRun writer writerWorld setInMulti).server.propagated := by
  have framed : Framed writerWorld.server.propagated := rfl
  have steady : SteadyRun writer writerWorld setInMulti := by
    refine ⟨?_, ?_, ?_, trivial⟩
    · intro _ _ command
      cases command
    · intro _ _ command
      cases command
    · intro _ _ _ _ _ _
      exact ⟨fun read => (by cases read), fun _ => by decide⟩
  exact (propagated_framed framed steady).1

def pfcountStores (D : Doubles Float) (db : HllDb) : List (List UInt8) → Bool
  | [key] =>
    match db key with
    | some (.raw o) =>
      match isHLLObjectOrReply (.raw o), hllCount D o with
      | some (.ok _), some (_, invalid) => !hllValidCache o && !invalid
      | _, _ => false
    | _ => false
  | _ => false

/-- A server with PFCOUNT. -/
def pfcountProcs (D : Doubles Float) : Procs HllDb := fun db dirty c mc =>
  let keys := mc.argv.drop 1
  { mc := mc
    data := if mc.cmd = .pfcount then ((pfcountCommand D db keys).map Prod.fst).getD db else db
    dirty := if mc.cmd = .pfcount ∧ pfcountStores D db keys then dirty + 1 else dirty
    pubsub := c.pubsub
    authenticated := c.authenticated }

def pfcountState : ServerState where
  commands name :=
    if name = [109, 117, 108, 116, 105] then some .multi
    else if name = [101, 120, 101, 99] then some .exec
    else if name = [112, 102, 99, 111, 117, 110, 116] then some .pfcount
    else none

def pfcount : MultiCmd := ⟨.pfcount, [[112, 102, 99, 111, 117, 110, 116], [107]]⟩

def staleWorld : World HllDb :=
  ⟨⟨fun key => if key = [107] then some (.raw (hllInvalidateCache createHLLObject)) else none, 0, [], 0⟩, fun _ => {}⟩

def pfcountInMulti : List Event :=
  [.request 0 pfcountState [[109, 117, 108, 116, 105]], .request 0 pfcountState pfcount.argv,
    .request 0 pfcountState [[101, 120, 101, 99]]]

theorem pfcountStores_stale : pfcountStores Hll.machineDoubles staleWorld.server.data (pfcount.argv.drop 1) = true := by
  have decoded := (Hll.registers_invalidate createHLLObject).trans (Hll.registers_sparse Hll.create_ok)
  obtain ⟨card, counted⟩ := Hll.hllCount_spec Hll.machineDoubles decoded
  have accepted := Hll.accepted_of_registers rfl decoded
  have stale := Hll.invalidate_not_valid (Hll.registers_header (Hll.registers_sparse Hll.create_ok))
  have found : staleWorld.server.data [107] = some (.raw (hllInvalidateCache createHLLObject)) := rfl
  have keys : pfcount.argv.drop 1 = [[107]] := rfl
  rw [keys]
  simp only [pfcountStores, found, accepted, counted, stale]
  rfl

/-- EXEC is propagated, and the change before it, but no MULTI. -/
theorem exec_without_multi :
    (worldRun (pfcountProcs Hll.machineDoubles) staleWorld pfcountInMulti).server.propagated =
        [.command (some 0) pfcount true true true, .exec 0] ∧
      ¬ Framed (worldRun (pfcountProcs Hll.machineDoubles) staleWorld pfcountInMulti).server.propagated := by
  have stream : (worldRun (pfcountProcs Hll.machineDoubles) staleWorld pfcountInMulti).server.propagated =
      [.command (some 0) pfcount true true true, .exec 0] := by
    have exec : (worldRun (pfcountProcs Hll.machineDoubles) staleWorld pfcountInMulti).server.propagated =
        (callExec (pfcountProcs Hll.machineDoubles) staleWorld.server { multi := true, commands := [pfcount] }).1.propagated := rfl
    have dirty : (pfcountProcs Hll.machineDoubles staleWorld.server.data staleWorld.server.dirty
        { multi := true, commands := [pfcount] } pfcount).dirty = 1 := by
      have stores : pfcount.cmd = .pfcount ∧ pfcountStores Hll.machineDoubles staleWorld.server.data (pfcount.argv.drop 1) :=
        ⟨rfl, pfcountStores_stale⟩
      simp only [pfcountProcs, stores, and_self, if_true]
      rfl
    have read : pfcount.cmd.hasFlag 'r' = true := by decide
    have empty : staleWorld.server.propagated = [] := rfl
    have zero : staleWorld.server.dirty = 0 := rfl
    rw [zero] at dirty
    rw [exec]
    simp only [callExec, execCommand, execCommands, call, read, dirty, empty, zero, Bool.not_true, Bool.or_self,
      Bool.false_eq_true, if_false, Bool.and_false]
    rfl
  refine ⟨stream, ?_⟩
  rw [stream]
  intro framed
  cases framed

end Cplusplus.Redis.Transactions
