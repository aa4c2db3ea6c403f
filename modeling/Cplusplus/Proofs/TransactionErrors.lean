import Cplusplus.Transactions

/-! An error while commands are queued has to abort the transaction. `processCommand`
marks the client on most of its early exits; EXEC aborts if and only if one of these was
taken. -/

namespace Cplusplus.Redis.Transactions

open Option Function

variable {S : Type} (procs : Procs S)

def exitOf (state : ServerState) (c : Client) (argv : List (List UInt8)) : Option Refusal :=
  if isQuit argv then none
  else
    match state.commands (argv.getD 0 []) with
    | none => some .unknownCommand
    | some cmd => refusal state c cmd argv

def eventExit (id : Nat) (w : World S) : Event → Option Refusal
  | .request id' state argv =>
    if id' = id ∧ ¬ (w.clients id).closeAfterReply then exitOf state (w.clients id) argv else none
  | _ => none

def exits (id : Nat) : World S → List Event → List Refusal
  | _, [] => []
  | w, event :: events => (eventExit id w event).toList ++ exits id (worldStep procs w event) events

def StaysOpen (id : Nat) : World S → List Event → Prop
  | w, [] => (w.clients id).multi = true
  | w, event :: events =>
    (w.clients id).multi = true ∧ (∀ master, event ≠ .connect id master) ∧ StaysOpen id (worldStep procs w event) events

variable {procs} {server : Server S} {c : Client}

theorem callExec_multi (open_ : c.multi = true) : (callExec procs server c).2.1.multi = false := by
  rw [callExec, execCommand, open_]
  simp only [Bool.not_true, Bool.false_eq_true, if_false]
  split
  next => rfl
  next => rfl

variable {argv : List (List UInt8)} {state : ServerState}

/-- A request in a transaction that is still open marks the client exactly if it takes an
exit that marks it. -/
theorem processCommand_open (open_ : c.multi = true) (stays : (processCommand procs state server c argv).2.1.multi = true) :
    (processCommand procs state server c argv).2.1.dirtyExec = (c.dirtyExec || (exitOf state c argv).any Refusal.flags) := by
  by_cases quit : isQuit argv = true
  · simp only [processCommand, exitOf, quit, if_true, any_none, Bool.or_false]
  · cases found : state.commands (argv.getD 0 []) with
    | none =>
      simp only [processCommand, exitOf, quit, found, flagTransaction, open_, if_true, any_some, Bool.false_eq_true, if_false]
      exact (Bool.or_true _).symm
    | some cmd =>
      cases taken : refusal state c cmd argv with
      | some exit =>
        cases marks : exit.flags with
        | true =>
          simp only [processCommand, exitOf, quit, found, taken, marks, flagTransaction, open_, if_true, any_some,
            Bool.false_eq_true, if_false, Bool.or_true]
        | false =>
          simp only [processCommand, exitOf, quit, found, taken, marks, any_some, Bool.false_eq_true, if_false, Bool.or_false]
      | none =>
        have exit : (c.dirtyExec || (exitOf state c argv).any Refusal.flags) = c.dirtyExec := by
          simp only [exitOf, quit, found, taken, Bool.false_eq_true, if_false, any_none, Bool.or_false]
        rw [exit]
        by_cases queues : (c.multi && cmd ≠ .exec && cmd ≠ .discard && cmd ≠ .multi && cmd ≠ .watch) = true
        · simp only [processCommand, quit, found, taken, queues, Bool.false_eq_true, if_false, if_true, queueMultiCommand]
        · have direct : cmd = .exec ∨ cmd = .discard ∨ cmd = .multi ∨ cmd = .watch := by
            simp only [open_, Bool.true_and, Bool.and_eq_true, decide_eq_true_eq, ne_eq] at queues
            exact Classical.byContradiction fun no => queues ⟨⟨⟨fun h => no (.inl h), fun h => no (.inr (.inl h))⟩,
              fun h => no (.inr (.inr (.inl h)))⟩, fun h => no (.inr (.inr (.inr h)))⟩
          rcases direct with rfl | rfl | rfl | rfl
          · simp only [processCommand, quit, found, taken, queues, Bool.false_eq_true, if_false] at stays
            rw [callExec_multi open_] at stays
            cases stays
          · simp only [processCommand, quit, found, taken, queues, Bool.false_eq_true, if_false] at stays
            rw [discardCommand, if_pos open_] at stays
            cases stays
          · simp only [processCommand, quit, found, taken, queues, Bool.false_eq_true, if_false]
            rw [multiCommand, if_pos open_]
          · simp only [processCommand, quit, found, taken, queues, Bool.false_eq_true, if_false]
            rw [watchCommand, if_pos open_]

variable {id : Nat} {w : World S}

theorem worldStep_open {event : Event} (open_ : (w.clients id).multi = true)
    (connected : ∀ master, event ≠ .connect id master) (stays : ((worldStep procs w event).clients id).multi = true) :
    ((worldStep procs w event).clients id).dirtyExec = ((w.clients id).dirtyExec || (eventExit id w event).any Refusal.flags) := by
  cases event with
  | request id' state argv =>
    by_cases same : id' = id
    · subst same
      by_cases closed : (w.clients id').closeAfterReply = true
      · simp only [worldStep, eventExit, closed, if_true, not_true, and_false, if_false, any_none, Bool.or_false]
      · simp only [worldStep, closed, Bool.false_eq_true, if_false, update_self] at stays ⊢
        rw [processCommand_open open_ stays]
        simp only [eventExit, closed, not_false_eq_true, and_self, if_true, Bool.false_eq_true]
    · have other : id ≠ id' := Ne.symm same
      simp only [worldStep, eventExit, same, false_and, if_false, any_none, Bool.or_false]
      split
      next => rfl
      next => exact congrArg Client.dirtyExec (update_of_ne other _ _)
  | touch id' =>
    simp only [worldStep, eventExit, any_none, Bool.or_false]
    by_cases same : id = id'
    · subst same
      rw [update_self]
    · rw [update_of_ne same]
  | connect id' master =>
    have other : id ≠ id' := by
      rintro rfl
      exact connected master rfl
    simp only [worldStep, eventExit, any_none, Bool.or_false]
    rw [update_of_ne other]

theorem StaysOpen.multi {events : List Event} (stays : StaysOpen procs id w events) : (w.clients id).multi = true := by
  cases events with
  | nil => exact stays
  | cons event events => exact stays.1

theorem worldRun_open : ∀ (events : List Event) (w : World S), StaysOpen procs id w events →
    ((worldRun procs w events).clients id).multi = true ∧ ((worldRun procs w events).clients id).dirtyExec =
      ((w.clients id).dirtyExec || (exits procs id w events).any Refusal.flags) := by
  intro events
  induction events with
  | nil => exact fun w stays => ⟨stays, (Bool.or_false _).symm⟩
  | cons event events ih =>
    intro w stays
    obtain ⟨open_, connected, later⟩ := stays
    obtain ⟨multi, marked⟩ := ih _ later
    refine ⟨multi, ?_⟩
    have first := worldStep_open open_ connected later.multi
    rw [worldRun, List.foldl_cons]
    rw [worldRun] at marked
    rw [marked, first, exits, List.any_append, Bool.or_assoc]
    cases eventExit id w event <;> simp

/-- EXEC replies EXECABORT, and nothing of the server changes. -/
def Aborts (procs : Procs S) (state : ServerState) (w : World S) (id : Nat) (argv : List (List UInt8)) : Prop :=
  processCommand procs state w.server (w.clients id) argv = (w.server, discardTransaction (w.clients id), .execAbort)

/-- The request reaches EXEC. -/
structure ReachesExec (state : ServerState) (c : Client) (argv : List (List UInt8)) : Prop where
  notQuit : isQuit argv = false
  command : state.commands (argv.getD 0 []) = some .exec
  accepted : refusal state c .exec argv = none

theorem processCommand_exec (reaches : ReachesExec state c argv) : processCommand procs state server c argv = callExec procs server c := by
  simp only [processCommand, reaches.notQuit, reaches.command, reaches.accepted, Bool.false_eq_true, if_false, ne_eq,
    not_true_eq_false, decide_false, Bool.and_false, Bool.false_and]

theorem aborts_iff (open_ : (w.clients id).multi = true)
    (reaches : ReachesExec state (w.clients id) argv) : Aborts procs state w id argv ↔ (w.clients id).dirtyExec = true := by
  rw [Aborts, processCommand_exec reaches, callExec, execCommand, open_]
  cases marked : (w.clients id).dirtyExec with
  | true =>
    simp only [Bool.not_true, Bool.false_eq_true, if_false, Bool.or_true, if_true, Int.sub_self, Int.lt_irrefl, List.append_nil]
  | false =>
    simp only [Bool.not_true, Bool.false_eq_true, if_false, Bool.or_false, iff_false]
    split
    next =>
      intro same
      cases congrArg (fun r : Server S × Client × Reply => r.2.2) same
    next =>
      intro same
      cases congrArg (fun r : Server S × Client × Reply => r.2.2) same

/-- In a transaction without an error so far, exactly when an error makes EXEC abort: the
first kind of error marks the client, and the exits for read-only slaves, for Pub/Sub and
while loading do not. -/
theorem exec_aborts_iff {w : World S} {id : Nat} {events : List Event} {state : ServerState} {argv : List (List UInt8)}
    (unmarked : (w.clients id).dirtyExec = false) (stays : StaysOpen procs id w events)
    (reaches : ReachesExec state ((worldRun procs w events).clients id) argv) :
    (exits procs id w events ≠ [] → Aborts procs state (worldRun procs w events) id argv) ↔
      (exits procs id w events = [] ∨ ∃ exit ∈ exits procs id w events, exit.flags = true) := by
  obtain ⟨open_, marked⟩ := worldRun_open events w stays
  rw [aborts_iff open_ reaches, marked, unmarked, Bool.false_or, List.any_eq_true]
  constructor
  · intro property
    rcases Classical.em (exits procs id w events = []) with none_ | some_
    · exact .inl none_
    · exact .inr (property some_)
  · rintro (none_ | some_) nonempty
    · exact absurd none_ nonempty
    · exact some_

/-- A slave that knows GET, SET and EXEC. -/
def slave : ServerState where
  commands name :=
    if name = [103, 101, 116] then some .get
    else if name = [115, 101, 116] then some .set
    else if name = [101, 120, 101, 99] then some .exec
    else none
  masterhost := true

def idle : Procs Unit := fun _ dirty c mc =>
  { mc := mc, data := (), dirty := dirty, pubsub := c.pubsub, authenticated := c.authenticated }

def inMulti : World Unit := ⟨⟨(), 0, [], 0⟩, fun _ => { multi := true }⟩

def readAndWrite : List Event :=
  [.request 0 slave [[103, 101, 116], [107]], .request 0 slave [[115, 101, 116], [107], [118]]]

/-- SET is refused, and EXEC runs the GET before it. -/
theorem exec_runs_after_error :
    exits idle 0 inMulti readAndWrite = [.roslave] ∧
      ¬ Aborts idle slave (worldRun idle inMulti readAndWrite) 0 [[101, 120, 101, 99]] ∧
      (processCommand idle slave (worldRun idle inMulti readAndWrite).server ((worldRun idle inMulti readAndWrite).clients 0)
        [[101, 120, 101, 99]]).2.2 = .multiBulk 1 := by
  have replied : (processCommand idle slave (worldRun idle inMulti readAndWrite).server
      ((worldRun idle inMulti readAndWrite).clients 0) [[101, 120, 101, 99]]).2.2 = .multiBulk 1 := rfl
  refine ⟨by decide, ?_, replied⟩
  intro aborts
  rw [Aborts] at aborts
  rw [aborts] at replied
  cases replied

theorem exec_aborts_iff_unknown :
    (exits idle 0 inMulti [.request 0 slave [[107]]] ≠ [] →
      Aborts idle slave (worldRun idle inMulti [.request 0 slave [[107]]]) 0 [[101, 120, 101, 99]]) ↔
      (exits idle 0 inMulti [.request 0 slave [[107]]] = [] ∨
        ∃ exit ∈ exits idle 0 inMulti [.request 0 slave [[107]]], exit.flags = true) :=
  exec_aborts_iff rfl ⟨rfl, fun _ => Event.noConfusion, rfl⟩ ⟨rfl, rfl, rfl⟩

end Cplusplus.Redis.Transactions
