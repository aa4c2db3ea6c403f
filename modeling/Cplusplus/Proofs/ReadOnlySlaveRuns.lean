import Cplusplus.ReadOnlySlave

/-! On a read-only slave a client that is not the link with the master changes the dataset only
by a write command that it queued before, by an element that it was blocked for, or by PFCOUNT. -/

namespace Cplusplus.Redis.ReadOnlySlave

variable {D R : Type} {commands : DataCommands D R} {env : ServerState} {s : SlaveServer D} {c : Client} {mc : MultiCmd}

structure Explained (commands : DataCommands D R) (access : Access D) : Prop where
  checked : access.master = false → access.role.readOnly = true → access.path = .request ∨ access.path = .script →
    access.mc.cmd.hasFlag 'w' = false
  effect : access.path ≠ .served → access.mc.cmd.hasFlag 'a' = false →
    ∃ dirty client, access.after = (commands.outcome access.role access.before dirty client access.mc).data

def Leads (first : D) : List (Access D) → D → Prop
  | [], last => first = last
  | access :: log, last => access.before = first ∧ Leads access.after log last

theorem Leads.snoc {first last : D} {log : List (Access D)} (leads : Leads first log last) {access : Access D}
    (before : access.before = last) : Leads first (log ++ [access]) access.after := by
  induction log generalizing first with
  | nil =>
    obtain rfl : first = last := leads
    exact ⟨before, rfl⟩
  | cons other log ih => exact ⟨leads.1, ih leads.2⟩

structure Logged (commands : DataCommands D R) (first : D) (s : SlaveServer D) : Prop where
  leads : Leads first s.log s.state.data
  explained : ∀ access ∈ s.log, Explained commands access

variable {first : D}

theorem Logged.access {master : Bool} {path : Path} {after : SlaveState D} (logged : Logged commands first s)
    (explained : Explained commands ⟨master, path, mc, s.state.role, s.state.data, after.data⟩) :
    Logged commands first (s.access master path mc after) where
  leads := logged.leads.snoc rfl
  explained access member := by
    rcases List.mem_append.mp member with earlier | now
    · exact logged.explained access earlier
    · rw [List.mem_singleton.mp now]
      exact explained

theorem Logged.of_state {other : SlaveState D} (logged : Logged commands first s) (same : other.data = s.state.data) :
    Logged commands first { s with state := other } :=
  ⟨same ▸ logged.leads, logged.explained⟩

def MayRun (role : Role) (c : Client) (path : Path) (cmd : Command) : Prop :=
  c.master = false → role.readOnly = true → path = .request ∨ path = .script → cmd.hasFlag 'w' = false

variable {dirty : Int}

theorem runCommand_logged (logged : Logged commands first s) {path : Path}
    (may : MayRun s.state.role c path mc.cmd) : Logged commands first (runCommand commands env path dirty c s mc) := by
  rw [runCommand]
  split
  next slaveof =>
    refine logged.access ⟨may, fun _ data => ?_⟩
    rw [slaveof] at data
    exact absurd data (by decide)
  next config =>
    refine logged.access ⟨may, fun _ data => ?_⟩
    rw [config] at data
    exact absurd data (by decide)
  next => exact logged.access ⟨may, fun _ _ => ⟨dirty, c, rfl⟩⟩

theorem ite_error_eq_ok {ε α : Type} {p : Prop} [Decidable p] {error : ε} {rest : Except ε α} {value : α} :
    (if p then .error error else rest) = .ok value ↔ ¬p ∧ rest = .ok value := by
  split
  next holds => simp [holds]
  next fails => simp [fails]

theorem ite_some_eq_none {α : Type} {p : Prop} [Decidable p] {value : α} {rest : Option α} :
    (if p then some value else rest) = none ↔ ¬p ∧ rest = none := by
  split
  next holds => simp [holds]
  next fails => simp [fails]

variable {argv : List (List UInt8)} {cmd : Command}

/-- A call of a script is checked with the role of its moment. Nothing is loaded then. -/
theorem luaRefusal_mayRun {role : Role} {caller : Client} {randomDirty writeDirty : Bool} (loaded : env.loading = false)
    (allowed : luaRefusal env role caller randomDirty writeDirty argv = .ok cmd) : MayRun role caller .script cmd := by
  intro client readOnly _
  rw [luaRefusal, ite_error_eq_ok] at allowed
  obtain ⟨-, allowed⟩ := allowed
  split at allowed
  next => cases allowed
  next =>
    simp only [ite_error_eq_ok] at allowed
    obtain ⟨-, -, -, write, -, -, -, same⟩ := allowed
    rw [← Except.ok.inj same]
    simpa [client, readOnly, loaded] using write

theorem luaRun_logged (script : LuaScript R) {caller : Client} (loaded : env.loading = false) (randomDirty writeDirty : Bool)
    (logged : Logged commands first s) : Logged commands first (luaRun commands env dirty caller script randomDirty writeDirty s) := by
  induction script generalizing s randomDirty writeDirty with
  | done => exact logged
  | call argv next ih =>
    rw [luaRun]
    split
    next => exact ih _ randomDirty writeDirty logged
    next cmd allowed =>
      apply ih
      exact runCommand_logged logged (luaRefusal_mayRun loaded allowed)

theorem refusal_mayRun {role : Role} (allowed : refusal (role.inState env) c cmd argv = none) : MayRun role c .request cmd := by
  intro client readOnly _
  rw [Role.readOnly, Bool.and_eq_true] at readOnly
  simp only [refusal, ite_some_eq_none] at allowed
  obtain ⟨-, -, -, -, -, -, -, roslave, -⟩ := allowed
  simpa [Role.inState, client, readOnly] using roslave

theorem refusal_loading (flags : cmd.hasFlag 'l' = false) (allowed : refusal env c cmd argv = none) : env.loading = false := by
  simp only [refusal, ite_some_eq_none] at allowed
  obtain ⟨-, -, -, -, -, -, -, -, -, -, loading, -⟩ := allowed
  simpa [flags] using loading

theorem slaveProcs_logged (logged : Logged commands first s)
    (loaded : mc.cmd = .eval ∨ mc.cmd = .evalsha → env.loading = false) (may : c.multi = false → MayRun s.state.role c .request mc.cmd) :
    Logged commands first (slaveProcs commands env s dirty c mc).data := by
  simp only [slaveProcs]
  split
  next script => exact luaRun_logged _ (loaded script) false false logged
  next =>
    cases open_ : c.multi with
    | true => exact runCommand_logged logged fun _ _ path => by simp at path
    | false => exact runCommand_logged logged (may open_)

theorem execCommands_logged (loaded : env.loading = false) (tx : Nat) (queue : List MultiCmd) (must : Bool)
    (server : Server (SlaveServer D)) (c : Client) (open_ : c.multi = true) (logged : Logged commands first server.data) :
    Logged commands first (execCommands (slaveProcs commands env) tx queue must server c).2.1.data := by
  induction queue generalizing must server c with
  | nil => exact logged
  | cons mc queue ih =>
    rw [execCommands]
    have closed : c.multi = false → MayRun server.data.state.role c .request mc.cmd := fun false' => by
      rw [open_] at false'
      exact absurd false' Bool.noConfusion
    have ran : Logged commands first (slaveProcs commands env server.data server.dirty c mc).data :=
      slaveProcs_logged logged (fun _ => loaded) closed
    simp only
    apply ih
    · exact open_
    · split
      · exact ran
      · exact ran

theorem callExec_logged {server : Server (SlaveServer D)} (loaded : env.loading = false) (logged : Logged commands first server.data) :
    Logged commands first (callExec (slaveProcs commands env) server c).1.data := by
  have ran : Logged commands first (execCommand (slaveProcs commands env) server c).1.data := by
    rw [execCommand]
    split
    next => exact logged
    next open_ =>
      split
      next => exact logged
      next =>
        have queue := execCommands_logged loaded server.execs c.commands false { server with execs := server.execs + 1 } c
          (by simpa using open_) logged
        simp only
        split
        · exact queue
        · exact queue
  exact ran

theorem processCommand_logged {server : Server (SlaveServer D)}
    (logged : Logged commands first server.data) :
    Logged commands first
      (processCommand (slaveProcs commands (server.data.state.role.inState env)) (server.data.state.role.inState env) server c argv).1.data := by
  rw [processCommand]
  split
  next => exact logged
  next =>
    split
    next => exact logged
    next cmd found =>
      split
      next => exact logged
      next allowed =>
        split
        next => exact logged
        next runs =>
          split
          next => exact callExec_logged (refusal_loading (by decide) allowed) logged
          next => exact logged
          next => exact logged
          next => exact logged
          next notExec notDiscard notMulti notWatch =>
            apply slaveProcs_logged logged
            · rintro (rfl | rfl)
              · exact refusal_loading (by decide) allowed
              · exact refusal_loading (by decide) allowed
            · exact fun _ => refusal_mayRun allowed

theorem slaveStep_logged {w : World (SlaveServer D)} (event : SlaveEvent) (logged : Logged commands first w.server.data) :
    Logged commands first (slaveStep commands w event).server.data := by
  cases event with
  | touch id => exact logged
  | connect id master => exact logged.of_state rfl
  | serve id =>
    simp only [slaveStep]
    split
    next =>
      refine logged.access ⟨fun _ _ path => ?_, fun path _ => absurd rfl path⟩
      simp at path
    next => exact logged
  | request id env argv =>
    have after : Logged commands first (worldStep (slaveProcs commands (w.server.data.state.role.inState env)) w
        (.request id (w.server.data.state.role.inState env) argv)).server.data := by
      simp only [worldStep]
      split
      next => exact logged
      next => exact processCommand_logged logged
    simp only [slaveStep]
    split
    next => exact logged
    next =>
      split
      next => exact after.of_state rfl
      next => exact after

theorem slaveRun_logged {w : World (SlaveServer D)} (events : List SlaveEvent) (logged : Logged commands first w.server.data) :
    Logged commands first (slaveRun commands w events).server.data := by
  induction events generalizing w with
  | nil => exact logged
  | cons event events ih => exact ih (slaveStep_logged event logged)

/-- An access for a client on a read-only slave that no check stands before: a write command from
the queue of EXEC, the service of a blocked client, and PFCOUNT with a stale cache. -/
def Leak (commands : DataCommands D R) (access : Access D) : Prop :=
  access.master = false ∧ access.role.readOnly = true ∧
    (access.path = .exec ∧ access.mc.cmd.hasFlag 'w' = true ∨ access.path = .served ∨
      access.mc.cmd = .pfcount ∧ commands.stale access.before access.mc.argv = true)

/-- A client that is not the link with the master leaves the dataset of a read-only slave alone,
administrative commands aside. -/
def Untouched (access : Access D) : Prop :=
  access.master = false → access.role.readOnly = true → access.mc.cmd.hasFlag 'a' = false → access.after = access.before

theorem Explained.untouched {access : Access D} (explained : Explained commands access) (noLeak : ¬ Leak commands access) :
    Untouched access := by
  intro client readOnly data
  have path : access.path ≠ .served := fun served => noLeak ⟨client, readOnly, .inr (.inl served)⟩
  have fresh : access.mc.cmd = .pfcount → commands.stale access.before access.mc.argv = false := fun pfcount => by
    cases cached : commands.stale access.before access.mc.argv with
    | false => rfl
    | true => exact absurd ⟨client, readOnly, .inr (.inr ⟨pfcount, cached⟩)⟩ noLeak
  have reads : access.mc.cmd.hasFlag 'w' = false := by
    cases way : access.path with
    | request => exact explained.checked client readOnly (.inl way)
    | script => exact explained.checked client readOnly (.inr way)
    | served => exact absurd way path
    | exec =>
      cases write : access.mc.cmd.hasFlag 'w' with
      | false => rfl
      | true => exact absurd ⟨client, readOnly, .inl ⟨way, write⟩⟩ noLeak
  obtain ⟨dirty, caller, same⟩ := explained.effect path data
  rw [same]
  by_cases pfcount : access.mc.cmd = .pfcount
  · exact commands.keepsCache _ _ dirty caller _ readOnly pfcount (fresh pfcount)
  · exact commands.keeps _ _ dirty caller _ readOnly reads data pfcount

/-- In every run without such an access, no client writes to the read-only slave. -/
theorem slave_unwritten (commands : DataCommands D R) (data : D) (role : Role) (events : List SlaveEvent)
    (noLeak : ∀ access ∈ (slaveRun commands (slaveStart data role) events).server.data.log, ¬ Leak commands access) :
    Leads data (slaveRun commands (slaveStart data role) events).server.data.log
        (slaveRun commands (slaveStart data role) events).server.data.state.data ∧
      ∀ access ∈ (slaveRun commands (slaveStart data role) events).server.data.log, Untouched access := by
  have start : Logged commands data (slaveStart data role).server.data :=
    ⟨rfl, fun access member => absurd member List.not_mem_nil⟩
  have logged := slaveRun_logged events start
  exact ⟨logged.leads, fun access member => (logged.explained access member).untouched (noLeak access member)⟩

instance (access : Access D) : Decidable (Leak commands access) :=
  inferInstanceAs (Decidable (_ ∧ _ ∧ _))

instance [DecidableEq D] (access : Access D) : Decidable (Untouched access) :=
  inferInstanceAs (Decidable (_ → _ → _ → _))

/-- SET, on a list of keys and values. -/
def setCommands : DataCommands (List (List UInt8 × List UInt8)) Unit where
  outcome _ data dirty c mc :=
    { mc := mc
      data := if mc.cmd = .set then (argument mc.argv 1, argument mc.argv 2) :: data else data
      dirty := if mc.cmd = .set then dirty + 1 else dirty
      pubsub := c.pubsub
      authenticated := c.authenticated }
  reply _ _ _ := ()
  script _ _ := .done
  stale _ _ := false
  blocks _ _ := false
  serve data _ := data
  keeps := by
    intro role data dirty c mc _ reads _ _
    have other : mc.cmd ≠ .set := by
      intro same
      rw [same] at reads
      exact absurd reads (by decide)
    simp only [if_neg other]
  keepsCache := by
    intro role data dirty c mc _ pfcount _
    have other : mc.cmd ≠ .set := by
      rw [pfcount]
      decide
    simp only [if_neg other]

def slaveEnv : ServerState where
  commands name :=
    if name = [109, 117, 108, 116, 105] then some .multi
    else if name = [101, 120, 101, 99] then some .exec
    else if name = [115, 101, 116] then some .set
    else if name = [103, 101, 116] then some .get
    else if name = [115, 108, 97, 118, 101, 111, 102] then some .slaveof
    else none

/-- SLAVEOF h 6379 -/
def slaveof (id : Nat) : SlaveEvent := .request id slaveEnv [[115, 108, 97, 118, 101, 111, 102], [104], [54, 51, 55, 57]]

def setRequest (id : Nat) : SlaveEvent := .request id slaveEnv [[115, 101, 116], [107], [118]]

/-- After SLAVEOF a client reads and tries to write, and the link with the master writes. -/
def refusedWrite : List SlaveEvent :=
  [setRequest 1, slaveof 2, .request 1 slaveEnv [[103, 101, 116], [107]], setRequest 1, .connect 3 true, setRequest 3]

theorem slave_unwritten_refused :
    (slaveRun setCommands (slaveStart [] ⟨none, 0, true⟩) refusedWrite).server.data.state.data.length = 2 ∧
      ∀ access ∈ (slaveRun setCommands (slaveStart [] ⟨none, 0, true⟩) refusedWrite).server.data.log, Untouched access :=
  ⟨by decide +kernel, (slave_unwritten setCommands [] ⟨none, 0, true⟩ refusedWrite (by decide +kernel)).2⟩

/-- A client queues SET, another one sends SLAVEOF, and then the queue is run. -/
def queuedWrite : List SlaveEvent :=
  [.request 1 slaveEnv [[109, 117, 108, 116, 105]], setRequest 1, slaveof 2, .request 1 slaveEnv [[101, 120, 101, 99]]]

theorem slave_written_by_exec :
    ¬ ∀ access ∈ (slaveRun setCommands (slaveStart [] ⟨none, 0, true⟩) queuedWrite).server.data.log, Untouched access := by
  decide +kernel

end Cplusplus.Redis.ReadOnlySlave
