import Cplusplus.FullResync

/-! Full resynchronisations are exact in runs in which the BGSAVE that slaves wait for can be
started. Every slave is at a stage that says what its snapshot is or will be. -/

namespace Cplusplus.Redis.FullResync

open List Option
open CheckAof (Argv)

variable {D : Type} {execute : D → Nat × Argv → D} {runid : List UInt8} {start : D}
variable {m : Master D} {log : List (Nat × Argv)} {s : Slave D} {type : ChildType} {ok : Bool} {opens : Nat → Bool}

def Slave.items (s : Slave D) : List Item := s.stream.map Piece.item

theorem decode_append (dbid : Nat) (xs ys : List Item) : decode dbid (xs ++ ys) = decode dbid xs ++ decode (context dbid xs) ys := by
  induction xs generalizing dbid with
  | nil => rfl
  | cons item xs ih =>
    cases item <;> simp only [cons_append, decode, context, ih]

theorem context_append (dbid : Nat) (xs ys : List Item) : context dbid (xs ++ ys) = context (context dbid xs) ys := by
  induction xs generalizing dbid with
  | nil => rfl
  | cons item xs ih =>
    cases item <;> simp only [cons_append, context, ih]

def fed (m : Master D) (dictid : Int) (item : Item) (s : Slave D) : Slave D :=
  let select : List Piece := if m.slaveseldb ≠ dictid then [⟨.select dictid.toNat, m.masterReplOffset⟩] else []
  let offset :=
    if m.slaveseldb ≠ dictid then (feedItem m (.select dictid.toNat) fun _ => true).masterReplOffset else m.masterReplOffset
  { s with stream := s.stream ++ (select ++ if s.waits then [] else [⟨item, offset⟩]) }

theorem replicationFeedSlaves_slaves (m : Master D) (dictid : Int) (item : Item) :
    (replicationFeedSlaves m dictid item).slaves = m.slaves.map (fed m dictid item) := by
  unfold replicationFeedSlaves
  split
  next early =>
    obtain ⟨-, none⟩ := Bool.and_eq_true_iff.mp early
    rw [List.isEmpty_iff.mp none]
    rfl
  next =>
    unfold fed
    split
    next other =>
      simp only [feedItem, if_true, List.map_map]
      apply map_congr_left
      intro s _
      cases waits : s.waits <;> simp_all [Slave.waits, Function.comp]
    next same =>
      simp only [feedItem]
      apply map_congr_left
      intro s _
      cases s.waits <;> simp

theorem replicationFeedSlaves_kept (m : Master D) (dictid : Int) (item : Item) :
    (replicationFeedSlaves m dictid item).data = m.data ∧ (replicationFeedSlaves m dictid item).log = m.log ∧
      (replicationFeedSlaves m dictid item).child = m.child ∧ (replicationFeedSlaves m dictid item).rdbFile = m.rdbFile ∧
      (replicationFeedSlaves m dictid item).replBacklog = m.replBacklog ∧
      (m.slaves = [] ∨ (replicationFeedSlaves m dictid item).slaveseldb = dictid) := by
  unfold replicationFeedSlaves
  split
  next early =>
    obtain ⟨-, none⟩ := Bool.and_eq_true_iff.mp early
    exact ⟨rfl, rfl, rfl, rfl, rfl, .inl (List.isEmpty_iff.mp none)⟩
  next =>
    split
    · exact ⟨rfl, rfl, rfl, rfl, rfl, .inr rfl⟩
    · exact ⟨rfl, rfl, rfl, rfl, rfl, .inr rfl⟩

def Served (execute : D → Nat × Argv → D) (start : D) (log : List (Nat × Argv)) (s : Slave D) : Prop :=
  ∃ snapshot, s.payload = some snapshot ∧ Follows execute start log snapshot s.stream

def Stage (execute : D → Nat × Argv → D) (start : D) (log : List (Nat × Argv)) (child : Option (Child D)) (s : Slave D) : Prop :=
  match s.replstate with
  | .waitBgsaveStart => decode 0 s.items = []
  | .waitBgsaveEnd => ∃ c, child = some c ∧ c.Serves s ∧ Follows execute start log c.snapshot s.stream
  | .sendBulk | .online => Served execute start log s

/-- The database that the next command needs no SELECT for. -/
def InContext (slaveseldb : Int) (s : Slave D) : Prop := slaveseldb = -1 ∨ slaveseldb = context 0 s.items

structure Good (execute : D → Nat × Argv → D) (start : D) (m : Master D) : Prop where
  backlog : m.slaves ≠ [] → m.replBacklog = true
  data : m.data = m.log.foldl execute start
  file : ∀ child exit, m.child = some child → child.type = .disk → child.exit = some exit → exit.ok = true →
    m.slaves.any Slave.accumulates = true → m.rdbFile = some child.snapshot
  continued : ∀ s ∈ m.slaves, s.full = false → s.replstate = .online
  selected : ∀ s ∈ m.slaves, s.full = true → InContext m.slaveseldb s
  stage : ∀ s ∈ m.slaves, s.full = true → Stage execute start m.log m.child s

theorem Good.exact (good : Good execute start m) : Exact execute start m := by
  intro s member
  refine ⟨fun full online => ?_, fun waits => ?_⟩
  · have stage := good.stage s member full
    simpa only [Stage, online, Served] using stage
  · have full : s.full = true := by
      by_contra other
      have online := good.continued s member (by simpa using other)
      rw [online] at waits
      cases waits
    have stage := good.stage s member full
    simp only [Stage, waits] at stage
    obtain ⟨child, current, serves, -⟩ := stage
    exact ⟨child, current, serves⟩

theorem follows_now {stream : List Piece} (none : decode 0 (stream.map Piece.item) = []) :
    Follows execute start log (log.foldl execute start) stream :=
  ⟨log, [], (append_nil log).symm, rfl, none⟩

theorem follows_extend {snapshot : D} {stream more : List Piece} {commands : List (Nat × Argv)}
    (follows : Follows execute start log snapshot stream)
    (added : decode 0 ((stream ++ more).map Piece.item) = decode 0 (stream.map Piece.item) ++ commands) :
    Follows execute start (log ++ commands) snapshot (stream ++ more) := by
  obtain ⟨before, after, parts, snap, rest⟩ := follows
  exact ⟨before, after ++ commands, by rw [parts, append_assoc], snap, by rw [added, rest]⟩

/-- A stage when commands were added to the log and to the stream, unless the slave waits. -/
theorem Stage.extend {child : Option (Child D)} {more : List Piece} {commands : List (Nat × Argv)}
    (stage : Stage execute start log child s)
    (added : decode 0 ((s.stream ++ more).map Piece.item) = decode 0 s.items ++ if s.waits then [] else commands) :
    Stage execute start (log ++ commands) child { s with stream := s.stream ++ more } := by
  unfold Stage at stage ⊢
  unfold Slave.waits Slave.items at added
  cases state : s.replstate with
  | waitBgsaveStart =>
    simp only [state, Slave.items] at stage added ⊢
    rw [added, stage]
    rfl
  | waitBgsaveEnd =>
    simp only [state] at stage added ⊢
    obtain ⟨c, current, serves, follows⟩ := stage
    exact ⟨c, current, serves, follows_extend follows added⟩
  | sendBulk =>
    simp only [state] at stage added ⊢
    obtain ⟨snapshot, payload, follows⟩ := stage
    exact ⟨snapshot, payload, follows_extend follows added⟩
  | online =>
    simp only [state] at stage added ⊢
    obtain ⟨snapshot, payload, follows⟩ := stage
    exact ⟨snapshot, payload, follows_extend follows added⟩

theorem fed_items (m : Master D) (dictid : Int) (item : Item) (s : Slave D) :
    (fed m dictid item s).items = s.items ++ ((if m.slaveseldb ≠ dictid then [.select dictid.toNat] else []) ++
      if s.waits then [] else [item]) := by
  unfold fed Slave.items
  simp only [map_append]
  split <;> split <;> rfl

theorem fed_context {dictid : Int} {item : Item} (context_ : InContext m.slaveseldb s) (plain : ∀ dbid, item ≠ .select dbid)
    (used : 0 ≤ dictid ∨ dictid = m.slaveseldb) : InContext dictid (fed m dictid item s) := by
  have unselected : ∀ dbid, context dbid (if s.waits then [] else [item]) = dbid := by
    intro dbid
    split
    · rfl
    · cases item with
      | select d => exact absurd rfl (plain d)
      | command argv => rfl
      | service argv => rfl
  unfold InContext
  rw [fed_items, context_append, context_append, unselected]
  split
  next other =>
    rcases used with positive | same
    · exact .inr (by simp [context, Int.toNat_of_nonneg positive])
    · exact absurd same.symm other
  next same =>
    rw [ne_eq, not_not] at same
    rw [← same]
    exact context_

theorem fed_decode {dictid : Nat} {argv : Argv} (context_ : InContext m.slaveseldb s) :
    decode 0 (fed m dictid (.command argv) s).items = decode 0 s.items ++ if s.waits then [] else [(dictid, argv)] := by
  rw [fed_items, decode_append]
  congr 1
  split
  next other => split <;> simp [decode]
  next same =>
    rw [ne_eq, not_not] at same
    have selected : context 0 s.items = dictid := by
      rcases context_ with unknown | known
      · omega
      · omega
    rw [selected]
    split <;> rfl

section
variable (good : Good execute start m)
include good

theorem Good.feed {dictid : Int} {item : Item} {commands : List (Nat × Argv)}
    (plain : ∀ dbid, item ≠ .select dbid) (used : 0 ≤ dictid ∨ dictid = m.slaveseldb)
    (decoded : ∀ s, InContext m.slaveseldb s → decode 0 (fed m dictid item s).items = decode 0 s.items ++ if s.waits then [] else commands) :
    Good execute start
      (replicationFeedSlaves { m with data := commands.foldl execute m.data, log := m.log ++ commands } dictid item) := by
  obtain ⟨data, log, child, rdbFile, backlog, selected⟩ := replicationFeedSlaves_kept
    { m with data := commands.foldl execute m.data, log := m.log ++ commands } dictid item
  have slaves := replicationFeedSlaves_slaves
    { m with data := commands.foldl execute m.data, log := m.log ++ commands } dictid item
  have image : ∀ s ∈ (replicationFeedSlaves { m with data := commands.foldl execute m.data, log := m.log ++ commands }
      dictid item).slaves, ∃ old ∈ m.slaves, fed m dictid item old = s := by
    intro s member
    rw [slaves] at member
    exact List.mem_map.mp member
  refine ⟨fun some_ => ?_, ?_, fun c exit current type exited ok waiting => ?_, fun s member other => ?_, fun s member full => ?_,
    fun s member full => ?_⟩
  · rw [backlog]
    apply good.backlog
    rintro none
    apply some_
    rw [slaves, none]
    rfl
  · rw [data, log, foldl_append, good.data]
  · rw [child] at current
    rw [rdbFile]
    apply good.file c exit current type exited ok
    rw [slaves, List.any_map] at waiting
    exact waiting
  · obtain ⟨old, present, rfl⟩ := image s member
    exact good.continued old present other
  · obtain ⟨old, present, rfl⟩ := image s member
    rcases selected with none | selected
    · rw [none] at present
      cases present
    · rw [selected]
      exact fed_context (good.selected old present full) plain used
  · obtain ⟨old, present, rfl⟩ := image s member
    rw [log, child]
    exact (good.stage old present full).extend (decoded old (good.selected old present full))

theorem Good.command (dictid : Nat) (argv : Argv) :
    Good execute start (replicationFeedSlaves (run execute m (dictid, argv)) dictid (.command argv)) :=
  @Good.feed _ _ _ _ good dictid (.command argv) [(dictid, argv)] (fun _ => by simp) (.inl (Int.natCast_nonneg dictid)) fun _ context_ =>
    fed_decode context_

theorem Good.service (argv : Argv) : Good execute start (replicationFeedSlaves m m.slaveseldb (.service argv)) := by
  have kept := @Good.feed _ _ _ _ good m.slaveseldb (.service argv) [] (fun _ => by simp) (.inr rfl) (by
    intro s _
    rw [fed_items, decode_append]
    simp only [ne_eq, not_true_eq_false, if_false, nil_append, ite_self, append_nil]
    split <;> simp [decode])
  simpa using kept

end

theorem Stage.idle {child other : Option (Child D)} (stage : Stage execute start log child s)
    (idle : s.accumulates = false) : Stage execute start log other s := by
  unfold Stage at stage ⊢
  cases state : s.replstate with
  | waitBgsaveEnd => simp [Slave.accumulates, state] at idle
  | waitBgsaveStart => simpa only [state] using stage
  | sendBulk => simpa only [state] using stage
  | online => simpa only [state] using stage

section
variable (good : Good execute start m)
include good

theorem Good.childExit (exit : ChildExit) : Good execute start (childExit m exit) := by
  unfold FullResync.childExit
  split
  next => exact good
  next child current =>
    split
    next => exact good
    next =>
      refine ⟨good.backlog, good.data, fun c e changed type exited ok waiting => ?_, good.continued, good.selected, ?_⟩
      · cases changed
        cases exited
        have disk : child.type = .disk := type
        simp [disk, ok]
      · intro s member full
        have stage := good.stage s member full
        cases waits : s.accumulates with
        | false => exact stage.idle waits
        | true =>
          have state : s.replstate = .waitBgsaveEnd := by simpa [Slave.accumulates] using waits
          simp only [Stage, state] at stage ⊢
          obtain ⟨c, same, serves, follows⟩ := stage
          rw [current] at same
          cases same
          exact ⟨_, rfl, serves, follows⟩

theorem Good.idle (none : m.child = none) : ∀ s ∈ m.slaves, s.accumulates = false := by
  intro s member
  by_contra other
  have waits : s.replstate = .waitBgsaveEnd := by simpa [Slave.accumulates] using other
  obtain ⟨child, current, -⟩ := (good.exact s member).2 waits
  rw [none] at current
  cases current

theorem Good.rdbSaveBackground (forks : Bool) : Good execute start (rdbSaveBackground m forks).1 := by
  unfold FullResync.rdbSaveBackground
  split
  next => exact good
  next free =>
    have none : m.child = none := by
      cases child : m.child with
      | none => rfl
      | some c => simp [child] at free
    refine ⟨good.backlog, good.data, fun c e changed type exited => ?_, good.continued, good.selected, ?_⟩
    · cases changed
      cases exited
    · intro s member full
      exact (good.stage s member full).idle (good.idle none s member)

end

theorem begun_of_not_waits (settled : s.waits = false) : begun s = s := by
  simp [begun, settled]

theorem begun_waits (s : Slave D) : (begun s).waits = false := by
  cases waits : s.waits with
  | false => rw [begun_of_not_waits waits, waits]
  | true =>
    have changed : begun s = { s with replstate := .waitBgsaveEnd } := if_pos waits
    rw [changed]
    rfl

theorem map_begun {slaves : List (Slave D)} (settled : ∀ s ∈ slaves, s.waits = false) : slaves.map begun = slaves :=
  (map_congr_left fun s member => begun_of_not_waits (settled s member)).trans (List.map_id slaves)

theorem begun_begun : (begun ∘ begun : Slave D → Slave D) = begun := funext fun s => begun_of_not_waits (begun_waits s)

theorem Good.begin (good : Good execute start m) (none : m.child = none) {child : Child D}
    (snapshot : child.snapshot = m.data) (running : child.exit = Option.none)
    (serves : ∀ s ∈ m.slaves, s.waits = true → child.Serves s) :
    Good execute start { m with child := some child, slaves := m.slaves.map begun } := by
  have fields : ∀ s : Slave D, (begun s).full = s.full ∧ (begun s).stream = s.stream ∧ (s.waits = false → begun s = s) := by
    intro s
    unfold begun
    split <;> simp_all
  refine ⟨fun some_ => ?_, good.data, fun c e changed type exited => ?_, fun s member other => ?_, fun s member full => ?_,
    fun s member full => ?_⟩
  · apply good.backlog
    rintro none
    apply some_
    simp [none]
  · cases changed
    rw [running] at exited
    cases exited
  · obtain ⟨old, present, rfl⟩ := List.mem_map.mp member
    rw [(fields old).1] at other
    have online := good.continued old present other
    rw [begun_of_not_waits (by simp [Slave.waits, online]), online]
  · obtain ⟨old, present, rfl⟩ := List.mem_map.mp member
    rw [(fields old).1] at full
    have context_ := good.selected old present full
    simpa only [InContext, Slave.items, (fields old).2.1] using context_
  · obtain ⟨old, present, rfl⟩ := List.mem_map.mp member
    rw [(fields old).1] at full
    have stage := good.stage old present full
    cases waits : old.waits with
    | false =>
      rw [begun_of_not_waits waits]
      exact stage.idle (good.idle none old present)
    | true =>
      have state : old.replstate = .waitBgsaveStart := by simpa [Slave.waits] using waits
      simp only [Stage, state] at stage
      simp only [begun, waits, if_true, Stage]
      refine ⟨child, rfl, ?_, ?_⟩
      · exact serves old present waits
      · rw [snapshot, good.data]
        exact follows_now stage

theorem startBgsave_disk (none : m.child = none) (disk : m.replDisklessSync = false) (pipes : Bool) :
    startBgsaveForReplication m pipes true = ({ m with child := some ⟨.disk, m.data, [], Option.none⟩ }, true) := by
  simp [startBgsaveForReplication, disk, FullResync.rdbSaveBackground, none]

theorem startBgsave_socket (none : m.child = none) (socket : m.replDisklessSync = true) : startBgsaveForReplication m true true = ({ m with
        slaves := m.slaves.map begun
        child := some ⟨.socket, m.data, (m.slaves.filter Slave.waits).map Slave.id, Option.none⟩ }, true) := by
  simp [startBgsaveForReplication, socket, rdbSaveToSlavesSockets, none]

theorem Good.cron (good : Good execute start m) {aofChild pipes forks : Bool} (clean : Event.Clean m (.cron aofChild pipes forks)) :
    Good execute start (replicationCron m aofChild pipes forks) := by
  unfold replicationCron
  split
  next due =>
    simp only [Bool.and_eq_true, isNone_iff_eq_none, Bool.not_eq_true'] at due
    obtain ⟨⟨none, aof⟩, waiting⟩ := due
    cases target : m.replDisklessSync with
    | false =>
      cases forks with
      | false =>
        simpa [startBgsaveForReplication, target, FullResync.rdbSaveBackground, none] using good
      | true =>
        simp only [startBgsave_disk none target, if_true]
        exact @Good.begin _ _ _ _ good none ⟨.disk, m.data, [], Option.none⟩ rfl rfl fun _ _ _ => .inl rfl
    | true =>
      cases pipes with
      | false => simpa [startBgsaveForReplication, target, rdbSaveToSlavesSockets, none] using good
      | true =>
        obtain rfl : forks = true := clean (by simp [none]) aof waiting target rfl
        have served : ∀ s ∈ m.slaves, s.waits = true → s.id ∈ (m.slaves.filter Slave.waits).map Slave.id :=
          fun s member waits => List.mem_map.mpr ⟨s, mem_filter.mpr ⟨member, waits⟩, rfl⟩
        simp only [startBgsave_socket none target, if_true, List.map_map, begun_begun]
        exact @Good.begin _ _ _ _ good none ⟨.socket, m.data, _, Option.none⟩ rfl rfl fun s member waits =>
          .inr (served s member waits)
  next => exact good

/-- A slave before `updateSlavesWaitingBgsave`: those that waited for the child have its RDB, or
the file is there for them. -/
def AtEnd (execute : D → Nat × Argv → D) (start : D) (m : Master D) (type : ChildType) (ok : Bool) (s : Slave D) : Prop :=
  match s.replstate, type with
  | .waitBgsaveStart, _ => decode 0 s.items = []
  | .waitBgsaveEnd, .disk => ok = true → ∃ file, m.rdbFile = some file ∧ Follows execute start m.log file s.stream
  | _, _ => Served execute start m.log s

theorem Stage.atEnd {child : Option (Child D)} (stage : Stage execute start m.log child s)
    (idle : s.accumulates = false) : AtEnd execute start m type ok s := by
  unfold Stage at stage
  unfold AtEnd
  cases state : s.replstate with
  | waitBgsaveEnd => simp [Slave.accumulates, state] at idle
  | waitBgsaveStart => simpa only [state] using stage
  | sendBulk => simpa only [state] using stage
  | online => simpa only [state] using stage

/-- `updateSlave` but for the slaves that wait for a BGSAVE to start. -/
def settle (type : ChildType) (ok : Bool) (opens : Nat → Bool) (rdbFile : Option D) (s : Slave D) : Option (Slave D) :=
  if s.waits then some s else updateSlave type ok opens rdbFile s

theorem updateSlave_waits {rdbFile : Option D} {after : Slave D}
    (updated : updateSlave type ok opens rdbFile s = some after) : after.waits = false := by
  unfold updateSlave at updated
  unfold Slave.waits
  cases state : s.replstate with
  | waitBgsaveStart =>
    simp only [state] at updated
    cases updated
    rfl
  | waitBgsaveEnd =>
    simp only [state] at updated
    cases type with
    | socket =>
      cases updated
      rfl
    | disk =>
      rw [ite_none_right_eq_some] at updated
      obtain ⟨file, -, rfl⟩ := map_eq_some_iff.mp updated.2
      rfl
  | sendBulk =>
    simp only [state] at updated
    cases updated
    simp [state]
  | online =>
    simp only [state] at updated
    cases updated
    simp [state]

theorem updateSlave_eq (type : ChildType) (ok : Bool) (opens : Nat → Bool) (rdbFile : Option D) (s : Slave D) :
    updateSlave type ok opens rdbFile s = (settle type ok opens rdbFile s).map begun := by
  unfold settle
  cases waits : s.waits with
  | true =>
    have state : s.replstate = .waitBgsaveStart := by simpa [Slave.waits] using waits
    simp [updateSlave, state, begun, waits]
  | false =>
    rw [if_neg Bool.false_ne_true]
    cases updated : updateSlave type ok opens rdbFile s with
    | none => rfl
    | some after => rw [map_some, begun_of_not_waits (updateSlave_waits updated)]

theorem settle_spec {after : Slave D} (settled : settle type ok opens m.rdbFile s = some after) :
    after.full = s.full ∧ after.stream = s.stream ∧ (s.replstate = .online → after.replstate = .online) ∧
      (AtEnd execute start m type ok s → Stage execute start m.log none after) := by
  unfold settle at settled
  split at settled
  next waits =>
    cases settled
    have state : s.replstate = .waitBgsaveStart := by simpa [Slave.waits] using waits
    refine ⟨rfl, rfl, id, fun atEnd => ?_⟩
    simpa only [AtEnd, Stage, state] using atEnd
  next other =>
    unfold updateSlave at settled
    unfold AtEnd Stage
    cases state : s.replstate with
    | waitBgsaveStart => simp [Slave.waits, state] at other
    | waitBgsaveEnd =>
      simp only [state] at settled
      cases type with
      | socket =>
        cases settled
        exact ⟨rfl, rfl, fun _ => rfl, id⟩
      | disk =>
        rw [ite_none_right_eq_some, Bool.and_eq_true] at settled
        obtain ⟨⟨succeeded, -⟩, opened⟩ := settled
        obtain ⟨file, found, rfl⟩ := map_eq_some_iff.mp opened
        refine ⟨rfl, rfl, (fun online => by cases online), fun atEnd => ?_⟩
        obtain ⟨same, present, follows⟩ := atEnd succeeded
        rw [found] at present
        cases present
        exact ⟨file, rfl, follows⟩
    | sendBulk =>
      simp only [state] at settled
      cases settled
      refine ⟨rfl, rfl, (fun online => by cases online), fun atEnd => ?_⟩
      simpa only [state] using atEnd
    | online =>
      simp only [state] at settled
      cases settled
      refine ⟨rfl, rfl, fun _ => state, fun atEnd => ?_⟩
      simpa only [state] using atEnd

theorem good_after_child {pipes forks : Bool} (none : m.child = none) (backlog : m.slaves ≠ [] → m.replBacklog = true)
    (data : m.data = m.log.foldl execute start) (continued : ∀ s ∈ m.slaves, s.full = false → s.replstate = .online)
    (selected : ∀ s ∈ m.slaves, s.full = true → InContext m.slaveseldb s)
    (atEnd : ∀ s ∈ m.slaves, s.full = true → AtEnd execute start m type ok s)
    (clean : m.slaves.any Slave.waits = true → m.replDisklessSync = false ∧ forks = true) :
    Good execute start (updateSlavesWaitingBgsave m type ok opens pipes forks) := by
  have settled : Good execute start { m with slaves := m.slaves.filterMap (settle type ok opens m.rdbFile) } := by
    refine ⟨fun some_ => ?_, data, fun c e current => ?_, fun s member other => ?_, fun s member full => ?_, fun s member full => ?_⟩
    · apply backlog
      rintro empty
      apply some_
      simp [empty]
    · rw [none] at current
      cases current
    · obtain ⟨old, present, result⟩ := mem_filterMap.mp member
      obtain ⟨fullSame, -, online, -⟩ := @settle_spec _ execute start _ _ _ _ _ _ result
      rw [fullSame] at other
      exact online (continued old present other)
    · obtain ⟨old, present, result⟩ := mem_filterMap.mp member
      obtain ⟨fullSame, stream, -, -⟩ := @settle_spec _ execute start _ _ _ _ _ _ result
      rw [fullSame] at full
      have context_ := selected old present full
      simpa only [InContext, Slave.items, stream] using context_
    · obtain ⟨old, present, result⟩ := mem_filterMap.mp member
      obtain ⟨fullSame, -, -, stage⟩ := @settle_spec _ execute start _ _ _ _ _ _ result
      rw [fullSame] at full
      simp only [none]
      exact stage (atEnd old present full)
  have split_ : m.slaves.filterMap (updateSlave type ok opens m.rdbFile) = (m.slaves.filterMap (settle type ok opens m.rdbFile)).map begun := by
    rw [map_filterMap]
    congr 1
    funext s
    exact updateSlave_eq type ok opens m.rdbFile s
  unfold updateSlavesWaitingBgsave
  simp only [split_]
  split
  next waiting =>
    obtain ⟨disk, rfl⟩ := clean waiting
    have started := @startBgsave_disk _ { m with slaves := (m.slaves.filterMap (settle type ok opens m.rdbFile)).map begun } none disk
      pipes
    rw [started]
    exact @Good.begin _ _ _ _ settled none ⟨.disk, m.data, [], Option.none⟩ rfl rfl fun _ _ _ => .inl rfl
  next idle =>
    rw [map_begun]
    · exact settled
    · intro s member
      obtain ⟨old, present, result⟩ := mem_filterMap.mp member
      have settledBefore : ¬ old.waits = true := fun waits => idle (List.any_eq_true.mpr ⟨old, present, waits⟩)
      rw [settle, if_neg settledBefore] at result
      exact updateSlave_waits result

theorem Good.childDone (good : Good execute start m) {pipes forks : Bool} (clean : Event.Clean m (.childDone opens pipes forks)) :
    Good execute start (backgroundSaveDoneHandler m opens pipes forks) := by
  unfold backgroundSaveDoneHandler
  split
  next => exact good
  next child current =>
    split
    next => exact good
    next exit exited =>
      have startable := clean ⟨child, exit, current, exited⟩
      simp only
      split
      next disk =>
        refine good_after_child rfl good.backlog good.data good.continued good.selected (fun s member full => ?_) startable
        have stage := good.stage s member full
        cases waits : s.accumulates with
        | false => exact stage.atEnd waits
        | true =>
          have state : s.replstate = .waitBgsaveEnd := by simpa [Slave.accumulates] using waits
          simp only [Stage, AtEnd, state] at stage ⊢
          intro succeeded
          obtain ⟨c, same, -, follows⟩ := stage
          rw [current] at same
          cases same
          have waiting : m.slaves.any Slave.accumulates = true := List.any_eq_true.mpr ⟨s, member, waits⟩
          exact ⟨child.snapshot, good.file child exit current disk exited succeeded waiting, follows⟩
      next socket =>
        have origin : ∀ after ∈ m.slaves.filterMap (transferred child exit), ∃ s ∈ m.slaves,
            (s.accumulates = false ∧ after = s) ∨ (s.accumulates = true ∧ after = { s with payload := some child.snapshot }) := by
          intro after member
          obtain ⟨s, present, result⟩ := mem_filterMap.mp member
          refine ⟨s, present, ?_⟩
          unfold transferred at result
          split at result
          next waits =>
            rw [ite_none_right_eq_some] at result
            exact .inr ⟨waits, (some.inj result.2).symm⟩
          next other => exact .inl ⟨by simpa using other, (some.inj result).symm⟩
        refine good_after_child rfl (fun some_ => ?_) good.data (fun after member other => ?_) (fun after member full => ?_)
          (fun after member full => ?_) (fun waiting => ?_)
        · apply good.backlog
          rintro empty
          apply some_
          simp [empty]
        · obtain ⟨s, present, ⟨-, rfl⟩ | ⟨waits, rfl⟩⟩ := origin after member
          · exact good.continued after present other
          · exact good.continued s present other
        · obtain ⟨s, present, ⟨-, rfl⟩ | ⟨waits, rfl⟩⟩ := origin after member
          · exact good.selected after present full
          · exact good.selected s present full
        · obtain ⟨s, present, ⟨idle, rfl⟩ | ⟨waits, rfl⟩⟩ := origin after member
          · exact (good.stage after present full).atEnd idle
          · have state : s.replstate = .waitBgsaveEnd := by simpa [Slave.accumulates] using waits
            have stage := good.stage s present full
            simp only [Stage, state] at stage
            obtain ⟨c, same, -, follows⟩ := stage
            rw [current] at same
            cases same
            simp only [AtEnd, state]
            exact ⟨child.snapshot, rfl, follows⟩
        · apply startable
          obtain ⟨after, member, waits⟩ := List.any_eq_true.mp waiting
          obtain ⟨s, present, ⟨-, rfl⟩ | ⟨-, rfl⟩⟩ := origin after member
          · exact List.any_eq_true.mpr ⟨after, present, waits⟩
          · exact List.any_eq_true.mpr ⟨s, present, waits⟩

theorem attach_eq (backlog : m.slaves ≠ [] → m.replBacklog = true) (c : Slave D) : attach m c = { m with
        slaveseldb := -1
        slaves := m.slaves ++ [c]
        replBacklog := true
        masterReplOffset := if m.replBacklog then m.masterReplOffset else m.masterReplOffset + 1 } := by
  unfold attach
  simp only [length_append, length_singleton]
  cases exists_ : m.replBacklog with
  | true => simp
  | false =>
    have none : m.slaves = [] := by
      by_contra some_
      rw [backlog some_] at exists_
      cases exists_
    simp [none]

section
variable (good : Good execute start m)
include good

theorem Good.attach {c : Slave D} (full : c.full = true) (stage : Stage execute start m.log m.child c)
    (file : c.accumulates = true → m.slaves.any Slave.accumulates = true ∨ ∀ child, m.child = some child → child.exit = none) :
    Good execute start (attach m c) := by
  rw [attach_eq good.backlog]
  refine ⟨fun _ => rfl, good.data, fun child exit current type exited ok waiting => ?_, fun s member other => ?_,
    fun s _ _ => .inl rfl, fun s member sFull => ?_⟩
  · rw [any_append, Bool.or_eq_true] at waiting
    rcases waiting with before | last
    · exact good.file child exit current type exited ok before
    · rcases file (by simpa using last) with before | running
      · exact good.file child exit current type exited ok before
      · rw [running child current] at exited
        cases exited
  · rcases mem_append.mp member with before | last
    · exact good.continued s before other
    · obtain rfl := mem_singleton.mp last
      rw [full] at other
      cases other
  · rcases mem_append.mp member with before | last
    · exact good.stage s before sFull
    · obtain rfl := mem_singleton.mp last
      exact stage

theorem Good.sync (id : Nat) (psync forks : Bool) : Good execute start (syncCommand m runid id psync forks) := by
  have fresh : ∀ child, Stage execute start m.log child (newSlave m runid id psync) := fun _ => rfl
  unfold syncCommand
  split
  next => exact good
  next =>
    simp only
    split
    next child current =>
      split
      next disk =>
        split
        next slave found =>
          have present := mem_of_find?_eq_some found
          have waits : slave.accumulates = true := List.find?_some found
          have state : slave.replstate = .waitBgsaveEnd := by simpa [Slave.accumulates] using waits
          have full : slave.full = true := by
            by_contra other
            have online := good.continued slave present (by simpa using other)
            rw [online] at state
            cases state
          have stage := good.stage slave present full
          simp only [Stage, state] at stage
          obtain ⟨c, same, -, follows⟩ := stage
          refine good.attach rfl ?_ fun _ => .inl (List.any_eq_true.mpr ⟨slave, present, waits⟩)
          rw [current] at same
          cases same
          exact ⟨child, current, .inl disk, follows⟩
        next => exact good.attach rfl (fresh _) fun waits => by cases waits
      next => exact good.attach rfl (fresh _) fun waits => by cases waits
    next none =>
      split
      next => exact good.attach rfl (fresh _) fun waits => by cases waits
      next target =>
        have target : m.replDisklessSync = false := by simpa using target
        cases forks with
        | false => simpa [startBgsaveForReplication, target, FullResync.rdbSaveBackground, none] using good
        | true =>
          have kept := good.rdbSaveBackground true
          have begun_ : FullResync.rdbSaveBackground m true = ({ m with child := some ⟨.disk, m.data, [], Option.none⟩ }, true) := by
            simp [FullResync.rdbSaveBackground, none]
          rw [begun_] at kept
          simp only [startBgsave_disk none target, if_true]
          refine kept.attach rfl ?_ fun _ => .inr fun child current => ?_
          · refine ⟨_, rfl, .inl rfl, ?_⟩
            simp only [good.data]
            exact follows_now rfl
          · cases current
            rfl

theorem Good.continue (backlog : m.replBacklog = true) (continued : s.full = false)
    (online : s.replstate = .online) : Good execute start { m with slaves := m.slaves ++ [s] } := by
  have last : ∀ t ∈ m.slaves ++ [s], t.full = true → t ∈ m.slaves := by
    intro t member full
    rcases mem_append.mp member with before | last
    · exact before
    · obtain rfl := mem_singleton.mp last
      rw [continued] at full
      cases full
  refine ⟨fun _ => backlog, good.data, fun child exit current type exited ok waiting => ?_, fun t member other => ?_,
    fun t member full => good.selected t (last t member full) full, fun t member full => good.stage t (last t member full) full⟩
  · apply good.file child exit current type exited ok
    simpa [Slave.accumulates, online] using waiting
  · rcases mem_append.mp member with before | last
    · exact good.continued t before other
    · obtain rfl := mem_singleton.mp last
      exact online

/-- The slave's own state, or the end of the transfer of the file, is all that changes. -/
theorem Good.update (id : Nat) {f : Slave D → Slave D}
    (kept : ∀ s, (f s).full = s.full ∧ (f s).stream = s.stream ∧ (f s).payload = s.payload ∧ (f s).id = s.id ∧
      ((f s).replstate = s.replstate ∨ s.replstate = .sendBulk ∧ (f s).replstate = .online)) :
    Good execute start (m.update id f) := by
  have origin : ∀ after ∈ (m.update id f).slaves, ∃ s ∈ m.slaves, after.full = s.full ∧ after.stream = s.stream ∧
      after.payload = s.payload ∧ after.id = s.id ∧
      (after.replstate = s.replstate ∨ s.replstate = .sendBulk ∧ after.replstate = .online) := by
    intro after member
    obtain ⟨s, present, rfl⟩ := List.mem_map.mp member
    refine ⟨s, present, ?_⟩
    split
    · exact kept s
    · exact ⟨rfl, rfl, rfl, rfl, .inl rfl⟩
  refine ⟨fun some_ => ?_, good.data, fun child exit current type exited ok waiting => ?_, fun after member other => ?_,
    fun after member full => ?_, fun after member full => ?_⟩
  · apply good.backlog
    rintro none
    apply some_
    simp [Master.update, none]
  · apply good.file child exit current type exited ok
    obtain ⟨after, member, waits⟩ := List.any_eq_true.mp waiting
    obtain ⟨s, present, -, -, -, -, same | ⟨-, online⟩⟩ := origin after member
    · exact List.any_eq_true.mpr ⟨s, present, by simpa [Slave.accumulates, same] using waits⟩
    · simp [Slave.accumulates, online] at waits
  · obtain ⟨s, present, full, -, -, -, same | ⟨-, online⟩⟩ := origin after member
    · rw [same]
      exact good.continued s present (full.symm.trans other)
    · exact online
  · obtain ⟨s, present, fullSame, stream, -⟩ := origin after member
    have context_ := good.selected s present (fullSame.symm.trans full)
    simpa only [Master.update, InContext, Slave.items, stream] using context_
  · obtain ⟨s, present, fullSame, stream, payload, identity, changed⟩ := origin after member
    have stage := good.stage s present (fullSame.symm.trans full)
    rcases changed with same | ⟨before, online⟩
    · simpa only [Master.update, Stage, Served, Child.Serves, Slave.items, same, stream, payload, identity] using stage
    · simp only [Stage, before] at stage
      simpa only [Master.update, Stage, Served, online, stream, payload] using stage

theorem Good.freeClient (id : Nat) : Good execute start { m with slaves := m.slaves.filter fun s => s.id ≠ id } := by
  have kept : ∀ s ∈ m.slaves.filter (fun s => s.id ≠ id), s ∈ m.slaves := fun s member => (mem_filter.mp member).1
  refine ⟨fun some_ => ?_, good.data, fun child exit current type exited ok waiting => ?_,
    fun s member => good.continued s (kept s member), fun s member => good.selected s (kept s member),
    fun s member => good.stage s (kept s member)⟩
  · apply good.backlog
    rintro none
    apply some_
    simp [none]
  · apply good.file child exit current type exited ok
    obtain ⟨s, member, waits⟩ := List.any_eq_true.mp waiting
    exact List.any_eq_true.mpr ⟨s, kept s member, waits⟩

end

theorem run_childExit (m : Master D) (command : Nat × Argv) (exit : ChildExit) :
    run execute (childExit m exit) command = childExit (run execute m command) exit := by
  unfold FullResync.childExit run
  cases current : m.child with
  | none => simp [current]
  | some child =>
    simp only
    split
    · simp [current]
    · rfl

theorem Good.replaceFile (good : Good execute start m) (file : Option D)
    (unused : ∀ child exit, m.child = some child → child.exit = some exit → exit.ok = true →
      m.slaves.any Slave.accumulates = false) : Good execute start { m with rdbFile := file } := by
  refine ⟨good.backlog, good.data, fun child exit current type exited ok waiting => ?_, good.continued, good.selected, good.stage⟩
  rw [unused child exit current exited ok] at waiting
  cases waiting

theorem Good.flushall (good : Good execute start m) {dictid : Nat} {argv : Argv} {saved : Bool}
    (clean : Event.Clean m (.flushall dictid argv saved)) : Good execute start (step execute runid m (.flushall dictid argv saved)) := by
  have killed := good.childExit ⟨false, fun _ => false⟩
  simp only [FullResync.step, ← run_childExit]
  cases saved with
  | false => exact killed.command dictid argv
  | true =>
    rw [if_pos rfl]
    refine Good.command (killed.replaceFile (some (run execute (FullResync.childExit m _) (dictid, argv)).data)
      fun child exit current exited ok => ?_) dictid argv
    unfold FullResync.childExit at current ⊢
    cases before : m.child with
    | none => simp [before] at current
    | some c =>
      simp only [before] at current ⊢
      split at current
      next ended =>
        rw [if_pos ended]
        rw [before] at current
        obtain rfl := some.inj current
        exact clean rfl c exit before exited ok
      next =>
        obtain rfl := some.inj current
        obtain rfl := some.inj exited
        cases ok

theorem Good.initial (data : D) (diskless : Bool) : Good execute data (Master.start data diskless) := by
  refine ⟨fun some_ => absurd rfl some_, rfl, fun _ _ current => ?_, fun _ member => ?_, fun _ member => ?_, fun _ member => ?_⟩
  · cases current
  · cases member
  · cases member
  · cases member

theorem Good.step (good : Good execute start m) {event : Event} (clean : event.Clean m) : Good execute start (step execute runid m event) := by
  cases event with
  | sync id psync forks => exact good.sync id psync forks
  | continued id =>
    simp only [FullResync.step]
    split
    next fresh =>
      obtain ⟨backlog, -⟩ := Bool.and_eq_true_iff.mp fresh
      exact good.continue backlog rfl rfl
    next => exact good
  | command dictid argv => exact good.command dictid argv
  | flushall dictid argv saved => exact good.flushall clean
  | service argv => exact good.service argv
  | bgsave forks => exact good.rdbSaveBackground forks
  | childExit exit => exact good.childExit exit
  | childDone opens pipes forks => exact good.childDone clean
  | cron aofChild pipes forks => exact good.cron clean
  | bulkSent id =>
    refine good.update id fun s => ?_
    unfold putSlaveOnline
    split
    next sending => exact ⟨rfl, rfl, rfl, rfl, .inr ⟨sending, rfl⟩⟩
    next => exact ⟨rfl, rfl, rfl, rfl, .inl rfl⟩
  | ack id =>
    refine good.update id fun s => ?_
    split <;> exact ⟨rfl, rfl, rfl, rfl, .inl rfl⟩
  | loaded id =>
    refine good.update id fun s => ?_
    unfold loadPayload
    split <;> exact ⟨rfl, rfl, rfl, rfl, .inl rfl⟩
  | write id n =>
    refine good.update id fun s => ?_
    unfold writeToSlave
    split <;> exact ⟨rfl, rfl, rfl, rfl, .inl rfl⟩
  | read id n =>
    refine good.update id fun s => ?_
    unfold readFromMaster
    simp only
    split <;> exact ⟨rfl, rfl, rfl, rfl, .inl rfl⟩
  | freeClient id => exact good.freeClient id
  | freeReplicationBacklog =>
    simp only [FullResync.step]
    split
    next none =>
      refine ⟨fun some_ => absurd (List.isEmpty_iff.mp none) some_, good.data, good.file, good.continued, good.selected, good.stage⟩
    next => exact good
  | configDiskless value => exact ⟨good.backlog, good.data, good.file, good.continued, good.selected, good.stage⟩

theorem Good.runEvents (good : Good execute start m) {events : List Event}
    (clean : Meets execute runid Event.Clean m events) : Good execute start (runEvents execute runid m events) := by
  induction events generalizing m with
  | nil => exact good
  | cons event events ih =>
    obtain ⟨here, later⟩ := clean
    exact ih (good.step here) later

end Cplusplus.Redis.FullResync
