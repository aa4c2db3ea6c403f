import Cplusplus.Proofs.CheckAofWritten
import Cplusplus.Proofs.FullResyncExact

/-! The offset of a slave after a full resynchronisation. When nothing is fed before the snapshot
of a slave, its stream begins after the offset that was announced to it. -/

namespace Cplusplus.Redis.FullResync

open List Option
open CheckAof (Argv strtol strtol_digits decimal_digits digitsValue digitsValue_decimal)
open Replication (fullresyncLine printOffset)
open Decimal (decimal decimal_ne_nil)

variable {D : Type} {execute : D → Nat × Argv → D} {runid : List UInt8}
variable {m : Master D} {offset announced : Int} {s : Slave D}

theorem afterSpace_append {front rest : List UInt8} (solid : ∀ c ∈ front, c ≠ 32) : afterSpace (front ++ 32 :: rest) = some rest := by
  unfold afterSpace
  rw [dropWhile_append_of_pos (by simpa using solid)]
  rfl

theorem syncReadLine_append {line : List UInt8} (whole : ∀ c ∈ line, c ≠ 10) : syncReadLine (line ++ [13, 10]) = line := by
  have taken : (line ++ [13, 10]).takeWhile (· ≠ 10) = line ++ [13] := by
    rw [takeWhile_append_of_pos (by simpa using whole)]
    rfl
  unfold syncReadLine
  simp only [taken, getLast?_concat, if_true, dropLast_concat]

theorem decimal_not {c : UInt8} (other : isDigit c = false) (n : Nat) : ∀ d ∈ decimal n, d ≠ c := by
  rintro d member rfl
  rw [decimal_digits n d member] at other
  cases other

theorem IsRunid.not (valid : IsRunid runid) {c : UInt8} (other : c ∉ hexCharset) : ∀ d ∈ runid, d ≠ c := by
  rintro d member rfl
  exact other (valid.2 d member)

def fullresyncText (runid : List UInt8) (offset : Nat) : List UInt8 := fullresyncName ++ 32 :: (runid ++ 32 :: decimal offset)

theorem fullresyncText_whole (valid : IsRunid runid) (offset : Nat) : ∀ c ∈ fullresyncText runid offset, c ≠ 10 := by
  intro c member
  simp only [fullresyncText, mem_append, mem_cons] at member
  rcases member with name | rfl | id | rfl | digit
  · rintro rfl
    simp [fullresyncName] at name
  · decide
  · exact valid.not (by decide) c id
  · decide
  · exact decimal_not rfl offset c digit

theorem slaveTryPartialResynchronization_fullresync (valid : IsRunid runid) {offset : Nat} (bound : offset < 2 ^ 63) :
    slaveTryPartialResynchronization (fullresyncLine runid offset) = offset := by
  have printed : fullresyncLine runid offset = fullresyncText runid offset ++ [13, 10] := by
    simp [fullresyncLine, printOffset, fullresyncText, fullresyncName]
  have name : (fullresyncText runid offset).take 11 = fullresyncName := rfl
  have first : afterSpace (fullresyncText runid offset) = some (runid ++ 32 :: decimal offset) :=
    afterSpace_append (by simp [fullresyncName])
  have second : afterSpace (runid ++ 32 :: decimal offset) = some (decimal offset) := afterSpace_append (valid.not (by decide))
  have size : (runid ++ 32 :: decimal offset).length - (decimal offset).length - 1 = 40 := by
    rw [length_append, length_cons, valid.1]
    omega
  have value : strtol (decimal offset ++ []) = ((digitsValue (decimal offset) : Int), []) := by
    apply strtol_digits (decimal_digits offset) (decimal_ne_nil offset) (by simp)
    rwa [digitsValue_decimal]
  rw [append_nil, digitsValue_decimal] at value
  unfold slaveTryPartialResynchronization
  simp only [printed, syncReadLine_append (fullresyncText_whole valid offset), name, if_true, first, second, size, value]

structure Counted (masterReplOffset announced : Int) (s : Slave D) : Prop where
  initial : s.link.replMasterInitialOffset = announced
  offsets : s.offsets = (List.range s.offsets.length).map fun i : Nat => announced + 1 + i
  last : announced + s.offsets.length = masterReplOffset
  sent : s.link.sent ≤ s.offsets.length
  received : s.link.received ≤ s.link.sent
  unloaded : s.link.loaded = false → s.link.received = 0
  loaded : s.link.loaded = true → s.link.reploff = announced + s.link.received

structure Counting (m : Master D) : Prop where
  positive : 0 ≤ m.masterReplOffset
  backlog : m.slaves ≠ [] → m.replBacklog = true
  slaves : ∀ s ∈ m.slaves, ∀ announced, s.announced = some announced → Counted m.masterReplOffset announced s

theorem Counting.agree (counting : Counting m) : OffsetsAgree m := by
  intro s member _ known loaded some_
  obtain ⟨announced, known⟩ := isSome_iff_exists.mp known
  have counted := counting.slaves s member announced known
  have inside : s.link.received - 1 < s.offsets.length := by
    have := counted.sent
    have := counted.received
    omega
  rw [counted.offsets, counted.loaded loaded, getElem?_map, getElem?_range inside, map_some]
  congr 1
  omega

theorem Counted.feed (counted : Counted offset announced s) (item : Item) :
    Counted (offset + item.text.length) announced { s with stream := s.stream ++ [⟨item, offset⟩] } := by
  have grown : Slave.offsets { s with stream := s.stream ++ [⟨item, offset⟩] } = s.offsets ++ Piece.offsets ⟨item, offset⟩ := by
    simp [Slave.offsets]
  have size : (Piece.offsets ⟨item, offset⟩).length = item.text.length := by simp [Piece.offsets]
  refine ⟨counted.initial, ?_, ?_, ?_, counted.received, counted.unloaded, counted.loaded⟩
  · rw [grown, length_append, size, range_add, map_append, ← counted.offsets, List.map_map]
    congr 1
    apply map_congr_left
    intro i _
    simp only [Function.comp, ← counted.last]
    push_cast
    omega
  · rw [grown, length_append, size, ← counted.last]
    push_cast
    omega
  · rw [grown, length_append]
    exact Nat.le_add_right_of_le counted.sent

theorem Counting.feedItem (counting : Counting m) {item : Item} {fed : Slave D → Bool}
    (all : ∀ s ∈ m.slaves, s.announced.isSome = true → fed s = true) : Counting (feedItem m item fed) := by
  refine ⟨?_, fun some_ => ?_, fun after member announced known => ?_⟩
  · have := counting.positive
    simp only [FullResync.feedItem]
    split <;> omega
  · apply counting.backlog
    rintro none
    apply some_
    simp [FullResync.feedItem, none]
  · obtain ⟨s, present, rfl⟩ := List.mem_map.mp member
    have same : s.announced = some announced := by
      split at known <;> exact known
    have backlog : m.replBacklog = true := counting.backlog (ne_nil_of_mem present)
    simp only [FullResync.feedItem, backlog, all s present (by rw [same]; rfl), if_true]
    exact (counting.slaves s present announced same).feed item

theorem Counting.replicationFeedSlaves (counting : Counting m) (dictid : Int) (item : Item)
    (aligned : ∀ s ∈ m.slaves, s.waits = true → s.announced = none) : Counting (replicationFeedSlaves m dictid item) := by
  unfold FullResync.replicationFeedSlaves
  split
  next => exact counting
  next =>
    have settled : ∀ s ∈ m.slaves, s.announced.isSome = true → (!s.waits) = true := by
      intro s member known
      cases waits : s.waits with
      | false => rfl
      | true =>
        rw [aligned s member waits] at known
        cases known
    split
    next =>
      have selected : Counting (FullResync.feedItem m (.select dictid.toNat) fun _ => true) := counting.feedItem fun _ _ _ => rfl
      have plain : Counting { FullResync.feedItem m (.select dictid.toNat) fun _ => true with slaveseldb := dictid } :=
        ⟨selected.positive, selected.backlog, selected.slaves⟩
      apply plain.feedItem
      intro after member known
      obtain ⟨s, present, rfl⟩ := List.mem_map.mp member
      exact settled s present known
    next =>
      have plain : Counting { m with slaveseldb := dictid } := ⟨counting.positive, counting.backlog, counting.slaves⟩
      exact plain.feedItem settled

def SameStream (after s : Slave D) : Prop := after.announced = s.announced ∧ after.stream = s.stream ∧ after.link = s.link

structure Kept (m after : Master D) : Prop where
  offset : after.masterReplOffset = m.masterReplOffset
  backlog : after.replBacklog = m.replBacklog
  slaves : ∀ s ∈ after.slaves, ∃ old ∈ m.slaves, SameStream s old

theorem Kept.refl (m : Master D) : Kept m m := ⟨rfl, rfl, fun s member => ⟨s, member, rfl, rfl, rfl⟩⟩

theorem Kept.trans {middle after : Master D} (first : Kept m middle) (second : Kept middle after) : Kept m after := by
  refine ⟨second.offset.trans first.offset, second.backlog.trans first.backlog, fun s member => ?_⟩
  obtain ⟨between, present, announced, stream, link⟩ := second.slaves s member
  obtain ⟨old, origin, announced', stream', link'⟩ := first.slaves between present
  exact ⟨old, origin, announced.trans announced', stream.trans stream', link.trans link'⟩

theorem Counting.kept {after : Master D} (counting : Counting m) (kept : Kept m after) : Counting after := by
  refine ⟨?_, fun some_ => ?_, fun s member announced known => ?_⟩
  · rw [kept.offset]
    exact counting.positive
  · obtain ⟨s, member⟩ := exists_mem_of_ne_nil _ some_
    obtain ⟨old, present, -⟩ := kept.slaves s member
    rw [kept.backlog]
    exact counting.backlog (ne_nil_of_mem present)
  · obtain ⟨old, present, same, stream, link⟩ := kept.slaves s member
    have counted := counting.slaves old present announced (same.symm.trans known)
    have offsets : s.offsets = old.offsets := by rw [Slave.offsets, stream, Slave.offsets]
    rw [kept.offset]
    refine ⟨?_, ?_, ?_, ?_, ?_, ?_, ?_⟩
    · rw [link]
      exact counted.initial
    · rw [offsets]
      exact counted.offsets
    · rw [offsets]
      exact counted.last
    · rw [offsets, link]
      exact counted.sent
    · rw [link]
      exact counted.received
    · rw [link]
      exact counted.unloaded
    · rw [link]
      exact counted.loaded

theorem begun_same (s : Slave D) : SameStream (begun s) s := by
  unfold begun
  split <;> exact ⟨rfl, rfl, rfl⟩

section
variable (m)

theorem kept_map {f : Slave D → Slave D} (same : ∀ s, SameStream (f s) s) : Kept m { m with slaves := m.slaves.map f } := by
  refine ⟨rfl, rfl, fun after member => ?_⟩
  obtain ⟨s, present, rfl⟩ := List.mem_map.mp member
  exact ⟨s, present, same s⟩

theorem kept_filterMap {f : Slave D → Option (Slave D)} (same : ∀ s after, f s = some after → SameStream after s) :
    Kept m { m with slaves := m.slaves.filterMap f } := by
  refine ⟨rfl, rfl, fun after member => ?_⟩
  obtain ⟨s, present, result⟩ := mem_filterMap.mp member
  exact ⟨s, present, same s after result⟩

theorem kept_filter (p : Slave D → Bool) : Kept m { m with slaves := m.slaves.filter p } :=
  ⟨rfl, rfl, fun s member => ⟨s, (mem_filter.mp member).1, rfl, rfl, rfl⟩⟩

end

theorem Kept.child {after : Master D} (kept : Kept m after) (child : Option (Child D)) (rdbFile : Option D)
    (diskless : Bool) :
    Kept m { after with child := child, rdbFile := rdbFile, replDisklessSync := diskless } :=
  ⟨kept.offset, kept.backlog, kept.slaves⟩

section
variable (m)

theorem rdbSaveBackground_kept (forks : Bool) : Kept m (rdbSaveBackground m forks).1 := by
  unfold rdbSaveBackground
  split
  · exact .refl m
  · exact (Kept.refl m).child _ _ _

theorem startBgsaveForReplication_kept (pipes forks : Bool) : Kept m (startBgsaveForReplication m pipes forks).1 := by
  unfold startBgsaveForReplication
  split
  next =>
    unfold rdbSaveToSlavesSockets
    split
    next => exact .refl m
    next =>
      simp only
      split
      · exact (kept_map m begun_same).child _ _ _
      · exact kept_map m begun_same
  next => exact rdbSaveBackground_kept m forks

theorem updateSlave_same {type : ChildType} {ok : Bool} {opens : Nat → Bool} {rdbFile : Option D} (s after : Slave D)
    (updated : updateSlave type ok opens rdbFile s = some after) : SameStream after s := by
  unfold updateSlave at updated
  split at updated
  next =>
    cases updated
    exact ⟨rfl, rfl, rfl⟩
  next =>
    split at updated
    next =>
      cases updated
      exact ⟨rfl, rfl, rfl⟩
    next =>
      rw [ite_none_right_eq_some] at updated
      obtain ⟨file, -, rfl⟩ := map_eq_some_iff.mp updated.2
      exact ⟨rfl, rfl, rfl⟩
  next =>
    cases updated
    exact ⟨rfl, rfl, rfl⟩

theorem updateSlavesWaitingBgsave_kept (type : ChildType) (ok : Bool) (opens : Nat → Bool) (pipes forks : Bool) :
    Kept m (updateSlavesWaitingBgsave m type ok opens pipes forks) := by
  have updated := kept_filterMap m (@updateSlave_same _ type ok opens m.rdbFile)
  unfold updateSlavesWaitingBgsave
  simp only
  split
  next =>
    have started := updated.trans (startBgsaveForReplication_kept _ pipes forks)
    split
    · exact started
    · exact started.trans (kept_filter _ _)
  next => exact updated

theorem transferred_same {child : Child D} {exit : ChildExit} (s after : Slave D) (result : transferred child exit s = some after) :
    SameStream after s := by
  unfold transferred at result
  split at result
  next =>
    rw [ite_none_right_eq_some] at result
    obtain rfl := some.inj result.2
    exact ⟨rfl, rfl, rfl⟩
  next =>
    cases result
    exact ⟨rfl, rfl, rfl⟩

theorem backgroundSaveDoneHandler_kept (opens : Nat → Bool) (pipes forks : Bool) : Kept m (backgroundSaveDoneHandler m opens pipes forks) := by
  unfold backgroundSaveDoneHandler
  split
  next => exact .refl m
  next child _ =>
    split
    next => exact .refl m
    next exit _ =>
      have reaped : Kept m { m with child := none } := (Kept.refl m).child none m.rdbFile m.replDisklessSync
      simp only
      split
      · exact reaped.trans (updateSlavesWaitingBgsave_kept _ _ _ _ _ _)
      · exact (reaped.trans (kept_filterMap _ (@transferred_same _ child exit))).trans (updateSlavesWaitingBgsave_kept _ _ _ _ _ _)

theorem childExit_kept (exit : ChildExit) : Kept m (childExit m exit) := by
  unfold childExit
  split
  next => exact .refl m
  next =>
    split
    · exact .refl m
    · exact (Kept.refl m).child _ _ _

theorem replicationCron_kept (aofChild pipes forks : Bool) : Kept m (replicationCron m aofChild pipes forks) := by
  unfold replicationCron
  split
  next =>
    have started := startBgsaveForReplication_kept m pipes forks
    simp only
    split
    · exact started.trans (kept_map _ begun_same)
    · exact started
  next => exact .refl m

end

theorem Counting.update (counting : Counting m) (id : Nat) {f : Slave D → Slave D} (known : ∀ s, (f s).announced = s.announced)
    (counted : ∀ s offset announced, Counted offset announced s → Counted offset announced (f s)) : Counting (m.update id f) := by
  refine ⟨counting.positive, fun some_ => ?_, fun after member announced same => ?_⟩
  · apply counting.backlog
    rintro none
    apply some_
    simp [Master.update, none]
  · obtain ⟨s, present, rfl⟩ := List.mem_map.mp member
    split at same
    next here =>
      rw [known] at same
      rw [if_pos here]
      exact counted s _ announced (counting.slaves s present announced same)
    next other =>
      rw [if_neg other]
      exact counting.slaves s present announced same

section
variable (counted : Counted offset announced s)
include counted

theorem Counted.load : Counted offset announced (loadPayload s) := by
  unfold loadPayload
  split
  next loading =>
    have unloaded : s.link.loaded = false := by
      simp only [Bool.and_eq_true, Bool.not_eq_true'] at loading
      exact loading.2
    refine ⟨counted.initial, counted.offsets, counted.last, counted.sent, counted.received, (fun loaded => by cases loaded), fun _ => ?_⟩
    simp only [counted.unloaded unloaded, counted.initial]
    omega
  next => exact counted

theorem Counted.write (n : Nat) : Counted offset announced (writeToSlave n s) := by
  unfold writeToSlave
  split
  next =>
    refine ⟨counted.initial, counted.offsets, counted.last, ?_, ?_, counted.unloaded, counted.loaded⟩
    · exact Nat.min_le_right _ _
    · have received := counted.received
      have sent := counted.sent
      simp only
      omega
  next => exact counted

theorem Counted.read (n : Nat) : Counted offset announced (readFromMaster n s) := by
  unfold readFromMaster
  simp only
  split
  next loaded =>
    refine ⟨counted.initial, counted.offsets, counted.last, counted.sent, ?_, fun unloaded => ?_, fun _ => ?_⟩
    · have received := counted.received
      simp only
      omega
    · rw [loaded] at unloaded
      cases unloaded
    · simp only [counted.loaded loaded]
      push_cast
      omega
  next => exact counted

end

def attachOffset (m : Master D) : Int := if m.replBacklog then m.masterReplOffset else m.masterReplOffset + 1

section
variable (counting : Counting m)
include counting

theorem Counting.attach {c : Slave D}
    (counted : ∀ announced, c.announced = some announced → Counted (attachOffset m) announced c) : Counting (attach m c) := by
  rw [attach_eq counting.backlog]
  refine ⟨?_, fun _ => rfl, fun s member announced known => ?_⟩
  · have := counting.positive
    simp only
    split <;> omega
  · rcases mem_append.mp member with before | last
    · rw [counting.backlog (ne_nil_of_mem before)]
      exact counting.slaves s before announced known
    · obtain rfl := mem_singleton.mp last
      exact counted announced known

theorem newSlave_counted (valid : IsRunid runid) {id : Nat} {psync : Bool}
    (bound : psync = true → m.masterReplOffset + 1 < 2 ^ 63) {stream : List Piece}
    (fresh : psync = true → stream = []) (state : ReplState) (announced : Int)
    (known : (newSlave m runid id psync).announced = some announced) :
    Counted (attachOffset m) announced { newSlave m runid id psync with stream := stream, replstate := state } := by
  cases psync with
  | false => cases known
  | true =>
    obtain rfl := fresh rfl
    obtain rfl : attachOffset m = announced := some.inj known
    have range : 0 ≤ attachOffset m ∧ attachOffset m < 2 ^ 63 := by
      have := counting.positive
      have := bound rfl
      unfold attachOffset
      split <;> omega
    obtain ⟨offset, same⟩ := Int.eq_ofNat_of_zero_le range.1
    refine ⟨?_, rfl, by simp [Slave.offsets], Nat.zero_le _, Nat.zero_le _, fun _ => rfl, fun loaded => by cases loaded⟩
    change slaveTryPartialResynchronization (fullresyncLine runid (attachOffset m)) = attachOffset m
    rw [same] at range ⊢
    exact slaveTryPartialResynchronization_fullresync valid (by omega)

theorem Counting.sync (valid : IsRunid runid) {id : Nat} {psync forks : Bool}
    (aligned : Event.Aligned m (.sync id psync forks)) : Counting (syncCommand m runid id psync forks) := by
  have bound : psync = true → m.masterReplOffset + 1 < 2 ^ 63 := fun psync => (aligned psync).1
  have waiting : Counting (FullResync.attach m (newSlave m runid id psync)) :=
    counting.attach (newSlave_counted counting valid bound (fun _ => rfl) .waitBgsaveStart)
  unfold syncCommand
  split
  next => exact counting
  next =>
    simp only
    split
    next child current =>
      split
      next disk =>
        split
        next slave found =>
          apply counting.attach
          apply newSlave_counted counting valid bound
          exact fun psync => (aligned psync).2 child current disk slave found
        next => exact waiting
      next => exact waiting
    next =>
      split
      next => exact waiting
      next target =>
        have target : m.replDisklessSync = false := by simpa using target
        simp only [startBgsaveForReplication, target, Bool.false_eq_true, if_false]
        unfold rdbSaveBackground
        split
        next => exact counting
        next =>
          have forked : Counting { m with child := some ⟨.disk, m.data, [], none⟩ } :=
            counting.kept ((Kept.refl m).child _ m.rdbFile m.replDisklessSync)
          exact forked.attach (newSlave_counted forked valid bound (fun _ => rfl) .waitBgsaveEnd)

theorem Counting.run (command : Nat × Argv) : Counting (run execute m command) := ⟨counting.positive, counting.backlog, counting.slaves⟩

theorem Counting.step (valid : IsRunid runid) {event : Event} (aligned : event.Aligned m) : Counting (step execute runid m event) := by
  cases event with
  | sync id psync forks => exact counting.sync valid aligned
  | continued id =>
    simp only [FullResync.step]
    split
    next fresh =>
      refine ⟨counting.positive, fun _ => (Bool.and_eq_true_iff.mp fresh).1, fun s member announced known => ?_⟩
      rcases mem_append.mp member with before | last
      · exact counting.slaves s before announced known
      · obtain rfl := mem_singleton.mp last
        cases known
    next => exact counting
  | command dictid argv => exact (counting.run (dictid, argv)).replicationFeedSlaves dictid (.command argv) aligned
  | flushall dictid argv saved =>
    have killed := childExit_kept (FullResync.run execute m (dictid, argv)) ⟨false, fun _ => false⟩
    have same : (FullResync.childExit (FullResync.run execute m (dictid, argv)) ⟨false, fun _ => false⟩).slaves = m.slaves := by
      unfold FullResync.childExit
      split
      · rfl
      · split <;> rfl
    have saved_ : Counting (if saved then
        { FullResync.childExit (FullResync.run execute m (dictid, argv)) ⟨false, fun _ => false⟩ with
          rdbFile := some (FullResync.childExit (FullResync.run execute m (dictid, argv)) ⟨false, fun _ => false⟩).data }
        else FullResync.childExit (FullResync.run execute m (dictid, argv)) ⟨false, fun _ => false⟩) := by
      split
      · exact (counting.run (dictid, argv)).kept (killed.child _ _ _)
      · exact (counting.run (dictid, argv)).kept killed
    apply saved_.replicationFeedSlaves
    intro s member
    split at member
    · exact aligned s (same ▸ member)
    · exact aligned s (same ▸ member)
  | service argv => exact counting.replicationFeedSlaves m.slaveseldb (.service argv) aligned
  | bgsave forks => exact counting.kept (rdbSaveBackground_kept m forks)
  | childExit exit => exact counting.kept (childExit_kept m exit)
  | childDone opens pipes forks => exact counting.kept (backgroundSaveDoneHandler_kept m opens pipes forks)
  | cron aofChild pipes forks => exact counting.kept (replicationCron_kept m aofChild pipes forks)
  | bulkSent id =>
    apply counting.kept
    apply kept_map
    intro s
    split
    · unfold putSlaveOnline
      split <;> exact ⟨rfl, rfl, rfl⟩
    · exact ⟨rfl, rfl, rfl⟩
  | ack id =>
    apply counting.kept
    apply kept_map
    intro s
    split
    · simp only
      split <;> exact ⟨rfl, rfl, rfl⟩
    · exact ⟨rfl, rfl, rfl⟩
  | loaded id =>
    apply counting.update id
    · intro s
      unfold loadPayload
      split <;> rfl
    · exact fun _ _ _ counted => counted.load
  | write id n =>
    apply counting.update id
    · intro s
      unfold writeToSlave
      split <;> rfl
    · exact fun _ _ _ counted => counted.write n
  | read id n =>
    apply counting.update id
    · intro s
      unfold readFromMaster
      simp only
      split <;> rfl
    · exact fun _ _ _ counted => counted.read n
  | freeClient id => exact counting.kept (kept_filter m _)
  | freeReplicationBacklog =>
    simp only [FullResync.step]
    split
    next none => exact ⟨counting.positive, fun some_ => absurd (List.isEmpty_iff.mp none) some_, counting.slaves⟩
    next => exact counting
  | configDiskless value => exact ⟨counting.positive, counting.backlog, counting.slaves⟩

theorem Counting.runEvents (valid : IsRunid runid) {events : List Event}
    (aligned : Meets execute runid Event.Aligned m events) : Counting (runEvents execute runid m events) := by
  induction events generalizing m with
  | nil => exact counting
  | cons event events ih =>
    obtain ⟨here, later⟩ := aligned
    exact ih (counting.step valid here) later

end

/-- The offset of a slave is that of the master when nothing is fed between the announcement of the
offset and the snapshot. -/
theorem replication_offsets_agree (execute : D → Nat × Argv → D) {runid : List UInt8} (valid : IsRunid runid) (data : D)
    (diskless : Bool) (events : List Event) (aligned : Meets execute runid Event.Aligned (Master.start data diskless) events) :
    OffsetsAgree (runEvents execute runid (Master.start data diskless) events) := by
  have start : Counting (Master.start data diskless) :=
    ⟨Int.le_refl 0, fun some_ => absurd rfl some_, fun _ member => by cases member⟩
  exact (start.runEvents valid aligned).agree

/-- The slave attaches, the snapshot is sent and loaded, and a command follows. -/
theorem replication_offsets_agree_one :
    let execute : Nat → Nat × Argv → Nat := fun n _ => n + 1
    let events : List Event :=
      [.sync 1 true true, .childExit ⟨true, fun _ => true⟩, .childDone (fun _ => true) true true, .bulkSent 1, .loaded 1,
        .command 0 [[73]], .write 1 20, .read 1 9]
    OffsetsAgree (runEvents execute (replicate 40 48) (Master.start 0 false) events) := by
  refine replication_offsets_agree _ ⟨rfl, fun c member => by simp [eq_of_mem_replicate member, hexCharset]⟩ 0 false _
    ⟨fun _ => ⟨by decide, fun _ current => by cases current⟩, trivial, trivial, trivial, trivial, ?_, trivial, trivial, trivial⟩
  intro s member waits
  obtain rfl := mem_singleton.mp member
  cases waits

/-- The second client copies the output buffer of the first, but the offset that is announced to it
is the one after these bytes. -/
theorem copied_buffer_shifts_offset :
    let execute : Nat → Nat × Argv → Nat := fun n _ => n + 1
    let events : List Event :=
      [.sync 1 true true, .command 0 [[73]], .sync 2 true true, .childExit ⟨true, fun _ => true⟩,
        .childDone (fun _ => true) true true, .bulkSent 2, .loaded 2, .write 2 1, .read 2 1]
    ¬ OffsetsAgree (runEvents execute (replicate 40 48) (Master.start 0 false) events) := by
  intro execute events agree
  have second : ∃ s ∈ (runEvents execute (replicate 40 48) (Master.start 0 false) events).slaves,
      s.full = true ∧ s.announced.isSome = true ∧ s.link.loaded = true ∧ 0 < s.link.received ∧
        s.offsets[s.link.received - 1]? ≠ some s.link.reploff := by decide +kernel
  obtain ⟨s, member, full, announced, loaded, received, other⟩ := second
  exact other (agree s member full announced loaded received)

end Cplusplus.Redis.FullResync
