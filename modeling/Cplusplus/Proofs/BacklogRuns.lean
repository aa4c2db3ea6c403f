import Cplusplus.ReplicationBacklog

/-! The backlog holds the newest bytes of the replication stream: after any creations, resizes,
frees and feeds, a partial resynchronization is accepted for the offsets whose bytes are all still
stored, and it sends exactly these bytes. -/

namespace Cplusplus.Redis.Replication

open List Option
open Cplusplus.Redis.CheckAof (strcasecmp)
open Cplusplus.Redis.ReadOnlySlave (getLongFromObject)

variable {s : Backlog} {block : List (Option UInt8)} {stream : Stream}

structure Allocated (s : Backlog) (block : List (Option UInt8)) : Prop where
  present : s.replBacklog = some block
  length : block.length = s.replBacklogSize
  idx : s.replBacklogIdx < s.replBacklogSize

structure Fed (before after : Backlog) (block : List (Option UInt8)) (p : List UInt8) : Prop where
  size : after.replBacklogSize = before.replBacklogSize
  master : after.masterReplOffset = before.masterReplOffset
  histlen : after.replBacklogHistlen = before.replBacklogHistlen + p.length
  ring : ∃ written, Allocated after written ∧
    written.rotate after.replBacklogIdx = (block.rotate before.replBacklogIdx ++ p.map some).drop p.length

def feedTurn (s : Backlog) (written : List (Option UInt8)) (thislen : Nat) : Backlog :=
  { s with
    replBacklog := some written
    replBacklogIdx := if s.replBacklogIdx + thislen = s.replBacklogSize then 0 else s.replBacklogIdx + thislen
    replBacklogHistlen := s.replBacklogHistlen + thislen }

theorem feedTurn_spec {written : List (Option UInt8)} {p : List UInt8} (allocated : Allocated s block)
    (fits : s.replBacklogIdx + p.length ≤ s.replBacklogSize) (wrote : Ring.writeAt block s.replBacklogIdx (p.map some) = some written) :
    Fed s (feedTurn s written p.length) block p := by
  have length : written.length = s.replBacklogSize := (Ring.writeAt_length wrote).trans allocated.length
  have ring := Ring.writeAt_rotate wrote
  rw [length_map] at ring
  refine ⟨rfl, rfl, rfl, written, ⟨rfl, length, ?_⟩, ?_⟩
  · have inside := allocated.idx
    simp only [feedTurn]
    split
    next => omega
    next => omega
  · have short : p.length ≤ (block.rotate s.replBacklogIdx).length := by
      rw [length_rotate, allocated.length]
      omega
    rw [drop_append_of_le_length short, ← ring]
    simp only [feedTurn]
    split
    next wraps => rw [wraps, ← length, rotate_length, rotate_zero]
    next => rfl

theorem Fed.trans {first middle last : Backlog} {between : List (Option UInt8)} {p q : List UInt8} (one : Fed first middle block p)
    (same : between.rotate middle.replBacklogIdx = (block.rotate first.replBacklogIdx ++ p.map some).drop p.length)
    (two : Fed middle last between q) : Fed first last block (p ++ q) := by
  obtain ⟨written, kept, ring⟩ := two.ring
  refine ⟨two.size.trans one.size, two.master.trans one.master, ?_, written, kept, ?_⟩
  · rw [two.histlen, one.histlen, length_append, Nat.add_assoc]
  · have room : p.length ≤ (block.rotate first.replBacklogIdx ++ p.map some).length := by
      rw [length_append, length_map]
      omega
    rw [ring, same, ← drop_append_of_le_length room, drop_drop, append_assoc, map_append, length_append]

theorem feedLoop_spec (fuel : Nat) {p : List UInt8} (allocated : Allocated s block) (enough : p.length ≤ fuel) :
    ∃ after, feedLoop fuel s p = some after ∧ Fed s after block p := by
  induction fuel generalizing s block p with
  | zero =>
    obtain rfl : p = [] := eq_nil_of_length_eq_zero (by omega)
    exact ⟨s, rfl, rfl, rfl, rfl, block, allocated, by simp⟩
  | succ fuel ih =>
    cases p with
    | nil => exact ⟨s, rfl, rfl, rfl, rfl, block, allocated, by simp⟩
    | cons c p =>
      have idx := allocated.idx
      let thislen := min (s.replBacklogSize - s.replBacklogIdx) (c :: p).length
      have positive : 0 < thislen := by
        simp only [thislen, length_cons]
        omega
      have taken : ((c :: p).take thislen).length = thislen := by
        rw [length_take]
        exact Nat.min_eq_left (Nat.min_le_right _ _)
      have fits : s.replBacklogIdx + ((c :: p).take thislen).length ≤ s.replBacklogSize := by
        rw [taken]
        omega
      have wrote := @Ring.writeAt_eq _ block (((c :: p).take thislen).map some) s.replBacklogIdx
        (by rw [length_map, allocated.length]; exact fits)
      have one := feedTurn_spec allocated fits wrote
      rw [taken] at one
      obtain ⟨between, kept, ring⟩ := one.ring
      obtain ⟨after, looped, two⟩ := ih (p := (c :: p).drop thislen) kept (by
        rw [length_drop]
        simp only [length_cons] at enough ⊢
        omega)
      refine ⟨after, ?_, ?_⟩
      · simp only [feedLoop, allocated.present, bind_some]
        exact (congrArg (Option.bind · _) wrote).trans looped
      · have whole := one.trans ring two
        rwa [take_append_drop] at whole

theorem replyLoop_fits {fuel j len : Nat} (enough : len ≤ fuel) (fits : j + len ≤ block.length) :
    replyLoop block block.length fuel j len = some ((block.drop j).take len) := by
  cases len with
  | zero => simp [replyLoop]
  | succ len =>
    obtain ⟨fuel, rfl⟩ : ∃ rest, fuel = rest + 1 := ⟨fuel - 1, by omega⟩
    have whole : ¬ block.length - j < len + 1 := by omega
    simp only [replyLoop, if_neg whole, Ring.readAt_eq fits, bind_some, Nat.sub_self, map_some, append_nil]

theorem replyLoop_wraps {fuel j len : Nat} (enough : len ≤ fuel) (inside : j < block.length)
    (across : block.length - j < len) (bound : len ≤ block.length) :
    replyLoop block block.length fuel j len = some (block.drop j ++ block.take (len - (block.length - j))) := by
  obtain ⟨len, rfl⟩ : ∃ rest, len = rest + 1 := ⟨len - 1, by omega⟩
  obtain ⟨fuel, rfl⟩ : ∃ rest, fuel = rest + 1 := ⟨fuel - 1, by omega⟩
  have first := @Ring.readAt_eq _ block j (block.length - j) (by omega)
  have second := @replyLoop_fits block fuel 0 (len + 1 - (block.length - j)) (by omega) (by omega)
  have rest : (block.drop j).take (block.length - j) = block.drop j := take_of_length_le (by rw [length_drop])
  simp only [replyLoop, if_pos across, first, bind_some, second, map_some, rest, drop_zero]

/-- The indexes that `addReplyReplicationBacklog` computes lead to the newest part of the ring. -/
theorem replyLoop_spec {idx k : Nat} (inside : idx < block.length) (bound : k ≤ block.length) :
    replyLoop block block.length (block.length - k) ((idx + k) % block.length) (block.length - k) = some ((block.rotate idx).drop k) := by
  rcases Nat.lt_or_ge (idx + k) block.length with early | late
  · rw [Nat.mod_eq_of_lt early, Ring.rotate_drop_across (Nat.le_of_lt early)]
    rcases Nat.eq_zero_or_pos idx with rfl | positive
    · rw [replyLoop_fits (Nat.le_refl _) (by omega), take_of_length_le (by rw [length_drop]; omega)]
      simp
    · rw [replyLoop_wraps (Nat.le_refl _) early (by omega) (by omega)]
      have start : block.length - k - (block.length - (idx + k)) = idx := by omega
      rw [start]
  · have index : (idx + k) % block.length = idx + k - block.length := by
      rw [Nat.mod_eq_sub_mod late, Nat.mod_eq_of_lt (by omega)]
    rw [index, Ring.rotate_drop_before (Nat.le_of_lt inside) late bound, replyLoop_fits (Nat.le_refl _) (by omega)]

structure Holds (s : Backlog) (stream : Stream) (block : List (Option UInt8)) : Prop where
  allocated : Allocated s block
  early : stream.allocated ≤ stream.bytes.length
  histlen : s.replBacklogHistlen = min (stream.bytes.length - stream.allocated) s.replBacklogSize
  off : s.replBacklogOff = s.masterReplOffset - s.replBacklogHistlen + 1
  ring : Ring.newest s.replBacklogHistlen (block.rotate s.replBacklogIdx) = Ring.newest s.replBacklogHistlen stream.bytes
  written : ∀ cell ∈ stream.bytes.drop stream.allocated, cell.isSome = true

structure Follows (s : Backlog) (stream : Stream) : Prop where
  master : s.masterReplOffset = stream.last
  size : replBacklogMinSize ≤ s.replBacklogSize
  holds : ∀ block, s.replBacklog = some block → Holds s stream block

def Stream.record (stream : Stream) (s : Backlog) : BacklogAction → Stream
  | .create => { stream with bytes := stream.bytes ++ [none], allocated := stream.bytes.length + 1 }
  | .resize newsize =>
    if (resizeReplicationBacklog s newsize).replBacklogSize = s.replBacklogSize then stream
    else { stream with allocated := stream.bytes.length }
  | .free _ => stream
  | .feed p => { stream with bytes := stream.bytes ++ p.map some }

theorem holds_fresh (size : 0 < s.replBacklogSize) (present : s.replBacklog = some (freshBlock s.replBacklogSize))
    (idx : s.replBacklogIdx = 0) (histlen : s.replBacklogHistlen = 0) (off : s.replBacklogOff = s.masterReplOffset + 1)
    (allocated : stream.allocated = stream.bytes.length) : Holds s stream (freshBlock s.replBacklogSize) := by
  refine ⟨⟨present, by simp [freshBlock], by omega⟩, by omega, by omega, ?_, ?_, ?_⟩
  · rw [off, histlen]
    simp
  · rw [histlen]
    simp [Ring.newest]
  · simp [allocated]

theorem create_follows {after : Backlog} (follows : Follows s stream)
    (created : createReplicationBacklog s = some after) : Follows after (stream.record s .create) := by
  have size := follows.size
  unfold createReplicationBacklog at created
  split at created
  next => cases created
  next =>
    cases created
    refine ⟨?_, size, ?_⟩
    · have master := follows.master
      simp only [Stream.last, Stream.record, length_append, length_singleton] at master ⊢
      omega
    · intro block present
      cases present
      apply holds_fresh
      all_goals first | rfl | exact Nat.lt_of_lt_of_le (by decide) size | simp [Stream.record]

theorem resize_cases (s : Backlog) (newsize : Int) : ∃ size, replBacklogMinSize ≤ size ∧
      ((s.replBacklogSize = size ∧ resizeReplicationBacklog s newsize = s) ∨ (s.replBacklogSize ≠ size ∧ s.replBacklog = none ∧
          resizeReplicationBacklog s newsize = { s with replBacklogSize := size }) ∨
        (s.replBacklogSize ≠ size ∧ resizeReplicationBacklog s newsize = { s with
              replBacklogSize := size
              replBacklog := some (freshBlock size)
              replBacklogHistlen := 0
              replBacklogIdx := 0
              replBacklogOff := s.masterReplOffset + 1 })) := by
  refine ⟨if newsize < replBacklogMinSize then replBacklogMinSize else newsize.toNat, by split <;> omega, ?_⟩
  simp only [resizeReplicationBacklog]
  generalize (if newsize < replBacklogMinSize then replBacklogMinSize else newsize.toNat) = size
  by_cases same : s.replBacklogSize = size
  · exact .inl ⟨same, if_pos same⟩
  · rw [if_neg same]
    cases present : s.replBacklog with
    | none => exact .inr (.inl ⟨same, rfl, by simp only⟩)
    | some old => exact .inr (.inr ⟨same, rfl⟩)

theorem resize_follows (newsize : Int) (follows : Follows s stream) :
    Follows (resizeReplicationBacklog s newsize) (stream.record s (.resize newsize)) := by
  obtain ⟨size, large, ⟨same, resized⟩ | ⟨differs, missing, resized⟩ | ⟨differs, resized⟩⟩ := resize_cases s newsize
  · simpa only [Stream.record, resized, if_true] using follows
  · simp only [Stream.record, resized, if_neg (Ne.symm differs)]
    refine ⟨follows.master, large, fun block impossible => ?_⟩
    rw [missing] at impossible
    cases impossible
  · simp only [Stream.record, resized, if_neg (Ne.symm differs)]
    refine ⟨follows.master, large, fun block allocated => ?_⟩
    cases allocated
    apply holds_fresh
    all_goals first | rfl | exact Nat.lt_of_lt_of_le (by decide) large

theorem free_follows {after : Backlog} {slaves : Nat} (follows : Follows s stream)
    (freed : freeReplicationBacklog s slaves = some after) : Follows after (stream.record s (.free slaves)) := by
  unfold freeReplicationBacklog at freed
  split at freed
  next =>
    cases freed
    exact ⟨follows.master, follows.size, fun block present => by cases present⟩
  next => cases freed

/-- The newest cells of the ring stay those of the stream when bytes are appended to both. -/
theorem feed_ring {ring new : List (Option UInt8)} {bytes p : List (Option UInt8)} {size histlen : Nat} (length : ring.length = size)
    (bound : histlen ≤ size) (enough : histlen ≤ bytes.length) (same : Ring.newest histlen ring = Ring.newest histlen bytes)
    (fed : new = (ring ++ p).drop p.length) :
    Ring.newest (min (histlen + p.length) size) new = Ring.newest (min (histlen + p.length) size) (bytes ++ p) := by
  have last : new = Ring.newest size (ring ++ p) := by
    rw [fed, Ring.newest, length_append, length]
    congr 1
    omega
  rw [last, Ring.newest_newest (Nat.min_le_right _ _) (by rw [length_append]; omega)]
  exact Ring.newest_append_congr same (by omega) enough (Nat.min_le_left _ _)

theorem feed_follows (p : List UInt8) (follows : Follows s stream) (present : s.replBacklog = some block) :
    ∃ after, feedReplicationBacklog s p = some after ∧ Follows after (stream.record s (.feed p)) ∧ after.replBacklog.isSome = true := by
  have master := follows.master
  obtain ⟨allocated, early, histlen, off, ring, written⟩ := follows.holds block present
  obtain ⟨after, looped, fed⟩ := feedLoop_spec p.length
    (s := { s with masterReplOffset := s.masterReplOffset + p.length }) (p := p) ⟨present, allocated.length, allocated.idx⟩
    (Nat.le_refl _)
  obtain ⟨block', kept, newRing⟩ := fed.ring
  have size : after.replBacklogSize = s.replBacklogSize := fed.size
  have moved : after.masterReplOffset = s.masterReplOffset + p.length := fed.master
  have grown : after.replBacklogHistlen = s.replBacklogHistlen + p.length := fed.histlen
  have appended : (stream.bytes ++ p.map some).length = stream.bytes.length + p.length := by
    rw [length_append, length_map]
  refine ⟨_, by rw [feedReplicationBacklog, looped, map_some], ⟨?_, ?_, ?_⟩, by simp [kept.present]⟩
  · simp only [Stream.last, Stream.record, appended] at master ⊢
    omega
  · simpa only [size] using follows.size
  · intro other same
    obtain rfl : block' = other := some.inj (kept.present.symm.trans same)
    refine ⟨⟨same, kept.length, kept.idx⟩, ?_, ?_, rfl, ?_, ?_⟩
    · simp only [Stream.record, appended]
      omega
    · simp only [Stream.record, appended, size, grown]
      omega
    · have lengths : ((p.map some : List (Option UInt8))).length = p.length := length_map _
      have tail := @feed_ring _ (block'.rotate after.replBacklogIdx) _ (p.map some) _ _
        (by rw [length_rotate, allocated.length]) (by omega) (by omega) ring (by rw [lengths]; exact newRing)
      rw [lengths] at tail
      simpa only [Stream.record, size, grown] using tail
    · intro cell member
      simp only [Stream.record, drop_append_of_le_length early, mem_append, List.mem_map] at member
      obtain old | ⟨byte, -, rfl⟩ := member
      · exact written cell old
      · rfl

theorem mapM_written {cells : List (Option UInt8)} (written : ∀ cell ∈ cells, cell.isSome = true) :
    ∃ sent : List UInt8, cells.mapM id = some sent ∧ sent.map some = cells := by
  induction cells with
  | nil => exact ⟨[], rfl, rfl⟩
  | cons cell cells ih =>
    obtain ⟨sent, collected, same⟩ := ih fun other member => written other (mem_cons_of_mem _ member)
    obtain ⟨byte, rfl⟩ := isSome_iff_exists.mp (written cell mem_cons_self)
    exact ⟨byte :: sent, by simp [collected], by rw [map_cons, same]⟩

theorem addReply_sends {offset : Int} (master : s.masterReplOffset = stream.last) (holds : Holds s stream block)
    (first : s.replBacklogOff ≤ offset) (bound : offset ≤ s.replBacklogOff + s.replBacklogHistlen) :
    ∃ sent, addReplyReplicationBacklog s offset = some sent ∧ sent.map some = stream.onward offset := by
  obtain ⟨⟨present, length, idx⟩, early, histlen, off, ring, written⟩ := holds
  simp only [Stream.last] at master
  by_cases empty : s.replBacklogHistlen = 0
  · refine ⟨[], if_pos empty, ?_⟩
    rw [Stream.onward, drop_eq_nil_of_le (by omega)]
    rfl
  obtain ⟨skip, skipped⟩ : ∃ skip : Nat, offset = s.replBacklogOff + skip := ⟨(offset - s.replBacklogOff).toNat, by omega⟩
  have start : (offset - s.replBacklogOff).toNat = skip := by omega
  have kept : s.replBacklogHistlen - skip = block.length - (block.length - s.replBacklogHistlen + skip) := by omega
  have tail : (block.rotate s.replBacklogIdx).drop (block.length - s.replBacklogHistlen + skip) = stream.onward offset := by
    have newest := Ring.newest_newest (m := s.replBacklogHistlen - skip) (n := s.replBacklogHistlen)
      (l := block.rotate s.replBacklogIdx) (by omega) (by rw [length_rotate]; omega)
    rw [ring, Ring.newest_newest (by omega) (by omega)] at newest
    simp only [Ring.newest, length_rotate] at newest
    rw [Stream.onward]
    calc (block.rotate s.replBacklogIdx).drop (block.length - s.replBacklogHistlen + skip)
        = (block.rotate s.replBacklogIdx).drop (block.length - (s.replBacklogHistlen - skip)) := by congr 1; omega
      _ = stream.bytes.drop (stream.bytes.length - (s.replBacklogHistlen - skip)) := newest.symm
      _ = stream.bytes.drop (offset - stream.base - 1).toNat := by congr 1; omega
  have all : ∀ cell ∈ stream.onward offset, cell.isSome = true := by
    intro cell member
    apply written cell
    have later : (offset - stream.base - 1).toNat = stream.allocated + ((offset - stream.base - 1).toNat - stream.allocated) := by
      omega
    rw [Stream.onward, later, ← drop_drop] at member
    exact mem_of_mem_drop member
  obtain ⟨sent, collected, same⟩ := mapM_written all
  refine ⟨sent, ?_, same⟩
  rw [addReplyReplicationBacklog, if_neg empty, present, bind_some]
  simp only [start, ← length, Nat.mod_add_mod, Nat.add_assoc]
  rw [kept, replyLoop_spec (by omega) (by omega), tail, bind_some, collected]

theorem psyncOffsetKept_iff (offset : Int) (master : s.masterReplOffset = stream.last) (holds : Holds s stream block) :
    psyncOffsetKept s offset = true ↔ offset ≤ stream.last + 1 ∧ ∀ i, offset ≤ i → i ≤ stream.last → stream.Stored s.replBacklogSize i := by
  obtain ⟨⟨present, -, idx⟩, early, histlen, off, -, -⟩ := holds
  simp only [psyncOffsetKept, present, isSome_some, Bool.true_and, Bool.and_eq_true, decide_eq_true_eq, Stream.Stored]
  simp only [Stream.last] at master ⊢
  constructor
  · intro ⟨first, bound⟩
    refine ⟨by omega, fun i low high => ?_⟩
    omega
  · intro ⟨bound, stored⟩
    refine ⟨?_, by omega⟩
    rcases Int.lt_or_le (stream.base + stream.bytes.length) offset with next | inside
    · omega
    · have := stored offset (Int.le_refl _) inside
      omega

def recordedStep (state : Backlog × Stream) (action : BacklogAction) : Option ((Backlog × Stream) × Unit) :=
  (backlogStep state.1 action).map fun after => ((after, state.2.record state.1 action), ())

/-- What the callers check: a backlog is created where there is none, freed when no slave is
attached, and fed where there is one. -/
def backlogGuard (state : Backlog × Stream) : BacklogAction → Prop
  | .create => state.1.replBacklog = none
  | .resize _ => True
  | .free slaves => slaves = 0
  | .feed _ => state.1.replBacklog.isSome = true

theorem recordedStep_follows (state : Backlog × Stream) (action : BacklogAction) (follows : Follows state.1 state.2)
    (guard : backlogGuard state action) : ∃ after, recordedStep state action = some after ∧ Follows after.1.1 after.1.2 := by
  cases action with
  | create =>
    obtain ⟨after, created⟩ : ∃ after, createReplicationBacklog state.1 = some after := by
      have missing : state.1.replBacklog = none := guard
      simp [createReplicationBacklog, missing]
    exact ⟨_, by rw [recordedStep, backlogStep, created, map_some], create_follows follows created⟩
  | resize newsize => exact ⟨_, rfl, resize_follows newsize follows⟩
  | free slaves =>
    have freed : freeReplicationBacklog state.1 slaves = _ := if_pos guard
    exact ⟨_, by rw [recordedStep, backlogStep, freed, map_some], free_follows follows freed⟩
  | feed p =>
    obtain ⟨block, present⟩ := isSome_iff_exists.mp guard
    obtain ⟨after, fed, kept, -⟩ := feed_follows p follows present
    exact ⟨_, by rw [recordedStep, backlogStep, fed, map_some], kept⟩

end Cplusplus.Redis.Replication
