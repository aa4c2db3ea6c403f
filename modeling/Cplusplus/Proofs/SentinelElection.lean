import Cplusplus.Library.Ballots
import Cplusplus.Library.Run
import Cplusplus.Sentinel
import Mathlib.Data.List.Perm.Subperm

/-! One Sentinel votes once in an epoch, and the leader test counts votes. -/

namespace Cplusplus.Redis.Sentinel
open Cplusplus.Ballots List Option Function

section
variable {Runid : Type} {s s' : SentinelNode Runid}

/-- The current vote is one of the votes given so far, and there are none for later epochs. -/
structure Recorded (votes : Nat → Option Runid) (s : SentinelNode Runid) : Prop where
  current : ∀ runid, s.leader = some runid → votes s.leaderEpoch = some runid
  later : ∀ epoch, s.leaderEpoch < epoch → votes epoch = none

theorem Recorded.of_vote {votes : Nat → Option Runid} (recorded : Recorded votes s) (epoch : s'.leaderEpoch = s.leaderEpoch)
    (vote : s'.leader = s.leader ∨ s'.leader = none) : Recorded votes s' where
  current runid same := by
    rcases vote with kept | cleared
    · rw [epoch]
      exact recorded.current runid (kept.symm.trans same)
    · rw [cleared] at same
      exact absurd same (some_ne_none _).symm
  later := by
    rw [epoch]
    exact recorded.later

/-- A step of a Sentinel that only adds votes of its own. -/
structure Voted (votes : Nat → Option Runid) (s s' : SentinelNode Runid) (after : Nat → Option Runid) : Prop where
  extended : ∀ epoch runid, votes epoch = some runid → after epoch = some runid
  recorded : Recorded after s'
  peers : s'.sentinels = s.sentinels
  failover : s'.failoverEpoch = s.failoverEpoch

/-- At most one vote is added, in an epoch without a vote, and the answer is a vote. -/
theorem sentinelVoteLeader_voted {votes : Nat → Option Runid} (recorded : Recorded votes s) (reqEpoch : Nat) (reqRunid : Runid) :
    ∃ after, Voted votes s (sentinelVoteLeader s reqEpoch reqRunid).1 after ∧
      ∀ runid, (sentinelVoteLeader s reqEpoch reqRunid).2.1 = some runid → after (sentinelVoteLeader s reqEpoch reqRunid).2.2 = some runid := by
  -- the epoch may be raised before the vote
  have raised : ∃ epoch, (if reqEpoch > s.currentEpoch then { s with currentEpoch := reqEpoch } else s) =
      { s with currentEpoch := epoch } ∧ reqEpoch ≤ epoch := by
    split
    · exact ⟨reqEpoch, rfl, Nat.le_refl _⟩
    · exact ⟨s.currentEpoch, rfl, by omega⟩
  obtain ⟨epoch, same, least⟩ := raised
  simp only [sentinelVoteLeader, same]
  split
  next granted =>
    obtain ⟨newer, most⟩ := granted
    have exact' : epoch = reqEpoch := Nat.le_antisymm most least
    subst exact'
    have voted : ∀ runid, some reqRunid = some runid → update votes epoch (some reqRunid) epoch = some runid := by
      intro runid voted
      rw [← voted]
      exact update_self ..
    refine ⟨update votes epoch (some reqRunid), ⟨?_, ⟨voted, ?_⟩, rfl, rfl⟩, voted⟩
    · intro other runid earlier
      have different : other ≠ epoch := by
        rintro rfl
        rw [recorded.later other newer] at earlier
        exact absurd earlier (some_ne_none _).symm
      rw [update_of_ne different]
      exact earlier
    · intro other after
      rw [update_of_ne (Nat.ne_of_gt after)]
      exact recorded.later other (Nat.lt_trans newer after)
  next => exact ⟨votes, ⟨fun _ _ voted => voted, recorded.of_vote rfl (.inl rfl), rfl, rfl⟩, recorded.current⟩

variable [DecidableEq Runid]

def votesOf (currentEpoch : Nat) (peers : List (SentinelPeer Runid)) (runid : Runid) : Nat :=
  peers.countP fun ri => ri.leader = some runid ∧ ri.leaderEpoch = currentEpoch

/-- A table has the number of votes of everyone, if nobody has more than an int can hold. -/
def Counts (counters : LeaderCounters Runid) (count : Runid → Nat) : Prop :=
  ∀ runid, (counters.lookup runid).getD 0 = count runid

theorem sentinelLeaderIncr_counts {counters : LeaderCounters Runid} {count : Runid → Nat} (counts : Counts counters count)
    (runid : Runid) (few : count runid + 1 < 2 ^ 31) :
    Counts (sentinelLeaderIncr counters runid).1 (update count runid (count runid + 1)) ∧
      (sentinelLeaderIncr counters runid).2 = count runid + 1 := by
  have small : (count runid + 1) % 2 ^ 64 = count runid + 1 := Nat.mod_eq_of_lt (by omega)
  simp only [sentinelLeaderIncr, counts runid, small]
  constructor
  · intro other
    by_cases same : other = runid
    · subst same
      rw [AList.lookup_insert, update_self]
      rfl
    · rw [AList.lookup_insert_ne same, update_of_ne same]
      exact counts other
  · rw [BitVec.signExtend_eq_setWidth_of_msb_false]
    · rw [BitVec.toNat_setWidth, BitVec.toNat_ofNat]
      omega
    · rw [BitVec.msb_eq_false_iff_two_mul_lt, BitVec.toNat_ofNat]
      omega

theorem countVotes_counts (currentEpoch : Nat) (peers : List (SentinelPeer Runid)) {counters : LeaderCounters Runid} {count : Runid → Nat}
    (counts : Counts counters count) (few : ∀ runid, count runid + peers.length < 2 ^ 31) :
    Counts (countVotes currentEpoch peers counters) fun runid => count runid + votesOf currentEpoch peers runid := by
  induction peers generalizing counters count with
  | nil => exact counts
  | cons ri peers ih =>
    have fewer : ∀ runid, count runid + peers.length < 2 ^ 31 := fun runid => by
      have bound := few runid
      simp only [length_cons] at bound
      omega
    have skipped : (∀ runid, ¬(ri.leader = some runid ∧ ri.leaderEpoch = currentEpoch)) →
        Counts (countVotes currentEpoch peers counters) fun runid => count runid + votesOf currentEpoch (ri :: peers) runid := by
      intro none runid
      simp only [votesOf, countP_cons, none runid, decide_false, Bool.false_eq_true, if_false]
      exact ih counts fewer runid
    rw [countVotes]
    cases vote : ri.leader with
    | none => exact skipped fun runid same => absurd (vote.symm.trans same.1) (some_ne_none _).symm
    | some leader =>
      simp only
      split
      next current =>
        have bound := few leader
        simp only [length_cons] at bound
        have next := ih (sentinelLeaderIncr_counts counts leader (by omega)).1 (fun runid => by
          by_cases same : runid = leader
          · subst same
            rw [update_self]
            omega
          · rw [update_of_ne same]
            exact fewer runid)
        intro runid
        simp only [next runid, votesOf, countP_cons]
        by_cases same : runid = leader
        · subst same
          simp only [update_self, vote, current]
          simp only [and_self, decide_true, if_true]
          omega
        · have other : ¬ leader = runid := fun equal => same equal.symm
          simp only [update_of_ne same, vote, some.injEq, other]
          simp
      next stale => exact skipped fun runid same => stale same.2

omit [DecidableEq Runid] in
theorem mostVoted_spec (entries : List (Sigma fun _ : Runid => Nat)) (best : Option Runid × Nat) : mostVoted entries best = best ∨
      ∃ runid votes, mostVoted entries best = (some runid, votes) ∧ ⟨runid, votes⟩ ∈ entries := by
  induction entries generalizing best with
  | nil => exact .inl rfl
  | cons entry entries ih =>
    obtain ⟨runid, votes⟩ := entry
    rw [mostVoted]
    rcases ih (if votes > best.2 then (some runid, votes) else best) with same | ⟨winner, count, same, member⟩
    · rw [same]
      split
      · exact .inr ⟨runid, votes, rfl, by simp⟩
      · exact .inl rfl
    · exact .inr ⟨winner, count, same, mem_cons_of_mem _ member⟩

/-- What is stored about the votes of the others is true. -/
def Heard (ballot : Runid → Nat → Option Runid) (s : SentinelNode Runid) : Prop :=
  ∀ peer runid, (s.sentinels peer).leader = some runid → ballot peer (s.sentinels peer).leaderEpoch = some runid

theorem votesOf_le {ballot : Runid → Nat → Option Runid} (heard : Heard ballot s) (epoch : Nat) (peers : List Runid)
    (runid : Runid) : votesOf epoch (peers.map s.sentinels) runid ≤ votesFor peers ballot epoch runid := by
  rw [votesOf, countP_map]
  apply countP_mono_left
  intro peer _ counted
  simp only [comp_apply, decide_eq_true_eq] at counted ⊢
  rw [← counted.2]
  exact heard peer runid counted.1

variable {d : Deployment Runid} {self : Runid}

theorem votesFor_peers (member : self ∈ d.sentinels) (ballot : Runid → Nat → Option Runid) (epoch : Nat) (runid : Runid) :
    votesFor d.sentinels ballot epoch runid = votesFor (d.peers self) ballot epoch runid + if ballot self epoch = some runid then 1 else 0 := by
  rw [votesFor, (perm_cons_erase member).countP_eq, countP_cons]
  simp only [decide_eq_true_eq]
  rfl

theorem peers_length (member : self ∈ d.sentinels) : (d.peers self).length + 1 = d.sentinels.length :=
  (perm_cons_erase member).length_eq.symm

/-- A Sentinel whose current epoch is that of the election finds a leader only if a majority
voted for it in that epoch. -/
theorem sentinelGetLeader_majority (order : EntryOrder (Sigma fun _ : Runid => Nat)) (quorum : Nat)
    {ballot : Runid → Nat → Option Runid} {epoch : Nat} (few : d.sentinels.length < 2 ^ 31) (member : self ∈ d.sentinels)
    (recorded : Recorded (ballot self) s) (heard : Heard ballot s) (current : s.currentEpoch = epoch) :
    ∃ after, Voted (ballot self) s (sentinelGetLeader order quorum (d.peers self) self s epoch).1 after ∧
      ∀ runid, (sentinelGetLeader order quorum (d.peers self) self s epoch).2 = some runid →
        Majority d.sentinels (update ballot self after) epoch runid := by
  have size := peers_length member
  have counts : Counts (countVotes s.currentEpoch ((d.peers self).map s.sentinels) ∅)
      (votesOf epoch ((d.peers self).map s.sentinels)) := by
    have empty : Counts (∅ : LeaderCounters Runid) fun _ => 0 := fun runid => by rw [AList.lookup_empty]; rfl
    have counted := countVotes_counts s.currentEpoch ((d.peers self).map s.sentinels) empty (fun _ => by
      rw [length_map]
      omega)
    simpa only [Nat.zero_add, current] using counted
  have bound : ∀ runid, votesOf epoch ((d.peers self).map s.sentinels) runid ≤ (d.peers self).length := fun runid =>
    Nat.le_trans countP_le_length (Nat.le_of_eq (length_map _))
  simp only [sentinelGetLeader]
  generalize countVotes s.currentEpoch ((d.peers self).map s.sentinels) ∅ = counters at counts ⊢
  have chosen := mostVoted_spec (order.entries counters.entries) (none, 0)
  generalize mostVoted (order.entries counters.entries) (none, 0) = best at chosen ⊢
  obtain ⟨after, voted, answer⟩ := sentinelVoteLeader_voted recorded epoch (best.1.getD self)
  refine ⟨after, voted, fun runid leader => ?_⟩
  -- the votes that were counted for the leader, its own one apart
  have extended : Extends ballot (update ballot self after) := Extends.update voted.extended
  have others := Nat.le_trans (votesOf_le heard epoch (d.peers self) runid) (votesFor_mono extended (d.peers self) epoch runid)
  have all := votesFor_peers member (update ballot self after) epoch runid
  rw [update_self] at all
  have voters : ((d.peers self).length + 1) % 2 ^ 32 = d.sentinels.length := by omega
  have scanned : best.1 = some runid → best.2 = votesOf epoch ((d.peers self).map s.sentinels) runid := by
    intro winner
    rcases chosen with same | ⟨winner', votes, same, listed⟩
    · rw [same] at winner
      exact absurd winner (some_ne_none _).symm
    · rw [same] at winner ⊢
      cases winner
      have found := counts runid
      rw [AList.mem_lookup_iff.mpr ((order.perm _).mem_iff.mp listed)] at found
      exact found
  rw [voters] at leader
  rw [Majority, all]
  cases vote : (sentinelVoteLeader s epoch (best.1.getD self)).2.1 with
  | none =>
    simp only [vote] at leader
    split at leader
    next => exact absurd leader (some_ne_none _).symm
    next enough =>
      have same := scanned leader
      omega
  | some own =>
    have counted := (sentinelLeaderIncr_counts counts own (by have most := bound own; omega)).2
    simp only [vote, counted] at leader
    split at leader
    next mine =>
      split at leader
      next => exact absurd leader (some_ne_none _).symm
      next enough =>
        cases leader
        have given := answer runid vote
        rw [mine.1] at given
        rw [if_pos given]
        simp only at enough
        omega
    next =>
      split at leader
      next => exact absurd leader (some_ne_none _).symm
      next enough =>
        have same := scanned leader
        omega

end

/-! Two Sentinels are never leaders of one epoch, as long as each one runs the leader test in
the epoch of its own failover. -/

section
variable {Runid : Type} {net : SentinelNet Runid} {s s' : SentinelNode Runid} {ballot : Runid → Nat → Option Runid} {self : Runid}

def Honest (ballot : Runid → Nat → Option Runid) : SentinelMessage Runid → Prop
  | .reply sender _ _ leader leaderEpoch => ∀ runid, leader = some runid → ballot sender leaderEpoch = some runid
  | .request .. | .hello .. => True

theorem Heard.mono {later : Runid → Nat → Option Runid} (heard : Heard ballot s) (extended : Extends ballot later) : Heard later s :=
  fun peer runid stored => extended peer _ runid (heard peer runid stored)

theorem Honest.mono {later : Runid → Nat → Option Runid} {message : SentinelMessage Runid} (honest : Honest ballot message)
    (extended : Extends ballot later) : Honest later message := by
  cases message with
  | reply sender receiver down leader leaderEpoch => exact fun runid same => extended sender _ runid (honest runid same)
  | request => trivial
  | hello => trivial

structure Quiet (s s' : SentinelNode Runid) : Prop where
  epoch : s'.leaderEpoch = s.leaderEpoch
  vote : s'.leader = s.leader ∨ s'.leader = none
  peers : s'.sentinels = s.sentinels

theorem Quiet.ite {p : Prop} [Decidable p] {first second : SentinelNode Runid} (left : Quiet s first) (right : Quiet s second) :
    Quiet s (if p then first else second) := by
  split
  · exact left
  · exact right

section
variable (s)

theorem Quiet.refl : Quiet s s := ⟨rfl, .inl rfl, rfl⟩

theorem sentinelProcessHelloMessage_quiet (epoch : Nat) : Quiet s (sentinelProcessHelloMessage s epoch) :=
  .ite ⟨rfl, .inl rfl, rfl⟩ (.refl s)

theorem sentinelStartFailoverIfNeeded_quiet (recent : Bool) : Quiet s (sentinelStartFailoverIfNeeded s recent) :=
  .ite (.refl s) ⟨rfl, .inl rfl, rfl⟩

theorem sentinelFailoverNext_quiet (abort : Bool) : Quiet s (sentinelFailoverNext s abort) := by
  have stopped : Quiet s (sentinelAbortFailover s) := ⟨rfl, .inl rfl, rfl⟩
  have moved : ∀ state, Quiet s { s with failoverState := state } := fun _ => ⟨rfl, .inl rfl, rfl⟩
  rw [sentinelFailoverNext]
  split
  next => exact .refl s
  next => exact .refl s
  next => exact .ite stopped (moved _)
  next => exact .ite stopped (moved _)
  next => exact .ite stopped (moved _)
  next => exact moved _
  next => exact .refl s

end

theorem sentinelIsMasterDownByAddr_voted {votes : Nat → Option Runid} (recorded : Recorded votes s) (addr reqEpoch : Nat)
    (reqRunid : Option Runid) :
    ∃ after, Voted votes s (sentinelIsMasterDownByAddr s addr reqEpoch reqRunid).1 after ∧
      ∀ down leader epoch, (sentinelIsMasterDownByAddr s addr reqEpoch reqRunid).2 = some (down, leader, epoch) →
        ∀ runid, leader = some runid → after epoch = some runid := by
  have same : Voted votes s s votes := ⟨fun _ _ voted => voted, recorded, rfl, rfl⟩
  have silent : ∀ {answer : Option (Bool × Option Runid × Nat)}, (∀ down leader epoch, answer = some (down, leader, epoch) → leader = none) →
      ∀ down leader epoch, answer = some (down, leader, epoch) → ∀ runid, leader = some runid → votes epoch = some runid := by
    intro answer none down leader epoch given runid voted
    rw [none down leader epoch given] at voted
    exact absurd voted (some_ne_none _).symm
  simp only [sentinelIsMasterDownByAddr]
  split
  next => exact ⟨votes, same, silent fun _ _ _ given => absurd given (some_ne_none _).symm⟩
  next =>
    split
    next => exact ⟨votes, same, silent fun down leader epoch given => by cases given; rfl⟩
    next =>
      cases reqRunid with
      | none => exact ⟨votes, same, silent fun down leader epoch given => by cases given; rfl⟩
      | some runid =>
        obtain ⟨after, voted, answer⟩ := sentinelVoteLeader_voted recorded reqEpoch runid
        refine ⟨after, voted, fun down leader epoch given => ?_⟩
        cases given
        exact answer

variable [DecidableEq Runid] {d : Deployment Runid}

structure Truthful (d : Deployment Runid) (ballot : Runid → Nat → Option Runid) (net : SentinelNet Runid) : Prop where
  recorded : ∀ self, Recorded (ballot self) (net.nodes self)
  heard : ∀ self, Heard ballot (net.nodes self)
  honest : ∀ message ∈ net.inFlight, Honest ballot message
  elected : ∀ leader ∈ net.elected, Majority d.sentinels ballot leader.2 leader.1

theorem Truthful.setNode {after : Nat → Option Runid} (truthful : Truthful d ballot net)
    (extended : ∀ epoch runid, ballot self epoch = some runid → after epoch = some runid) (recorded : Recorded after s')
    (heard : Heard (update ballot self after) s') : Truthful d (update ballot self after) (net.setNode self s') := by
  have grown : Extends ballot (update ballot self after) := Extends.update extended
  refine ⟨fun other => ?_, fun other => ?_, fun message member => (truthful.honest message member).mono grown,
    fun leader member => (truthful.elected leader member).mono grown⟩
  · by_cases same : other = self
    · subst same
      simp only [SentinelNet.setNode, update_self]
      exact recorded
    · simp only [SentinelNet.setNode, update_of_ne same]
      exact truthful.recorded other
  · by_cases same : other = self
    · subst same
      simp only [SentinelNet.setNode, update_self]
      exact heard
    · simp only [SentinelNet.setNode, update_of_ne same]
      exact (truthful.heard other).mono grown

section
variable (truthful : Truthful d ballot net)
include truthful

theorem Truthful.setNode_kept (recorded : Recorded (ballot self) s') (heard : Heard ballot s') : Truthful d ballot (net.setNode self s') := by
  have same : update ballot self (ballot self) = ballot := update_eq_self self ballot
  rw [← same] at heard ⊢
  exact truthful.setNode (fun _ _ voted => voted) recorded heard

theorem Truthful.setNode_quiet (quiet : Quiet (net.nodes self) s') : Truthful d ballot (net.setNode self s') := by
  apply truthful.setNode_kept ((truthful.recorded self).of_vote quiet.epoch quiet.vote)
  intro peer
  rw [quiet.peers]
  exact truthful.heard self peer

theorem Truthful.send {messages : List (SentinelMessage Runid)}
    (honest : ∀ message ∈ messages, Honest ballot message) : Truthful d ballot (net.send messages) where
  recorded := truthful.recorded
  heard := truthful.heard
  honest message member := by
    rcases mem_append.mp member with earlier | sent
    · exact truthful.honest message earlier
    · exact honest message sent
  elected := truthful.elected

theorem Truthful.drop (position : Nat) : Truthful d ballot { net with inFlight := net.inFlight.eraseIdx position } where
  recorded := truthful.recorded
  heard := truthful.heard
  honest message member := truthful.honest message (mem_of_mem_eraseIdx member)
  elected := truthful.elected

end

theorem Heard.setPeer {peer : Runid} {ri : SentinelPeer Runid} (heard : Heard ballot s)
    (true' : ∀ runid, ri.leader = some runid → ballot peer ri.leaderEpoch = some runid) : Heard ballot (s.setPeer peer ri) := by
  intro other runid stored
  by_cases same : other = peer
  · subst same
    simp only [SentinelNode.setPeer, update_self] at stored ⊢
    exact true' runid stored
  · simp only [SentinelNode.setPeer, update_of_ne same] at stored ⊢
    exact heard other runid stored

theorem sentinelReceiveIsMasterDownReply_heard {peer : Runid} {leader : Option Runid} {leaderEpoch : Nat} (heard : Heard ballot s)
    (down : Bool) (honest : ∀ runid, leader = some runid → ballot peer leaderEpoch = some runid) :
    Heard ballot (sentinelReceiveIsMasterDownReply s peer down leader leaderEpoch) := by
  simp only [sentinelReceiveIsMasterDownReply]
  apply heard.setPeer
  cases leader with
  | none => exact heard peer
  | some runid => exact honest

theorem sentinelAskMasterState_heard (heard : Heard ballot s) (self peer : Runid) (tooOld ask : Bool) :
    Heard ballot (sentinelAskMasterState s self peer tooOld ask).1 := by
  rw [sentinelAskMasterState]
  split
  next => exact heard.setPeer fun runid none => absurd none (some_ne_none _).symm
  next => exact heard

theorem sentinelAskMasterState_recorded {votes : Nat → Option Runid} (recorded : Recorded votes s) (self peer : Runid) (tooOld ask : Bool) :
    Recorded votes (sentinelAskMasterState s self peer tooOld ask).1 := by
  rw [sentinelAskMasterState]
  split
  next => exact recorded.of_vote rfl (.inl rfl)
  next => exact recorded

theorem receive_truthful (truthful : Truthful d ballot net) {message : SentinelMessage Runid} (honest : Honest ballot message) :
    ∃ later, Truthful d later (net.receive message) := by
  cases message with
  | request sender receiver addr reqEpoch reqRunid =>
    obtain ⟨after, voted, answer⟩ := sentinelIsMasterDownByAddr_voted (truthful.recorded receiver) addr reqEpoch reqRunid
    refine ⟨update ballot receiver after, ?_⟩
    have heard : Heard (update ballot receiver after)
        (sentinelIsMasterDownByAddr (net.nodes receiver) addr reqEpoch reqRunid).1 := by
      intro peer
      rw [voted.peers]
      exact (truthful.heard receiver).mono (Extends.update voted.extended) peer
    apply (truthful.setNode voted.extended voted.recorded heard).send
    intro message member
    obtain ⟨⟨down, leader, epoch⟩, given, rfl⟩ := List.mem_map.mp member
    intro runid same
    rw [update_self]
    exact answer down leader epoch (mem_toList.mp given) runid same
  | reply sender receiver down leader leaderEpoch =>
    refine ⟨ballot, truthful.setNode_kept ?_ ?_⟩
    · exact (truthful.recorded receiver).of_vote rfl (.inl rfl)
    · exact sentinelReceiveIsMasterDownReply_heard (truthful.heard receiver) down honest
  | hello receiver currentEpoch =>
    exact ⟨ballot, truthful.setNode_quiet (sentinelProcessHelloMessage_quiet _ currentEpoch)⟩

theorem sentinelFailoverWaitStart_majority (order : EntryOrder (Sigma fun _ : Runid => Nat)) (quorum : Nat) (timeout : Bool)
    (few : d.sentinels.length < 2 ^ 31) (member : self ∈ d.sentinels) (recorded : Recorded (ballot self) s)
    (heard : Heard ballot s) (current : s.currentEpoch = s.failoverEpoch) :
    ∃ after, Voted (ballot self) s (sentinelFailoverWaitStart order quorum (d.peers self) self s timeout).1 after ∧
      ((sentinelFailoverWaitStart order quorum (d.peers self) self s timeout).2 = true →
        Majority d.sentinels (update ballot self after) s.failoverEpoch self) := by
  obtain ⟨after, voted, majority⟩ := sentinelGetLeader_majority order quorum few member recorded heard current
  refine ⟨after, ?_, fun isleader => ?_⟩
  · rw [sentinelFailoverWaitStart]
    simp only
    split
    next => exact ⟨voted.extended, voted.recorded.of_vote rfl (.inl rfl), voted.peers, voted.failover⟩
    next =>
      split
      next => exact ⟨voted.extended, voted.recorded.of_vote rfl (.inl rfl), voted.peers, voted.failover⟩
      next => exact voted
  · rw [sentinelFailoverWaitStart] at isleader
    simp only at isleader
    split at isleader
    next leader => exact majority self leader
    next => exact absurd isleader Bool.false_ne_true

def OnEpoch (net : SentinelNet Runid) : SentinelEvent Runid → Prop
  | .failoverWaitStart self _ _ => (net.nodes self).waiting = true → (net.nodes self).currentEpoch = (net.nodes self).failoverEpoch
  | _ => True

theorem sentinelStep_truthful (few : d.sentinels.length < 2 ^ 31) (truthful : Truthful d ballot net) (event : SentinelEvent Runid)
    (onEpoch : OnEpoch net event) : ∃ later, Truthful d later (sentinelStep d net event) := by
  cases event with
  | checkSubjectivelyDown self down => exact ⟨ballot, truthful.setNode_quiet ⟨rfl, .inl rfl, rfl⟩⟩
  | checkObjectivelyDown self => exact ⟨ballot, truthful.setNode_quiet ⟨rfl, .inl rfl, rfl⟩⟩
  | startFailoverIfNeeded self recent => exact ⟨ballot, truthful.setNode_quiet (sentinelStartFailoverIfNeeded_quiet _ recent)⟩
  | failoverNext self abort => exact ⟨ballot, truthful.setNode_quiet (sentinelFailoverNext_quiet _ abort)⟩
  | changeAddress self addr => exact ⟨ballot, truthful.setNode_quiet ⟨rfl, .inr rfl, rfl⟩⟩
  | lose position => exact ⟨ballot, truthful.drop position⟩
  | sendHello self peer =>
    refine ⟨ballot, truthful.send fun message member => ?_⟩
    rw [mem_singleton.mp member]
    trivial
  | askMasterState self peer tooOld ask =>
    refine ⟨ballot, ?_⟩
    rw [sentinelStep]
    split
    next =>
      apply Truthful.send
      · apply truthful.setNode_kept
        · exact sentinelAskMasterState_recorded (truthful.recorded self) self peer tooOld ask
        · exact sentinelAskMasterState_heard (truthful.heard self) self peer tooOld ask
      · intro message member
        obtain ⟨request, _, rfl⟩ := List.mem_map.mp member
        trivial
    next => exact truthful
  | receive position =>
    rw [sentinelStep]
    cases found : net.inFlight[position]? with
    | none => exact ⟨ballot, truthful⟩
    | some message => exact receive_truthful (truthful.drop position) (truthful.honest message (mem_of_getElem? found))
  | failoverWaitStart self order timeout =>
    rw [sentinelStep]
    split
    next tested =>
      rw [Bool.and_eq_true, contains_iff_mem] at tested
      obtain ⟨after, voted, majority⟩ := sentinelFailoverWaitStart_majority order (d.quorum self) timeout few tested.1
        (truthful.recorded self) (truthful.heard self) (onEpoch tested.2)
      have next := truthful.setNode voted.extended voted.recorded (by
        intro peer
        rw [voted.peers]
        exact (truthful.heard self).mono (Extends.update voted.extended) peer)
      refine ⟨update ballot self after, ?_⟩
      simp only
      split
      next isleader =>
        refine ⟨next.recorded, next.heard, next.honest, fun leader passed => ?_⟩
        rcases mem_append.mp passed with earlier | now
        · exact next.elected leader earlier
        · rw [mem_singleton.mp now]
          simp only [voted.failover]
          exact majority isleader
      next => exact next
    next => exact ⟨ballot, truthful⟩

def sentinelNext (d : Deployment Runid) (net : SentinelNet Runid) (event : SentinelEvent Runid) :
    Option (SentinelNet Runid × Unit) :=
  some (sentinelStep d net event, ())

def OneLeader (net : SentinelNet Runid) : Prop :=
  ∀ left right epoch, (left, epoch) ∈ net.elected → (right, epoch) ∈ net.elected → left = right

theorem Truthful.oneLeader (truthful : Truthful d ballot net) : OneLeader net :=
  fun left right epoch first second =>
    majority_unique (truthful.elected (left, epoch) first) (truthful.elected (right, epoch) second)

theorem sentinelStart_truthful (d : Deployment Runid) (addr : Nat) (currentEpoch leaderEpoch : Runid → Nat) :
    Truthful d (fun _ _ => none) (sentinelStart addr currentEpoch leaderEpoch) where
  recorded _ := ⟨fun _ voted => absurd voted (some_ne_none _).symm, fun _ _ => rfl⟩
  heard _ _ _ stored := absurd stored (some_ne_none _).symm
  honest _ member := absurd member not_mem_nil
  elected _ member := absurd member not_mem_nil

/-- The election is safe in every run in which the leader test is made in the epoch of the
failover. -/
theorem election_safe (d : Deployment Runid) (addr : Nat) (currentEpoch leaderEpoch : Runid → Nat)
    (events : List (SentinelEvent Runid)) (few : d.sentinels.length < 2 ^ 31)
    (onEpoch : Run.Allowed (sentinelNext d) OnEpoch (sentinelStart addr currentEpoch leaderEpoch) events) :
    ∃ net results, Run.exec (sentinelNext d) (sentinelStart addr currentEpoch leaderEpoch) events = some (net, results) ∧
      OneLeader net := by
  have progress : ∀ net event, (∃ ballot, Truthful d ballot net) → OnEpoch net event →
      ∃ after, sentinelNext d net event = some after ∧ ∃ ballot, Truthful d ballot after.1 := by
    rintro net event ⟨ballot, truthful⟩ onEpoch
    exact ⟨(sentinelStep d net event, ()), rfl, sentinelStep_truthful few truthful event onEpoch⟩
  obtain ⟨net, results, reached, ballot, truthful⟩ :=
    Run.exec_total progress events ⟨_, sentinelStart_truthful d addr currentEpoch leaderEpoch⟩ onEpoch
  exact ⟨net, results, reached, truthful.oneLeader⟩

instance (net : SentinelNet Runid) (event : SentinelEvent Runid) : Decidable (OnEpoch net event) :=
  match event with
  | .failoverWaitStart self _ _ => inferInstanceAs
    (Decidable ((net.nodes self).waiting = true → (net.nodes self).currentEpoch = (net.nodes self).failoverEpoch))
  | .checkSubjectivelyDown .. | .checkObjectivelyDown _ | .startFailoverIfNeeded .. | .askMasterState .. | .sendHello ..
  | .receive _ | .lose _ | .failoverNext .. | .changeAddress .. => .isTrue trivial

def fiveSentinels : Deployment (Fin 5) where
  sentinels := [0, 1, 2, 3, 4]
  nodup := by decide
  quorum _ := 2

def inOrder : EntryOrder (Sigma fun _ : Fin 5 => Nat) := ⟨id, fun _ => .refl _⟩

def asks (self peer : Fin 5) : List (SentinelEvent (Fin 5)) := [.askMasterState self peer false true, .receive 0, .receive 0]

def firstLeader : List (SentinelEvent (Fin 5)) :=
  [.checkSubjectivelyDown 0 true, .checkSubjectivelyDown 1 true, .checkSubjectivelyDown 2 true,
    .checkSubjectivelyDown 4 true] ++ asks 0 2 ++ asks 1 2 ++ asks 4 2 ++
  [.checkObjectivelyDown 0, .checkObjectivelyDown 1, .checkObjectivelyDown 4, .startFailoverIfNeeded 0 false,
    .startFailoverIfNeeded 1 false] ++ asks 0 2 ++ asks 0 3 ++ [.failoverWaitStart 0 inOrder false]

/-- Sentinel 4 starts a failover in epoch 2, of which 1 learns. It gets votes in epoch 2 and
counts them in its election of epoch 1. -/
def secondLeader : List (SentinelEvent (Fin 5)) :=
  [.sendHello 0 4, .receive 0, .startFailoverIfNeeded 4 false, .sendHello 4 1, .receive 0] ++
  asks 1 0 ++ asks 1 2 ++ asks 1 3 ++ [.failoverWaitStart 1 inOrder false]

theorem election_safe_elected :
    (Run.exec (sentinelNext fiveSentinels) (sentinelStart 0 (fun _ => 0) fun _ => 0) firstLeader).map
        (fun last => last.1.elected) = some [(0, 1)] ∧
      ∃ net results, Run.exec (sentinelNext fiveSentinels) (sentinelStart 0 (fun _ => 0) fun _ => 0) firstLeader =
        some (net, results) ∧ OneLeader net :=
  ⟨by decide +kernel, election_safe fiveSentinels 0 (fun _ => 0) (fun _ => 0) firstLeader (by decide) (by decide +kernel)⟩

theorem election_two_leaders :
    ∃ net results, Run.exec (sentinelNext fiveSentinels) (sentinelStart 0 (fun _ => 0) fun _ => 0) (firstLeader ++ secondLeader) =
      some (net, results) ∧ ¬ OneLeader net := by
  have passed : (Run.exec (sentinelNext fiveSentinels) (sentinelStart 0 (fun _ => 0) fun _ => 0)
      (firstLeader ++ secondLeader)).map (fun last => last.1.elected) = some [(0, 1), (1, 1)] := by decide +kernel
  obtain ⟨⟨net, results⟩, reached, two⟩ := map_eq_some_iff.mp passed
  have elected : net.elected = [(0, 1), (1, 1)] := two
  refine ⟨net, results, reached, fun one => ?_⟩
  have same := one 0 1 1 (by simp [elected]) (by simp [elected])
  exact absurd same (by decide)

end

end Cplusplus.Redis.Sentinel
