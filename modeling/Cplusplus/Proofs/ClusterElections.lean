import Cplusplus.ClusterFailover
import Cplusplus.Library.Ballots
import Mathlib.Data.List.Perm.Basic

/-! An ack that counts in an election is the vote of a master in its epoch, and is counted once. So
the winner has a majority of the votes of that epoch. -/

namespace Cplusplus.Redis.ClusterFailover

open Ballots List Function

variable {Master Slave : Type} {d : Deployment Master} {c : Cluster Master Slave}

/-- A master votes in the epoch of the request, which is its current one, and has not voted in it. -/
theorem clusterSendFailoverAuthIfNeeded_grants [DecidableEq Master] (d : Deployment Master) (now : Int) (n : MasterNode Master Slave) (request : Request Slave) :
    clusterSendFailoverAuthIfNeeded d now n request = (n, none) ∨ ∃ votedTime, clusterSendFailoverAuthIfNeeded d now n request =
          ({ n with lastVoteEpoch := n.currentEpoch, votedTime }, some n.currentEpoch) ∧
        n.currentEpoch ≤ request.currentEpoch ∧ n.lastVoteEpoch ≠ n.currentEpoch := by
  unfold clusterSendFailoverAuthIfNeeded
  split
  next => exact .inl rfl
  next newer =>
    split
    next => exact .inl rfl
    next fresh =>
      split
      next => exact .inl rfl
      next =>
        split
        next => exact .inl rfl
        next =>
          split
          next => exact .inl rfl
          next =>
            split
            next => exact .inl rfl
            next => exact .inr ⟨_, rfl, Nat.le_of_not_lt newer, fresh⟩

def MasterNode.Covers (n : MasterNode Master Slave) (epoch : Nat) : Prop :=
  epoch ≤ n.lastVoteEpoch ∨ epoch < n.currentEpoch ∧ epoch < n.savedEpoch

theorem MasterNode.Covers.learn {n : MasterNode Master Slave} {epoch : Nat} (covers : n.Covers epoch) (other : Nat) :
    (n.learn other).Covers epoch :=
  covers.imp id fun below => ⟨Nat.lt_of_lt_of_le below.1 (Nat.le_max_left _ _), below.2⟩

def SlaveNode.Past (n : SlaveNode Master) (epoch : Nat) : Prop :=
  epoch ≤ n.currentEpoch ∧ epoch ≤ n.savedEpoch ∧ (n.failoverAuthSent = true → epoch ≤ n.failoverAuthEpoch)

def tally [DecidableEq Slave] (votes : List (Vote Master Slave)) (slave : Slave) (epoch : Nat) : Nat :=
  votes.countP fun vote => vote.node = slave ∧ vote.epoch = epoch

structure Honest [DecidableEq Slave] (d : Deployment Master) (c : Cluster Master Slave) : Prop where
  masters : ∀ master, (c.masters master).lastVoteEpoch ≤ (c.masters master).currentEpoch ∧
    (c.masters master).savedVote ≤ (c.masters master).savedEpoch
  covered : ∀ vote ∈ c.votes, (c.masters vote.master).Covers vote.epoch
  once : OneVote c
  asked : ∀ request ∈ c.requests, (c.slaves request.node).Past request.currentEpoch
  voted : ∀ vote ∈ c.votes, (c.slaves vote.node).Past vote.epoch
  acked : ∀ ack ∈ c.acks, ack ∈ c.votes
  counted : ∀ slave, (c.slaves slave).failoverAuthSent = true →
    (c.slaves slave).failoverAuthCount + tally c.acks slave (c.slaves slave).failoverAuthEpoch ≤
      tally c.votes slave (c.slaves slave).failoverAuthEpoch
  reset : ∀ slave, (c.slaves slave).failoverAuthSent = false →
    (c.slaves slave).failoverAuthCount = 0 ∨ (c.slaves slave).retries d c.now
  won : ∀ win ∈ c.wins, d.neededQuorum ≤ tally c.votes win.1 win.2

theorem Cluster.setMaster_self [DecidableEq Master] (c : Cluster Master Slave) (master : Master) (n : MasterNode Master Slave) :
    (c.setMaster master n).masters master = n := update_self ..

theorem Cluster.setMaster_of_ne [DecidableEq Master] (c : Cluster Master Slave) {master other : Master} (n : MasterNode Master Slave)
    (different : other ≠ master) : (c.setMaster master n).masters other = c.masters other := update_of_ne different ..

variable [DecidableEq Slave]

section
variable (c)

theorem Cluster.setSlave_self (slave : Slave) (n : SlaveNode Master) : (c.setSlave slave n).slaves slave = n := update_self ..

theorem Cluster.setSlave_of_ne {slave other : Slave} (n : SlaveNode Master) (different : other ≠ slave) :
    (c.setSlave slave n).slaves other = c.slaves other := update_of_ne different ..

end

theorem Honest.setMaster [DecidableEq Master] (honest : Honest d c) {master : Master} {n : MasterNode Master Slave}
    (valid : n.lastVoteEpoch ≤ n.currentEpoch ∧ n.savedVote ≤ n.savedEpoch)
    (covers : ∀ epoch, (c.masters master).Covers epoch → n.Covers epoch) : Honest d (c.setMaster master n) := by
  refine ⟨fun other => ?_, fun vote member => ?_, honest.once, honest.asked, honest.voted, honest.acked, honest.counted, honest.reset,
    honest.won⟩
  · by_cases same : other = master
    · subst same
      rw [Cluster.setMaster_self]
      exact valid
    · rw [Cluster.setMaster_of_ne _ _ same]
      exact honest.masters other
  · by_cases same : vote.master = master
    · rw [same, Cluster.setMaster_self]
      exact covers _ (same ▸ honest.covered vote member)
    · rw [Cluster.setMaster_of_ne _ _ same]
      exact honest.covered vote member

structure SlaveNode.Keeps (d : Deployment Master) (c : Cluster Master Slave) (slave : Slave) (n : SlaveNode Master) : Prop where
  past : ∀ epoch, (c.slaves slave).Past epoch → n.Past epoch
  counted : n.failoverAuthSent = true →
    n.failoverAuthCount + tally c.acks slave n.failoverAuthEpoch ≤ tally c.votes slave n.failoverAuthEpoch
  reset : n.failoverAuthSent = false → n.failoverAuthCount = 0 ∨ n.retries d c.now

variable {slave : Slave} {n : SlaveNode Master}

theorem Honest.setSlave (honest : Honest d c) (keeps : n.Keeps d c slave) : Honest d (c.setSlave slave n) := by
  have past : ∀ other epoch, (c.slaves other).Past epoch → ((c.setSlave slave n).slaves other).Past epoch := by
    intro other epoch before
    by_cases same : other = slave
    · subst same
      rw [Cluster.setSlave_self]
      exact keeps.past epoch before
    · rw [Cluster.setSlave_of_ne _ _ same]
      exact before
  refine ⟨honest.masters, honest.covered, honest.once, fun request member => past _ _ (honest.asked request member),
    fun vote member => past _ _ (honest.voted vote member), honest.acked, fun other => ?_, fun other => ?_, honest.won⟩
  · by_cases same : other = slave
    · subst same
      rw [Cluster.setSlave_self]
      exact keeps.counted
    · rw [Cluster.setSlave_of_ne _ _ same]
      exact honest.counted other
  · by_cases same : other = slave
    · subst same
      rw [Cluster.setSlave_self]
      exact keeps.reset
    · rw [Cluster.setSlave_of_ne _ _ same]
      exact honest.reset other

theorem Honest.masterPacket [DecidableEq Master] (honest : Honest d c) (master : Master) (epoch : Nat) (view : MasterView Master Slave)
    (save : Bool) :
    Honest d (c.setMaster master { (c.masters master).learn epoch with view, saveConfig := save }) := by
  obtain ⟨vote, saved⟩ := honest.masters master
  apply honest.setMaster
  · exact ⟨Nat.le_trans vote (Nat.le_max_left _ _), saved⟩
  · exact fun _ covers => covers.learn epoch

theorem Honest.masterSleep [DecidableEq Master] (honest : Honest d c) (master : Master) :
    Honest d (c.setMaster master (c.masters master).clusterBeforeSleep) := by
  obtain ⟨vote, saved⟩ := honest.masters master
  unfold MasterNode.clusterBeforeSleep
  split
  next =>
    apply honest.setMaster
    · exact ⟨vote, Nat.le_trans vote (Nat.le_max_left _ _)⟩
    · exact fun epoch covers => covers.imp id fun below => ⟨below.1, Nat.lt_of_lt_of_le below.1 (Nat.le_max_left _ _)⟩
  next => exact honest.setMaster ⟨vote, saved⟩ fun _ covers => covers

theorem Honest.masterCrash [DecidableEq Master] (honest : Honest d c) {master : Master}
    (safe : (c.masters master).savedVote = (c.masters master).lastVoteEpoch ∨
      (c.masters master).lastVoteEpoch < (c.masters master).savedEpoch) :
    Honest d (c.setMaster master (c.masters master).restart) := by
  obtain ⟨-, saved⟩ := honest.masters master
  apply honest.setMaster
  · exact ⟨saved, saved⟩
  · intro epoch covers
    unfold MasterNode.Covers MasterNode.restart at *
    simp only
    omega

theorem tally_cons (vote : Vote Master Slave) (votes : List (Vote Master Slave)) (slave : Slave) (epoch : Nat) :
    tally (vote :: votes) slave epoch = tally votes slave epoch + if vote.node = slave ∧ vote.epoch = epoch then 1 else 0 := by
  simp only [tally, countP_cons, decide_eq_true_eq]

theorem Honest.vote [DecidableEq Master] (honest : Honest d c) (master : Master) {request : Request Slave}
    (member : request ∈ c.requests) : Honest d (c.vote d master request) := by
  obtain ⟨behind, saved⟩ := honest.masters master
  have learned : (c.masters master).lastVoteEpoch ≤ ((c.masters master).learn request.currentEpoch).currentEpoch :=
    Nat.le_trans behind (Nat.le_max_left _ _)
  unfold Cluster.vote
  rcases clusterSendFailoverAuthIfNeeded_grants d c.now ((c.masters master).learn request.currentEpoch) request with
    denied | ⟨votedTime, granted, current, fresh⟩
  · rw [denied]
    exact honest.setMaster ⟨learned, saved⟩ fun _ covers => covers.learn _
  · rw [granted]
    have same : ((c.masters master).learn request.currentEpoch).currentEpoch = request.currentEpoch :=
      Nat.le_antisymm current (Nat.le_max_right _ _)
    rw [same] at fresh learned ⊢
    have later : (c.masters master).lastVoteEpoch < request.currentEpoch := Nat.lt_of_le_of_ne learned fresh
    -- every epoch that the master has voted in is over
    have ended : ∀ vote ∈ c.votes, vote.master = master → vote.epoch < request.currentEpoch := by
      intro vote inside own
      have covers := honest.covered vote inside
      rw [own] at covers
      have grown : (c.masters master).currentEpoch ≤ request.currentEpoch := same ▸ Nat.le_max_left _ _
      unfold MasterNode.Covers at covers
      omega
    simp only
    generalize reached : MasterNode.mk request.currentEpoch request.currentEpoch votedTime _ _ _ _ = n
    have kept : Honest d (c.setMaster master n) := by
      subst reached
      apply honest.setMaster
      · exact ⟨Nat.le_refl _, saved⟩
      · intro epoch covers
        exact covers.elim (fun before => .inl (Nat.le_trans before learned)) fun below =>
          .inl (Nat.le_trans (Nat.le_of_lt below.1) (same ▸ Nat.le_max_left _ _))
    refine ⟨kept.masters, fun vote inside => ?_, ?_, kept.asked, fun vote inside => ?_, fun ack inside => ?_, fun slave sent => ?_,
      kept.reset, fun win inside => ?_⟩
    · rcases mem_cons.mp inside with rfl | before
      · simp only [Cluster.setMaster_self, ← reached]
        exact .inl (Nat.le_refl _)
      · exact kept.covered vote before
    · rw [OneVote, map_cons, nodup_cons]
      refine ⟨fun again => ?_, honest.once⟩
      obtain ⟨vote, before, equal⟩ := List.mem_map.mp again
      simp only [Prod.mk.injEq] at equal
      exact absurd equal.2 (Nat.ne_of_lt (ended vote before equal.1))
    · rcases mem_cons.mp inside with rfl | before
      · exact honest.asked request member
      · exact honest.voted vote before
    · exact (mem_cons.mp inside).elim (fun first => first ▸ mem_cons_self) fun before =>
        mem_cons_of_mem _ (honest.acked ack before)
    · have before := honest.counted slave sent
      have acks := tally_cons ⟨master, request.node, request.currentEpoch⟩ c.acks slave (c.slaves slave).failoverAuthEpoch
      have votes := tally_cons ⟨master, request.node, request.currentEpoch⟩ c.votes slave (c.slaves slave).failoverAuthEpoch
      show (c.slaves slave).failoverAuthCount + tally (_ :: c.acks) slave (c.slaves slave).failoverAuthEpoch ≤
        tally (_ :: c.votes) slave (c.slaves slave).failoverAuthEpoch
      omega
    · have before := honest.won win inside
      have votes := tally_cons ⟨master, request.node, request.currentEpoch⟩ c.votes win.1 win.2
      show d.neededQuorum ≤ tally (_ :: c.votes) win.1 win.2
      omega

omit [DecidableEq Slave] in
theorem clusterBeforeSleep_saves {n : SlaveNode Master} {epoch : Nat} (current : epoch ≤ n.currentEpoch)
    (saved : n.saveConfig = true ∨ epoch ≤ n.savedEpoch) : epoch ≤ n.clusterBeforeSleep.savedEpoch := by
  unfold SlaveNode.clusterBeforeSleep
  split
  next => exact Nat.le_trans current (Nat.le_max_left _ _)
  next quiet => exact saved.resolve_left quiet

theorem SlaveNode.Keeps.sleep (keeps : n.Keeps d c slave) : n.clusterBeforeSleep.Keeps d c slave := by
  have saves : ∀ epoch, (c.slaves slave).Past epoch → epoch ≤ n.clusterBeforeSleep.savedEpoch := fun epoch past =>
    clusterBeforeSleep_saves (keeps.past epoch past).1 (.inr (keeps.past epoch past).2.1)
  refine ⟨fun epoch past => ⟨?_, saves epoch past, ?_⟩, ?_, ?_⟩
  · have before := (keeps.past epoch past).1
    unfold SlaveNode.clusterBeforeSleep
    split <;> exact before
  · have before := (keeps.past epoch past).2.2
    unfold SlaveNode.clusterBeforeSleep
    split <;> exact before
  · have before := keeps.counted
    unfold SlaveNode.clusterBeforeSleep
    split <;> exact before
  · have before := keeps.reset
    unfold SlaveNode.clusterBeforeSleep
    split <;> exact before

theorem Honest.keeps_self (honest : Honest d c) (slave : Slave) : (c.slaves slave).Keeps d c slave :=
  ⟨fun _ past => past, honest.counted slave, honest.reset slave⟩

theorem keeps_restart (slave : Slave) : (c.slaves slave).restart.Keeps d c slave :=
  ⟨fun _ past => ⟨past.2.1, past.2.1, fun sent => Bool.noConfusion sent⟩, fun sent => Bool.noConfusion sent, fun _ => .inl rfl⟩

theorem keeps_schedule (slave : Slave) (rank random : Nat) : ((c.slaves slave).schedule c.now rank random).Keeps d c slave :=
  ⟨fun _ past => ⟨past.1, past.2.1, fun sent => Bool.noConfusion sent⟩, fun sent => Bool.noConfusion sent, fun _ => .inl rfl⟩

theorem Honest.keeps_updateRank (honest : Honest d c) (rank : Nat) (early : ¬(c.slaves slave).retries d c.now) :
    ((c.slaves slave).updateRank rank).Keeps d c slave := by
  unfold SlaveNode.updateRank
  split
  next => exact ⟨fun _ past => past, honest.counted slave, fun sent => .inl ((honest.reset slave sent).resolve_right early)⟩
  next => exact honest.keeps_self slave

theorem Honest.tally_above (honest : Honest d c) {epoch : Nat} (above : (c.slaves slave).currentEpoch < epoch) :
    tally c.acks slave epoch = 0 := by
  apply countP_eq_zero.mpr
  intro ack member
  simp only [decide_eq_true_eq]
  rintro ⟨rfl, rfl⟩
  exact absurd (honest.voted ack (honest.acked ack member)).1 (Nat.not_le.mpr above)

theorem Honest.keeps_start (honest : Honest d c) (keeps : n.Keeps d c slave) (current : n.currentEpoch = (c.slaves slave).currentEpoch)
    (early : ¬n.retries d c.now) (idle : n.failoverAuthSent = false) (fits : (c.slaves slave).currentEpoch + 1 < 2 ^ 64) :
    n.start.Keeps d c slave ∧ n.start.currentEpoch = (c.slaves slave).currentEpoch + 1 := by
  have next : n.start.currentEpoch = (c.slaves slave).currentEpoch + 1 := by
    simp only [SlaveNode.start, current, Nat.mod_eq_of_lt fits]
  have epoch : n.start.failoverAuthEpoch = (c.slaves slave).currentEpoch + 1 := next
  refine ⟨⟨fun other past => ?_, fun _ => ?_, fun sent => Bool.noConfusion sent⟩, next⟩
  · rw [SlaveNode.Past, next, epoch]
    exact ⟨Nat.le_succ_of_le past.1, (keeps.past other past).2.1, fun _ => Nat.le_succ_of_le past.1⟩
  · have none : n.start.failoverAuthCount = 0 := (keeps.reset idle).resolve_right early
    rw [none, epoch, honest.tally_above (Nat.lt_succ_self _)]
    exact Nat.zero_le _

def Outcome.Justified (d : Deployment Master) (c : Cluster Master Slave) (slave : Slave) (n : SlaveNode Master) : Outcome Slave → Prop
  | .nothing => True
  | .asked request => request.node = slave ∧ request.currentEpoch = n.currentEpoch ∧ n.failoverAuthEpoch = n.currentEpoch ∧ n.saveConfig = true
  | .won epoch => d.neededQuorum ≤ tally c.votes slave epoch

theorem updateRank_same (n : SlaveNode Master) (rank : Nat) :
    (n.updateRank rank).currentEpoch = n.currentEpoch ∧ (n.updateRank rank).failoverAuthSent = n.failoverAuthSent ∧
      (n.updateRank rank).failoverAuthCount = n.failoverAuthCount ∧ n.failoverAuthTime ≤ (n.updateRank rank).failoverAuthTime := by
  unfold SlaveNode.updateRank
  split
  next => exact ⟨rfl, rfl, rfl, by simp only; omega⟩
  next => exact ⟨rfl, rfl, rfl, Int.le_refl _⟩

theorem Honest.failover (honest : Honest d c) (slave : Slave) (rank random : Nat)
    (fits : (c.slaves slave).starts d c.now rank → (c.slaves slave).currentEpoch + 1 < 2 ^ 64) :
    (clusterHandleSlaveFailover d c.now slave rank random (c.slaves slave)).1.Keeps d c slave ∧
      (clusterHandleSlaveFailover d c.now slave rank random (c.slaves slave)).2.Justified d c slave
        (clusterHandleSlaveFailover d c.now slave rank random (c.slaves slave)).1 := by
  unfold clusterHandleSlaveFailover
  split
  next => exact ⟨honest.keeps_self slave, trivial⟩
  next master replaced =>
    simp only
    split
    next => exact ⟨keeps_schedule slave rank random, trivial⟩
    next early =>
      have ranked := honest.keeps_updateRank rank early
      obtain ⟨current, sent, count, later⟩ := updateRank_same (c.slaves slave) rank
      split
      next => exact ⟨ranked, trivial⟩
      next due =>
        split
        next => exact ⟨ranked, trivial⟩
        next recent =>
          split
          next idle =>
            have begins : (c.slaves slave).starts d c.now rank :=
              ⟨Option.ne_none_iff_exists'.mpr ⟨master, replaced⟩, Int.not_lt.mp recent, Int.not_lt.mp due, sent ▸ idle⟩
            have soon : ¬((c.slaves slave).updateRank rank).retries d c.now := by
              unfold SlaveNode.retries
              omega
            obtain ⟨keeps, next⟩ := honest.keeps_start ranked current soon idle (fits begins)
            exact ⟨keeps, rfl, rfl, rfl, rfl⟩
          next running =>
            split
            next enough =>
              have asked : ((c.slaves slave).updateRank rank).failoverAuthSent = true := by simpa using running
              refine ⟨⟨fun epoch past => ⟨(ranked.past epoch past).1, ?_, (ranked.past epoch past).2.2⟩, ranked.counted, ranked.reset⟩, ?_⟩
              · exact Nat.le_trans (ranked.past epoch past).1 (Nat.le_max_left _ _)
              · exact Nat.le_trans enough (Nat.le_trans (Nat.le_add_right _ _) (ranked.counted asked))
            next => exact ⟨ranked, trivial⟩

theorem Honest.cron (honest : Honest d c) (slave : Slave) (rank random : Nat)
    (fits : (c.slaves slave).starts d c.now rank → (c.slaves slave).currentEpoch + 1 < 2 ^ 64) : Honest d (c.cron d slave rank random) := by
  obtain ⟨keeps, justified⟩ := honest.failover slave rank random fits
  unfold Cluster.cron
  generalize clusterHandleSlaveFailover d c.now slave rank random (c.slaves slave) = result at keeps justified ⊢
  obtain ⟨n, outcome⟩ := result
  have kept := honest.setSlave keeps.sleep
  cases outcome with
  | nothing => exact kept
  | asked request =>
    obtain ⟨rfl, current, epoch, save⟩ := justified
    refine ⟨kept.masters, kept.covered, kept.once, fun other inside => ?_, kept.voted, kept.acked, kept.counted, kept.reset, kept.won⟩
    rcases mem_cons.mp inside with rfl | before
    · have fields : n.clusterBeforeSleep.currentEpoch = n.currentEpoch ∧
          n.clusterBeforeSleep.failoverAuthEpoch = n.currentEpoch := by
        unfold SlaveNode.clusterBeforeSleep
        split <;> exact ⟨rfl, epoch⟩
      simp only [Cluster.setSlave_self, SlaveNode.Past, fields.1, fields.2, current]
      exact ⟨Nat.le_refl _, clusterBeforeSleep_saves (Nat.le_refl _) (.inl save), fun _ => Nat.le_refl _⟩
    · exact kept.asked other before
  | won epoch =>
    refine ⟨kept.masters, kept.covered, kept.once, kept.asked, kept.voted, kept.acked, kept.counted, kept.reset, fun win inside => ?_⟩
    rcases mem_cons.mp inside with rfl | before
    · exact justified
    · exact honest.won win before

theorem tally_erase {acks : List (Vote Master Slave)} {index : Nat} {ack : Vote Master Slave} (found : acks[index]? = some ack)
    (slave : Slave) (epoch : Nat) :
    tally acks slave epoch = tally (acks.eraseIdx index) slave epoch + if ack.node = slave ∧ ack.epoch = epoch then 1 else 0 := by
  obtain ⟨bound, rfl⟩ := List.getElem?_eq_some_iff.mp found
  rw [← tally_cons]
  exact (getElem_cons_eraseIdx_perm bound).symm.countP_eq _

theorem tally_eraseIdx_le (acks : List (Vote Master Slave)) (index : Nat) (slave : Slave) (epoch : Nat) :
    tally (acks.eraseIdx index) slave epoch ≤ tally acks slave epoch :=
  (eraseIdx_sublist acks index).countP_le

theorem Honest.lose (honest : Honest d c) (index : Nat) : Honest d { c with acks := c.acks.eraseIdx index } :=
  ⟨honest.masters, honest.covered, honest.once, honest.asked, honest.voted,
    fun ack inside => honest.acked ack ((eraseIdx_sublist c.acks index).subset inside),
    fun slave sent => Nat.le_trans (Nat.add_le_add_left (tally_eraseIdx_le ..) _) (honest.counted slave sent), honest.reset, honest.won⟩

/-- An ack that is counted was given to this slave in the epoch of its election. -/
theorem Honest.ack (honest : Honest d c) {index : Nat} {ack : Vote Master Slave} (found : c.acks[index]? = some ack)
    (safe : (c.slaves ack.node).failoverAuthSent = false → (c.slaves ack.node).failoverAuthEpoch ≤ ack.epoch →
      (c.slaves ack.node).retries d c.now) :
    Honest d { c.setSlave ack.node ((c.slaves ack.node).acknowledge ack.epoch) with acks := c.acks.eraseIdx index } := by
  have lost := honest.lose index
  have past := honest.voted ack (honest.acked ack (mem_of_getElem? found))
  have keeps : ((c.slaves ack.node).acknowledge ack.epoch).Keeps d { c with acks := c.acks.eraseIdx index } ack.node := by
    refine ⟨fun epoch before => ⟨Nat.le_trans before.1 (Nat.le_max_left _ _), before.2⟩, fun sent => ?_, fun idle => ?_⟩
    · have before := honest.counted ack.node sent
      have erased := tally_erase found ack.node (c.slaves ack.node).failoverAuthEpoch
      simp only [SlaveNode.acknowledge]
      split
      next current =>
        rw [if_pos ⟨rfl, Nat.le_antisymm (past.2.2 sent) current⟩] at erased
        omega
      next => omega
    · have before := honest.reset ack.node idle
      simp only [SlaveNode.acknowledge]
      split
      next current => exact .inr (safe idle current)
      next => exact before
  exact lost.setSlave keeps

theorem Honest.step [DecidableEq Master] (honest : Honest d c) {event : Event Master Slave} (safe : event.Safe d c) :
    Honest d (step d c event) := by
  cases event with
  | wait time =>
    refine ⟨honest.masters, honest.covered, honest.once, honest.asked, honest.voted, honest.acked, honest.counted, fun slave idle => ?_,
      honest.won⟩
    apply (honest.reset slave idle).imp id
    intro due
    unfold SlaveNode.retries at due ⊢
    simp only [ClusterFailover.step]
    omega
  | masterPacket master epoch view save => exact honest.masterPacket master epoch.toNat view _
  | masterSleep master => exact honest.masterSleep master
  | masterCrash master => exact honest.masterCrash safe
  | slavePacket slave epoch view save =>
    apply honest.setSlave
    exact ⟨fun _ past => ⟨Nat.le_trans past.1 (Nat.le_max_left _ _), past.2⟩, honest.counted slave, honest.reset slave⟩
  | slaveSleep slave => exact honest.setSlave (honest.keeps_self slave).sleep
  | slaveCrash slave => exact honest.setSlave (keeps_restart slave)
  | cron slave rank random => exact honest.cron slave rank random safe
  | request master index =>
    simp only [ClusterFailover.step]
    split
    next => exact honest
    next request found => exact honest.vote master (mem_of_getElem? found)
  | ack index =>
    simp only [ClusterFailover.step]
    split
    next => exact honest
    next ack found => exact honest.ack found (safe ack found)
  | lose index => exact honest.lose index

theorem honest_start (d : Deployment Master) (s : Start Master Slave) : Honest d s.cluster := by
  refine ⟨fun master => ?_, fun vote member => ?_, .nil, fun request member => ?_, fun vote member => ?_, fun ack member => ?_,
    fun slave sent => Bool.noConfusion sent, fun slave _ => .inl rfl, fun win member => ?_⟩
  · have valid := UInt64.le_iff_toNat_le.mp (s.valid master)
    exact ⟨valid, valid⟩
  · cases member
  · cases member
  · cases member
  · cases member
  · cases member

def ballot [DecidableEq Master] (c : Cluster Master Slave) (master : Master) (epoch : Nat) : Option Slave :=
  (c.votes.find? fun vote => vote.master = master ∧ vote.epoch = epoch).map Vote.node

omit [DecidableEq Slave] in
theorem ballot_of_mem [DecidableEq Master] (once : OneVote c) {vote : Vote Master Slave} (member : vote ∈ c.votes) :
    ballot c vote.master vote.epoch = some vote.node := by
  unfold ballot
  cases found : c.votes.find? fun other => other.master = vote.master ∧ other.epoch = vote.epoch with
  | none => exact absurd (List.find?_eq_none.mp found vote member) (by simp)
  | some other =>
    have same : other.master = vote.master ∧ other.epoch = vote.epoch := by simpa using List.find?_some found
    rw [inj_on_of_nodup_map once (mem_of_find?_eq_some found) member (Prod.ext same.1 same.2)]
    rfl

theorem tally_le_votesFor [DecidableEq Master] (once : OneVote c) (slave : Slave) (epoch : Nat) :
    tally c.votes slave epoch ≤ votesFor d.masters (ballot c) epoch slave := by
  have voters : ((c.votes.filter fun vote => vote.node = slave ∧ vote.epoch = epoch).map Vote.master).Nodup := by
    have pairs : ((c.votes.filter fun vote => vote.node = slave ∧ vote.epoch = epoch).map fun vote => (vote.master, vote.epoch)).Nodup :=
      List.Nodup.sublist (filter_sublist.map _) once
    apply List.Nodup.map_on ?_ pairs.of_map
    intro vote member other member' same
    apply inj_on_of_nodup_map pairs member member'
    have epochs := of_decide_eq_true (mem_filter.mp member).2
    have epochs' := of_decide_eq_true (mem_filter.mp member').2
    exact Prod.ext same (epochs.2.trans epochs'.2.symm)
  have inside : (c.votes.filter fun vote => vote.node = slave ∧ vote.epoch = epoch).map Vote.master ⊆
      d.masters.filter fun master => ballot c master epoch = some slave := by
    intro master member
    obtain ⟨vote, filtered, rfl⟩ := List.mem_map.mp member
    obtain ⟨granted, node, rfl⟩ := by simpa using filtered
    exact mem_filter.mpr ⟨d.complete _, by simpa [node] using ballot_of_mem once granted⟩
  have few := voters.length_le_of_subset inside
  rwa [length_map, ← countP_eq_length_filter, ← countP_eq_length_filter] at few

theorem Honest.oneWinner [DecidableEq Master] (honest : Honest d c) : OneWinner c := by
  have majority : ∀ slave epoch, (slave, epoch) ∈ c.wins → Majority d.masters (ballot c) epoch slave := fun slave epoch member =>
    Nat.le_trans (honest.won _ member) (tally_le_votesFor honest.once slave epoch)
  intro slave other epoch first second
  exact majority_unique (majority slave epoch first) (majority other epoch second)

/-- Elections are safe in every run in which no master forgets a vote by a crash, no ack is counted for
an election that has not started, and no election wraps the current epoch. -/
theorem failover_elections_safe [DecidableEq Master] (d : Deployment Master) (s : Start Master Slave) (events : List (Event Master Slave))
    (safe : Run.Meets (step d) (Event.Safe d) s.cluster events) :
    OneVote (run d s.cluster events) ∧ OneWinner (run d s.cluster events) := by
  have honest : Honest d (run d s.cluster events) :=
    safe.invariant (fun _ _ honest safe => honest.step safe) (honest_start d s)
  exact ⟨honest.once, honest.oneWinner⟩

def threeMasters : Deployment (Fin 3) := ⟨[0, 1, 2], by decide, 15000⟩

def lastFailed : Start (Fin 3) Bool where
  now := 1000000
  currentEpoch _ := 0
  lastVoteEpoch _ := 0
  valid _ := UInt64.le_refl 0
  masterView _ := ⟨fun _ => false, fun _ => some 2, fun master => master = 2, fun _ => some 0, 0⟩
  slaveEpoch _ := 0
  configEpoch _ := 0
  slaveView _ := ⟨some 2, fun master => master = 2, fun _ => [0], fun _ => 0, false, false, false, 0⟩

theorem failover_elections_safe_three :
    (true, 1) ∈ (run threeMasters lastFailed.cluster
        [.cron true 0 0, .wait 600, .cron true 0 0, .request 0 0, .request 1 0, .ack 0, .ack 0, .cron true 0 0]).wins ∧
      OneWinner (run threeMasters lastFailed.cluster
        [.cron true 0 0, .wait 600, .cron true 0 0, .request 0 0, .request 1 0, .ack 0, .ack 0, .cron true 0 0]) := by
  refine ⟨by decide, (failover_elections_safe threeMasters lastFailed
    [.cron true 0 0, .wait 600, .cron true 0 0, .request 0 0, .request 1 0, .ack 0, .ack 0, .cron true 0 0] ?_).2⟩
  refine ⟨fun _ => by decide, trivial, fun _ => by decide, trivial, trivial, fun ack found idle => ?_, fun ack found idle => ?_,
    fun begins => ?_, trivial⟩
  · cases found
    exact absurd idle (by decide)
  · cases found
    exact absurd idle (by decide)
  · exact absurd begins.2.2.2 (by decide)

/-- Two masters vote for one slave and crash before they have saved it. Then they vote for the other
slave in the same epoch. -/
theorem forgotten_votes_elect_two :
    let c := run threeMasters lastFailed.cluster
      [.cron true 0 0, .cron false 0 0, .wait 600, .cron true 0 0, .cron false 0 0, .request 0 1, .request 1 1, .ack 0, .ack 0,
        .cron true 0 0, .masterCrash 0, .masterCrash 1, .request 0 0, .request 1 0, .ack 0, .ack 0, .cron false 0 0]
    ¬OneVote c ∧ ¬OneWinner c := by
  refine ⟨by unfold OneVote; decide, fun unique => ?_⟩
  have same : true = false := unique true false 1 (by decide) (by decide)
  cases same

end Cplusplus.Redis.ClusterFailover
