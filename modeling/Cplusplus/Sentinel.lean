import Mathlib.Algebra.Ring.Nat
import Mathlib.Data.List.AList

/-! The leader election of `sentinel.c`, for one master and a fixed set of Sentinels. A Sentinel
is named by its runid. What the clock decides (down states, delays, timeouts) is part of the
events. -/

namespace Cplusplus.Redis

/-- SENTINEL_FAILOVER_STATE_NONE and the states after it. -/
inductive FailoverState where
  | none
  | waitStart
  | selectSlave
  | sendSlaveofNoone
  | waitPromotion
  | reconfSlaves
  | updateConfig
deriving DecidableEq

/-- What a Sentinel keeps about another one: SRI_MASTER_DOWN and the vote that it reported. -/
structure SentinelPeer (Runid : Type) where
  masterDown : Bool
  leader : Option Runid
  leaderEpoch : Nat

structure SentinelNode (Runid : Type) where
  currentEpoch : Nat
  addr : Nat
  sDown : Bool
  oDown : Bool
  failoverInProgress : Bool
  failoverState : FailoverState
  failoverEpoch : Nat
  leader : Option Runid
  leaderEpoch : Nat
  sentinels : Runid → SentinelPeer Runid

structure EntryOrder (Entry : Type) where
  entries : List Entry → List Entry
  perm : ∀ list, (entries list).Perm list

variable {Runid : Type} [DecidableEq Runid]

def SentinelNode.setPeer (s : SentinelNode Runid) (peer : Runid) (ri : SentinelPeer Runid) : SentinelNode Runid :=
  { s with sentinels := Function.update s.sentinels peer ri }

def sentinelVoteLeader (s : SentinelNode Runid) (reqEpoch : Nat) (reqRunid : Runid) :
    SentinelNode Runid × Option Runid × Nat :=
  let s := if reqEpoch > s.currentEpoch then { s with currentEpoch := reqEpoch } else s
  let s :=
    if s.leaderEpoch < reqEpoch ∧ s.currentEpoch ≤ reqEpoch then
      { s with leader := some reqRunid, leaderEpoch := s.currentEpoch }
    else s
  (s, s.leader, s.leaderEpoch)

abbrev LeaderCounters (Runid : Type) := AList fun _ : Runid => Nat

/-- The counter is an uint64, it is returned as an int and used as an uint64. -/
def sentinelLeaderIncr (counters : LeaderCounters Runid) (runid : Runid) : LeaderCounters Runid × Nat :=
  let votes := (((counters.lookup runid).getD 0) + 1) % 2 ^ 64
  (counters.insert runid votes, ((BitVec.ofNat 32 votes).signExtend 64).toNat)

def countVotes (currentEpoch : Nat) : List (SentinelPeer Runid) → LeaderCounters Runid → LeaderCounters Runid
  | [], counters => counters
  | ri :: peers, counters =>
    match ri.leader with
    | some leader =>
      if ri.leaderEpoch = currentEpoch then countVotes currentEpoch peers (sentinelLeaderIncr counters leader).1
      else countVotes currentEpoch peers counters
    | none => countVotes currentEpoch peers counters

def mostVoted : List (Sigma fun _ : Runid => Nat) → Option Runid × Nat → Option Runid × Nat
  | [], best => best
  | ⟨runid, votes⟩ :: entries, best => mostVoted entries (if votes > best.2 then (some runid, votes) else best)

def sentinelGetLeader (order : EntryOrder (Sigma fun _ : Runid => Nat)) (quorum : Nat) (peers : List Runid) (self : Runid)
    (s : SentinelNode Runid) (epoch : Nat) : SentinelNode Runid × Option Runid :=
  let voters := (peers.length + 1) % 2 ^ 32
  let counters := countVotes s.currentEpoch (peers.map s.sentinels) ∅
  let (winner, maxVotes) := mostVoted (order.entries counters.entries) (none, 0)
  let (s, myvote, leaderEpoch) := sentinelVoteLeader s epoch (winner.getD self)
  let (winner, maxVotes) :=
    match myvote with
    | some vote =>
      let votes := (sentinelLeaderIncr counters vote).2
      if leaderEpoch = epoch ∧ votes > maxVotes then (some vote, votes) else (winner, maxVotes)
    | none => (winner, maxVotes)
  let votersQuorum := voters / 2 + 1
  (s, if maxVotes < votersQuorum ∨ maxVotes < quorum then none else winner)

def sentinelAskMasterState (s : SentinelNode Runid) (self peer : Runid) (tooOld ask : Bool) :
    SentinelNode Runid × Option (Nat × Nat × Option Runid) :=
  let s :=
    if tooOld then s.setPeer peer { s.sentinels peer with masterDown := false, leader := none } else s
  (s, if s.sDown && ask then
      some (s.addr, s.currentEpoch, if s.failoverState ≠ .none then some self else none)
    else none)

/-- SENTINEL IS-MASTER-DOWN-BY-ADDR: an epoch that is no long long is an error, which the caller
ignores. -/
def sentinelIsMasterDownByAddr (s : SentinelNode Runid) (addr reqEpoch : Nat) (reqRunid : Option Runid) :
    SentinelNode Runid × Option (Bool × Option Runid × Nat) :=
  if 2 ^ 63 ≤ reqEpoch then (s, none)
  else if s.addr ≠ addr then (s, some (false, none, 0))
  else
    match reqRunid with
    | some runid =>
      let (s, leader, leaderEpoch) := sentinelVoteLeader s reqEpoch runid
      (s, some (s.sDown, leader, leaderEpoch))
    | none => (s, some (s.sDown, none, 0))

def sentinelReceiveIsMasterDownReply (s : SentinelNode Runid) (peer : Runid) (down : Bool) (leader : Option Runid)
    (leaderEpoch : Nat) : SentinelNode Runid :=
  let ri := { s.sentinels peer with masterDown := down }
  let ri :=
    match leader with
    | some runid => { ri with leader := some runid, leaderEpoch := leaderEpoch }
    | none => ri
  s.setPeer peer ri

def sentinelProcessHelloMessage (s : SentinelNode Runid) (currentEpoch : Nat) : SentinelNode Runid :=
  if currentEpoch > s.currentEpoch then { s with currentEpoch := currentEpoch } else s

def sentinelCheckSubjectivelyDown (s : SentinelNode Runid) (down : Bool) : SentinelNode Runid := { s with sDown := down }

def sentinelCheckObjectivelyDown (quorum : Nat) (peers : List Runid) (s : SentinelNode Runid) : SentinelNode Runid :=
  let reports := (1 + peers.countP fun peer => (s.sentinels peer).masterDown) % 2 ^ 32
  { s with oDown := s.sDown && decide (quorum ≤ reports) }

def sentinelStartFailover (s : SentinelNode Runid) : SentinelNode Runid :=
  let epoch := (s.currentEpoch + 1) % 2 ^ 64
  { s with
    failoverState := .waitStart
    failoverInProgress := true
    currentEpoch := epoch
    failoverEpoch := epoch }

def sentinelStartFailoverIfNeeded (s : SentinelNode Runid) (recent : Bool) : SentinelNode Runid :=
  if !s.oDown || s.failoverInProgress || recent then s else sentinelStartFailover s

def sentinelAbortFailover (s : SentinelNode Runid) : SentinelNode Runid :=
  { s with failoverInProgress := false, failoverState := .none }

def sentinelFailoverWaitStart (order : EntryOrder (Sigma fun _ : Runid => Nat)) (quorum : Nat) (peers : List Runid)
    (self : Runid) (s : SentinelNode Runid) (timeout : Bool) : SentinelNode Runid × Bool :=
  let (s, leader) := sentinelGetLeader order quorum peers self s s.failoverEpoch
  if leader = some self then ({ s with failoverState := .selectSlave }, true)
  else (if timeout then sentinelAbortFailover s else s, false)

/-- The states after the election. Up to WAIT_PROMOTION the failover may be aborted. -/
def sentinelFailoverNext (s : SentinelNode Runid) (abort : Bool) : SentinelNode Runid :=
  match s.failoverState with
  | .none | .waitStart => s
  | .selectSlave => if abort then sentinelAbortFailover s else { s with failoverState := .sendSlaveofNoone }
  | .sendSlaveofNoone => if abort then sentinelAbortFailover s else { s with failoverState := .waitPromotion }
  | .waitPromotion => if abort then sentinelAbortFailover s else { s with failoverState := .reconfSlaves }
  | .reconfSlaves => { s with failoverState := .updateConfig }
  | .updateConfig => s

/-- `sentinelResetMaster` with SENTINEL_RESET_NO_SENTINELS, and the new address. -/
def sentinelResetMasterAndChangeAddress (s : SentinelNode Runid) (addr : Nat) : SentinelNode Runid :=
  { s with
    addr := addr
    sDown := false
    oDown := false
    failoverInProgress := false
    leader := none
    failoverState := .none }

inductive SentinelMessage (Runid : Type) where
  | request (sender receiver : Runid) (addr reqEpoch : Nat) (reqRunid : Option Runid)
  | reply (sender receiver : Runid) (down : Bool) (leader : Option Runid) (leaderEpoch : Nat)
  | hello (receiver : Runid) (currentEpoch : Nat)

structure Deployment (Runid : Type) where
  sentinels : List Runid
  nodup : sentinels.Nodup
  quorum : Runid → Nat

def Deployment.peers (d : Deployment Runid) (self : Runid) : List Runid := d.sentinels.erase self

structure SentinelNet (Runid : Type) where
  nodes : Runid → SentinelNode Runid
  inFlight : List (SentinelMessage Runid)
  elected : List (Runid × Nat)

namespace SentinelNet

def setNode (net : SentinelNet Runid) (self : Runid) (s : SentinelNode Runid) : SentinelNet Runid :=
  { net with nodes := Function.update net.nodes self s }

def send (net : SentinelNet Runid) (messages : List (SentinelMessage Runid)) : SentinelNet Runid :=
  { net with inFlight := net.inFlight ++ messages }

def receive (net : SentinelNet Runid) : SentinelMessage Runid → SentinelNet Runid
  | .request sender receiver addr reqEpoch reqRunid =>
    let (s, answer) := sentinelIsMasterDownByAddr (net.nodes receiver) addr reqEpoch reqRunid
    (net.setNode receiver s).send (answer.toList.map fun (down, leader, leaderEpoch) =>
      .reply receiver sender down leader leaderEpoch)
  | .reply sender receiver down leader leaderEpoch =>
    net.setNode receiver (sentinelReceiveIsMasterDownReply (net.nodes receiver) sender down leader leaderEpoch)
  | .hello receiver currentEpoch =>
    net.setNode receiver (sentinelProcessHelloMessage (net.nodes receiver) currentEpoch)

end SentinelNet

/-- A message is received or lost by its position among those in flight, so it can be delayed
for as long as one likes. -/
inductive SentinelEvent (Runid : Type) where
  | checkSubjectivelyDown (self : Runid) (down : Bool)
  | checkObjectivelyDown (self : Runid)
  | startFailoverIfNeeded (self : Runid) (recent : Bool)
  | askMasterState (self peer : Runid) (tooOld ask : Bool)
  | sendHello (self peer : Runid)
  | receive (position : Nat)
  | lose (position : Nat)
  | failoverWaitStart (self : Runid) (order : EntryOrder (Sigma fun _ : Runid => Nat)) (timeout : Bool)
  | failoverNext (self : Runid) (abort : Bool)
  | changeAddress (self : Runid) (addr : Nat)

/-- The state machine runs the leader test only in a failover that waits for its start. -/
def SentinelNode.waiting (s : SentinelNode Runid) : Bool := s.failoverInProgress && s.failoverState == .waitStart

def sentinelStep (d : Deployment Runid) (net : SentinelNet Runid) (event : SentinelEvent Runid) : SentinelNet Runid :=
  match event with
  | .checkSubjectivelyDown self down => net.setNode self (sentinelCheckSubjectivelyDown (net.nodes self) down)
  | .checkObjectivelyDown self =>
    net.setNode self (sentinelCheckObjectivelyDown (d.quorum self) (d.peers self) (net.nodes self))
  | .startFailoverIfNeeded self recent => net.setNode self (sentinelStartFailoverIfNeeded (net.nodes self) recent)
  | .askMasterState self peer tooOld ask =>
    if (d.peers self).contains peer then
      let (s, request) := sentinelAskMasterState (net.nodes self) self peer tooOld ask
      (net.setNode self s).send (request.toList.map fun (addr, reqEpoch, reqRunid) =>
        .request self peer addr reqEpoch reqRunid)
    else net
  | .sendHello self peer => net.send [.hello peer (net.nodes self).currentEpoch]
  | .receive position =>
    match net.inFlight[position]? with
    | some message => { net with inFlight := net.inFlight.eraseIdx position }.receive message
    | none => net
  | .lose position => { net with inFlight := net.inFlight.eraseIdx position }
  | .failoverWaitStart self order timeout =>
    if d.sentinels.contains self && (net.nodes self).waiting then
      let (s, isleader) :=
        sentinelFailoverWaitStart order (d.quorum self) (d.peers self) self (net.nodes self) timeout
      let net := net.setNode self s
      if isleader then { net with elected := net.elected ++ [(self, s.failoverEpoch)] } else net
    else net
  | .failoverNext self abort => net.setNode self (sentinelFailoverNext (net.nodes self) abort)
  | .changeAddress self addr => net.setNode self (sentinelResetMasterAndChangeAddress (net.nodes self) addr)

def sentinelStart (addr : Nat) (currentEpoch leaderEpoch : Runid → Nat) : SentinelNet Runid where
  nodes self :=
    { currentEpoch := currentEpoch self
      addr := addr
      sDown := false
      oDown := false
      failoverInProgress := false
      failoverState := .none
      failoverEpoch := 0
      leader := none
      leaderEpoch := leaderEpoch self
      sentinels := fun _ => { masterDown := false, leader := none, leaderEpoch := 0 } }
  inFlight := []
  elected := []

end Cplusplus.Redis
