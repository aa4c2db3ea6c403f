import Cplusplus.Cluster

/-! The failure detection of `cluster.c` on top of the node table: timeouts, reports of other masters and the size of
the cluster. The clock stands still during an event. -/

namespace Cplusplus.Redis.ClusterFailure
open Cluster (ClusterState allSlots clusterLookupNode Fault)

structure FailReport (Addr : Type) where
  node : Addr
  time : Int

/-- REDIS_NODE_PFAIL and REDIS_NODE_FAIL of a node, and the fields that go with them. -/
structure NodeFailure (Addr : Type) where
  pfail : Bool
  fail : Bool
  failTime : Int
  pingSent : Int
  failReports : List (FailReport Addr)

structure Config where
  clusterNodeTimeout : Int
  clusterRequireFullCoverage : Bool

/-- `stateOk` is REDIS_CLUSTER_OK, the two times after it are static variables of `clusterUpdateState`. -/
structure Watch (Addr Name : Type) where
  cluster : ClusterState Addr Name
  failure : Addr → NodeFailure Addr
  size : Nat
  stateOk : Bool
  amongMinorityTime : Int
  firstCallTime : Int
  now : Int

variable {Addr Name : Type} [DecidableEq Addr] [LinearOrder Name]

def listed (c : ClusterState Addr Name) : List Addr := c.nodes.entries.map (·.2)

def Watch.modify (w : Watch Addr Name) (n : Addr) (change : NodeFailure Addr → NodeFailure Addr) : Watch Addr Name :=
  { w with failure := Function.update w.failure n (change (w.failure n)) }

/-- REDIS_CLUSTER_FAIL_REPORT_VALIDITY_MULT -/
def maxtime (config : Config) : Int := config.clusterNodeTimeout * 2

def clusterNodeAddFailureReport (sender : Addr) (now : Int) : List (FailReport Addr) → List (FailReport Addr)
  | [] => [⟨sender, now⟩]
  | fr :: l => if fr.node = sender then { fr with time := now } :: l else fr :: clusterNodeAddFailureReport sender now l

def clusterNodeCleanupFailureReports (config : Config) (now : Int) (l : List (FailReport Addr)) : List (FailReport Addr) :=
  l.filter fun fr => !decide (maxtime config < now - fr.time)

def clusterNodeDelFailureReport (config : Config) (now : Int) (l : List (FailReport Addr)) (sender : Addr) : List (FailReport Addr) :=
  if l.any (·.node = sender) then clusterNodeCleanupFailureReports config now (l.eraseP (·.node = sender)) else l

def neededQuorum (size : Nat) : Nat := size / 2 + 1

def Watch.cleanup (config : Config) (w : Watch Addr Name) (n : Addr) : Watch Addr Name :=
  w.modify n fun x => { x with failReports := clusterNodeCleanupFailureReports config w.now x.failReports }

def Watch.failures (w : Watch Addr Name) (n : Addr) : Nat :=
  (w.failure n).failReports.length + if (w.cluster.heap w.cluster.myself).master then 1 else 0

def markNodeAsFailingIfNeeded (config : Config) (w : Watch Addr Name) (n : Addr) : Watch Addr Name :=
  if (w.failure n).pfail = false then w
  else if (w.failure n).fail then w
  else
    let w := w.cleanup config n
    if w.failures n < neededQuorum w.size then w
    else w.modify n fun x => { x with pfail := false, fail := true, failTime := w.now }

structure Gossip (Name : Type) where
  nodename : Name
  failing : Bool

def Watch.gossipSender (w : Watch Addr Name) (link : Option Addr) (sender : Name) : Option Addr :=
  match link with
  | some node => some node
  | none => clusterLookupNode w.cluster sender

def clusterProcessGossipSection (config : Config) (w : Watch Addr Name) (link : Option Addr) (hdrSender : Name) (g : Gossip Name) :
    Watch Addr Name :=
  match clusterLookupNode w.cluster g.nodename, w.gossipSender link hdrSender with
  | some node, some sender =>
    if (w.cluster.heap sender).master = true ∧ node ≠ w.cluster.myself then
      if g.failing then
        markNodeAsFailingIfNeeded config
          (w.modify node fun x => { x with failReports := clusterNodeAddFailureReport sender w.now x.failReports }) node
      else w.modify node fun x => { x with failReports := clusterNodeDelFailureReport config w.now x.failReports sender }
    else w
  | _, _ => w

/-- REDIS_CLUSTER_FAIL_UNDO_TIME_MULT -/
def clearNodeFailureIfNeeded (config : Config) (w : Watch Addr Name) (n : Addr) : Watch Addr Name :=
  let w :=
    if (w.cluster.heap n).slave = true ∨ (w.cluster.heap n).numslots = 0 then w.modify n fun x => { x with fail := false } else w
  if (w.cluster.heap n).master = true ∧ (w.cluster.heap n).numslots > 0 ∧
      config.clusterNodeTimeout * 2 < w.now - (w.failure n).failTime then
    w.modify n fun x => { x with fail := false }
  else w

/-- The node of the link has sent a PONG. -/
def processPong (config : Config) (w : Watch Addr Name) (n : Addr) : Watch Addr Name :=
  let w := w.modify n fun x => { x with pingSent := 0 }
  if (w.failure n).pfail then w.modify n fun x => { x with pfail := false }
  else if (w.failure n).fail then clearNodeFailureIfNeeded config w n
  else w

/-- A FAIL packet. -/
def processFail (w : Watch Addr Name) (sender about : Name) : Watch Addr Name :=
  match clusterLookupNode w.cluster sender, clusterLookupNode w.cluster about with
  | some _, some failing =>
    if (w.failure failing).fail = true ∨ failing = w.cluster.myself then w
    else w.modify failing fun x => { x with fail := true, failTime := w.now, pfail := false }
  | _, _ => w

def sendPing (w : Watch Addr Name) (n : Addr) : Watch Addr Name := w.modify n fun x => { x with pingSent := w.now }

def cronNode (config : Config) (w : Watch Addr Name) (n : Addr) : Watch Addr Name :=
  if n = w.cluster.myself ∨ (w.cluster.heap n).handshake = true then w
  else if (w.failure n).pingSent = 0 then w
  else if config.clusterNodeTimeout < w.now - (w.failure n).pingSent ∧ (w.failure n).pfail = false ∧ (w.failure n).fail = false then
    w.modify n fun x => { x with pfail := true }
  else w

def voters (c : ClusterState Addr Name) : List Addr := (listed c).filter fun n => (c.heap n).master && (c.heap n).numslots != 0

/-- REDIS_CLUSTER_MAX_REJOIN_DELAY and REDIS_CLUSTER_MIN_REJOIN_DELAY -/
def rejoinDelay (config : Config) : Int := max (min config.clusterNodeTimeout 5000) 500

def covered (config : Config) (w : Watch Addr Name) : Bool :=
  !config.clusterRequireFullCoverage || allSlots.all fun slot => (w.cluster.slots slot).any fun owner => !(w.failure owner).fail

def Watch.master (w : Watch Addr Name) : Bool := (w.cluster.heap w.cluster.myself).master

def minority (w : Watch Addr Name) : Bool :=
  decide ((voters w.cluster).countP (fun n => !(w.failure n).fail && !(w.failure n).pfail) <
    neededQuorum (voters w.cluster).length)

def changeState (config : Config) (newState : Bool) (w : Watch Addr Name) : Watch Addr Name :=
  if newState = w.stateOk then w
  else if newState = true ∧ w.master = true ∧ w.now - w.amongMinorityTime < rejoinDelay config then w
  else { w with stateOk := newState }

def countMasters (config : Config) (w : Watch Addr Name) : Watch Addr Name :=
  changeState config (covered config w && !minority w)
    { w with
      size := (voters w.cluster).length
      amongMinorityTime := if minority w then w.now else w.amongMinorityTime }

/-- REDIS_CLUSTER_WRITABLE_DELAY is 2000. -/
def delayed (config : Config) (w : Watch Addr Name) : Watch Addr Name :=
  if w.master = true ∧ w.stateOk = false ∧ w.now - w.firstCallTime < 2000 then w else countMasters config w

def clusterUpdateState (config : Config) (w : Watch Addr Name) : Watch Addr Name :=
  delayed config { w with firstCallTime := if w.firstCallTime = 0 then w.now else w.firstCallTime }

/-- What the failure detection gets to know of a change of the table: `clusterDelNode` drops the reports of a node, and
`createClusterNode` starts without any. -/
def Watch.follow (config : Config) (w : Watch Addr Name) (c : ClusterState Addr Name) : Watch Addr Name :=
  { w with
    cluster := c
    failure n :=
      if n ∈ listed c ∧ n ∉ listed w.cluster then ⟨false, false, 0, 0, []⟩
      else
        let x := w.failure n
        let deleted := (x.failReports.map (·.node)).filter fun sender => sender ∈ listed w.cluster ∧ sender ∉ listed c
        { x with failReports := deleted.foldl (clusterNodeDelFailureReport config w.now) x.failReports } }

inductive Event (Addr Name : Type) where
  | cluster (event : Cluster.Event Addr Name)
  | gossip (link : Option Addr) (hdrSender : Name) (g : Gossip Name)
  | pong (n : Name)
  | fail (sender about : Name)
  | ping (n : Name)
  | cron (n : Name)
  | updateState
  | tick (ms : Nat)

def Watch.at_ (w : Watch Addr Name) (n : Name) (change : Addr → Watch Addr Name) : Watch Addr Name :=
  match clusterLookupNode w.cluster n with
  | none => w
  | some n => change n

def step (config : Config) (w : Watch Addr Name) : Event Addr Name → Except Fault (Watch Addr Name)
  | .cluster event => do
    let c ← Cluster.step w.cluster event
    .ok (w.follow config c)
  | .gossip link hdrSender g => .ok (if w.cluster.linked link then clusterProcessGossipSection config w link hdrSender g else w)
  | .pong n => .ok (w.at_ n (processPong config w))
  | .fail sender about => .ok (processFail w sender about)
  | .ping n => .ok (w.at_ n (sendPing w))
  | .cron n => .ok (w.at_ n (cronNode config w))
  | .updateState => .ok (clusterUpdateState config w)
  | .tick ms => .ok { w with now := w.now + ms }

def run (config : Config) (w : Watch Addr Name) (events : List (Event Addr Name)) : Except Fault (Watch Addr Name) :=
  events.foldlM (step config) w

end Cplusplus.Redis.ClusterFailure
