import Cplusplus.Proofs.ClusterGraph

/-! Runs that keep masters and slaves linked to each other: no master that turns into a slave has slaves, and each node
that is deleted can tell its master and its slaves. -/

set_option linter.unusedSectionVars false

namespace Cplusplus.Redis.Cluster

open Faults Option

variable {Addr Name : Type} [DecidableEq Addr] [LinearOrder Name] {c d e : ClusterState Addr Name}

section
variable (graph : Graph c)
include graph

section
variable (table : Table c)
include table

theorem Graph.grown (grown : Grown c d) : Graph d := by
  have heap : ∀ a, c.Known a → d.heap a = c.heap a := fun a known => (grown.known a known).2
  refine ⟨fun m there x => ?_, fun m there => ?_, fun x m there follows => ?_, ?_⟩
  · by_cases before : c.Known m
    · rw [heap m before, graph.slaves m before x]
      constructor
      · rintro ⟨known, follows⟩
        exact ⟨(grown.known x known).1, by rw [heap x known, follows]⟩
      · rintro ⟨known, follows⟩
        rcases grown.new x known with old | ⟨-, alone⟩
        · rw [heap x old] at follows
          exact ⟨old, follows⟩
        · rw [alone] at follows
          exact absurd follows.symm (some_ne_none _)
    · rcases grown.new m there with old | ⟨childless, -⟩
      · exact absurd old before
      · rw [childless]
        refine ⟨fun member => absurd member List.not_mem_nil, ?_⟩
        rintro ⟨known, follows⟩
        rcases grown.new x known with old | ⟨-, alone⟩
        · rw [heap x old] at follows
          exact absurd (graph.target x m old follows) before
        · rw [alone] at follows
          exact absurd follows.symm (some_ne_none _)
  · rcases grown.new m there with old | ⟨childless, -⟩
    · rw [heap m old]
      exact graph.nodup m old
    · rw [childless]
      exact List.nodup_nil
  · rcases grown.new x there with old | ⟨-, alone⟩
    · rw [heap x old] at follows
      exact (grown.known m (graph.target x m old follows)).1
    · rw [alone] at follows
      exact absurd follows.symm (some_ne_none _)
  · rw [grown.loosened.myself, heap _ table.me]
    exact graph.mine

theorem Graph.updateSlots {sender : Addr} (known : c.Known sender) (epoch : Nat) (claimed : Slot → Bool) :
    Yields Benign Graph (clusterUpdateSlotsConfigWith c sender epoch claimed) := by
  unfold clusterUpdateSlotsConfigWith
  split
  next => exact graph
  next other =>
    apply (claims_loop table known other epoch claimed).bind
    intro r claims
    have kept := graph.shape claims.rebound.shape
    have flush : Graph (r.dirty.foldl delKeysInSlot r.state) := by
      rw [(delKeys_fold r.dirty r.state).2]
      exact kept.shape ⟨rfl, rfl, rfl, fun _ => rfl⟩
    unfold Rebinding.finish
    simp only
    split
    next =>
      split
      next => exact .inl rfl
      next =>
        split
        next => exact kept.setMaster claims.table ((claims.rebound.known sender).mpr known)
        next => exact flush
    next => exact flush

theorem Graph.processConfig {hdr : Header Name} {sender : Addr} (there : c.Known sender) (epoch : Nat)
    (handshakes : List (Fresh Addr Name)) (childless : hdr.slaveof ≠ none → (c.heap sender).master = true → (c.heap sender).slaves = []) :
    Yields Benign Graph (c.processConfig hdr sender epoch handshakes) := by
  unfold ClusterState.processConfig
  apply ((table.switchRole hdr sender).and (graph.switchRole table there childless)).bind
  rintro s ⟨⟨switched, -⟩, roles⟩
  have known := (switched.known sender).mpr there
  have tables := switched.loosened.table
  have update : Yields Benign (fun u => Table u ∧ Graph u) (s.updateSlots hdr sender epoch) := by
    unfold ClusterState.updateSlots
    split
    next => exact ((tables.updateSlots known epoch hdr.myslots).mono fun u updated => updated.table).and (roles.updateSlots tables known epoch hdr.myslots)
    next => exact ⟨tables, roles⟩
  apply update.bind
  rintro u ⟨table', graph'⟩
  have checked : Table (u.checkCollision sender epoch) ∧ Graph (u.checkCollision sender epoch) := by
    unfold ClusterState.checkCollision clusterHandleConfigEpochCollision
    split
    next =>
      split
      next => exact ⟨table'.frame (frame_bumpEpoch u), graph'.shape (shape_epoch u _ _ _)⟩
      next => exact ⟨table', graph'⟩
    next => exact ⟨table', graph'⟩
  exact checked.2.grown checked.1 (checked.1.handshakes _)

theorem Graph.processUpdate (about : Name) (epoch : Nat) (claimed : Slot → Bool) :
    Yields Benign Graph (c.processUpdate about epoch claimed) := by
  unfold ClusterState.processUpdate
  split
  next => exact graph
  next n found =>
    split
    next => exact graph
    next =>
      simp only
      have master : Graph (if (c.heap n).slave then clusterSetNodeAsMaster c n else c) ∧
          Frame c (if (c.heap n).slave then clusterSetNodeAsMaster c n else c) := by
        split
        next => exact ⟨graph.setNodeAsMaster (table.known found), frame_setNodeAsMaster c n⟩
        next => exact ⟨graph, Frame.refl c⟩
      generalize (if (c.heap n).slave then clusterSetNodeAsMaster c n else c) = d at master ⊢
      obtain ⟨kept, frame⟩ := master
      have changed := frame_modify d n (fun x => { x with configEpoch := epoch }) (fun _ => ⟨rfl, rfl, rfl⟩) fun settled => settled
      have known := (changed.known n).mpr ((frame.known n).mpr (table.known found))
      have shape : Shape d (d.modify n fun x => { x with configEpoch := epoch }) := shape_epoch d n (fun _ => epoch) d.currentEpoch
      exact (kept.shape shape).updateSlots ((table.frame frame).frame changed) known epoch claimed

end

theorem Graph.rename {n : Addr} (there : c.Known n) {newname : Name} (unused : c.nodes.lookup newname = none) :
    Graph { c.modify n fun x => { x with name := newname } with nodes := (c.nodes.erase (c.heap n).name).insert newname n } := by
  have heap : ∀ a, ((c.modify n fun x => { x with name := newname }).heap a).slaves = (c.heap a).slaves ∧
      ((c.modify n fun x => { x with name := newname }).heap a).slaveof = (c.heap a).slaveof ∧
        ((c.modify n fun x => { x with name := newname }).heap a).master = (c.heap a).master := by
    intro a
    by_cases here : a = n
    · subst here
      simp only [modify_self, and_self]
    · simp only [modify_of_ne _ _ here, and_self]
  refine graph.same (known_rename there unused) (fun a => ⟨(heap a).1, (heap a).2.1⟩) fun master => ?_
  exact (heap c.myself).2.1.trans (graph.mine ((heap c.myself).2.2.symm.trans master))

theorem Graph.flags {n : Addr} (other : n ≠ c.myself) (change : ClusterNode Addr Name → ClusterNode Addr Name)
    (keeps : ∀ x, (change x).name = x.name ∧ (change x).slaves = x.slaves ∧ (change x).slaveof = x.slaveof) : Graph (c.modify n change) := by
  have heap : ∀ a, ((c.modify n change).heap a).name = (c.heap a).name ∧ ((c.modify n change).heap a).slaves = (c.heap a).slaves ∧
      ((c.modify n change).heap a).slaveof = (c.heap a).slaveof := by
    intro a
    by_cases here : a = n
    · subst here
      rw [modify_self]
      exact keeps _
    · rw [modify_of_ne _ _ here]
      exact ⟨rfl, rfl, rfl⟩
  have self : (c.modify n change).heap (c.modify n change).myself = c.heap c.myself := modify_of_ne c change (Ne.symm other)
  refine graph.same (fun a => ?_) (fun a => (heap a).2) ?_
  · rw [ClusterState.Known, (heap a).1]
    rfl
  · rw [self]
    exact graph.mine

theorem Graph.processUnknown (table : Table c) {link : Option Addr} (linked : ∀ node, link = some node → c.Known node)
    {hdr : Header Name} (unused : c.nodes.lookup hdr.sender = none) : Yields Benign Graph (c.processUnknown link hdr) := by
  unfold ClusterState.processUnknown
  split
  next => exact graph
  next _ node =>
    split
    next handshake =>
      rw [rename_eq (linked node rfl) unused]
      exact (graph.rename (linked node rfl) unused).flags (table.notMyself handshake) _ fun _ => ⟨rfl, rfl, rfl⟩
    next => exact graph

end

def TidyPacket (c : ClusterState Addr Name) (link : Option Addr) (hdr : Header Name) (message : Message Addr Name) : Prop :=
  message.configures = true → ∀ sender, clusterLookupNode c hdr.sender = some sender →
    (∀ node, link = some node → (c.heap node).handshake = true → (c.heap node).Deletable) ∧
      ((∀ node, link = some node → (c.heap node).handshake = false ∧ (c.heap node).name = hdr.sender) → hdr.slaveof ≠ none →
        (c.heap sender).master = true → (c.heap sender).slaves = [])

theorem Graph.processKnown (graph : Graph c) (table : Table c) {link : Option Addr} (linked : c.linked link = true) {hdr : Header Name}
    {sender : Addr} (found : clusterLookupNode c hdr.sender = some sender) (handshakes : List (Fresh Addr Name)) {message : Message Addr Name}
    (configures : message.configures = true) (tidy : TidyPacket c link hdr message) : Yields Benign Graph (c.processKnown link hdr sender handshakes) := by
  obtain ⟨deletable, childless⟩ := tidy configures sender found
  have shape := shape_learn c hdr sender
  have kept := graph.shape shape
  have table' := (table.learn hdr sender).table
  have there := (shape.known sender).mpr (table.known found)
  have config : (∀ node, link = some node → (c.heap node).handshake = false ∧ (c.heap node).name = hdr.sender) →
      Yields Benign Graph ((c.learn hdr sender).processConfig hdr sender (c.senderConfigEpoch hdr sender) handshakes) := by
    intro own
    apply kept.processConfig table' there
    rw [shape.node]
    exact childless own
  unfold ClusterState.processKnown
  simp only
  split
  next => exact config fun node is => absurd is.symm (some_ne_none _)
  next _ node =>
    have known := (shape.known node).mpr (linked_known linked rfl)
    have roles := shape.node node
    split
    next handshake =>
      have other := table'.notMyself handshake
      rw [roles] at handshake
      have can : ((c.learn hdr sender).heap node).Deletable := by
        rw [roles]
        exact deletable node rfl handshake
      exact (kept.delNode table' known other can).mono fun _ after => after.1
    next settled =>
      split
      next => exact kept
      next named =>
        apply config
        rintro _ ⟨⟩
        rw [not_not] at named
        rw [roles] at settled named
        exact ⟨Bool.eq_false_of_not_eq_true settled, named⟩

theorem Graph.packet (graph : Graph c) (table : Table c) {link : Option Addr} (linked : c.linked link = true) (hdr : Header Name)
    (message : Message Addr Name) (tidy : TidyPacket c link hdr message) : Yields Benign Graph (clusterProcessPacket c link hdr message) := by
  unfold clusterProcessPacket
  split
  next sender handshakes found => exact graph.processKnown table linked found handshakes rfl tidy
  next sender fresh handshakes found => exact graph.processKnown table linked found handshakes rfl tidy
  next sender about configEpoch slots found =>
    exact (graph.shape (shape_learn c hdr sender)).processUpdate (table.learn hdr sender).table about configEpoch.toNat slots
  next sender found => exact graph.shape (shape_learn c hdr sender)
  next handshakes unused => exact graph.processUnknown table (fun node is => linked_known linked is) unused
  next fresh handshakes unused =>
    have grown := table.handshakes ((fresh :: handshakes).filter fun fresh => fresh.name ≠ hdr.sender)
    have unused' := handshakes_unnamed ((fresh :: handshakes).filter fun fresh => fresh.name ≠ hdr.sender)
      (fun other member => decide_eq_true_eq.mp (List.mem_filter.mp member).2) unused
    exact (graph.grown table grown).processUnknown grown.loosened.table (fun node is => (grown.known node (linked_known linked is)).1) unused'
  next => exact graph
  next => exact graph

theorem Graph.replaceYourMaster (graph : Graph c) (table : Table c) : Yields Benign Graph (clusterFailoverReplaceYourMaster c) := by
  apply table.replaceYourMaster.mono
  rintro d ⟨-, rfl | ⟨-, shape⟩⟩
  · exact graph
  · exact (graph.setNodeAsMaster table.me).shape shape

def Forgettable (c : ClusterState Addr Name) : Prop := ∀ n, c.Known n → n ≠ c.myself → (c.heap n).Deletable

theorem Forgettable.shape (forgettable : Forgettable c) (shape : Shape c d) : Forgettable d := by
  intro n known other
  rw [shape.node]
  exact forgettable n ((shape.known n).mp known) (shape.myself ▸ other)

theorem Forgettable.setNodeAsMaster (forgettable : Forgettable c) : Forgettable (clusterSetNodeAsMaster c c.myself) := by
  have frame := frame_setNodeAsMaster c c.myself
  intro n known other
  rw [frame.myself] at other
  obtain ⟨childless, alone⟩ := forgettable n ((frame.known n).mp known) other
  unfold clusterSetNodeAsMaster
  split
  next => exact ⟨childless, alone⟩
  next =>
    rw [modify_of_ne _ _ other, leaveMaster_node]
    refine ⟨childless.imp id fun empty => ?_, alone⟩
    unfold ClusterState.leaveMaster
    split
    next => exact empty
    next master _ =>
      by_cases here : n = master
      · subst here
        rw [modify_self, ClusterNode.removeSlave, empty]
        rfl
      · rw [modify_of_ne _ _ here]
        exact empty

theorem Graph.beMaster (graph : Graph c) (table : Table c) (forgettable : Forgettable c) :
    Graph (clusterCloseAllSlots c.beMaster) ∧ Forgettable (clusterCloseAllSlots c.beMaster) := by
  unfold ClusterState.beMaster
  split
  next =>
    have shape : Shape (clusterSetNodeAsMaster c c.myself)
        (clusterCloseAllSlots { clusterSetNodeAsMaster c c.myself with keys := fun _ => 0 }) := ⟨rfl, rfl, rfl, fun _ => rfl⟩
    exact ⟨(graph.setNodeAsMaster table.me).shape shape, forgettable.setNodeAsMaster.shape shape⟩
  next =>
    have shape : Shape c (clusterCloseAllSlots c) := ⟨rfl, rfl, rfl, fun _ => rfl⟩
    exact ⟨graph.shape shape, forgettable.shape shape⟩

theorem Graph.forgetOther (graph : Graph c) (table : Table c) (forgettable : Forgettable c) (name : Name) :
    Yields Benign (fun d => Graph d ∧ Forgettable d) (c.forgetOther name) := by
  unfold ClusterState.forgetOther
  split
  next => exact ⟨graph, forgettable⟩
  next n found =>
    split
    next => exact ⟨graph, forgettable⟩
    next other =>
      have there := table.known found
      apply ((table.delNode there other).and (graph.delNode table there other (forgettable n there other))).mono
      rintro d ⟨deleted, kept, rest⟩
      refine ⟨kept, fun a known away => ?_⟩
      rw [deleted.loosened.myself] at away
      exact (rest a known).2 (forgettable a ((deleted.known there a).mp known).1 away)

theorem Graph.reset (graph : Graph c) (table : Table c) (forgettable : Forgettable c) (order : List Name) (newname : Option Name)
    (unused : ∀ name, newname = some name → c.nodes.lookup name = none) : Yields Benign Graph (clusterReset c order newname) := by
  have first := table.beMaster
  have graph' := graph.beMaster table forgettable
  apply first.1.leaveSlots.bind
  rintro d ⟨kept, shape, -⟩
  have loop : Yields Benign (fun e => (Table e ∧ ∀ other, d.nodes.lookup other = none → e.nodes.lookup other = none) ∧ Graph e ∧ Forgettable e)
      (order.foldlM ClusterState.forgetOther d) := by
    apply Yields.foldlM
    · rintro name - e ⟨⟨tables, gone⟩, graphs, rest⟩
      apply ((tables.forgetOther name).and (graphs.forgetOther tables rest name)).mono
      exact fun f after => ⟨⟨after.1.1, fun other none => after.1.2 other (gone other none)⟩, after.2⟩
    · exact ⟨⟨kept, fun _ none => none⟩, graph'.1.shape shape, graph'.2.shape shape⟩
  apply loop.bind
  rintro e ⟨⟨kept', gone⟩, graphs, -⟩
  split
  next => exact graphs
  next name =>
    have zero : Shape e ({ e with currentEpoch := 0 }.modify e.myself fun x => { x with configEpoch := 0 }) :=
      shape_epoch e e.myself (fun _ => 0) 0
    have free : ({ e with currentEpoch := 0 }.modify e.myself fun x => { x with configEpoch := 0 }).nodes.lookup name = none := by
      apply gone
      rw [shape.nodes, first.2]
      exact unused name rfl
    have there := (zero.known e.myself).mpr kept'.me
    rw [rename_eq there free]
    exact (graphs.shape zero).rename there free

def Event.Tidy (c : ClusterState Addr Name) (event : Event Addr Name) : Prop :=
  match event with
  | .packet link hdr message => TidyPacket c link hdr message
  | .forget name =>
    ∀ n, clusterLookupNode c name = some n → n ≠ c.myself → ¬ ((c.heap c.myself).slave = true ∧ (c.heap c.myself).slaveof = some n) →
      (c.heap n).Deletable
  | .handshakeTimeout name => ∀ n, clusterLookupNode c name = some n → (c.heap n).handshake = true → (c.heap n).Deletable
  | .reset _ _ => ¬ ((c.heap c.myself).master = true ∧ c.dbEmpty = false) → Forgettable c
  | _ => True

theorem Graph.step (graph : Graph c) (table : Table c) (event : Event Addr Name) (tidy : event.Tidy c) : Yields Benign Graph (step c event) := by
  cases event with
  | packet link hdr message =>
    simp only [Cluster.step]
    split
    next linked => exact graph.packet table linked hdr message tidy
    next => exact graph
  | meet fresh => exact graph.grown table (table.handshake fresh)
  | slots del slots => exact (table.slotsCommand del slots).mono fun _ kept => graph.shape kept.2
  | flushSlots => exact table.flushSlots.mono fun _ kept => graph.shape kept.2
  | setSlot slot action => exact (table.setSlot slot action).mono fun _ kept => graph.shape kept.2
  | forget name =>
    simp only [Cluster.step]
    unfold clusterForgetCommand
    split
    next => exact graph
    next n found =>
      split
      next => exact graph
      next other =>
        split
        next => exact graph
        next allowed => exact (graph.delNode table (table.known found) other (tidy n found other allowed)).mono fun _ after => after.1
  | replicate name =>
    simp only [Cluster.step]
    unfold clusterReplicateCommand
    split
    next => exact graph
    next n found =>
      split
      next => exact graph
      next =>
        split
        next => exact graph
        next =>
          split
          next => exact graph
          next => exact graph.setMaster table (table.known found)
  | takeover =>
    simp only [Cluster.step]
    unfold clusterTakeoverCommand
    split
    next => exact graph
    next => exact (graph.shape (shape_bumpWithoutConsensus c)).replaceYourMaster (table.frame (frame_bumpWithoutConsensus c))
  | setConfigEpoch epoch => exact graph.shape (table.setConfigEpoch epoch).2
  | reset order newname =>
    simp only [Cluster.step]
    split
    next allowed =>
      unfold clusterResetCommand
      split
      next => exact graph
      next accepted =>
        refine graph.reset table (tidy accepted) order newname fun name is => ?_
        have unused := allowed.2
        rw [is, all_some, decide_eq_true_eq] at unused
        exact unused
    next => exact graph
  | failoverWon epoch =>
    simp only [Cluster.step]
    unfold ClusterState.failoverWon
    split
    next => exact graph
    next =>
      have frame := frame_modify c c.myself (fun x => { x with configEpoch := max x.configEpoch epoch.toNat }) (fun _ => ⟨rfl, rfl, rfl⟩)
        fun settled => settled
      have shape : Shape c (c.modify c.myself fun x => { x with configEpoch := max x.configEpoch epoch.toNat }) :=
        shape_epoch c c.myself (fun x => max x.configEpoch epoch.toNat) c.currentEpoch
      exact (graph.shape shape).replaceYourMaster (table.frame frame)
  | migrate name =>
    simp only [Cluster.step]
    unfold ClusterState.migrateTo
    split
    next => exact graph
    next target found =>
      split
      next => exact graph.setMaster table (table.known found)
      next => exact graph
  | handshakeTimeout name =>
    simp only [Cluster.step]
    unfold ClusterState.handshakeTimeout
    split
    next => exact graph
    next n found =>
      split
      next old => exact (graph.delNode table (table.known found) old.2 (tidy n found old.1)).mono fun _ after => after.1
      next => exact graph
  | setKeys keys => exact graph.shape ⟨rfl, rfl, rfl, fun _ => rfl⟩
  | scribble a contents =>
    simp only [Cluster.step, yields_ok]
    split
    next => exact graph
    next freed =>
      have heap : ∀ b, c.Known b → ({ c with heap := Function.update c.heap a contents } : ClusterState Addr Name).heap b = c.heap b :=
        fun b known => Function.update_of_ne (table.unused (Bool.eq_false_of_not_eq_true freed) known) ..
      have known : ∀ b, ({ c with heap := Function.update c.heap a contents } : ClusterState Addr Name).Known b ↔ c.Known b := by
        intro b
        refine ⟨fun there => table.known there, fun there => ?_⟩
        rw [ClusterState.Known, heap b there]
        exact there
      refine ⟨fun m there x => ?_, fun m there => ?_, fun x m there follows => ?_, ?_⟩
      · rw [heap m ((known m).mp there), known x, graph.slaves m ((known m).mp there) x]
        exact and_congr_right fun inside => by rw [heap x inside]
      · rw [heap m ((known m).mp there)]
        exact graph.nodup m ((known m).mp there)
      · rw [heap x ((known x).mp there)] at follows
        exact (known m).mpr (graph.target x m ((known x).mp there) follows)
      · rw [show ({ c with heap := Function.update c.heap a contents } : ClusterState Addr Name).myself = c.myself from rfl, heap _ table.me]
        exact graph.mine

theorem graph_init (memory : Addr → ClusterNode Addr Name) (myself : Addr) (name : Name) : Graph (clusterInit memory myself name) := by
  have table := table_init memory myself name
  have me : (clusterInit memory myself name).heap myself = ⟨name, true, false, false, 0, fun _ => false, 0, [], none⟩ := Function.update_self ..
  have only : ∀ a, (clusterInit memory myself name).Known a → a = myself := fun a known => by
    have used := (table.named _ a known).2
    exact decide_eq_true_eq.mp used
  refine ⟨fun m known x => ?_, fun m known => ?_, fun x m known follows => ?_, fun _ => ?_⟩
  · rw [only m known, me]
    refine ⟨fun member => absurd member List.not_mem_nil, ?_⟩
    rintro ⟨there, follows⟩
    rw [only x there, me] at follows
    exact absurd follows.symm (some_ne_none _)
  · rw [only m known, me]
    exact List.nodup_nil
  · rw [only x known, me] at follows
    exact absurd follows.symm (some_ne_none _)
  · rw [show (clusterInit memory myself name).myself = myself from rfl, me]

/-- In every state that a tidy run leads to, the slaves of a node are the nodes that point to it, each once, and no node of the
table points to another one. -/
theorem masters_and_slaves_linked (memory : Addr → ClusterNode Addr Name) (myself : Addr) (name : Name) (events : List (Event Addr Name))
    (tidy : Meets step (fun c event => event.Tidy c) (clusterInit memory myself name) events) (c : ClusterState Addr Name)
    (reached : run (clusterInit memory myself name) events = .ok c) :
    (∀ id m, c.nodes.lookup id = some m → (c.heap m).slaves.Nodup ∧
      ∀ x, x ∈ (c.heap m).slaves ↔ (∃ other, c.nodes.lookup other = some x) ∧ (c.heap x).slaveof = some m) ∧
      ∀ id x m, c.nodes.lookup id = some x → (c.heap x).slaveof = some m → ∃ other, c.nodes.lookup other = some m := by
  have keeps : ∀ (c : ClusterState Addr Name) (event : Event Addr Name), Table c ∧ Graph c → event.Tidy c →
      Yields Benign (fun d => Table d ∧ Graph d) (step c event) :=
    fun c event kept tidy => (kept.1.step event).and (kept.2.step kept.1 event tidy)
  obtain ⟨table, graph⟩ := (tidy.yields keeps ⟨table_init memory myself name, graph_init memory myself name⟩).result reached
  have inside : ∀ x, (∃ other, c.nodes.lookup other = some x) ↔ c.Known x :=
    fun x => ⟨fun ⟨other, found⟩ => table.known found, fun known => ⟨_, known⟩⟩
  refine ⟨fun id m found => ⟨graph.nodup m (table.known found), fun x => ?_⟩, fun id x m found follows => ?_⟩
  · rw [inside x]
    exact graph.slaves m (table.known found) x
  · exact ⟨_, graph.target x m (table.known found) follows⟩

def joins : List (Event Nat Nat) :=
  [.meet ⟨1, 1⟩, .packet (some 1) ⟨2, 0, 0, fun _ => false, some 0, false, true⟩ (.ping []),
    .packet (some 1) ⟨2, 0, 0, fun _ => false, some 0, false, true⟩ (.ping [])]

theorem masters_and_slaves_linked_joined :
    ∃ c, run (clusterInit (fun _ => blank) 0 0) joins = .ok c ∧ (c.heap 0).slaves = [1] ∧
      ∀ id x m, c.nodes.lookup id = some x → (c.heap x).slaveof = some m → ∃ other, c.nodes.lookup other = some m := by
  refine ⟨_, rfl, rfl, (masters_and_slaves_linked (fun _ => blank) 0 0 joins ?_ _ rfl).2⟩
  refine ⟨trivial, ?_⟩
  rintro _ ⟨⟩
  refine ⟨fun _ sender found => ?_, ?_⟩
  · cases found
  · rintro _ ⟨⟩
    refine ⟨fun _ sender found => ?_, fun _ _ => trivial⟩
    cases found
    refine ⟨?_, fun _ _ master => ?_⟩
    · rintro _ ⟨⟩ handshake
      cases handshake
    · cases master

theorem delNodeSlots_unused {n : Addr} (unused : (c.heap n).slots = fun _ => false) : clusterDelNodeSlots c n = .ok c := by
  unfold clusterDelNodeSlots
  apply foldlM_idle
  intro slot _
  rw [unused]
  rfl

theorem processConfig_slave {hdr : Header Name} {sender : Addr} (switched : c.switchRole hdr sender = .ok d)
    (slave : (d.heap sender).master = false) (epoch : Nat) : c.processConfig hdr sender epoch [] = .ok d := by
  unfold ClusterState.processConfig
  rw [switched]
  simp only [bind, Except.bind, ClusterState.updateSlots, ClusterState.checkCollision, slave, Bool.false_and, Bool.and_false, Bool.false_eq_true,
    if_false]
  rfl

theorem switchRole_demoted {hdr : Header Name} {sender master : Addr} {name : Name} (follows : hdr.slaveof = some name)
    (found : clusterLookupNode c name = some master) (was : (c.heap sender).master = true) (unused : (c.heap sender).slots = fun _ => false)
    (other : (c.heap sender).slaveof ≠ some master) :
    c.switchRole hdr sender =
      .ok ((((c.modify sender fun x => { x with master := false, slave := true, slaves := [] }).leaveMaster sender).modify master
        (·.addSlave sender)).modify sender fun x => { x with slaveof := some master }) := by
  have demoted : c.demote sender = .ok (c.modify sender fun x => { x with master := false, slave := true, slaves := [] }) := by
    rw [ClusterState.demote, if_pos was, delNodeSlots_unused unused]
    rfl
  rw [ClusterState.switchRole, follows]
  simp only [found, demoted, bind, Except.bind, modify_self]
  rw [if_neg other]

theorem forget_unused {name : Name} {n : Addr} (found : clusterLookupNode c name = some n) (other : n ≠ c.myself)
    (master : (c.heap c.myself).slave = false) (slots : c.slots = fun _ => none) (importing : c.importing = fun _ => none)
    (migrating : c.migrating = fun _ => none) (freed : freeClusterNode c n = .ok d) : step c (.forget name) = .ok d := by
  have idle : allSlots.foldlM (fun c slot => c.forgetSlot n slot) c = .ok c := by
    apply foldlM_idle
    intro slot _
    have free : (none : Option Addr) ≠ some n := (some_ne_none n).symm
    unfold ClusterState.forgetSlot
    obtain ⟨heap, allocated, nodes, myself, current, slots', importing', migrating', keys⟩ := c
    simp only at slots importing migrating
    subst slots importing migrating
    simp only [if_neg free]
  simp only [Cluster.step, clusterForgetCommand, clusterDelNode]
  rw [found]
  simp only [if_neg other, master, Bool.false_eq_true, false_and, if_false, idle, bind, Except.bind]
  exact freed

def family : List (Event Nat Nat) :=
  [.meet ⟨1, 11⟩, .packet (some 1) ⟨1, 0, 0, fun _ => false, none, true, false⟩ (.ping []), .meet ⟨2, 12⟩,
    .packet (some 2) ⟨2, 0, 0, fun _ => false, some 1, false, true⟩ (.ping []),
    .packet (some 2) ⟨2, 0, 0, fun _ => false, some 1, false, true⟩ (.ping [])]

def turned : Event Nat Nat := .packet (some 1) ⟨1, 0, 0, fun _ => false, some 0, false, true⟩ (.ping [])

/-- The list of slaves of a master that turns into a slave is dropped, and its slaves still point to it, even when it is forgotten. -/
theorem slave_of_a_freed_node :
    ∃ c d e, run (clusterInit (fun _ => blank) 0 0) family = .ok c ∧ step c turned = .ok d ∧ step d (.forget 1) = .ok e ∧
      ((d.heap 1).slaves = [] ∧ (d.heap 2).slaveof = some 1) ∧ e.nodes.lookup 2 = some 2 ∧ (e.heap 2).slaveof = some 1 ∧
        e.nodes.keys = [2, 0] ∧ e.allocated 1 = false := by
  refine ⟨_, _, _, rfl, processConfig_slave (switchRole_demoted rfl rfl rfl rfl ?_) rfl 0, forget_unused rfl ?_ rfl rfl rfl rfl rfl,
    ⟨rfl, rfl⟩, rfl, rfl, rfl, rfl⟩
  · exact (some_ne_none _).symm
  · decide

end Cplusplus.Redis.Cluster
