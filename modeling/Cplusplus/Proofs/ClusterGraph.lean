import Cplusplus.Proofs.ClusterTableRuns

/-! Masters and slaves: the list of slaves of a node has the nodes that point to it, each once, and no node points
to one that is not in the table. -/

set_option linter.unusedSectionVars false

namespace Cplusplus.Redis.Cluster

open Faults List Option

variable {Addr Name : Type} [DecidableEq Addr] [LinearOrder Name] {c d e : ClusterState Addr Name}

structure Graph (c : ClusterState Addr Name) : Prop where
  slaves : ∀ m, c.Known m → ∀ x, x ∈ (c.heap m).slaves ↔ c.Known x ∧ (c.heap x).slaveof = some m
  nodup : ∀ m, c.Known m → (c.heap m).slaves.Nodup
  target : ∀ x m, c.Known x → (c.heap x).slaveof = some m → c.Known m
  mine : (c.heap c.myself).master = true → (c.heap c.myself).slaveof = none

section
variable (graph : Graph c)
include graph

theorem Graph.same (known : ∀ a, d.Known a ↔ c.Known a)
    (links : ∀ a, (d.heap a).slaves = (c.heap a).slaves ∧ (d.heap a).slaveof = (c.heap a).slaveof)
    (mine : (d.heap d.myself).master = true → (d.heap d.myself).slaveof = none) : Graph d := by
  refine ⟨fun m there x => ?_, fun m there => ?_, fun x m there follows => ?_, mine⟩
  · rw [(links m).1, (links x).2, known x]
    exact graph.slaves m ((known m).mp there) x
  · rw [(links m).1]
    exact graph.nodup m ((known m).mp there)
  · rw [(links x).2] at follows
    exact (known m).mpr (graph.target x m ((known x).mp there) follows)

theorem Graph.shape (shape : Shape c d) : Graph d := by
  refine graph.same shape.known (fun a => by rw [shape.node a]; exact ⟨rfl, rfl⟩) ?_
  rw [shape.myself, shape.node]
  exact graph.mine

theorem Graph.repoint {n : Addr} (there : c.Known n) {master : Option Addr} (target : ∀ m, master = some m → c.Known m)
    (known : ∀ a, d.Known a ↔ c.Known a) (slaveof : ∀ a, (d.heap a).slaveof = if a = n then master else (c.heap a).slaveof)
    (nodup : ∀ m, c.Known m → (d.heap m).slaves.Nodup)
    (slaves : ∀ m, c.Known m → ∀ x, x ∈ (d.heap m).slaves ↔ x ≠ n ∧ x ∈ (c.heap m).slaves ∨ x = n ∧ master = some m)
    (mine : (d.heap d.myself).master = true → (d.heap d.myself).slaveof = none) : Graph d := by
  refine ⟨fun m inside x => ?_, fun m inside => nodup m ((known m).mp inside), fun x m inside follows => ?_, mine⟩
  · rw [slaves m ((known m).mp inside), slaveof, known x]
    by_cases here : x = n
    · subst here
      rw [if_pos rfl]
      constructor
      · rintro (⟨other, -⟩ | ⟨-, follows⟩)
        · exact absurd rfl other
        · exact ⟨there, follows⟩
      · exact fun follows => .inr ⟨rfl, follows.2⟩
    · rw [if_neg here, graph.slaves m ((known m).mp inside)]
      constructor
      · rintro (⟨-, follows⟩ | ⟨same, -⟩)
        · exact follows
        · exact absurd same here
      · exact fun follows => .inl ⟨here, follows⟩
  · rw [slaveof] at follows
    split at follows
    next => exact (known m).mpr (target m follows)
    next => exact (known m).mpr (graph.target x m ((known x).mp inside) follows)

theorem Graph.left {n m : Addr} (there : c.Known n) (inside : c.Known m) :
    ((c.leaveMaster n).heap m).slaves.Nodup ∧ ∀ x, x ∈ ((c.leaveMaster n).heap m).slaves ↔ x ≠ n ∧ x ∈ (c.heap m).slaves := by
  have nodup := graph.nodup m inside
  have absent : (c.heap n).slaveof ≠ some m → ∀ x, x ∈ (c.heap m).slaves ↔ x ≠ n ∧ x ∈ (c.heap m).slaves := by
    intro other x
    refine ⟨fun member => ⟨?_, member⟩, fun both => both.2⟩
    rintro rfl
    exact other ((graph.slaves m inside x).mp member).2
  unfold ClusterState.leaveMaster
  split
  next alone => exact ⟨nodup, absent (by rw [alone]; exact (some_ne_none m).symm)⟩
  next master follows =>
    by_cases here : m = master
    · subst here
      rw [modify_self]
      exact ⟨nodup.erase _, fun x => nodup.mem_erase_iff⟩
    · rw [modify_of_ne _ _ here]
      exact ⟨nodup, absent (by rw [follows]; exact fun same => here (some.inj same).symm)⟩

end

theorem addSlave_slaves {n : ClusterNode Addr Name} (slave : Addr) (nodup : n.slaves.Nodup) :
    (n.addSlave slave).slaves.Nodup ∧ ∀ x, x ∈ (n.addSlave slave).slaves ↔ x ∈ n.slaves ∨ x = slave := by
  unfold ClusterNode.addSlave
  split
  next member => exact ⟨nodup, fun x => ⟨.inl, fun either => either.elim id fun same => same ▸ member⟩⟩
  next absent =>
    refine ⟨nodup_append.mpr ⟨nodup, nodup_singleton slave, ?_⟩, fun x => ?_⟩
    · rintro x member y single rfl
      exact absent (mem_singleton.mp single ▸ member)
    · simp only [mem_append, mem_singleton]

theorem addSlave_slaveof (n : ClusterNode Addr Name) (slave : Addr) : (n.addSlave slave).slaveof = n.slaveof := by
  unfold ClusterNode.addSlave
  split <;> rfl

theorem Graph.setNodeAsMaster (graph : Graph c) {n : Addr} (there : c.Known n) : Graph (clusterSetNodeAsMaster c n) := by
  have frame := frame_setNodeAsMaster c n
  unfold clusterSetNodeAsMaster at frame ⊢
  split
  next => exact graph
  next slave =>
    rw [if_neg slave] at frame
    have links : ∀ m, (((c.leaveMaster n).modify n fun x => { x with slave := false, master := true, slaveof := none }).heap m).slaves =
        ((c.leaveMaster n).heap m).slaves := by
      intro m
      by_cases here : m = n
      · subst here
        rw [modify_self]
      · rw [modify_of_ne _ _ here]
    have points : ∀ a, (((c.leaveMaster n).modify n fun x => { x with slave := false, master := true, slaveof := none }).heap a).slaveof =
        if a = n then none else (c.heap a).slaveof := by
      intro a
      by_cases here : a = n
      · subst here
        rw [modify_self, if_pos rfl]
      · rw [modify_of_ne _ _ here, if_neg here, leaveMaster_node]
    refine graph.repoint there (fun m none => absurd none.symm (some_ne_none m)) frame.known points (fun m inside => ?_)
      (fun m inside x => ?_) ?_
    · rw [links]
      exact (graph.left there inside).1
    · rw [links, (graph.left there inside).2]
      exact ⟨.inl, fun either => either.elim id fun none => absurd none.2.symm (some_ne_none m)⟩
    · rw [points, frame.myself]
      split
      next => exact fun _ => rfl
      next other =>
        rw [modify_of_ne _ _ other, leaveMaster_node]
        exact graph.mine

theorem Graph.follow (graph : Graph c) {n master : Addr} (there : c.Known n) (inside : c.Known master)
    (known : ∀ a, d.Known a ↔ c.Known a) (slaveof : ∀ a, (d.heap a).slaveof = if a = n then some master else (c.heap a).slaveof)
    (slaves : ∀ m, (d.heap m).slaves = if m = master then (((c.leaveMaster n).heap m).addSlave n).slaves else ((c.leaveMaster n).heap m).slaves)
    (mine : (d.heap d.myself).master = true → (d.heap d.myself).slaveof = none) : Graph d := by
  refine graph.repoint there (fun m same => some.inj same ▸ inside) known slaveof (fun m known => ?_) (fun m known x => ?_) mine
  · rw [slaves]
    have left := (graph.left there known).1
    split
    next => exact (addSlave_slaves n left).1
    next => exact left
  · have left := graph.left there known
    rw [slaves]
    split
    next here =>
      subst here
      rw [(addSlave_slaves n left.1).2, left.2]
      exact ⟨fun either => either.imp id fun same => ⟨same, rfl⟩, fun either => either.imp id fun both => both.1⟩
    next other =>
      rw [left.2]
      exact ⟨.inl, fun either => either.elim id fun both => absurd (some.inj both.2).symm other⟩

theorem Graph.setMaster (table : Table c) (graph : Graph c) {n : Addr} (inside : c.Known n) : Yields Benign Graph (clusterSetMaster c n) := by
  have all := table.setMaster n
  unfold clusterSetMaster at all ⊢
  split
  next => exact .inr rfl
  next allowed =>
    rw [if_neg allowed] at all
    rw [not_or] at allowed
    have other : n ≠ c.myself := allowed.1
    obtain ⟨steady, slave⟩ := all
    have frame := steady.frame
    -- a master has no master of its own to leave
    have first : ∀ a, ((if (c.heap c.myself).master then
          clusterCloseAllSlots (c.modify c.myself fun x => { x with master := false, slave := true })
        else c.leaveMaster c.myself).heap a).slaves = ((c.leaveMaster c.myself).heap a).slaves ∧
        ((if (c.heap c.myself).master then
          clusterCloseAllSlots (c.modify c.myself fun x => { x with master := false, slave := true })
        else c.leaveMaster c.myself).heap a).slaveof = (c.heap a).slaveof := by
      intro a
      split
      next master =>
        have idle : c.leaveMaster c.myself = c := by
          rw [ClusterState.leaveMaster, graph.mine master]
        rw [idle]
        by_cases here : a = c.myself
        · subst here
          simp only [clusterCloseAllSlots, modify_self, and_self]
        · simp only [clusterCloseAllSlots, modify_of_ne _ _ here, and_self]
      next =>
        rw [leaveMaster_node]
        exact ⟨rfl, rfl⟩
    have self : (if (c.heap c.myself).master then
          clusterCloseAllSlots (c.modify c.myself fun x => { x with master := false, slave := true })
        else c.leaveMaster c.myself).myself = c.myself := frame.myself
    simp only at steady slave frame ⊢
    generalize (if (c.heap c.myself).master then
        clusterCloseAllSlots (c.modify c.myself fun x => { x with master := false, slave := true })
      else c.leaveMaster c.myself) = d at first self steady slave frame ⊢
    rw [self] at frame slave ⊢
    refine graph.follow table.me inside frame.known (fun a => ?_) (fun m => ?_) fun master => ?_
    · by_cases here : a = n
      · subst here
        rw [modify_self, addSlave_slaveof, modify_of_ne _ _ other, if_neg other, (first a).2]
      · rw [modify_of_ne _ _ here]
        by_cases me : a = c.myself
        · subst me
          rw [modify_self, if_pos rfl]
        · rw [modify_of_ne _ _ me, if_neg me, (first a).2]
    · by_cases here : m = n
      · subst here
        have list : (((c.leaveMaster c.myself).heap m).addSlave c.myself).slaves = ((d.heap m).addSlave c.myself).slaves := by
          simp only [ClusterNode.addSlave, (first m).1]
          split
          next => exact (first m).1.symm
          next => rfl
        rw [modify_self, modify_of_ne _ _ other, if_pos rfl, list]
      · rw [modify_of_ne _ _ here, if_neg here, ← (first m).1]
        by_cases me : m = c.myself
        · subst me
          rw [modify_self]
        · rw [modify_of_ne _ _ me]
    · have settled := frame.settled c.myself table.settled
      rw [frame.myself] at slave master
      rw [settled.2, master] at slave
      exact absurd slave Bool.false_ne_true

theorem Graph.demote (table : Table c) (graph : Graph c) {sender : Addr} (childless : (c.heap sender).master = true → (c.heap sender).slaves = []) :
    Yields Benign Graph (c.demote sender) := by
  unfold ClusterState.demote
  split
  next master =>
    apply (table.delNodeSlots sender).bind
    rintro d ⟨-, rebound, -, -⟩
    have kept := graph.shape rebound.shape
    have none : (d.heap sender).slaves = [] := by
      rw [rebound.node]
      exact childless master
    have heap : ∀ a, ((d.modify sender fun x => { x with master := false, slave := true, slaves := [] }).heap a).slaves = (d.heap a).slaves ∧
        ((d.modify sender fun x => { x with master := false, slave := true, slaves := [] }).heap a).slaveof = (d.heap a).slaveof := by
      intro a
      by_cases here : a = sender
      · subst here
        rw [modify_self, none]
        exact ⟨rfl, rfl⟩
      · rw [modify_of_ne _ _ here]
        exact ⟨rfl, rfl⟩
    have frame := frame_modify d sender (fun x => { x with master := false, slave := true, slaves := [] }) (fun _ => ⟨rfl, rfl, rfl⟩)
      fun settled => ⟨settled.1, rfl⟩
    refine kept.same frame.known heap fun master => ?_
    rw [(heap _).2, frame.myself]
    rw [frame.myself] at master
    by_cases here : d.myself = sender
    · rw [here, modify_self] at master
      exact absurd master Bool.false_ne_true
    · rw [modify_of_ne _ _ here] at master
      exact kept.mine master
  next => exact graph

theorem Graph.switchRole (table : Table c) (graph : Graph c) {hdr : Header Name} {sender : Addr} (there : c.Known sender)
    (childless : hdr.slaveof ≠ none → (c.heap sender).master = true → (c.heap sender).slaves = []) :
    Yields Benign Graph (c.switchRole hdr sender) := by
  unfold ClusterState.switchRole
  split
  next => exact graph.setNodeAsMaster there
  next name is =>
    rw [is] at childless
    apply ((table.demote sender).and (graph.demote table (childless (some_ne_none name)))).bind
    rintro d ⟨⟨switched, slave⟩, kept⟩
    split
    next => exact kept
    next master found =>
      split
      next => exact kept
      next =>
        have inside := (switched.known master).mpr (table.known found)
        have sender' := (switched.known sender).mpr there
        have frame := (steady_leaveMaster d sender).frame.trans ((steady_addSlave (d.leaveMaster sender) master sender).frame.trans
          (steady_modify _ sender (fun x => { x with slaveof := some master }) (fun _ => ⟨rfl, rfl, rfl⟩) (fun _ => rfl) fun settled => settled).frame)
        refine kept.follow sender' inside frame.known (fun a => ?_) (fun m => ?_) fun master' => ?_
        · by_cases here : a = sender
          · subst here
            rw [modify_self, if_pos rfl]
          · rw [modify_of_ne _ _ here, if_neg here]
            by_cases new : a = master
            · subst new
              rw [modify_self, addSlave_slaveof, leaveMaster_node]
            · rw [modify_of_ne _ _ new, leaveMaster_node]
        · by_cases here : m = sender
          · subst here
            rw [modify_self]
            by_cases new : m = master
            · subst new
              rw [modify_self, if_pos rfl]
            · rw [modify_of_ne _ _ new, if_neg new]
          · rw [modify_of_ne _ _ here]
            by_cases new : m = master
            · subst new
              rw [modify_self, if_pos rfl]
            · rw [modify_of_ne _ _ new, if_neg new]
        · have roles : ∀ a, ((((d.leaveMaster sender).modify master (·.addSlave sender)).modify sender fun x =>
              { x with slaveof := some master }).heap a).master = (d.heap a).master := by
            intro a
            by_cases here : a = sender
            · subst here
              rw [modify_self]
              by_cases new : a = master
              · subst new
                rw [modify_self, addSlave_master, leaveMaster_node]
              · rw [modify_of_ne _ _ new, leaveMaster_node]
            · rw [modify_of_ne _ _ here]
              by_cases new : a = master
              · subst new
                rw [modify_self, addSlave_master, leaveMaster_node]
              · rw [modify_of_ne _ _ new, leaveMaster_node]
          rw [roles, frame.myself] at master'
          rw [frame.myself]
          by_cases here : d.myself = sender
          · rw [here, slave] at master'
            exact absurd master' Bool.false_ne_true
          · rw [modify_of_ne _ _ here]
            by_cases new : d.myself = master
            · rw [new, modify_self, addSlave_slaveof, leaveMaster_node, ← new]
              exact kept.mine master'
            · rw [modify_of_ne _ _ new, leaveMaster_node]
              exact kept.mine master'

def ClusterNode.Deletable (n : ClusterNode Addr Name) : Prop := (n.master = true ∨ n.slaves = []) ∧ (n.slave = true ∨ n.slaveof = none)

theorem clearSlaveof_node (slaves : List Addr) (c : ClusterState Addr Name) (a : Addr) :
    (slaves.foldl (fun c slave => c.modify slave fun x => { x with slaveof := none }) c).heap a =
      { c.heap a with slaveof := if a ∈ slaves then none else (c.heap a).slaveof } := by
  induction slaves generalizing c with
  | nil => rfl
  | cons slave slaves ih =>
    rw [foldl_cons, ih]
    by_cases here : a = slave
    · subst here
      simp only [modify_self, ite_self, mem_cons_self, if_true]
    · simp only [modify_of_ne _ _ here, mem_cons, here, false_or]

/-- What is left to the others when `n` goes: its slaves have no master, and it is nobody's slave. -/
structure Orphaned (c : ClusterState Addr Name) (n : Addr) (d : ClusterState Addr Name) : Prop where
  slaveof : ∀ a, a ≠ n → (d.heap a).slaveof = if a ∈ (c.heap n).slaves then none else (c.heap a).slaveof
  slaves : ∀ a, a ≠ n → (d.heap a).slaves = if (c.heap n).slaveof = some a then (c.heap a).slaves.erase n else (c.heap a).slaves
  roles : ∀ a, (d.heap a).master = (c.heap a).master ∧ (d.heap a).slave = (c.heap a).slave

theorem orphaned_free (graph : Graph c) {n : Addr} (there : c.Known n) (deletable : (c.heap n).Deletable) (freed : freeClusterNode c n = .ok d) :
    Orphaned c n d := by
  unfold freeClusterNode at freed
  simp only at freed
  have first : ∀ a, (if (c.heap n).master then
        (c.heap n).slaves.foldl (fun c slave => c.modify slave fun x => { x with slaveof := none }) c else c).heap a =
      { c.heap a with slaveof := if a ∈ (c.heap n).slaves then none else (c.heap a).slaveof } := by
    intro a
    split
    next => exact clearSlaveof_node _ c a
    next slave =>
      rcases deletable.1 with master | empty
      · exact absurd master slave
      · simp only [empty, not_mem_nil, if_false]
  generalize (if (c.heap n).master then
    (c.heap n).slaves.foldl (fun c slave => c.modify slave fun x => { x with slaveof := none }) c else c) = e at first freed
  have second : (if (e.heap n).slave then e.leaveMaster n else e) = e.leaveMaster n := by
    split
    next => rfl
    next master =>
      have alone : (e.heap n).slaveof = none := by
        rw [first] at master ⊢
        rcases deletable.2 with slave | none
        · exact absurd slave master
        · simp only [none, ite_self]
      rw [ClusterState.leaveMaster, alone]
  rw [second] at freed
  have heap : ∀ a, d.heap a = (e.leaveMaster n).heap a := by
    split at freed
    next => cases freed
    next =>
      cases freed
      exact fun _ => rfl
  refine ⟨fun a _ => ?_, fun a other => ?_, fun a => ?_⟩
  · rw [heap, leaveMaster_node, first]
  · rw [heap]
    -- a node that is its own slave has no other master
    have pointer : (e.heap n).slaveof = some a ↔ (c.heap n).slaveof = some a := by
      rw [first]
      by_cases self : n ∈ (c.heap n).slaves
      · have follows := ((graph.slaves n there n).mp self).2
        simp only [self, if_true, follows]
        exact ⟨fun none => absurd none.symm (some_ne_none _), fun same => absurd (some.inj same).symm other⟩
      · simp only [self, if_false]
    unfold ClusterState.leaveMaster
    split
    next alone =>
      have not : (c.heap n).slaveof ≠ some a := by
        rw [Ne, ← pointer, alone]
        exact (some_ne_none a).symm
      rw [if_neg not, first]
    next master follows =>
      by_cases here : a = master
      · subst here
        rw [modify_self, if_pos (pointer.mp follows), first]
        rfl
      · have not : (c.heap n).slaveof ≠ some a := by
          rw [Ne, ← pointer, follows]
          exact fun same => here (some.inj same).symm
        rw [modify_of_ne _ _ here, if_neg not, first]
  · rw [heap, leaveMaster_node, first]
    exact ⟨rfl, rfl⟩

theorem Deleted.known {n : Addr} (there : c.Known n) (deleted : Deleted c n d) (a : Addr) : d.Known a ↔ c.Known a ∧ a ≠ n := by
  rw [ClusterState.Known, deleted.nodes, deleted.name]
  by_cases here : (c.heap a).name = (c.heap n).name
  · rw [here, AList.lookup_erase]
    constructor
    · exact fun none => absurd none.symm (some_ne_none _)
    · rintro ⟨known, other⟩
      rw [ClusterState.Known, here, there] at known
      exact absurd (some.inj known).symm other
  · rw [AList.lookup_erase_ne here]
    exact ⟨fun known => ⟨known, fun same => here (by rw [same])⟩, fun both => both.1⟩

theorem Graph.orphaned (graph : Graph c) {n : Addr} (there : c.Known n) (known : ∀ a, d.Known a ↔ c.Known a ∧ a ≠ n) (orphaned : Orphaned c n d)
    (myself : d.myself = c.myself) (other : n ≠ c.myself) : Graph d := by
  have child : ∀ a, c.Known a → (a ∈ (c.heap n).slaves ↔ (c.heap a).slaveof = some n) := fun a inside =>
    (graph.slaves n there a).trans ⟨fun both => both.2, fun follows => ⟨inside, follows⟩⟩
  refine ⟨fun m inside x => ?_, fun m inside => ?_, fun x m inside follows => ?_, fun master => ?_⟩
  · obtain ⟨before, different⟩ := (known m).mp inside
    have list : x ∈ (d.heap m).slaves ↔ x ≠ n ∧ x ∈ (c.heap m).slaves := by
      rw [orphaned.slaves m different]
      split
      next => exact (graph.nodup m before).mem_erase_iff
      next not =>
        refine ⟨fun member => ⟨?_, member⟩, fun both => both.2⟩
        rintro rfl
        exact not ((graph.slaves m before x).mp member).2
    rw [list, graph.slaves m before x, known x]
    constructor
    · rintro ⟨away, inside', follows⟩
      refine ⟨⟨inside', away⟩, ?_⟩
      rw [orphaned.slaveof x away, if_neg, follows]
      rw [child x inside', follows]
      exact fun same => different (some.inj same)
    · rintro ⟨⟨inside', away⟩, follows⟩
      rw [orphaned.slaveof x away] at follows
      split at follows
      next => exact absurd follows.symm (some_ne_none _)
      next => exact ⟨away, inside', follows⟩
  · obtain ⟨before, different⟩ := (known m).mp inside
    rw [orphaned.slaves m different]
    split
    next => exact (graph.nodup m before).erase _
    next => exact graph.nodup m before
  · obtain ⟨before, away⟩ := (known x).mp inside
    rw [orphaned.slaveof x away] at follows
    split at follows
    next => exact absurd follows.symm (some_ne_none _)
    next not =>
      refine (known m).mpr ⟨graph.target x m before follows, ?_⟩
      rintro rfl
      exact not ((child x before).mpr follows)
  · rw [myself] at master ⊢
    rw [(orphaned.roles _).1] at master
    rw [orphaned.slaveof _ (Ne.symm other), graph.mine master, ite_self]

theorem Orphaned.deletable {n a : Addr} (orphaned : Orphaned c n d) (other : a ≠ n) (deletable : (c.heap a).Deletable) : (d.heap a).Deletable := by
  obtain ⟨slaves, master⟩ := deletable
  refine ⟨?_, ?_⟩
  · rw [(orphaned.roles a).1]
    refine slaves.imp id fun empty => ?_
    rw [orphaned.slaves a other, empty, erase_nil, ite_self]
  · rw [(orphaned.roles a).2]
    refine master.imp id fun alone => ?_
    rw [orphaned.slaveof a other, alone, ite_self]

theorem Graph.delNode (table : Table c) (graph : Graph c) {n : Addr} (there : c.Known n) (other : n ≠ c.myself) (deletable : (c.heap n).Deletable) :
    Yields Benign (fun d => Graph d ∧ ∀ a, d.Known a → a ≠ n ∧ ((c.heap a).Deletable → (d.heap a).Deletable)) (clusterDelNode c n) := by
  apply (table.forgetSlots n).bind
  rintro d ⟨⟨loosened, rebound⟩, free⟩
  have kept := graph.shape rebound.shape
  have known := (rebound.known n).mpr there
  have same : ∀ a, (c.heap a).Deletable → (d.heap a).Deletable := by
    intro a deletable
    rw [rebound.node a]
    exact deletable
  have freed := loosened.table.free known (rebound.myself ▸ other) free
  cases result : freeClusterNode d n with
  | error fault => exact freed.fault result
  | ok e =>
    have deleted := freed.result result
    have orphaned := orphaned_free kept known (same n deletable) result
    have knows := deleted.known known
    refine ⟨kept.orphaned known knows orphaned deleted.loosened.myself (rebound.myself ▸ other), fun a inside => ?_⟩
    have away := ((knows a).mp inside).2
    exact ⟨away, fun before => orphaned.deletable away (same a before)⟩

end Cplusplus.Redis.Cluster
