import Cplusplus.Cluster
import Cplusplus.Library.Faults
import Mathlib.Data.List.Count

/-! The slot table: the array of owners and the bitmaps of the nodes say the same, whatever packets and
commands do. -/

set_option linter.unusedSectionVars false

namespace Cplusplus.Redis.Cluster

open Faults Option Function

variable {Addr Name : Type} [DecidableEq Addr] [LinearOrder Name] {c d e : ClusterState Addr Name}

def ClusterState.Known (c : ClusterState Addr Name) (a : Addr) : Prop := c.nodes.lookup (c.heap a).name = some a

def ClusterNode.Settled (n : ClusterNode Addr Name) : Prop := n.handshake = false ∧ n.slave = !n.master

structure Table (c : ClusterState Addr Name) : Prop where
  named : ∀ name a, c.nodes.lookup name = some a → (c.heap a).name = name ∧ c.allocated a = true
  me : c.Known c.myself
  owners : ∀ slot a, c.slots slot = some a → c.Known a
  bits : ∀ a, c.Known a → ∀ slot, (c.heap a).slots slot = true ↔ c.slots slot = some a
  counts : ∀ a, c.Known a → (c.heap a).numslots = allSlots.countP (c.heap a).slots
  settled : (c.heap c.myself).Settled

/-- The faults that do not come from a broken table. -/
def Benign (fault : Fault) : Prop := fault = .nullPointer ∨ fault = .clusterSetMaster

theorem Table.known (table : Table c) {name : Name} {a : Addr} (found : c.nodes.lookup name = some a) : c.Known a := by
  rw [ClusterState.Known, (table.named name a found).1]
  exact found

structure Frame (c d : ClusterState Addr Name) : Prop where
  nodes : d.nodes = c.nodes
  allocated : d.allocated = c.allocated
  myself : d.myself = c.myself
  slots : d.slots = c.slots
  node : ∀ a, (d.heap a).name = (c.heap a).name ∧ (d.heap a).slots = (c.heap a).slots ∧ (d.heap a).numslots = (c.heap a).numslots
  settled : ∀ a, (c.heap a).Settled → (d.heap a).Settled

theorem Frame.refl (c : ClusterState Addr Name) : Frame c c := ⟨rfl, rfl, rfl, rfl, fun _ => ⟨rfl, rfl, rfl⟩, fun _ settled => settled⟩

theorem Frame.trans (first : Frame c d) (second : Frame d e) : Frame c e :=
  ⟨second.nodes.trans first.nodes, second.allocated.trans first.allocated, second.myself.trans first.myself,
    second.slots.trans first.slots, fun a => ⟨(second.node a).1.trans (first.node a).1, (second.node a).2.1.trans (first.node a).2.1,
      (second.node a).2.2.trans (first.node a).2.2⟩, fun a settled => second.settled a (first.settled a settled)⟩

theorem Frame.known (frame : Frame c d) (a : Addr) : d.Known a ↔ c.Known a := by
  rw [ClusterState.Known, ClusterState.Known, frame.nodes, (frame.node a).1]

theorem Table.frame (table : Table c) (frame : Frame c d) : Table d := by
  refine ⟨fun name a found => ?_, ?_, fun slot a owned => ?_, fun a known slot => ?_, fun a known => ?_,
    frame.myself ▸ frame.settled _ table.settled⟩
  · rw [(frame.node a).1, frame.allocated]
    exact table.named name a (frame.nodes ▸ found)
  · rw [frame.myself]
    exact (frame.known _).mpr table.me
  · exact (frame.known a).mpr (table.owners slot a (frame.slots ▸ owned))
  · rw [(frame.node a).2.1, frame.slots]
    exact table.bits a ((frame.known a).mp known) slot
  · rw [(frame.node a).2.1, (frame.node a).2.2]
    exact table.counts a ((frame.known a).mp known)

section
variable (c)

theorem modify_self (a : Addr) (change : ClusterNode Addr Name → ClusterNode Addr Name) :
    (c.modify a change).heap a = change (c.heap a) := update_self ..

theorem modify_of_ne {a b : Addr} (change : ClusterNode Addr Name → ClusterNode Addr Name) (other : b ≠ a) :
    (c.modify a change).heap b = c.heap b := update_of_ne other ..

theorem frame_modify (a : Addr) (change : ClusterNode Addr Name → ClusterNode Addr Name)
    (keeps : ∀ x, (change x).name = x.name ∧ (change x).slots = x.slots ∧ (change x).numslots = x.numslots)
    (settled : (c.heap a).Settled → (change (c.heap a)).Settled) : Frame c (c.modify a change) := by
  refine ⟨rfl, rfl, rfl, rfl, fun b => ?_, fun b before => ?_⟩
  · by_cases here : b = a
    · subst here
      rw [modify_self]
      exact keeps _
    · rw [modify_of_ne _ _ here]
      exact ⟨rfl, rfl, rfl⟩
  · by_cases here : b = a
    · subst here
      rw [modify_self]
      exact settled before
    · rw [modify_of_ne _ _ here]
      exact before

theorem frame_leaveMaster (n : Addr) : Frame c (c.leaveMaster n) := by
  unfold ClusterState.leaveMaster
  split
  next => exact Frame.refl c
  next => exact frame_modify c _ _ (fun _ => ⟨rfl, rfl, rfl⟩) fun settled => settled

theorem frame_setNodeAsMaster (n : Addr) : Frame c (clusterSetNodeAsMaster c n) := by
  unfold clusterSetNodeAsMaster
  split
  next => exact Frame.refl c
  next =>
    apply (frame_leaveMaster c n).trans
    exact frame_modify _ n _ (fun _ => ⟨rfl, rfl, rfl⟩) fun settled => ⟨settled.1, rfl⟩

theorem addSlave_keeps (n : ClusterNode Addr Name) (slave : Addr) :
    (n.addSlave slave).name = n.name ∧ (n.addSlave slave).slots = n.slots ∧ (n.addSlave slave).numslots = n.numslots := by
  unfold ClusterNode.addSlave
  split <;> exact ⟨rfl, rfl, rfl⟩

theorem addSlave_master (n : ClusterNode Addr Name) (slave : Addr) : (n.addSlave slave).master = n.master := by
  unfold ClusterNode.addSlave
  split <;> rfl

theorem frame_bumpEpoch : Frame c c.bumpEpoch :=
  have changed := frame_modify c c.myself (fun x => { x with configEpoch := (c.currentEpoch + 1) % 2 ^ 64 }) (fun _ => ⟨rfl, rfl, rfl⟩)
    fun settled => settled
  ⟨rfl, rfl, rfl, rfl, changed.node, changed.settled⟩

theorem frame_bumpWithoutConsensus : Frame c (clusterBumpConfigEpochWithoutConsensus c) := by
  unfold clusterBumpConfigEpochWithoutConsensus
  split
  next => exact frame_bumpEpoch c
  next => exact Frame.refl c

theorem frame_learn (hdr : Header Name) (sender : Addr) : Frame c (c.learn hdr sender) := by
  unfold ClusterState.learn
  split
  next => exact Frame.refl c
  next =>
    have changed := frame_modify c sender (fun x => { x with configEpoch := max x.configEpoch hdr.configEpoch.toNat })
      (fun _ => ⟨rfl, rfl, rfl⟩) fun settled => settled
    exact ⟨rfl, rfl, rfl, rfl, changed.node, changed.settled⟩

end

structure Steady (c d : ClusterState Addr Name) : Prop where
  frame : Frame c d
  epoch : ∀ a, (d.heap a).configEpoch = (c.heap a).configEpoch
  currentEpoch : d.currentEpoch = c.currentEpoch
  keys : d.keys = c.keys

theorem Steady.trans (first : Steady c d) (second : Steady d e) : Steady c e :=
  ⟨first.frame.trans second.frame, fun a => (second.epoch a).trans (first.epoch a), second.currentEpoch.trans first.currentEpoch,
    second.keys.trans first.keys⟩

section
variable (c)

theorem steady_modify (a : Addr) (change : ClusterNode Addr Name → ClusterNode Addr Name)
    (keeps : ∀ x, (change x).name = x.name ∧ (change x).slots = x.slots ∧ (change x).numslots = x.numslots)
    (epoch : ∀ x, (change x).configEpoch = x.configEpoch) (settled : (c.heap a).Settled → (change (c.heap a)).Settled) :
    Steady c (c.modify a change) := by
  refine ⟨frame_modify c a change keeps settled, fun b => ?_, rfl, rfl⟩
  by_cases here : b = a
  · subst here
    rw [modify_self, epoch]
  · rw [modify_of_ne _ _ here]

theorem leaveMaster_node (n a : Addr) : (c.leaveMaster n).heap a = { c.heap a with slaves := ((c.leaveMaster n).heap a).slaves } := by
  unfold ClusterState.leaveMaster
  split
  next => rfl
  next master _ =>
    by_cases here : a = master
    · subst here
      rw [modify_self]
      rfl
    · rw [modify_of_ne _ _ here]

theorem steady_leaveMaster (n : Addr) : Steady c (c.leaveMaster n) := by
  refine ⟨frame_leaveMaster c n, fun a => by rw [leaveMaster_node], ?_, ?_⟩
  · unfold ClusterState.leaveMaster
    split <;> rfl
  · unfold ClusterState.leaveMaster
    split <;> rfl

theorem steady_setNodeAsMaster (n : Addr) : Steady c (clusterSetNodeAsMaster c n) := by
  unfold clusterSetNodeAsMaster
  split
  next => exact ⟨Frame.refl c, fun _ => rfl, rfl, rfl⟩
  next =>
    apply (steady_leaveMaster c n).trans
    exact steady_modify _ n _ (fun _ => ⟨rfl, rfl, rfl⟩) (fun _ => rfl) fun settled => ⟨settled.1, rfl⟩

theorem settled_addSlave {n : ClusterNode Addr Name} (slave : Addr) (settled : n.Settled) : (n.addSlave slave).Settled := by
  unfold ClusterNode.addSlave
  split <;> exact settled

theorem steady_addSlave (n slave : Addr) : Steady c (c.modify n (·.addSlave slave)) := by
  apply steady_modify c n _ (fun x => addSlave_keeps x slave) _ (settled_addSlave slave)
  intro x
  unfold ClusterNode.addSlave
  split <;> rfl

end

structure Shape (c d : ClusterState Addr Name) : Prop where
  nodes : d.nodes = c.nodes
  allocated : d.allocated = c.allocated
  myself : d.myself = c.myself
  node : ∀ a, d.heap a =
    { c.heap a with configEpoch := (d.heap a).configEpoch, slots := (d.heap a).slots, numslots := (d.heap a).numslots }

theorem Shape.refl (c : ClusterState Addr Name) : Shape c c := ⟨rfl, rfl, rfl, fun _ => rfl⟩

theorem Shape.trans (first : Shape c d) (second : Shape d e) : Shape c e :=
  ⟨second.nodes.trans first.nodes, second.allocated.trans first.allocated, second.myself.trans first.myself,
    fun a => by rw [second.node a, first.node a]⟩

theorem Shape.known (shape : Shape c d) (a : Addr) : d.Known a ↔ c.Known a := by
  rw [ClusterState.Known, ClusterState.Known, shape.nodes, shape.node a]

section
variable (c)

theorem shape_epoch (a : Addr) (epoch : ClusterNode Addr Name → Nat) (currentEpoch : Nat) :
    Shape c { c.modify a fun x => { x with configEpoch := epoch x } with currentEpoch } := by
  refine ⟨rfl, rfl, rfl, fun b => ?_⟩
  by_cases here : b = a
  · subst here
    simp only [modify_self]
  · simp only [modify_of_ne _ _ here]

theorem shape_bumpWithoutConsensus : Shape c (clusterBumpConfigEpochWithoutConsensus c) := by
  unfold clusterBumpConfigEpochWithoutConsensus
  split
  next => exact shape_epoch c _ _ _
  next => exact Shape.refl c

theorem shape_learn (hdr : Header Name) (sender : Addr) : Shape c (c.learn hdr sender) := by
  unfold ClusterState.learn
  split
  next => exact Shape.refl c
  next => exact shape_epoch c _ _ _

end

theorem mem_allSlots (slot : Slot) : slot ∈ allSlots := by
  unfold allSlots
  exact List.mem_finRange slot

theorem nodup_allSlots : allSlots.Nodup := by
  unfold allSlots
  exact List.nodup_finRange _

theorem count_update (bits : Slot → Bool) (slot : Slot) (bit : Bool) :
    allSlots.countP (update bits slot bit) + (if bits slot then 1 else 0) = allSlots.countP bits + if bit then 1 else 0 := by
  have parts : ∀ f : Slot → Bool, allSlots.countP f = (allSlots.erase slot).countP f + if f slot then 1 else 0 := fun f => by
    rw [(List.perm_cons_erase (mem_allSlots slot)).countP_eq, List.countP_cons]
  have others : (allSlots.erase slot).countP (update bits slot bit) = (allSlots.erase slot).countP bits := by
    apply List.countP_congr
    intro other member
    have different : other ≠ slot := fun same => (nodup_allSlots.mem_erase_iff.mp member).1 same
    rw [update_of_ne different]
  rw [parts, parts bits, others, update_self]
  omega

/-- Of the nodes only the slots change. -/
structure Rebound (c d : ClusterState Addr Name) : Prop where
  nodes : d.nodes = c.nodes
  allocated : d.allocated = c.allocated
  myself : d.myself = c.myself
  node : ∀ a, d.heap a = { c.heap a with slots := (d.heap a).slots, numslots := (d.heap a).numslots }

theorem Rebound.refl (c : ClusterState Addr Name) : Rebound c c := ⟨rfl, rfl, rfl, fun _ => rfl⟩

theorem Rebound.trans (first : Rebound c d) (second : Rebound d e) : Rebound c e :=
  ⟨second.nodes.trans first.nodes, second.allocated.trans first.allocated, second.myself.trans first.myself,
    fun a => by rw [second.node a, first.node a]⟩

theorem Rebound.known (rebound : Rebound c d) (a : Addr) : d.Known a ↔ c.Known a := by
  rw [ClusterState.Known, ClusterState.Known, rebound.nodes, rebound.node a]

theorem rebound_modify (c : ClusterState Addr Name) (n : Addr) (change : ClusterNode Addr Name → ClusterNode Addr Name)
    (keeps : ∀ x, change x = { x with slots := (change x).slots, numslots := (change x).numslots }) (slots : Slot → Option Addr) :
    Rebound c { c.modify n change with slots } := by
  refine ⟨rfl, rfl, rfl, fun a => ?_⟩
  by_cases here : a = n
  · subst here
    simp only [modify_self]
    exact keeps _
  · simp only [modify_of_ne _ _ here]

/-- A table stays one when a slot changes its owner, if the bits of the two owners say so. -/
theorem Table.rebound (table : Table c) (rebound : Rebound c d) (owners : ∀ slot a, d.slots slot = some a → c.Known a)
    (bits : ∀ a, c.Known a → ∀ slot, (d.heap a).slots slot = true ↔ d.slots slot = some a)
    (counts : ∀ a, c.Known a → (d.heap a).numslots = allSlots.countP (d.heap a).slots) : Table d := by
  refine ⟨fun name a found => ?_, ?_, fun slot a owned => (rebound.known a).mpr (owners slot a owned), fun a known => ?_, fun a known => ?_, ?_⟩
  · rw [rebound.node a, rebound.allocated]
    exact table.named name a (rebound.nodes ▸ found)
  · rw [rebound.myself]
    exact (rebound.known _).mpr table.me
  · exact bits a ((rebound.known a).mp known)
  · exact counts a ((rebound.known a).mp known)
  · rw [rebound.myself, rebound.node]
    exact table.settled

variable {slot : Slot}

theorem addSlot_free (free : c.slots slot = none) (n : Addr) :
    clusterAddSlot c n slot = { c.modify n (·.setSlotBit slot) with slots := update c.slots slot (some n) } := by
  unfold clusterAddSlot
  rw [free]

theorem rebound_addSlot (c : ClusterState Addr Name) (n : Addr) (slot : Slot) : Rebound c (clusterAddSlot c n slot) := by
  unfold clusterAddSlot
  split
  next => exact Rebound.refl c
  next => exact rebound_modify c n _ (fun _ => rfl) _

theorem Table.addSlot (table : Table c) {n : Addr} (known : c.Known n) (slot : Slot) : Table (clusterAddSlot c n slot) := by
  cases free : c.slots slot with
  | some owner =>
    unfold clusterAddSlot
    rw [free]
    exact table
  | none =>
    have rebound := rebound_addSlot c n slot
    rw [addSlot_free free n] at rebound ⊢
    refine table.rebound rebound (fun other a owned => ?_) (fun a there other => ?_) (fun a there => ?_)
    · by_cases same : other = slot
      · subst same
        simp only [update_self] at owned
        exact some.inj owned ▸ known
      · simp only [update_of_ne same] at owned
        exact table.owners other a owned
    · have before := table.bits a there other
      by_cases here : a = n
      · subst here
        simp only [modify_self, ClusterNode.setSlotBit]
        by_cases same : other = slot
        · subst same
          simp only [update_self]
        · simp only [update_of_ne same, before]
      · simp only [modify_of_ne _ _ here]
        by_cases same : other = slot
        · subst same
          rw [before, update_self, free]
          exact ⟨fun none => absurd none.symm (some_ne_none _), fun own => absurd (some.inj own).symm here⟩
        · rw [update_of_ne same, before]
    · have before := table.counts a there
      by_cases here : a = n
      · subst here
        have unset : (c.heap a).slots slot = false := by
          rw [← Bool.not_eq_true, table.bits a there slot, free]
          exact (some_ne_none _).symm
        have counted := count_update (c.heap a).slots slot true
        simp only [unset, Bool.false_eq_true, if_false, if_true] at counted
        simp only [modify_self, ClusterNode.setSlotBit, unset, Bool.false_eq_true, if_false]
        omega
      · simp only [modify_of_ne _ _ here]
        exact before

theorem Table.delSlot (table : Table c) (slot : Slot) :
    ∃ after, clusterDelSlot c slot = .ok after ∧ Table after ∧ Rebound c after ∧ after.slots = update c.slots slot none := by
  unfold clusterDelSlot
  cases owned : c.slots slot with
  | none =>
    refine ⟨c, rfl, table, Rebound.refl c, ?_⟩
    rw [← owned, update_eq_self]
  | some n =>
    have known := table.owners slot n owned
    have set := (table.bits n known slot).mpr owned
    have rebound := rebound_modify c n (·.clearSlotBit slot) (fun _ => rfl) (update c.slots slot none)
    refine ⟨_, if_pos set, ?_, rebound, rfl⟩
    refine table.rebound rebound (fun other a owner => ?_) (fun a there other => ?_) (fun a there => ?_)
    · by_cases same : other = slot
      · subst same
        simp only [update_self] at owner
        exact absurd owner.symm (some_ne_none _)
      · simp only [update_of_ne same] at owner
        exact table.owners other a owner
    · have before := table.bits a there other
      by_cases here : a = n
      · subst here
        simp only [modify_self, ClusterNode.clearSlotBit]
        by_cases same : other = slot
        · subst same
          simp only [update_self, Bool.false_eq_true, false_iff]
          exact (some_ne_none _).symm
        · simp only [update_of_ne same, before]
      · simp only [modify_of_ne _ _ here]
        by_cases same : other = slot
        · subst same
          rw [before, update_self, owned]
          exact ⟨fun own => absurd (some.inj own).symm here, fun none => absurd none.symm (some_ne_none _)⟩
        · rw [update_of_ne same, before]
    · have before := table.counts a there
      by_cases here : a = n
      · subst here
        have counted := count_update (c.heap a).slots slot false
        simp only [set, if_true, Bool.false_eq_true, if_false] at counted
        simp only [modify_self, ClusterNode.clearSlotBit, set, if_true]
        omega
      · simp only [modify_of_ne _ _ here]
        exact before

theorem delSlot_else (deleted : clusterDelSlot c slot = .ok d) :
    d.importing = c.importing ∧ d.migrating = c.migrating ∧ d.keys = c.keys ∧ d.currentEpoch = c.currentEpoch := by
  unfold clusterDelSlot at deleted
  split at deleted
  next =>
    obtain rfl := Except.ok.inj deleted
    exact ⟨rfl, rfl, rfl, rfl⟩
  next =>
    split at deleted
    next =>
      obtain rfl := Except.ok.inj deleted
      exact ⟨rfl, rfl, rfl, rfl⟩
    next => cases deleted

structure Loosened (c d : ClusterState Addr Name) : Prop where
  table : Table d
  myself : d.myself = c.myself
  keys : d.keys = c.keys
  slot : ∀ slot, d.slots slot = c.slots slot ∨ d.slots slot = none
  configEpoch : ∀ slot a, d.slots slot = some a → (d.heap a).configEpoch = (c.heap a).configEpoch

theorem Loosened.refl (table : Table c) : Loosened c c := ⟨table, rfl, rfl, fun _ => .inl rfl, fun _ _ _ => rfl⟩

theorem Loosened.owner (loosened : Loosened c d) {a : Addr} (owned : d.slots slot = some a) : c.slots slot = some a := by
  rcases loosened.slot slot with same | free
  · rw [← same, owned]
  · exact absurd (owned.symm.trans free) (some_ne_none _)

theorem Loosened.trans (first : Loosened c d) (second : Loosened d e) : Loosened c e := by
  refine ⟨second.table, second.myself.trans first.myself, second.keys.trans first.keys, fun slot => ?_, fun slot a owned => ?_⟩
  · rcases second.slot slot with same | free
    · rw [same]
      exact first.slot slot
    · exact .inr free
  · exact (second.configEpoch slot a owned).trans (first.configEpoch slot a (second.owner owned))

section
variable (table : Table c)
include table

theorem Table.steady (steady : Steady c d) : Loosened c d :=
  ⟨table.frame steady.frame, steady.frame.myself, steady.keys, fun _ => .inl (by rw [steady.frame.slots]), fun _ a _ => steady.epoch a⟩

theorem Table.loosen (slot : Slot) :
    ∃ after, clusterDelSlot c slot = .ok after ∧ Loosened c after ∧ Rebound c after ∧ after.slots = update c.slots slot none := by
  obtain ⟨after, deleted, kept, rebound, slots⟩ := table.delSlot slot
  refine ⟨after, deleted, ⟨kept, rebound.myself, (delSlot_else deleted).2.2.1, fun other => ?_, fun _ a _ => by rw [rebound.node]⟩,
    rebound, slots⟩
  rw [slots]
  by_cases here : other = slot
  · subst here
    rw [update_self]
    exact .inr rfl
  · rw [update_of_ne here]
    exact .inl rfl

theorem Table.delNodeSlots (n : Addr) :
    Yields Benign (fun d => Loosened c d ∧ Rebound c d ∧ d.importing = c.importing ∧ d.currentEpoch = c.currentEpoch)
      (clusterDelNodeSlots c n) := by
  unfold clusterDelNodeSlots
  apply Yields.foldlM
  · rintro slot - d ⟨kept, rebound, importing, current⟩
    split
    next =>
      obtain ⟨after, deleted, kept', rebound', -⟩ := kept.table.loosen slot
      obtain ⟨importing', -, -, current'⟩ := delSlot_else deleted
      rw [deleted]
      exact ⟨kept.trans kept', rebound.trans rebound', importing'.trans importing, current'.trans current⟩
    next => exact ⟨kept, rebound, importing, current⟩
  · exact ⟨Loosened.refl table, Rebound.refl c, rfl, rfl⟩

theorem Table.forgetSlots (n : Addr) : Yields Benign (fun d => (Loosened c d ∧ Rebound c d) ∧ ∀ slot, d.slots slot ≠ some n)
      (allSlots.foldlM (fun c slot => c.forgetSlot n slot) c) := by
  have parts := @Yields.foldlM_each Fault Slot Benign _ (fun c slot => c.forgetSlot n slot) (fun d => Loosened c d ∧ Rebound c d)
    (fun slot d => d.slots slot ≠ some n) allSlots (by
      rintro slot - d ⟨kept, rebound⟩
      unfold ClusterState.forgetSlot
      simp only
      have closed : Steady d { d with
          importing := if d.importing slot = some n then update d.importing slot none else d.importing
          migrating := if d.migrating slot = some n then update d.migrating slot none else d.migrating } :=
        ⟨⟨rfl, rfl, rfl, rfl, fun _ => ⟨rfl, rfl, rfl⟩, fun _ settled => settled⟩, fun _ => rfl, rfl, rfl⟩
      have same := kept.trans (kept.table.steady closed)
      split
      next =>
        obtain ⟨after, deleted, kept', rebound', slots⟩ := same.table.loosen slot
        rw [deleted]
        have rest : Rebound d after := ⟨rebound'.nodes, rebound'.allocated, rebound'.myself, rebound'.node⟩
        refine ⟨⟨same.trans kept', rebound.trans rest⟩, ?_, fun other free => ?_⟩
        · rw [slots, update_self]
          exact (some_ne_none _).symm
        · rw [slots]
          by_cases here : other = slot
          · subst here
            rw [update_self]
            exact (some_ne_none _).symm
          · rw [update_of_ne here]
            exact free
      next other => exact ⟨⟨same, rebound.trans ⟨rfl, rfl, rfl, fun _ => rfl⟩⟩, other, fun _ free => free⟩) c ⟨Loosened.refl table, Rebound.refl c⟩
  apply parts.mono
  rintro d ⟨kept, free, -⟩
  exact ⟨kept, fun slot => free slot (mem_allSlots slot)⟩

end

end Cplusplus.Redis.Cluster
