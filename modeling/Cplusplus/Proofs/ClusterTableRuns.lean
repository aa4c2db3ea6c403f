import Cplusplus.Proofs.ClusterPackets

/-! Runs of packets and commands: the slot table stays consistent, and the assertion of `clusterDelSlot` does
not fail. -/

namespace Cplusplus.Redis.Cluster

open Function

section
set_option linter.unusedSectionVars false

open Faults

variable {Addr Name : Type} [DecidableEq Addr] [LinearOrder Name] {c d e : ClusterState Addr Name}

theorem Rebound.shape (rebound : Rebound c d) : Shape c d := ⟨rebound.nodes, rebound.allocated, rebound.myself, fun a => by
  rw [rebound.node a]⟩

section
variable (table : Table c)
include table

theorem Table.moveSlot (slot : Slot) {n : Addr} (known : c.Known n) :
    ∃ after, clusterDelSlot c slot = .ok after ∧ Table (clusterAddSlot after n slot) ∧ Rebound c (clusterAddSlot after n slot) := by
  obtain ⟨after, deleted, kept, rebound, -⟩ := table.delSlot slot
  exact ⟨after, deleted, kept.addSlot ((rebound.known n).mpr known) slot, rebound.trans (rebound_addSlot after n slot)⟩

theorem Table.slotsCommand (del : Bool) (slots : List Slot) :
    Yields Benign (fun d => Table d ∧ Shape c d) (clusterSlotsCommand c del slots) := by
  unfold clusterSlotsCommand
  split
  next =>
    apply Yields.foldlM
    · rintro slot - d ⟨kept, shape⟩
      split
      next =>
        have closed : Table { d with importing := update d.importing slot none } :=
          kept.frame ⟨rfl, rfl, rfl, rfl, fun _ => ⟨rfl, rfl, rfl⟩, fun _ settled => settled⟩
        have same : Shape c { d with importing := update d.importing slot none } := ⟨shape.nodes, shape.allocated, shape.myself, shape.node⟩
        simp only
        split
        next =>
          obtain ⟨after, deleted, kept', rebound, -⟩ := closed.delSlot slot
          rw [deleted]
          exact ⟨kept', same.trans rebound.shape⟩
        next => exact ⟨closed.addSlot closed.me slot, same.trans (rebound_addSlot _ _ slot).shape⟩
      next => exact ⟨kept, shape⟩
    · exact ⟨table, Shape.refl c⟩
  next => exact ⟨table, Shape.refl c⟩

theorem Table.flushSlots : Yields Benign (fun d => Table d ∧ Shape c d) (clusterFlushSlotsCommand c) := by
  unfold clusterFlushSlotsCommand
  split
  next =>
    apply (table.delNodeSlots c.myself).mono
    exact fun d kept => ⟨kept.1.table, kept.2.1.shape⟩
  next => exact ⟨table, Shape.refl c⟩

theorem Table.setSlotNode (slot : Slot) {n : Addr} (known : c.Known n) :
    Yields Benign (fun d => Table d ∧ Shape c d) (clusterSetSlotNode c slot n) := by
  unfold clusterSetSlotNode
  split
  next => exact ⟨table, Shape.refl c⟩
  next =>
    simp only
    have opened : Table (if countKeysInSlot c slot = 0 then { c with migrating := update c.migrating slot none } else c) ∧
        Shape c (if countKeysInSlot c slot = 0 then { c with migrating := update c.migrating slot none } else c) := by
      split
      next => exact ⟨table.frame ⟨rfl, rfl, rfl, rfl, fun _ => ⟨rfl, rfl, rfl⟩, fun _ settled => settled⟩, ⟨rfl, rfl, rfl, fun _ => rfl⟩⟩
      next => exact ⟨table, Shape.refl c⟩
    generalize (if countKeysInSlot c slot = 0 then { c with migrating := update c.migrating slot none } else c) = d at opened ⊢
    obtain ⟨kept, shape⟩ := opened
    have closed : Table (if n = d.myself ∧ d.importing slot ≠ none then
          { clusterBumpConfigEpochWithoutConsensus d with importing := update d.importing slot none } else d) ∧
        Shape c (if n = d.myself ∧ d.importing slot ≠ none then
          { clusterBumpConfigEpochWithoutConsensus d with importing := update d.importing slot none } else d) := by
      split
      next =>
        have bumped := kept.frame (frame_bumpWithoutConsensus d)
        have same := shape.trans (shape_bumpWithoutConsensus d)
        exact ⟨bumped.frame ⟨rfl, rfl, rfl, rfl, fun _ => ⟨rfl, rfl, rfl⟩, fun _ settled => settled⟩,
          ⟨same.nodes, same.allocated, same.myself, same.node⟩⟩
      next => exact ⟨kept, shape⟩
    generalize (if n = d.myself ∧ d.importing slot ≠ none then
      { clusterBumpConfigEpochWithoutConsensus d with importing := update d.importing slot none } else d) = e at closed ⊢
    obtain ⟨kept', same⟩ := closed
    obtain ⟨after, deleted, moved, rebound⟩ := kept'.moveSlot slot ((same.known n).mpr known)
    rw [deleted]
    exact ⟨moved, same.trans rebound.shape⟩

theorem Table.setSlot (slot : Slot) (action : SetSlot Name) :
    Yields Benign (fun d => Table d ∧ Shape c d) (clusterSetSlotCommand c slot action) := by
  have marks : ∀ importing migrating, Table { c with importing, migrating } ∧ Shape c { c with importing, migrating } := fun _ _ =>
    ⟨table.frame ⟨rfl, rfl, rfl, rfl, fun _ => ⟨rfl, rfl, rfl⟩, fun _ settled => settled⟩, ⟨rfl, rfl, rfl, fun _ => rfl⟩⟩
  unfold clusterSetSlotCommand
  split
  next name =>
    split
    next => exact ⟨table, Shape.refl c⟩
    next =>
      simp only [yields_ok]
      split
      next => exact marks _ _
      next => exact ⟨table, Shape.refl c⟩
  next name =>
    split
    next => exact ⟨table, Shape.refl c⟩
    next =>
      simp only [yields_ok]
      split
      next => exact ⟨table, Shape.refl c⟩
      next => exact marks _ _
  next => exact marks _ _
  next name =>
    split
    next => exact ⟨table, Shape.refl c⟩
    next n found => exact table.setSlotNode slot (table.known found)

theorem Table.setConfigEpoch (epoch : Nat) : Table (clusterSetConfigEpochCommand c epoch) ∧ Shape c (clusterSetConfigEpochCommand c epoch) := by
  unfold clusterSetConfigEpochCommand
  split
  next => exact ⟨table, Shape.refl c⟩
  next =>
    split
    next => exact ⟨table, Shape.refl c⟩
    next =>
      split
      next => exact ⟨table, Shape.refl c⟩
      next =>
        have changed := frame_modify c c.myself (fun x => { x with configEpoch := epoch }) (fun _ => ⟨rfl, rfl, rfl⟩) fun settled => settled
        exact ⟨table.frame ⟨rfl, rfl, rfl, rfl, changed.node, changed.settled⟩, shape_epoch c _ _ _⟩

section
variable (name : Name)

theorem Table.forget : Yields Benign Table (clusterForgetCommand c name) := by
  unfold clusterForgetCommand
  split
  next => exact table
  next n found =>
    split
    next => exact table
    next other =>
      split
      next => exact table
      next => exact (table.delNode (table.known found) other).mono fun _ deleted => deleted.loosened.table

theorem Table.setMasterTable (n : Addr) : Yields Benign Table (clusterSetMaster c n) :=
  (table.setMaster n).mono fun _ changed => table.frame changed.1.frame

theorem Table.replicate : Yields Benign Table (clusterReplicateCommand c name) := by
  unfold clusterReplicateCommand
  split
  next => exact table
  next n _ =>
    split
    next => exact table
    next =>
      split
      next => exact table
      next =>
        split
        next => exact table
        next => exact table.setMasterTable n

theorem Table.replaceYourMaster :
    Yields Benign (fun d => Table d ∧ (d = c ∨ (c.heap c.myself).master = false ∧ Shape (clusterSetNodeAsMaster c c.myself) d))
      (clusterFailoverReplaceYourMaster c) := by
  unfold clusterFailoverReplaceYourMaster
  split
  next => exact ⟨table, .inl rfl⟩
  next oldmaster _ =>
    split
    next => exact ⟨table, .inl rfl⟩
    next slave =>
      refine Yields.mono ?_ fun d (kept : Table d ∧ Shape (clusterSetNodeAsMaster c c.myself) d) =>
        ⟨kept.1, .inr ⟨Bool.eq_false_of_not_eq_true slave, kept.2⟩⟩
      apply Yields.foldlM
      · rintro slot - d ⟨kept, shape⟩
        split
        next =>
          obtain ⟨after, deleted, moved, rebound⟩ := kept.moveSlot slot kept.me
          have me : after.myself = d.myself := by
            have same := rebound.myself
            rw [← (rebound_addSlot after d.myself slot).myself]
            exact same
          rw [deleted]
          simp only [bind, Except.bind, yields_ok, me]
          exact ⟨moved, shape.trans rebound.shape⟩
        next => exact ⟨kept, shape⟩
      · exact ⟨table.frame (frame_setNodeAsMaster c _), Shape.refl _⟩

theorem Table.takeover : Yields Benign Table (clusterTakeoverCommand c) := by
  unfold clusterTakeoverCommand
  split
  next => exact table
  next => exact (table.frame (frame_bumpWithoutConsensus c)).replaceYourMaster.mono fun _ kept => kept.1

theorem Table.failoverWon (epoch : Nat) : Yields Benign Table (c.failoverWon epoch) := by
  unfold ClusterState.failoverWon
  split
  next => exact table
  next =>
    have changed := frame_modify c c.myself (fun x => { x with configEpoch := max x.configEpoch epoch }) (fun _ => ⟨rfl, rfl, rfl⟩)
      fun settled => settled
    exact (table.frame changed).replaceYourMaster.mono fun _ kept => kept.1

theorem Table.migrateTo : Yields Benign Table (c.migrateTo name) := by
  unfold ClusterState.migrateTo
  split
  next => exact table
  next =>
    split
    next => exact table.setMasterTable _
    next => exact table

theorem Table.handshakeTimeout : Yields Benign Table (c.handshakeTimeout name) := by
  unfold ClusterState.handshakeTimeout
  split
  next => exact table
  next n found =>
    split
    next old => exact (table.delNode (table.known found) old.2).mono fun _ deleted => deleted.loosened.table
    next => exact table

theorem Table.leaveSlots : Yields Benign (fun d => Table d ∧ Shape c d ∧ ∀ slot, d.slots slot = none) (allSlots.foldlM clusterDelSlot c) := by
  have parts := @Yields.foldlM_each Fault Slot Benign _ clusterDelSlot (fun d => Table d ∧ Shape c d) (fun slot d => d.slots slot = none)
    allSlots (by
      rintro slot - d ⟨kept, shape⟩
      obtain ⟨after, deleted, kept', rebound, slots⟩ := kept.delSlot slot
      rw [deleted]
      refine ⟨⟨kept', shape.trans rebound.shape⟩, ?_, fun other free => ?_⟩
      · rw [slots, update_self]
      · rw [slots]
        by_cases here : other = slot
        · subst here
          rw [update_self]
        · rw [update_of_ne here]
          exact free) c ⟨table, Shape.refl c⟩
  apply parts.mono
  rintro d ⟨kept, free, -⟩
  exact ⟨kept.1, kept.2, fun slot => free slot (mem_allSlots slot)⟩

theorem Table.forgetOther :
    Yields Benign (fun d => Table d ∧ ∀ other, c.nodes.lookup other = none → d.nodes.lookup other = none) (c.forgetOther name) := by
  unfold ClusterState.forgetOther
  split
  next => exact ⟨table, fun _ unused => unused⟩
  next n found =>
    split
    next => exact ⟨table, fun _ unused => unused⟩
    next other =>
      apply (table.delNode (table.known found) other).mono
      rintro d ⟨loosened, nodes, -⟩
      refine ⟨loosened.table, fun other unused => ?_⟩
      rw [nodes]
      by_cases here : other = (c.heap n).name
      · rw [here, AList.lookup_erase]
      · rw [AList.lookup_erase_ne here, unused]

end

theorem Table.forgetOthers (order : List Name) :
    Yields Benign (fun d => Table d ∧ ∀ other, c.nodes.lookup other = none → d.nodes.lookup other = none)
      (order.foldlM ClusterState.forgetOther c) := by
  apply Yields.foldlM
  · rintro name - d ⟨kept, unused⟩
    apply (kept.forgetOther name).mono
    exact fun e after => ⟨after.1, fun other none => after.2 other (unused other none)⟩
  · exact ⟨table, fun _ unused => unused⟩

end

def ClusterState.beMaster (c : ClusterState Addr Name) : ClusterState Addr Name :=
  if (c.heap c.myself).slave then { clusterSetNodeAsMaster c c.myself with keys := fun _ => 0 } else c

section
variable (table : Table c)
include table

theorem Table.beMaster : Table (clusterCloseAllSlots c.beMaster) ∧ (clusterCloseAllSlots c.beMaster).nodes = c.nodes := by
  unfold ClusterState.beMaster
  split
  next =>
    have frame := frame_setNodeAsMaster c c.myself
    exact ⟨table.frame ⟨frame.nodes, frame.allocated, frame.myself, frame.slots, frame.node, frame.settled⟩, frame.nodes⟩
  next => exact ⟨table.frame ⟨rfl, rfl, rfl, rfl, fun _ => ⟨rfl, rfl, rfl⟩, fun _ settled => settled⟩, rfl⟩

theorem Table.reset (order : List Name) (newname : Option Name) (unused : ∀ name, newname = some name → c.nodes.lookup name = none) :
    Yields Benign Table (clusterReset c order newname) := by
  have first := table.beMaster
  apply first.1.leaveSlots.bind
  rintro d ⟨kept, shape, -⟩
  apply (kept.forgetOthers order).bind
  rintro e ⟨kept', gone⟩
  split
  next => exact kept'
  next name =>
    have changed := frame_modify e e.myself (fun x => { x with configEpoch := 0 }) (fun _ => ⟨rfl, rfl, rfl⟩) fun settled => settled
    have zero : Table ({ e with currentEpoch := 0 }.modify e.myself fun x => { x with configEpoch := 0 }) :=
      kept'.frame ⟨rfl, rfl, rfl, rfl, changed.node, changed.settled⟩
    have free : ({ e with currentEpoch := 0 }.modify e.myself fun x => { x with configEpoch := 0 }).nodes.lookup name = none := by
      apply gone
      rw [shape.nodes, first.2]
      exact unused name rfl
    exact (zero.renamed zero.me free).mono fun _ renamed => renamed.1.table

theorem Table.resetCommand (order : List Name) (newname : Option Name)
    (unused : ∀ name, newname = some name → c.nodes.lookup name = none) : Yields Benign Table (clusterResetCommand c order newname) := by
  unfold clusterResetCommand
  split
  next => exact table
  next => exact table.reset order newname unused

theorem Table.scribble {a : Addr} (freed : c.allocated a = false) (contents : ClusterNode Addr Name) :
    Table { c with heap := update c.heap a contents } := by
  have other : ∀ b, c.Known b → b ≠ a := fun b known => table.unused freed known
  have known : ∀ b, ({ c with heap := update c.heap a contents } : ClusterState Addr Name).Known b → b ≠ a ∧ c.Known b := by
    intro b there
    have found : c.Known b := table.known there
    exact ⟨other b found, found⟩
  have still : ∀ b, c.Known b → ({ c with heap := update c.heap a contents } : ClusterState Addr Name).Known b := by
    intro b there
    have same : ({ c with heap := update c.heap a contents } : ClusterState Addr Name).heap b = c.heap b := update_of_ne (other b there) ..
    rw [ClusterState.Known, same]
    exact there
  refine ⟨fun name b found => ?_, still _ table.me, fun slot b owned => still b (table.owners slot b owned), fun b there slot => ?_,
    fun b there => ?_, ?_⟩
  · simp only [update_of_ne (other b (table.known found))]
    exact table.named name b found
  · simp only [update_of_ne (known b there).1]
    exact table.bits b (known b there).2 slot
  · simp only [update_of_ne (known b there).1]
    exact table.counts b (known b there).2
  · simp only [update_of_ne (other _ table.me)]
    exact table.settled

theorem Table.step (event : Event Addr Name) : Yields Benign Table (step c event) := by
  cases event with
  | packet link hdr message =>
    simp only [Cluster.step]
    split
    next linked => exact (table.packet linked hdr message).mono fun _ owned => owned.table
    next => exact table
  | meet fresh => exact (table.handshake fresh).loosened.table
  | slots del slots => exact (table.slotsCommand del slots).mono fun _ kept => kept.1
  | flushSlots => exact table.flushSlots.mono fun _ kept => kept.1
  | setSlot slot action => exact (table.setSlot slot action).mono fun _ kept => kept.1
  | forget name => exact table.forget name
  | replicate name => exact table.replicate name
  | takeover => exact table.takeover
  | setConfigEpoch epoch => exact (table.setConfigEpoch epoch).1
  | reset order newname =>
    simp only [Cluster.step]
    split
    next allowed =>
      refine table.resetCommand order newname fun name is => ?_
      have unused := allowed.2
      rw [is, Option.all_some, decide_eq_true_eq] at unused
      exact unused
    next => exact table
  | failoverWon epoch => exact table.failoverWon epoch.toNat
  | migrate name => exact table.migrateTo name
  | handshakeTimeout name => exact table.handshakeTimeout name
  | setKeys keys => exact table.frame ⟨rfl, rfl, rfl, rfl, fun _ => ⟨rfl, rfl, rfl⟩, fun _ settled => settled⟩
  | scribble a contents =>
    simp only [Cluster.step, yields_ok]
    split
    next => exact table
    next freed => exact table.scribble (Bool.eq_false_of_not_eq_true freed) contents

theorem Table.run (events : List (Event Addr Name)) : Yields Benign Table (run c events) :=
  Yields.foldlM events (fun event _ _ kept => kept.step event) table

end

theorem table_init (memory : Addr → ClusterNode Addr Name) (myself : Addr) (name : Name) : Table (clusterInit memory myself name) := by
  have lookup : ∀ other a, (clusterInit memory myself name).nodes.lookup other = some a → other = name ∧ a = myself := by
    intro other a found
    have member : (⟨other, a⟩ : Sigma fun _ : Name => Addr) ∈ [⟨name, myself⟩] := AList.mem_lookup_iff.mp found
    cases List.mem_singleton.mp member
    exact ⟨rfl, rfl⟩
  have me : (clusterInit memory myself name).heap myself = ⟨name, true, false, false, 0, fun _ => false, 0, [], none⟩ := update_self ..
  refine ⟨fun other a found => ?_, ?_, fun slot a owned => ?_, fun a known slot => ?_, fun a known => ?_, ?_⟩
  · obtain ⟨rfl, rfl⟩ := lookup other a found
    exact ⟨by rw [me], decide_eq_true rfl⟩
  · rw [ClusterState.Known, show (clusterInit memory myself name).myself = myself from rfl, me]
    exact AList.mem_lookup_iff.mpr (List.mem_singleton_self _)
  · cases owned
  · obtain ⟨-, rfl⟩ := lookup _ a known
    rw [me]
    exact ⟨fun set => absurd set Bool.false_ne_true, fun owned => by cases owned⟩
  · obtain ⟨-, rfl⟩ := lookup _ a known
    rw [me]
    exact (List.countP_eq_zero.mpr fun _ _ none => Bool.noConfusion none).symm
  · rw [show (clusterInit memory myself name).myself = myself from rfl, me]
    exact ⟨rfl, rfl⟩

def blank : ClusterNode Nat Nat := ⟨0, false, false, false, 0, fun _ => false, 0, [], none⟩

/-- The two records of the owners of the slots agree in every state that packets and commands lead to. -/
theorem slot_table_consistent (memory : Addr → ClusterNode Addr Name) (myself : Addr) (name : Name) (events : List (Event Addr Name)) :
    run (clusterInit memory myself name) events ≠ .error .clusterDelSlot ∧
      ∀ c, run (clusterInit memory myself name) events = .ok c →
        (∀ id n, c.nodes.lookup id = some n → (∀ slot, (c.heap n).slots slot = true ↔ c.slots slot = some n) ∧
          (c.heap n).numslots = allSlots.countP (c.heap n).slots) ∧
        ∀ slot n, c.slots slot = some n → ∃ id, c.nodes.lookup id = some n := by
  have runs := (table_init memory myself name).run events
  refine ⟨fun failed => ?_, fun c ended => ?_⟩
  · rcases runs.fault failed with other | other <;> cases other
  · have table := runs.result ended
    refine ⟨fun id n found => ⟨table.bits n (table.known found), table.counts n (table.known found)⟩, fun slot n owned => ?_⟩
    exact ⟨_, table.owners slot n owned⟩

end

/-! Owners of slots along runs of packets: a slot goes only to a greater epoch, and no keys stay behind. -/

section
set_option linter.unusedSectionVars false

open Faults

variable {Addr Name : Type} [DecidableEq Addr] [LinearOrder Name] {c d e : ClusterState Addr Name}

structure Packet (Addr Name : Type) where
  link : Option Addr
  hdr : Header Name
  message : Message Addr Name

def receive (c : ClusterState Addr Name) (packet : Packet Addr Name) : Except Fault (ClusterState Addr Name) :=
  step c (.packet packet.link packet.hdr packet.message)

def Packet.claim (packet : Packet Addr Name) : Claim Name := packet.message.claim packet.hdr

structure Rightful (c : ClusterState Addr Name) (claim : Claim Name) (d : ClusterState Addr Name) : Prop where
  greater : ∀ slot old new, c.slots slot = some old → d.slots slot = some new → new ≠ old →
    clusterLookupNode c claim.name = some new ∧ claim.slots slot = true ∧ (c.heap old).configEpoch < claim.configEpoch
  importing : ∀ slot, c.importing slot ≠ none → d.slots slot = c.slots slot ∨ d.slots slot = none
  rises : ∀ slot old new, c.slots slot = some old → d.slots slot = some new → (c.heap old).configEpoch ≤ (d.heap new).configEpoch
  keys : ∀ slot new, c.slots slot = some c.myself → d.slots slot = some new → new ≠ c.myself → c.keys slot ≠ 0 →
    (d.heap d.myself).slave = true ∨ d.keys slot = 0

/-- The next epoch is not smaller than the one that this node has, if it takes one, and a slot with keys that this node
may lose counts as one. -/
def Packet.Fits (c : ClusterState Addr Name) (packet : Packet Addr Name) : Prop :=
  c.epochRises packet.link packet.hdr packet.message = true ∧
    ∀ slot, packet.claim.slots slot = true → (c.heap c.myself).configEpoch < packet.claim.configEpoch → c.slots slot = some c.myself →
      c.keys slot ≠ 0 → countKeysInSlot c slot ≠ 0

theorem Owned.rightful {packet : Packet Addr Name}
    (owned : Owned c packet.claim (c.epochRises packet.link packet.hdr packet.message = true) d) (fits : packet.Fits c) :
    Rightful c packet.claim d := by
  have taken : ∀ slot old new, c.slots slot = some old → d.slots slot = some new → new ≠ old →
      Rebinds c packet.claim.configEpoch packet.claim.slots slot ∧ clusterLookupNode c packet.claim.name = some new := by
    intro slot old new before after other
    rcases owned.slot slot with same | free | ⟨rebinds, found⟩
    · rw [before, after] at same
      exact absurd (Option.some.inj same) other
    · rw [after] at free
      exact absurd free (Option.some_ne_none _)
    · exact ⟨rebinds, found.symm.trans after⟩
  refine ⟨fun slot old new before after other => ?_, fun slot importing => ?_, owned.configEpoch fits.1, fun slot new mine after other keys => ?_⟩
  · obtain ⟨rebinds, found⟩ := taken slot old new before after other
    exact ⟨found, rebinds.claimed, rebinds.greater old before⟩
  · rcases owned.slot slot with same | free | ⟨rebinds, -⟩
    · exact .inl same
    · exact .inr free
    · exact absurd rebinds.importing importing
  · obtain ⟨rebinds, -⟩ := taken slot _ new mine after other
    exact owned.keys slot new mine after other (fits.2 slot rebinds.claimed (rebinds.greater _ mine) mine keys)

theorem Rightful.refl (c : ClusterState Addr Name) (claim : Claim Name) : Rightful c claim c := by
  refine ⟨fun slot old new before after other => ?_, fun _ _ => .inl rfl, fun slot old new before after => ?_, fun slot new mine after other _ => ?_⟩
  · exact absurd (Option.some.inj (after.symm.trans before)) other
  · rw [Option.some.inj (before.symm.trans after)]
  · exact absurd (Option.some.inj (after.symm.trans mine)) other

theorem Table.receive (table : Table c) {packet : Packet Addr Name} (fits : packet.Fits c) :
    Yields Benign (fun d => Table d ∧ Rightful c packet.claim d) (Cluster.receive c packet) := by
  unfold Cluster.receive
  simp only [Cluster.step]
  split
  next linked =>
    apply (table.packet linked packet.hdr packet.message).mono
    exact fun d owned => ⟨owned.table, Owned.rightful owned fits⟩
  next => exact ⟨table, Rightful.refl c _⟩

/-- The slot stays assigned. -/
def Assigned (slot : Slot) (c : ClusterState Addr Name) (packet : Packet Addr Name) : Prop :=
  ∀ d, receive c packet = .ok d → d.slots slot ≠ none

theorem Table.epochs_rise {packets : List (Packet Addr Name)} {slot : Slot} {old new : Addr} (table : Table c)
    (fits : Meets Cluster.receive (fun c packet => packet.Fits c) c packets) (assigned : Meets Cluster.receive (Assigned slot) c packets)
    (before : c.slots slot = some old) (ended : packets.foldlM Cluster.receive c = .ok d) (after : d.slots slot = some new) :
    (c.heap old).configEpoch ≤ (d.heap new).configEpoch := by
  induction packets generalizing c old with
  | nil =>
    cases ended
    rw [Option.some.inj (before.symm.trans after)]
  | cons packet packets ih =>
    rw [List.foldlM_cons] at ended
    cases taken : Cluster.receive c packet with
    | error fault =>
      rw [taken] at ended
      cases ended
    | ok middle =>
      rw [taken] at ended
      obtain ⟨kept, rightful⟩ := (table.receive fits.1).result taken
      obtain ⟨owner, owned⟩ := Option.ne_none_iff_exists'.mp (assigned.1 middle taken)
      exact (rightful.rises slot old owner before owned).trans (ih kept (fits.2 middle taken) (assigned.2 middle taken) owned ended)

def firstSlot : Slot := ⟨0, by decide⟩

def acquainted : List (Event Nat Nat) :=
  [.setSlot firstSlot (.node 0), .meet ⟨1, 1⟩, .packet (some 1) ⟨2, 0, 0, fun _ => false, none, true, false⟩ (.ping [])]

/-- From any state that packets and commands lead to, packets that fit rebind slots to greater epochs only, and leave no
keys of a lost slot on a master. -/
theorem slot_owners_follow_epochs (memory : Addr → ClusterNode Addr Name) (myself : Addr) (name : Name) (events : List (Event Addr Name))
    (c : ClusterState Addr Name) (reached : run (clusterInit memory myself name) events = .ok c) (packets : List (Packet Addr Name))
    (fits : Meets receive (fun c packet => packet.Fits c) c packets) :
    Meets receive (fun c packet => ∀ d, receive c packet = .ok d → Rightful c packet.claim d) c packets ∧
      ∀ slot d old new, Meets receive (Assigned slot) c packets → packets.foldlM receive c = .ok d → c.slots slot = some old →
        d.slots slot = some new → (c.heap old).configEpoch ≤ (d.heap new).configEpoch := by
  have table := ((table_init memory myself name).run events).result reached
  refine ⟨fits.implies (fun c packet kept fits => (kept.receive fits).mono fun _ after => after.1) (fun c packet kept fits d taken => ?_) table,
    fun slot d old new assigned ended before after => table.epochs_rise fits assigned before ended after⟩
  exact ((kept.receive fits).result taken).2

def takesOver : Packet Nat Nat := ⟨some 1, ⟨2, 3, 3, fun slot => slot = firstSlot, none, true, false⟩, .ping []⟩

theorem slot_owners_follow_epochs_taken :
    ∃ c, run (clusterInit (fun _ => blank) 0 0) acquainted = .ok c ∧ c.slots firstSlot = some 0 ∧
      Meets receive (fun c packet => ∀ d, receive c packet = .ok d → Rightful c packet.claim d) c [takesOver] := by
  refine ⟨_, rfl, rfl, (slot_owners_follow_epochs (fun _ => blank) 0 0 acquainted _ rfl [takesOver] ?_).1⟩
  exact ⟨⟨rfl, fun _ _ _ _ keys => absurd rfl keys⟩, fun _ _ => trivial⟩

theorem processConfig_same {hdr : Header Name} {sender : Addr} (own : hdr.slaveof = none) (master : (c.heap sender).master = true)
    (slots : (c.heap sender).slots = hdr.myslots) (epoch : Nat) :
    c.processConfig hdr sender epoch [] = .ok (c.checkCollision sender epoch) := by
  have role : c.switchRole hdr sender = .ok c := by
    rw [ClusterState.switchRole, own]
    simp only [clusterSetNodeAsMaster, master, if_true]
  have clean : c.dirtySlots hdr sender = false := by
    rw [ClusterState.dirtySlots, List.any_eq_false]
    intro slot _
    rw [slots, bne_self_eq_false]
    exact Bool.false_ne_true
  unfold ClusterState.processConfig
  rw [role]
  simp only [bind, Except.bind, ClusterState.updateSlots, clean, Bool.and_false, Bool.false_eq_true, if_false]
  rfl

def aboutReceiver : Event Nat Nat := .packet (some 1) ⟨2, 0, 0, fun _ => false, none, true, false⟩ (.update 0 10 fun _ => false)

def sameEpoch : Packet Nat Nat := ⟨some 1, ⟨2, 0, 10, fun _ => false, none, true, false⟩, .ping []⟩

/-- The UPDATE raises the epoch of the receiver, but not the current epoch: after the collision the owner of the first slot has epoch 1. -/
theorem epoch_of_owner_falls :
    ∃ c d, run (clusterInit (fun _ => blank) 0 0) (acquainted ++ [aboutReceiver]) = .ok c ∧ receive c sameEpoch = .ok d ∧
      c.slots firstSlot = some 0 ∧ d.slots firstSlot = some 0 ∧ (c.heap 0).configEpoch = 10 ∧ (d.heap 0).configEpoch = 1 ∧ ¬ Rightful c sameEpoch.claim d := by
  refine ⟨_, _, rfl, processConfig_same rfl rfl rfl 10, rfl, rfl, rfl, rfl, fun rightful => ?_⟩
  have rises := rightful.rises firstSlot 0 0 rfl rfl
  exact absurd rises (by decide)

end

end Cplusplus.Redis.Cluster
