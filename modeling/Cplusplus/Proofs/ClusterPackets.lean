import Cplusplus.Proofs.ClusterNodes

/-! What a packet does to the owners of the slots: a slot goes to the node that claims it with a greater epoch,
or becomes free. -/

set_option linter.unusedSectionVars false

namespace Cplusplus.Redis.Cluster

open Faults

variable {Addr Name : Type} [DecidableEq Addr] [LinearOrder Name] {c d e : ClusterState Addr Name}
variable {rises : Prop} {sender : Addr} {link : Option Addr}

structure Claim (Name : Type) where
  name : Name
  configEpoch : Nat
  slots : Slot → Bool

/-- A PING, PONG or MEET is about the sender, an UPDATE about the node that it names. -/
def Message.claim (message : Message Addr Name) (hdr : Header Name) : Claim Name :=
  match message with
  | .update about configEpoch slots => ⟨about, configEpoch.toNat, slots⟩
  | .ping _ => ⟨hdr.sender, hdr.configEpoch.toNat, hdr.myslots⟩
  | .meet _ _ => ⟨hdr.sender, hdr.configEpoch.toNat, hdr.myslots⟩
  | .other => ⟨hdr.sender, hdr.configEpoch.toNat, hdr.myslots⟩

structure Owned (c : ClusterState Addr Name) (claim : Claim Name) (rises : Prop) (d : ClusterState Addr Name) : Prop where
  table : Table d
  myself : d.myself = c.myself
  slot : ∀ slot, d.slots slot = c.slots slot ∨ d.slots slot = none ∨
    Rebinds c claim.configEpoch claim.slots slot ∧ d.slots slot = clusterLookupNode c claim.name
  configEpoch : rises → ∀ slot old new, c.slots slot = some old → d.slots slot = some new →
    (c.heap old).configEpoch ≤ (d.heap new).configEpoch
  keys : ∀ slot new, c.slots slot = some c.myself → d.slots slot = some new → new ≠ c.myself → countKeysInSlot c slot ≠ 0 →
    (d.heap d.myself).slave = true ∨ d.keys slot = 0

theorem Loosened.owned (loosened : Loosened c d) (claim : Claim Name) (rises : Prop) : Owned c claim rises d := by
  refine ⟨loosened.table, loosened.myself, fun slot => ?_, fun _ slot old new before after => ?_, fun slot new mine after other _ => ?_⟩
  · rcases loosened.slot slot with same | free
    · exact .inl same
    · exact .inr (.inl free)
  · obtain rfl := Option.some.inj (before.symm.trans (loosened.owner after))
    exact (loosened.configEpoch slot old after).ge
  · exact absurd (Option.some.inj ((loosened.owner after).symm.trans mine)) other

structure Raised (c d : ClusterState Addr Name) : Prop where
  table : Table d
  nodes : d.nodes = c.nodes
  myself : d.myself = c.myself
  slots : d.slots = c.slots
  importing : d.importing = c.importing
  keys : d.keys = c.keys
  configEpoch : ∀ a, (c.heap a).configEpoch ≤ (d.heap a).configEpoch

theorem Raised.trans (first : Raised c d) (second : Raised d e) : Raised c e :=
  ⟨second.table, second.nodes.trans first.nodes, second.myself.trans first.myself, second.slots.trans first.slots,
    second.importing.trans first.importing, second.keys.trans first.keys,
    fun a => (first.configEpoch a).trans (second.configEpoch a)⟩

variable {claim : Claim Name}

theorem Raised.owned (raised : Raised c d) (owned : Owned d claim rises e) : Owned c claim rises e := by
  refine ⟨owned.table, owned.myself.trans raised.myself, fun slot => ?_, fun holds slot old new before after => ?_,
    fun slot new mine after other counted => ?_⟩
  · rcases owned.slot slot with same | free | ⟨rebinds, taken⟩
    · rw [same, raised.slots]
      exact .inl rfl
    · exact .inr (.inl free)
    · refine .inr (.inr ⟨⟨rebinds.claimed, raised.importing ▸ rebinds.importing, fun owner before => ?_⟩, ?_⟩)
      · rw [← raised.slots] at before
        exact (raised.configEpoch owner).trans_lt (rebinds.greater owner before)
      · rw [taken, clusterLookupNode, raised.nodes]
        rfl
  · rw [← raised.slots] at before
    exact (raised.configEpoch old).trans (owned.configEpoch holds slot old new before after)
  · rw [← raised.slots, ← raised.myself] at mine
    rw [← raised.myself] at other
    refine owned.keys slot new mine after other ?_
    unfold countKeysInSlot at counted ⊢
    rw [raised.keys]
    exact counted

theorem Table.learn (table : Table c) (hdr : Header Name) (sender : Addr) : Raised c (c.learn hdr sender) := by
  refine ⟨table.frame (frame_learn c hdr sender), (frame_learn c hdr sender).nodes, (frame_learn c hdr sender).myself,
    (frame_learn c hdr sender).slots, ?_, ?_, fun a => ?_⟩
  · unfold ClusterState.learn
    split <;> rfl
  · unfold ClusterState.learn
    split <;> rfl
  · unfold ClusterState.learn
    split
    next => exact le_rfl
    next =>
      by_cases here : a = sender
      · subst here
        simp only [modify_self]
        exact le_max_left _ _
      · simp only [modify_of_ne _ _ here]
        exact le_rfl

theorem Switched.raised (switched : Switched c sender d) (slots : d.slots = c.slots) : Raised c d :=
  ⟨switched.loosened.table, switched.nodes, switched.loosened.myself, slots, switched.importing, switched.loosened.keys,
    fun a => (switched.configEpoch a).ge⟩

variable {name : Name}

theorem Updated.owned {epoch : Nat} {claimed : Slot → Bool} (updated : Updated c sender epoch claimed d)
    (found : clusterLookupNode c name = some sender) (learned : epoch ≤ (c.heap sender).configEpoch) (rises : Prop) :
    Owned c ⟨name, epoch, claimed⟩ rises d := by
  refine ⟨updated.table, updated.myself, fun slot => ?_, fun _ slot old new before after => ?_, fun slot new mine after other counted => ?_⟩
  · rcases updated.slot slot with same | ⟨rebinds, taken⟩
    · exact .inl same
    · exact .inr (.inr ⟨rebinds, taken.trans found.symm⟩)
  · rw [updated.configEpoch]
    rcases updated.slot slot with same | ⟨rebinds, taken⟩
    · obtain rfl := Option.some.inj (before.symm.trans (same.symm.trans after))
      exact le_rfl
    · obtain rfl := Option.some.inj (after.symm.trans taken)
      exact ((rebinds.greater old before).trans_le learned).le
  · refine updated.keys slot mine ?_ counted
    rw [after, mine]
    exact fun same => other (Option.some.inj same)

theorem Owned.raise {epoch greater : Nat} {claimed : Slot → Bool} (owned : Owned c ⟨name, epoch, claimed⟩ rises d)
    (le : epoch ≤ greater) : Owned c ⟨name, greater, claimed⟩ rises d := by
  refine ⟨owned.table, owned.myself, fun slot => ?_, owned.configEpoch, owned.keys⟩
  rcases owned.slot slot with same | free | ⟨rebinds, taken⟩
  · exact .inl same
  · exact .inr (.inl free)
  · exact .inr (.inr ⟨⟨rebinds.claimed, rebinds.importing, fun owner before => (rebinds.greater owner before).trans_le le⟩, taken⟩)

theorem Owned.bump (owned : Owned c claim rises d)
    (mine : ∀ slot old, c.slots slot = some old → d.slots slot = some d.myself → old = c.myself)
    (above : rises → (c.heap c.myself).configEpoch ≤ (d.currentEpoch + 1) % 2 ^ 64) : Owned c claim rises d.bumpEpoch := by
  have other : ∀ a, a ≠ d.myself → d.bumpEpoch.heap a = d.heap a := fun a different => Function.update_of_ne different ..
  have self : (d.bumpEpoch.heap d.myself).configEpoch = (d.currentEpoch + 1) % 2 ^ 64 := by
    unfold ClusterState.bumpEpoch
    rw [modify_self]
  refine ⟨owned.table.frame (frame_bumpEpoch d), owned.myself, owned.slot, fun holds slot old new before after => ?_,
    fun slot new own after different counted => ?_⟩
  · by_cases here : new = d.myself
    · subst here
      rw [self, mine slot old before after]
      exact above holds
    · rw [other new here]
      exact owned.configEpoch holds slot old new before after
  · rcases owned.keys slot new own after different counted with slave | deleted
    · refine .inl ?_
      have same : d.bumpEpoch.heap d.bumpEpoch.myself = { d.heap d.myself with configEpoch := (d.currentEpoch + 1) % 2 ^ 64 } :=
        Function.update_self ..
      rw [same]
      exact slave
    · exact .inr deleted

theorem Owned.grown (owned : Owned c claim rises d) (grown : Grown d e) : Owned c claim rises e := by
  have loosened := grown.loosened
  refine ⟨loosened.table, loosened.myself.trans owned.myself, fun slot => ?_, fun holds slot old new before after => ?_,
    fun slot new own after different counted => ?_⟩
  · rcases loosened.slot slot with same | free
    · rw [same]
      exact owned.slot slot
    · exact .inr (.inl free)
  · rw [loosened.configEpoch slot new after]
    exact owned.configEpoch holds slot old new before (loosened.owner after)
  · rw [loosened.myself, (grown.known _ owned.table.me).2, loosened.keys]
    exact owned.keys slot new own (loosened.owner after) different counted

variable {hdr : Header Name}

theorem Table.processConfig (table : Table c) (found : clusterLookupNode c hdr.sender = some sender)
    {epoch : Nat} (learned : epoch ≤ (c.heap sender).configEpoch) (handshakes : List (Fresh Addr Name))
    (above : rises → hdr.slaveof = none → (c.heap c.myself).master = true → (c.heap c.myself).configEpoch = epoch →
      (c.heap sender).configEpoch = epoch → (c.heap c.myself).name < hdr.sender → epoch ≤ (c.currentEpoch + 1) % 2 ^ 64) :
    Yields Benign (Owned c ⟨hdr.sender, epoch, hdr.myslots⟩ rises) (c.processConfig hdr sender epoch handshakes) := by
  unfold ClusterState.processConfig
  apply (table.switchRole hdr sender).bind
  rintro s ⟨switched, own⟩
  have known := (switched.known sender).mpr (table.known found)
  have found' : clusterLookupNode s hdr.sender = some sender := by
    rw [clusterLookupNode, switched.nodes]
    exact found
  have idle : Updated s sender epoch hdr.myslots s :=
    ⟨switched.loosened.table, rfl, rfl, fun _ => rfl, fun _ => rfl, rfl, fun _ => .inl rfl, fun _ _ lost => absurd rfl lost, .inr rfl⟩
  have update : Yields Benign (fun u => Updated s sender epoch hdr.myslots u ∧ (u = s ∨ (s.heap sender).master = true))
      (s.updateSlots hdr sender epoch) := by
    unfold ClusterState.updateSlots
    split
    next wanted =>
      rw [Bool.and_eq_true] at wanted
      apply (switched.loosened.table.updateSlots known epoch hdr.myslots).mono
      exact fun u updated => ⟨updated, .inr wanted.1⟩
    next => exact ⟨idle, .inl rfl⟩
  apply update.bind
  rintro u ⟨updated, same⟩
  have owned : ∀ rises, Owned c ⟨hdr.sender, epoch, hdr.myslots⟩ rises u := by
    intro rises
    rcases same with rfl | master
    · exact switched.loosened.owned _ _
    · apply (switched.raised (own master).2).owned
      exact updated.owned found' (by rw [switched.configEpoch]; exact learned) rises
  have grown := fun (v : ClusterState Addr Name) (table : Table v) =>
    table.handshakes (handshakes.filter fun fresh => fresh.name ≠ hdr.sender)
  unfold ClusterState.checkCollision
  split
  next roles =>
    simp only [Bool.and_eq_true, decide_eq_true_eq] at roles
    obtain ⟨⟨me, master⟩, equal⟩ := roles
    unfold clusterHandleConfigEpochCollision
    split
    next collides =>
      simp only [ClusterState.collides, Bool.and_eq_true, decide_eq_true_eq] at collides
      obtain ⟨⟨⟨epochs, -⟩, -⟩, less⟩ := collides
      have myself : u.myself = c.myself := updated.myself.trans switched.loosened.myself
      have epochOf : ∀ a, (u.heap a).configEpoch = (c.heap a).configEpoch := fun a => (updated.configEpoch a).trans (switched.configEpoch a)
      have nameOf : ∀ a, (u.heap a).name = (c.heap a).name := fun a => (updated.name a).trans (switched.name a)
      rw [nameOf, nameOf, (table.named _ _ found).1, myself] at less
      rw [epochOf, myself] at equal epochs
      rw [epochOf] at epochs
      have different : c.myself ≠ sender := by
        rintro here
        rw [here, (table.named _ _ found).1] at less
        exact lt_irrefl _ less
      -- a node that the update made a slave takes no epoch
      have role : (u.heap u.myself).master = (s.heap s.myself).master := by
        rcases updated.role with slave | role
        · rw [updated.table.settled.2, me] at slave
          exact absurd slave Bool.false_ne_true
        · exact role
      have isMaster : (s.heap sender).master = true := by
        rcases same with rfl | was
        · exact master
        · exact was
      have bumped : Owned c ⟨hdr.sender, epoch, hdr.myslots⟩ rises u.bumpEpoch := by
        apply (owned rises).bump
        · intro slot old before after
          rcases updated.slot slot with kept | ⟨-, taken⟩
          · rw [kept] at after
            have was := switched.loosened.owner after
            rw [before, myself] at was
            exact Option.some.inj was
          · rw [taken, myself] at after
            exact absurd (Option.some.inj after).symm different
        · intro holds
          rw [updated.currentEpoch, switched.currentEpoch, ← equal]
          apply above holds (own isMaster).1 _ equal.symm (epochs.trans equal.symm) less
          rw [← switched.master _ different, ← switched.loosened.myself, ← role]
          exact me
      exact bumped.grown (grown _ bumped.table)
    next => exact (owned rises).grown (grown _ updated.table)
  next => exact (owned rises).grown (grown _ updated.table)

def Message.configures (message : Message Addr Name) : Bool :=
  match message with
  | .ping _ => true
  | .meet _ _ => true
  | .update _ _ _ => false
  | .other => false

/-- The packet makes this node take another epoch: a master with the same epoch and a greater ID sends its configuration. -/
def ClusterState.takesEpoch (c : ClusterState Addr Name) (link : Option Addr) (hdr : Header Name) (message : Message Addr Name) : Bool :=
  message.configures && hdr.slaveof.isNone && (link.all fun node => !(c.heap node).handshake && (c.heap node).name = hdr.sender) &&
    (clusterLookupNode c hdr.sender).any fun sender =>
      !(c.heap sender).handshake && (c.heap c.myself).master && (c.heap c.myself).name < hdr.sender &&
        (c.heap c.myself).configEpoch = hdr.configEpoch.toNat && (c.heap sender).configEpoch ≤ hdr.configEpoch.toNat

def ClusterState.epochRises (c : ClusterState Addr Name) (link : Option Addr) (hdr : Header Name) (message : Message Addr Name) : Bool :=
  !c.takesEpoch link hdr message || (c.heap c.myself).configEpoch ≤ (max c.currentEpoch hdr.currentEpoch.toNat + 1) % 2 ^ 64

variable {node : Addr}

theorem linked_known (linked : c.linked link = true) (is : link = some node) : c.Known node := by
  rw [is, ClusterState.linked, Option.all_some, decide_eq_true_eq] at linked
  exact linked

theorem Table.notMyself (table : Table c) (handshake : (c.heap node).handshake = true) : node ≠ c.myself := by
  rintro rfl
  rw [table.settled.1] at handshake
  exact absurd handshake Bool.false_ne_true

section
variable (c)

theorem learn_settled (hdr : Header Name) (settled : (c.heap sender).handshake = false) :
    ((c.learn hdr sender).heap sender).configEpoch = max (c.heap sender).configEpoch hdr.configEpoch.toNat ∧
      (c.learn hdr sender).currentEpoch = max c.currentEpoch hdr.currentEpoch.toNat := by
  unfold ClusterState.learn
  rw [if_neg (by rw [settled]; exact Bool.false_ne_true)]
  simp only [modify_self, and_self]

theorem learn_other (hdr : Header Name) {a : Addr} (other : a ≠ sender) : (c.learn hdr sender).heap a = c.heap a := by
  unfold ClusterState.learn
  split
  next => rfl
  next => exact Function.update_of_ne other ..

end

section
variable (table : Table c)
include table

theorem Table.processKnown (linked : c.linked link = true) (found : clusterLookupNode c hdr.sender = some sender)
    (handshakes : List (Fresh Addr Name)) {message : Message Addr Name} (configures : message.configures = true) :
    Yields Benign (Owned c ⟨hdr.sender, hdr.configEpoch.toNat, hdr.myslots⟩ (c.epochRises link hdr message = true))
      (c.processKnown link hdr sender handshakes) := by
  have raised := table.learn hdr sender
  have shape := shape_learn c hdr sender
  have found' : clusterLookupNode (c.learn hdr sender) hdr.sender = some sender := by
    rw [clusterLookupNode, shape.nodes]
    exact found
  have small : c.senderConfigEpoch hdr sender ≤ hdr.configEpoch.toNat := by
    unfold ClusterState.senderConfigEpoch
    split
    next => exact Nat.zero_le _
    next => exact le_rfl
  have learned : c.senderConfigEpoch hdr sender ≤ ((c.learn hdr sender).heap sender).configEpoch := by
    unfold ClusterState.senderConfigEpoch
    split
    next => exact Nat.zero_le _
    next settled =>
      rw [(learn_settled c hdr (Bool.eq_false_of_not_eq_true settled)).1]
      exact le_max_right _ _
  have config : (∀ node, link = some node → (c.heap node).handshake = false ∧ (c.heap node).name = hdr.sender) →
      Yields Benign (Owned c ⟨hdr.sender, hdr.configEpoch.toNat, hdr.myslots⟩ (c.epochRises link hdr message = true))
        ((c.learn hdr sender).processConfig hdr sender (c.senderConfigEpoch hdr sender) handshakes) := by
    intro link'
    refine (raised.table.processConfig found' learned handshakes fun rises own master mine epochs less => ?_).mono fun d owned =>
      raised.owned (owned.raise small)
    cases settled : (c.heap sender).handshake with
    | true =>
      rw [ClusterState.senderConfigEpoch, if_pos settled]
      exact Nat.zero_le _
    | false =>
      have epoch : c.senderConfigEpoch hdr sender = hdr.configEpoch.toNat := by
        rw [ClusterState.senderConfigEpoch, settled]
        rfl
      have different : c.myself ≠ sender := by
        rintro here
        rw [raised.myself, here, (raised.table.named _ _ found').1] at less
        exact lt_irrefl _ less
      rw [raised.myself, learn_other c hdr different] at master mine less
      rw [(learn_settled c hdr settled).1, epoch] at epochs
      rw [epoch] at mine
      have takes : c.takesEpoch link hdr message = true := by
        have here : (link.all fun node => !(c.heap node).handshake && (c.heap node).name = hdr.sender) = true := by
          cases is : link with
          | none => rfl
          | some node =>
            obtain ⟨fixed, named⟩ := link' node is
            rw [Option.all_some, fixed, named, decide_eq_true rfl]
            rfl
        unfold ClusterState.takesEpoch
        rw [configures, own, here, found]
        simp only [Option.isNone_none, Option.any_some, settled, master, less, mine, Bool.not_false, decide_true, Bool.and_self, Bool.true_and,
          decide_eq_true_eq]
        exact (le_max_left _ _).trans_eq epochs
      rw [ClusterState.epochRises, takes, Bool.not_true, Bool.false_or, decide_eq_true_eq, mine] at rises
      rw [epoch, (learn_settled c hdr settled).2]
      exact rises
  unfold ClusterState.processKnown
  simp only
  split
  next => exact config fun node is => absurd is.symm (Option.some_ne_none _)
  next _ node =>
    have known := (shape.known node).mpr (linked_known linked rfl)
    have roles := shape.node node
    split
    next handshake =>
      apply (raised.table.delNode known (raised.table.notMyself handshake)).mono
      exact fun d deleted => raised.owned (deleted.loosened.owned _ _)
    next settled =>
      split
      next => exact raised.owned ((Loosened.refl raised.table).owned _ _)
      next named =>
        apply config
        rintro _ ⟨⟩
        rw [not_not] at named
        rw [roles] at settled named
        exact ⟨Bool.eq_false_of_not_eq_true settled, named⟩

theorem Table.processUpdate (about : Name) (epoch : Nat) (claimed : Slot → Bool) (rises : Prop) :
    Yields Benign (Owned c ⟨about, epoch, claimed⟩ rises) (c.processUpdate about epoch claimed) := by
  unfold ClusterState.processUpdate
  split
  next => exact (Loosened.refl table).owned _ _
  next n found =>
    split
    next => exact (Loosened.refl table).owned _ _
    next newer =>
      rw [ge_iff_le, Nat.not_le] at newer
      simp only
      have switched : Switched c n (if (c.heap n).slave then clusterSetNodeAsMaster c n else c) ∧
          (if (c.heap n).slave then clusterSetNodeAsMaster c n else c).slots = c.slots := by
        split
        next => exact ⟨table.switched_setNodeAsMaster n, (frame_setNodeAsMaster c n).slots⟩
        next => exact ⟨⟨Loosened.refl table, rfl, fun _ => rfl, fun _ => rfl, rfl, rfl, fun _ _ => rfl⟩, rfl⟩
      generalize (if (c.heap n).slave then clusterSetNodeAsMaster c n else c) = d at switched ⊢
      obtain ⟨switched, slots⟩ := switched
      have changed := frame_modify d n (fun x => { x with configEpoch := epoch }) (fun _ => ⟨rfl, rfl, rfl⟩) fun settled => settled
      have raised : Raised c (d.modify n fun x => { x with configEpoch := epoch }) := by
        apply (switched.raised slots).trans
        refine ⟨switched.loosened.table.frame changed, rfl, rfl, rfl, rfl, rfl, fun a => ?_⟩
        by_cases here : a = n
        · subst here
          rw [modify_self, switched.configEpoch]
          exact newer.le
        · rw [modify_of_ne _ _ here]
      have found' : clusterLookupNode (d.modify n fun x => { x with configEpoch := epoch }) about = some n := by
        rw [clusterLookupNode, raised.nodes]
        exact found
      apply (raised.table.updateSlots (raised.table.known found') epoch claimed).mono
      exact fun e updated => raised.owned (updated.owned found' (by rw [modify_self]) rises)

theorem Table.renamed (known : c.Known node) (unused : c.nodes.lookup name = none) :
    Yields Benign (fun d => Loosened c d ∧ (d.heap node).handshake = (c.heap node).handshake) (clusterRenameNode c node name) := by
  rw [rename_eq known unused]
  refine ⟨⟨table.rename known unused, rfl, rfl, fun _ => .inl rfl, fun _ a _ => ?_⟩, by rw [modify_self]⟩
  by_cases here : a = node
  · subst here
    simp only [modify_self]
  · simp only [modify_of_ne _ _ here]

theorem Table.processUnknown (linked : ∀ node, link = some node → c.Known node)
    (unused : c.nodes.lookup hdr.sender = none) : Yields Benign (Loosened c) (c.processUnknown link hdr) := by
  unfold ClusterState.processUnknown
  split
  next => exact Loosened.refl table
  next _ node =>
    split
    next handshake =>
      apply (table.renamed (linked node rfl) unused).bind
      rintro d ⟨loosened, same⟩
      -- the node was in handshake state: it is not this node
      have steady := steady_modify d node
        (fun x => { x with handshake := false, master := x.master || hdr.master, slave := x.slave || hdr.slave }) (fun _ => ⟨rfl, rfl, rfl⟩)
        (fun _ => rfl) fun settled => absurd (settled.1.symm.trans (same.trans handshake)) Bool.false_ne_true
      exact loosened.trans (loosened.table.steady steady)
    next => exact Loosened.refl table

theorem Table.packet (linked : c.linked link = true) (hdr : Header Name) (message : Message Addr Name) :
    Yields Benign (Owned c (message.claim hdr) (c.epochRises link hdr message = true)) (clusterProcessPacket c link hdr message) := by
  unfold clusterProcessPacket
  split
  next sender handshakes found => exact table.processKnown linked found handshakes rfl
  next sender fresh handshakes found => exact table.processKnown linked found handshakes rfl
  next sender about configEpoch slots found =>
    have raised := table.learn hdr sender
    apply (raised.table.processUpdate about configEpoch.toNat slots _).mono
    exact fun d owned => raised.owned owned
  next sender found =>
    have raised := table.learn hdr sender
    exact raised.owned ((Loosened.refl raised.table).owned _ _)
  next handshakes unused =>
    apply (table.processUnknown (fun node is => linked_known linked is) unused).mono
    exact fun d loosened => loosened.owned _ _
  next fresh handshakes unused =>
    have grown := table.handshakes ((fresh :: handshakes).filter fun fresh => fresh.name ≠ hdr.sender)
    have unused' := handshakes_unnamed ((fresh :: handshakes).filter fun fresh => fresh.name ≠ hdr.sender)
      (fun other member => decide_eq_true_eq.mp (List.mem_filter.mp member).2) unused
    apply (grown.loosened.table.processUnknown (fun node is => (grown.known node (linked_known linked is)).1) unused').mono
    exact fun d loosened => (grown.loosened.trans loosened).owned _ _
  next => exact (Loosened.refl table).owned _ _
  next => exact (Loosened.refl table).owned _ _

end

end Cplusplus.Redis.Cluster
