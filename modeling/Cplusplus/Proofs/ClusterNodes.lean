import Cplusplus.Proofs.ClusterTable

/-! Nodes that are added, renamed, deleted, or get another role: the slot table stays one. -/

namespace Cplusplus.Redis.Cluster

open List Option Function

section
set_option linter.unusedSectionVars false

open Faults

variable {Addr Name : Type} [DecidableEq Addr] [LinearOrder Name] {c d e : ClusterState Addr Name}

theorem steady_clearSlaveof (c : ClusterState Addr Name) (slaves : List Addr) :
    Steady c (slaves.foldl (fun c slave => c.modify slave fun x => { x with slaveof := none }) c) := by
  induction slaves generalizing c with
  | nil => exact ⟨Frame.refl c, fun _ => rfl, rfl, rfl⟩
  | cons slave slaves ih =>
    have first := steady_modify c slave (fun x => { x with slaveof := none }) (fun _ => ⟨rfl, rfl, rfl⟩) (fun _ => rfl)
      fun settled => settled
    exact first.trans (ih _)

variable {n : Addr}

theorem Table.erase (table : Table c) (known : c.Known n) (other : n ≠ c.myself) (free : ∀ slot, c.slots slot ≠ some n) :
    Table { c with nodes := c.nodes.erase (c.heap n).name, allocated := update c.allocated n false } := by
  have still : ∀ a, c.Known a → a ≠ n → (c.nodes.erase (c.heap n).name).lookup (c.heap a).name = some a := by
    intro a there different
    rw [AList.lookup_erase_ne]
    · exact there
    · intro same
      rw [ClusterState.Known, same, known] at there
      exact different (some.inj there).symm
  have left : ∀ name a, (c.nodes.erase (c.heap n).name).lookup name = some a → c.nodes.lookup name = some a ∧ a ≠ n := by
    intro name a found
    by_cases same : name = (c.heap n).name
    · rw [same, AList.lookup_erase] at found
      exact absurd found.symm (some_ne_none _)
    · rw [AList.lookup_erase_ne same] at found
      exact ⟨found, fun here => same ((table.named name a found).1.symm.trans (congrArg (fun b => (c.heap b).name) here))⟩
  refine ⟨fun name a found => ?_, still _ table.me (Ne.symm other), fun slot a owned => ?_, fun a there => ?_, fun a there => ?_, table.settled⟩
  · obtain ⟨before, different⟩ := left name a found
    refine ⟨(table.named name a before).1, ?_⟩
    simp only [update_of_ne different]
    exact (table.named name a before).2
  · exact still a (table.owners slot a owned) fun here => free slot (here ▸ owned)
  · exact table.bits a (left _ a there).1
  · exact table.counts a (left _ a there).1

structure Deleted (c : ClusterState Addr Name) (n : Addr) (d : ClusterState Addr Name) : Prop where
  loosened : Loosened c d
  nodes : d.nodes = c.nodes.erase (c.heap n).name
  name : ∀ a, (d.heap a).name = (c.heap a).name

theorem Table.free (table : Table c) (known : c.Known n) (other : n ≠ c.myself) (free : ∀ slot, c.slots slot ≠ some n) :
    Yields Benign (Deleted c n) (freeClusterNode c n) := by
  unfold freeClusterNode
  simp only
  have first : Steady c (if (c.heap n).master then
      (c.heap n).slaves.foldl (fun c slave => c.modify slave fun x => { x with slaveof := none }) c else c) := by
    split
    next => exact steady_clearSlaveof c _
    next => exact ⟨Frame.refl c, fun _ => rfl, rfl, rfl⟩
  generalize (if (c.heap n).master then
    (c.heap n).slaves.foldl (fun c slave => c.modify slave fun x => { x with slaveof := none }) c else c) = d at first ⊢
  have second : Steady d (if (d.heap n).slave then d.leaveMaster n else d) := by
    split
    next => exact steady_leaveMaster d n
    next => exact ⟨Frame.refl d, fun _ => rfl, rfl, rfl⟩
  generalize (if (d.heap n).slave then d.leaveMaster n else d) = e at second ⊢
  have steady := first.trans second
  have frame := steady.frame
  have there := (frame.known n).mpr known
  have kept := (table.frame frame).erase there (frame.myself ▸ other) (frame.slots ▸ free)
  rw [ClusterState.Known] at there
  rw [there]
  refine ⟨(table.steady steady).trans ⟨kept, rfl, rfl, fun _ => .inl rfl, fun _ _ _ => rfl⟩, ?_, fun a => (frame.node a).1⟩
  simp only [frame.nodes, (frame.node n).1]

theorem Table.delNode (table : Table c) (known : c.Known n) (other : n ≠ c.myself) : Yields Benign (Deleted c n) (clusterDelNode c n) := by
  apply (table.forgetSlots n).bind
  rintro d ⟨⟨kept, rebound⟩, free⟩
  apply (kept.table.free ((rebound.known n).mpr known) (rebound.myself ▸ other) free).mono
  rintro e ⟨rest, nodes, name⟩
  refine ⟨kept.trans rest, ?_, fun a => ?_⟩
  · rw [nodes, rebound.nodes, rebound.node]
  · rw [name, rebound.node]

theorem addNode_unused (unused : c.nodes.lookup (c.heap n).name = none) :
    clusterAddNode c n = { c with nodes := c.nodes.insert (c.heap n).name n } := by
  unfold clusterAddNode
  rw [unused]

theorem Table.relabel (table : Table c) (same : ∀ a, d.Known a ↔ c.Known a)
    (named : ∀ name a, d.nodes.lookup name = some a → (d.heap a).name = name ∧ d.allocated a = true)
    (myself : d.myself = c.myself) (slots : d.slots = c.slots)
    (node : ∀ a, (d.heap a).slots = (c.heap a).slots ∧ (d.heap a).numslots = (c.heap a).numslots ∧
      ((c.heap a).Settled → (d.heap a).Settled)) : Table d := by
  refine ⟨named, ?_, fun slot a owned => (same a).mpr (table.owners slot a (slots ▸ owned)), fun a known slot => ?_, fun a known => ?_, ?_⟩
  · rw [myself]
    exact (same _).mpr table.me
  · rw [(node a).1, slots]
    exact table.bits a ((same a).mp known) slot
  · rw [(node a).1, (node a).2.1]
    exact table.counts a ((same a).mp known)
  · rw [myself]
    exact (node _).2.2 table.settled

variable {newname : Name}

theorem rename_eq (known : c.Known n) (unused : c.nodes.lookup newname = none) : clusterRenameNode c n newname =
      .ok { c.modify n fun x => { x with name := newname } with nodes := (c.nodes.erase (c.heap n).name).insert newname n } := by
  unfold clusterRenameNode
  rw [ClusterState.Known] at known
  rw [known]
  have gone : (c.nodes.erase (c.heap n).name).lookup newname = none := by
    by_cases same : newname = (c.heap n).name
    · rw [same, AList.lookup_erase]
    · rw [AList.lookup_erase_ne same, unused]
  have name : (({ c with nodes := c.nodes.erase (c.heap n).name }.modify n fun x => { x with name := newname }).heap n).name = newname := by
    rw [modify_self]
  rw [addNode_unused (by rw [name]; exact gone), name]
  rfl

theorem lookup_rename (n : Addr) (newname name : Name) : ((c.nodes.erase (c.heap n).name).insert newname n).lookup name =
      if name = newname then some n else if name = (c.heap n).name then none else c.nodes.lookup name := by
  by_cases new : name = newname
  · subst new
    rw [AList.lookup_insert, if_pos rfl]
  · rw [AList.lookup_insert_ne new, if_neg new]
    by_cases old : name = (c.heap n).name
    · rw [old, AList.lookup_erase, if_pos rfl]
    · rw [AList.lookup_erase_ne old, if_neg old]

theorem known_rename (known : c.Known n) (unused : c.nodes.lookup newname = none) (a : Addr) :
    ClusterState.Known { c.modify n fun x => { x with name := newname } with nodes := (c.nodes.erase (c.heap n).name).insert newname n } a ↔
      c.Known a := by
  by_cases here : a = n
  · subst here
    simp only [ClusterState.Known, modify_self, lookup_rename, if_true, true_iff]
    exact known
  · simp only [ClusterState.Known, modify_of_ne _ _ here, lookup_rename]
    by_cases new : (c.heap a).name = newname
    · rw [if_pos new, new, unused]
      exact ⟨fun same => absurd (some.inj same).symm here, fun none => absurd none.symm (some_ne_none _)⟩
    · rw [if_neg new]
      by_cases old : (c.heap a).name = (c.heap n).name
      · rw [ClusterState.Known] at known
        rw [if_pos old, old, known]
        exact ⟨fun none => absurd none.symm (some_ne_none _), fun same => absurd (some.inj same).symm here⟩
      · rw [if_neg old, modify_of_ne _ _ here]

theorem Table.rename (table : Table c) (known : c.Known n) (unused : c.nodes.lookup newname = none) :
    Table { c.modify n fun x => { x with name := newname } with nodes := (c.nodes.erase (c.heap n).name).insert newname n } := by
  refine table.relabel (known_rename known unused) (fun name a found => ?_) rfl rfl (fun a => ?_)
  · simp only [lookup_rename] at found
    split at found
    next new =>
      cases found
      simp only [modify_self]
      exact ⟨new.symm, (table.named _ _ known).2⟩
    next =>
      split at found
      next => exact absurd found.symm (some_ne_none _)
      next old =>
        have before := table.named name a found
        have different : a ≠ n := fun here => old (by rw [← before.1, here])
        simp only [modify_of_ne _ _ different]
        exact before
  · by_cases here : a = n
    · subst here
      simp only [modify_self]
      exact ⟨trivial, trivial, fun settled => settled⟩
    · simp only [modify_of_ne _ _ here]
      exact ⟨trivial, trivial, fun settled => settled⟩

theorem startHandshake_eq (c : ClusterState Addr Name) (fresh : Fresh Addr Name) : startHandshake c fresh = c ∨
      c.allocated fresh.addr = false ∧ c.nodes.lookup fresh.name = none ∧ startHandshake c fresh = { c with
            heap := update c.heap fresh.addr ⟨fresh.name, false, false, true, 0, fun _ => false, 0, [], none⟩
            allocated := update c.allocated fresh.addr true
            nodes := c.nodes.insert fresh.name fresh.addr } := by
  unfold startHandshake
  split
  next => exact .inl rfl
  next free =>
    rw [not_or, Bool.not_eq_true, not_not] at free
    refine .inr ⟨free.1, free.2, ?_⟩
    have name : (update c.heap fresh.addr ⟨fresh.name, false, false, true, 0, fun _ => false, 0, [], none⟩ fresh.addr).name =
        fresh.name := by rw [update_self]
    rw [addNode_unused (by rw [name]; exact free.2), name]

structure Grown (c d : ClusterState Addr Name) : Prop where
  loosened : Loosened c d
  known : ∀ a, c.Known a → d.Known a ∧ d.heap a = c.heap a
  new : ∀ a, d.Known a → c.Known a ∨ (d.heap a).slaves = [] ∧ (d.heap a).slaveof = none

theorem Grown.refl (table : Table c) : Grown c c := ⟨Loosened.refl table, fun _ known => ⟨known, rfl⟩, fun _ known => .inl known⟩

theorem Grown.trans (first : Grown c d) (second : Grown d e) : Grown c e := by
  refine ⟨first.loosened.trans second.loosened, fun a known => ?_, fun a there => ?_⟩
  · obtain ⟨there, same⟩ := first.known a known
    exact ⟨(second.known a there).1, (second.known a there).2.trans same⟩
  · rcases second.new a there with before | blank
    · rw [(second.known a before).2]
      exact first.new a before
    · exact .inr blank

theorem Table.unused (table : Table c) {fresh : Addr} (unused : c.allocated fresh = false) {a : Addr} (known : c.Known a) : a ≠ fresh := by
  rintro rfl
  have used := (table.named _ a known).2
  rw [unused] at used
  cases used

theorem Table.handshake (table : Table c) (fresh : Fresh Addr Name) : Grown c (startHandshake c fresh) := by
  rcases startHandshake_eq c fresh with same | ⟨unused, new, same⟩
  · rw [same]
    exact Grown.refl table
  · have other : ∀ a, c.Known a → a ≠ fresh.addr := fun a known => table.unused unused known
    have heap : ∀ a, a ≠ fresh.addr → (startHandshake c fresh).heap a = c.heap a := by
      intro a different
      rw [same]
      exact update_of_ne different ..
    have still : ∀ a, c.Known a → (startHandshake c fresh).Known a := by
      intro a known
      have different : (c.heap a).name ≠ fresh.name := by
        intro equal
        rw [ClusterState.Known, equal, new] at known
        exact absurd known.symm (some_ne_none _)
      rw [ClusterState.Known, heap a (other a known), same]
      simp only [AList.lookup_insert_ne different]
      exact known
    have left : ∀ a, (startHandshake c fresh).Known a → a = fresh.addr ∨ c.Known a := by
      intro a there
      by_cases here : a = fresh.addr
      · exact .inl here
      · rw [ClusterState.Known, heap a here, same] at there
        simp only at there
        by_cases equal : (c.heap a).name = fresh.name
        · rw [equal, AList.lookup_insert] at there
          exact absurd (some.inj there).symm here
        · rw [AList.lookup_insert_ne equal] at there
          exact .inr there
    have slots : (startHandshake c fresh).slots = c.slots := by rw [same]
    have myself : (startHandshake c fresh).myself = c.myself := by rw [same]
    refine ⟨⟨⟨fun name a found => ?_, ?_, fun slot a owned => ?_, fun a there slot => ?_, fun a there => ?_, ?_⟩, myself, by rw [same],
      fun _ => .inl (by rw [slots]), fun slot a owned => ?_⟩, fun a known => ⟨still a known, heap a (other a known)⟩, fun a there => ?_⟩
    · simp only [same] at found ⊢
      by_cases equal : name = fresh.name
      · subst equal
        rw [AList.lookup_insert] at found
        cases found
        simp only [update_self]
        exact ⟨trivial, trivial⟩
      · rw [AList.lookup_insert_ne equal] at found
        have before := table.named name a found
        have different := other a (table.known found)
        simp only [update_of_ne different]
        exact before
    · rw [myself]
      exact still _ table.me
    · rw [slots] at owned
      exact still a (table.owners slot a owned)
    · rw [slots]
      rcases left a there with rfl | before
      · simp only [same, update_self, Bool.false_eq_true, false_iff]
        exact fun owned => other _ (table.owners slot _ owned) rfl
      · rw [heap a (other a before)]
        exact table.bits a before slot
    · rcases left a there with rfl | before
      · simp only [same, update_self]
        exact (countP_eq_zero.mpr fun _ _ none => Bool.noConfusion none).symm
      · rw [heap a (other a before)]
        exact table.counts a before
    · rw [myself, heap _ (other _ table.me)]
      exact table.settled
    · rw [slots] at owned
      rw [heap a (other a (table.owners slot a owned))]
    · rcases left a there with rfl | before
      · simp only [same, update_self]
        exact .inr ⟨trivial, trivial⟩
      · exact .inl before

theorem Table.handshakes (table : Table c) (started : List (Fresh Addr Name)) : Grown c (started.foldl startHandshake c) := by
  induction started generalizing c with
  | nil => exact Grown.refl table
  | cons fresh started ih =>
    have first := table.handshake fresh
    exact first.trans (ih first.loosened.table)

theorem handshakes_unnamed {name : Name} (started : List (Fresh Addr Name)) (others : ∀ fresh ∈ started, fresh.name ≠ name)
    (unused : c.nodes.lookup name = none) : (started.foldl startHandshake c).nodes.lookup name = none := by
  induction started generalizing c with
  | nil => exact unused
  | cons fresh started ih =>
    apply ih fun other member => others other (mem_cons_of_mem _ member)
    rcases startHandshake_eq c fresh with same | ⟨-, -, same⟩
    · rw [same]
      exact unused
    · rw [same]
      simp only [AList.lookup_insert_ne (others fresh mem_cons_self).symm]
      exact unused

structure Switched (c : ClusterState Addr Name) (sender : Addr) (d : ClusterState Addr Name) : Prop where
  loosened : Loosened c d
  nodes : d.nodes = c.nodes
  name : ∀ a, (d.heap a).name = (c.heap a).name
  configEpoch : ∀ a, (d.heap a).configEpoch = (c.heap a).configEpoch
  importing : d.importing = c.importing
  currentEpoch : d.currentEpoch = c.currentEpoch
  master : ∀ a, a ≠ sender → (d.heap a).master = (c.heap a).master

theorem Switched.known {sender : Addr} (switched : Switched c sender d) (a : Addr) : d.Known a ↔ c.Known a := by
  rw [ClusterState.Known, ClusterState.Known, switched.nodes, switched.name]

theorem Switched.trans {sender : Addr} (first : Switched c sender d) (second : Switched d sender e) : Switched c sender e :=
  ⟨first.loosened.trans second.loosened, second.nodes.trans first.nodes, fun a => (second.name a).trans (first.name a),
    fun a => (second.configEpoch a).trans (first.configEpoch a), second.importing.trans first.importing, second.currentEpoch.trans first.currentEpoch,
    fun a other => (second.master a other).trans (first.master a other)⟩

theorem Table.switched (table : Table c) (sender : Addr) (steady : Steady c d) (importing : d.importing = c.importing)
    (master : ∀ a, a ≠ sender → (d.heap a).master = (c.heap a).master) : Switched c sender d :=
  ⟨table.steady steady, steady.frame.nodes, fun a => (steady.frame.node a).1, steady.epoch, importing, steady.currentEpoch, master⟩

theorem leaveMaster_importing (c : ClusterState Addr Name) (n : Addr) : (c.leaveMaster n).importing = c.importing := by
  unfold ClusterState.leaveMaster
  split <;> rfl

section
variable (table : Table c)
include table

theorem Table.switched_setNodeAsMaster (n : Addr) : Switched c n (clusterSetNodeAsMaster c n) := by
  apply table.switched n (steady_setNodeAsMaster c n)
  · unfold clusterSetNodeAsMaster
    split
    next => rfl
    next => exact leaveMaster_importing c n
  · intro a other
    unfold clusterSetNodeAsMaster
    split
    next => rfl
    next => rw [modify_of_ne _ _ other, leaveMaster_node]

theorem Table.demote (sender : Addr) : Yields Benign (fun d => Switched c sender d ∧ (d.heap sender).master = false) (c.demote sender) := by
  unfold ClusterState.demote
  split
  next =>
    apply (table.delNodeSlots sender).bind
    rintro d ⟨loosened, rebound, importing, current⟩
    have steady := steady_modify d sender (fun x => { x with master := false, slave := true, slaves := [] }) (fun _ => ⟨rfl, rfl, rfl⟩)
      (fun _ => rfl) fun settled => ⟨settled.1, rfl⟩
    have last : Switched d sender (d.modify sender fun x => { x with master := false, slave := true, slaves := [] }) :=
      loosened.table.switched sender steady rfl fun a other => by rw [modify_of_ne _ _ other]
    have first : Switched c sender d :=
      ⟨loosened, rebound.nodes, fun a => by rw [rebound.node], fun a => by rw [rebound.node], importing, current,
        fun a _ => by rw [rebound.node]⟩
    exact ⟨first.trans last, by rw [modify_self]⟩
  next slave => exact ⟨⟨Loosened.refl table, rfl, fun _ => rfl, fun _ => rfl, rfl, rfl, fun _ _ => rfl⟩, Bool.eq_false_of_not_eq_true slave⟩

/-- A sender that is a master afterwards says that it is one, and keeps its slots. -/
theorem Table.switchRole (hdr : Header Name) (sender : Addr) :
    Yields Benign (fun d => Switched c sender d ∧ ((d.heap sender).master = true → hdr.slaveof = none ∧ d.slots = c.slots))
      (c.switchRole hdr sender) := by
  unfold ClusterState.switchRole
  split
  next own => exact ⟨table.switched_setNodeAsMaster sender, fun _ => ⟨own, (frame_setNodeAsMaster c sender).slots⟩⟩
  next name _ =>
    apply (table.demote sender).bind
    rintro d ⟨switched, slave⟩
    split
    next => exact ⟨switched, fun master => absurd (slave.symm.trans master) Bool.false_ne_true⟩
    next master _ =>
      split
      next => exact ⟨switched, fun master => absurd (slave.symm.trans master) Bool.false_ne_true⟩
      next =>
        have added := steady_addSlave (d.leaveMaster sender) master sender
        have points := steady_modify ((d.leaveMaster sender).modify master (·.addSlave sender)) sender
          (fun x => { x with slaveof := some master }) (fun _ => ⟨rfl, rfl, rfl⟩) (fun _ => rfl) fun settled => settled
        have roles : ∀ a, (((d.leaveMaster sender).modify master (·.addSlave sender)).heap a).master = (d.heap a).master := by
          intro a
          by_cases here : a = master
          · subst here
            rw [modify_self, addSlave_master, leaveMaster_node]
          · rw [modify_of_ne _ _ here, leaveMaster_node]
        have last := switched.loosened.table.switched sender (((steady_leaveMaster d sender).trans added).trans points)
          (leaveMaster_importing d sender) fun a other => by rw [modify_of_ne _ _ other, roles]
        refine ⟨switched.trans last, fun master => ?_⟩
        rw [modify_self, roles, slave] at master
        exact absurd master Bool.false_ne_true

theorem Table.setMaster (n : Addr) : Yields Benign (fun d => Steady c d ∧ (d.heap d.myself).slave = true) (clusterSetMaster c n) := by
  unfold clusterSetMaster
  split
  next => exact .inr rfl
  next other =>
    simp only
    have first : Steady c (if (c.heap c.myself).master then
          clusterCloseAllSlots (c.modify c.myself fun x => { x with master := false, slave := true })
        else c.leaveMaster c.myself) ∧ ((if (c.heap c.myself).master then
          clusterCloseAllSlots (c.modify c.myself fun x => { x with master := false, slave := true })
        else c.leaveMaster c.myself).heap c.myself).slave = true := by
      split
      next =>
        have changed := steady_modify c c.myself (fun x => { x with master := false, slave := true }) (fun _ => ⟨rfl, rfl, rfl⟩)
          (fun _ => rfl) fun settled => ⟨settled.1, rfl⟩
        refine ⟨⟨⟨rfl, rfl, rfl, rfl, changed.frame.node, changed.frame.settled⟩, changed.epoch, rfl, rfl⟩, ?_⟩
        simp only [clusterCloseAllSlots, modify_self]
      next slave =>
        refine ⟨steady_leaveMaster c _, ?_⟩
        rw [leaveMaster_node, table.settled.2, Bool.eq_false_of_not_eq_true slave]
        rfl
    generalize (if (c.heap c.myself).master then
        clusterCloseAllSlots (c.modify c.myself fun x => { x with master := false, slave := true })
      else c.leaveMaster c.myself) = d at first ⊢
    obtain ⟨steady, slave⟩ := first
    rw [← steady.frame.myself] at slave other
    have points := steady_modify d d.myself (fun x => { x with slaveof := some n }) (fun _ => ⟨rfl, rfl, rfl⟩) (fun _ => rfl) fun settled => settled
    refine ⟨(steady.trans points).trans (steady_addSlave _ n d.myself), ?_⟩
    rw [not_or] at other
    have me : ((d.modify d.myself fun x => { x with slaveof := some n }).modify n (·.addSlave d.myself)).myself = d.myself := rfl
    rw [me, modify_of_ne _ _ (Ne.symm other.1), modify_self]
    exact slave

end

end

/-! A configuration that a packet brings: which slots it takes over, and what becomes of the keys of the
slots that this node loses. -/

section
set_option linter.unusedSectionVars false

open Faults

variable {Addr Name : Type} [DecidableEq Addr] [LinearOrder Name] {c d e : ClusterState Addr Name}

/-- A slot that is not assigned, or is assigned with a smaller epoch, and that is not being imported. -/
structure Rebinds (c : ClusterState Addr Name) (epoch : Nat) (claimed : Slot → Bool) (slot : Slot) : Prop where
  claimed : claimed slot = true
  importing : c.importing slot = none
  greater : ∀ owner, c.slots slot = some owner → (c.heap owner).configEpoch < epoch

structure Claims (c : ClusterState Addr Name) (sender : Addr) (epoch : Nat) (claimed : Slot → Bool) (r : Rebinding Addr Name) :
    Prop where
  table : Table r.state
  rebound : Rebound c r.state
  importing : r.state.importing = c.importing
  keys : r.state.keys = c.keys
  currentEpoch : r.state.currentEpoch = c.currentEpoch
  slot : ∀ slot, r.state.slots slot = c.slots slot ∨ Rebinds c epoch claimed slot ∧ r.state.slots slot = some sender
  dirty : ∀ slot, c.slots slot = some c.myself → r.state.slots slot ≠ c.slots slot → countKeysInSlot c slot ≠ 0 → slot ∈ r.dirty

theorem Claims.claim {sender : Addr} {epoch : Nat} {claimed : Slot → Bool} {r : Rebinding Addr Name}
    (claims : Claims c sender epoch claimed r) (known : c.Known sender) (other : sender ≠ c.myself) (curmaster : Option Addr) {slot : Slot}
    (wanted : claimed slot = true) : Yields Benign (Claims c sender epoch claimed) (Rebinding.claim r sender epoch curmaster slot) := by
  unfold Rebinding.claim
  simp only
  split
  next => exact claims
  next bound =>
    split
    next => exact claims
    next importing =>
      split
      next greater =>
        have same : r.state.slots slot = c.slots slot := by
          rcases claims.slot slot with same | ⟨-, taken⟩
          · exact same
          · exact absurd taken bound
        have rebinds : Rebinds c epoch claimed slot := by
          refine ⟨wanted, ?_, fun owner owned => ?_⟩
          · rw [← claims.importing]
            exact not_not.mp importing
          · rw [same, owned, all_some, decide_eq_true_eq, claims.rebound.node] at greater
            exact greater
        obtain ⟨after, deleted, table, rebound, slots⟩ := claims.table.delSlot slot
        obtain ⟨importing', -, keys, current⟩ := delSlot_else deleted
        rw [deleted]
        have free : after.slots slot = none := by rw [slots, update_self]
        have knows := ((claims.rebound.trans rebound).known sender).mpr known
        have taken := rebound_addSlot after sender slot
        have entries : (clusterAddSlot after sender slot).slots = update r.state.slots slot (some sender) := by
          rw [addSlot_free free]
          simp only [slots, update_idem]
        refine ⟨table.addSlot knows slot, (claims.rebound.trans rebound).trans taken, ?_, ?_, ?_, fun j => ?_, fun j mine lost counted => ?_⟩
        · rw [addSlot_free free, ← claims.importing]
          exact importing'
        · rw [addSlot_free free, ← claims.keys]
          exact keys
        · rw [addSlot_free free, ← claims.currentEpoch]
          exact current
        · simp only [entries]
          by_cases here : j = slot
          · subst here
            rw [update_self]
            exact .inr ⟨rebinds, rfl⟩
          · rw [update_of_ne here]
            exact claims.slot j
        · simp only [entries] at lost ⊢
          by_cases here : j = slot
          · subst here
            have dirty : r.state.slots j = some r.state.myself ∧ countKeysInSlot r.state j ≠ 0 ∧ sender ≠ r.state.myself := by
              refine ⟨by rw [same, mine, claims.rebound.myself], ?_, by rw [claims.rebound.myself]; exact other⟩
              unfold countKeysInSlot at counted ⊢
              rw [claims.keys]
              exact counted
            rw [if_pos dirty]
            exact mem_cons_self
          · rw [update_of_ne here] at lost
            have before := claims.dirty j mine lost counted
            split
            next => exact mem_cons_of_mem _ before
            next => exact before
      next => exact claims

theorem claims_loop (table : Table c) {sender : Addr} (known : c.Known sender) (other : sender ≠ c.myself) (epoch : Nat)
    (claimed : Slot → Bool) :
    Yields Benign (Claims c sender epoch claimed)
      (allSlots.foldlM (fun r slot => if claimed slot then Rebinding.claim r sender epoch c.curmaster slot else .ok r) ⟨c, false, []⟩) := by
  apply Yields.foldlM
  · intro slot _ r claims
    split
    next wanted => exact claims.claim known other c.curmaster wanted
    next => exact claims
  · exact ⟨table, Rebound.refl c, rfl, rfl, rfl, fun _ => .inl rfl, fun _ _ lost => absurd rfl lost⟩

theorem delKeys_fold (slots : List Slot) (c : ClusterState Addr Name) :
    (slots.foldl delKeysInSlot c).keys = (fun slot => if slot ∈ slots then 0 else c.keys slot) ∧
      slots.foldl delKeysInSlot c = { c with keys := (slots.foldl delKeysInSlot c).keys } := by
  induction slots generalizing c with
  | nil =>
    refine ⟨?_, rfl⟩
    simp only [foldl_nil, not_mem_nil, if_false]
  | cons slot slots ih =>
    obtain ⟨keys, same⟩ := ih (delKeysInSlot c slot)
    refine ⟨?_, same⟩
    rw [foldl_cons, keys]
    funext j
    by_cases here : j = slot
    · subst here
      simp only [delKeysInSlot, update_self, ite_self, mem_cons_self, if_true]
    · simp only [delKeysInSlot, update_of_ne here, mem_cons, here, false_or]

structure Updated (c : ClusterState Addr Name) (sender : Addr) (epoch : Nat) (claimed : Slot → Bool) (d : ClusterState Addr Name) : Prop where
  table : Table d
  nodes : d.nodes = c.nodes
  myself : d.myself = c.myself
  name : ∀ a, (d.heap a).name = (c.heap a).name
  configEpoch : ∀ a, (d.heap a).configEpoch = (c.heap a).configEpoch
  currentEpoch : d.currentEpoch = c.currentEpoch
  slot : ∀ slot, d.slots slot = c.slots slot ∨ Rebinds c epoch claimed slot ∧ d.slots slot = some sender
  keys : ∀ slot, c.slots slot = some c.myself → d.slots slot ≠ c.slots slot → countKeysInSlot c slot ≠ 0 →
    (d.heap d.myself).slave = true ∨ d.keys slot = 0
  role : (d.heap d.myself).slave = true ∨ (d.heap d.myself).master = (c.heap c.myself).master

theorem Table.updateSlots (table : Table c) {sender : Addr} (known : c.Known sender) (epoch : Nat) (claimed : Slot → Bool) :
    Yields Benign (Updated c sender epoch claimed) (clusterUpdateSlotsConfigWith c sender epoch claimed) := by
  unfold clusterUpdateSlotsConfigWith
  split
  next => exact ⟨table, rfl, rfl, fun _ => rfl, fun _ => rfl, rfl, fun _ => .inl rfl, fun _ _ lost => absurd rfl lost, .inr rfl⟩
  next other =>
    apply (claims_loop table known other epoch claimed).bind
    intro r claims
    have flush : Updated c sender epoch claimed (r.dirty.foldl delKeysInSlot r.state) := by
      obtain ⟨keys, same⟩ := delKeys_fold r.dirty r.state
      rw [same, keys]
      have rebound := claims.rebound
      refine ⟨claims.table.frame ⟨rfl, rfl, rfl, rfl, fun _ => ⟨rfl, rfl, rfl⟩, fun _ settled => settled⟩, rebound.nodes, rebound.myself,
        fun a => by rw [rebound.node], fun a => by rw [rebound.node], claims.currentEpoch, claims.slot, fun slot mine lost counted => ?_, ?_⟩
      · exact .inr (if_pos (claims.dirty slot mine lost counted))
      · refine .inr ?_
        simp only [rebound.myself]
        rw [rebound.node]
    unfold Rebinding.finish
    simp only
    split
    next =>
      split
      next => exact .inl rfl
      next =>
        split
        next =>
          apply (claims.table.setMaster sender).mono
          rintro d ⟨steady, slave⟩
          have rebound := claims.rebound
          refine ⟨claims.table.frame steady.frame, steady.frame.nodes.trans rebound.nodes, steady.frame.myself.trans rebound.myself,
            fun a => by rw [(steady.frame.node a).1, rebound.node], fun a => by rw [steady.epoch, rebound.node],
            steady.currentEpoch.trans claims.currentEpoch, fun slot => ?_, fun _ _ _ _ => .inl slave, .inl slave⟩
          rw [steady.frame.slots]
          exact claims.slot slot
        next => exact flush
    next => exact flush

end

end Cplusplus.Redis.Cluster
