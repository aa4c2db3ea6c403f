import Cplusplus.ClusterEpochs
import Mathlib.Algebra.Order.BigOperators.Group.Finset

/-! The collisions come to an end. A node collides at most once with each epoch that a node with a
greater ID has had, and after a collision its epoch is above all that it has seen. -/

namespace Cplusplus.Redis.ClusterEpochs

open List Function

variable {Id : Type} [LinearOrder Id]
variable {hdr : Header Id} {first : Id → Nat} {c : Cluster Id} {i : Id}

theorem clusterProcessPacket_eq (n : Node Id) (myself : Id) (hdr : Header Id) : clusterProcessPacket n myself hdr = if n.bumps myself hdr then
        { n.learn hdr with
          currentEpoch := (max n.currentEpoch hdr.currentEpoch + 1) % 2 ^ 64
          configEpoch := (max n.currentEpoch hdr.currentEpoch + 1) % 2 ^ 64 }
      else n.learn hdr := by
  unfold clusterProcessPacket clusterHandleConfigEpochCollision Node.bumps
  by_cases same : hdr.configEpoch = n.configEpoch
  · rw [if_pos (show hdr.configEpoch = (n.learn hdr).configEpoch from same)]
    simp only [same, decide_true, Bool.true_and]
    split <;> rfl
  · rw [if_neg (show hdr.configEpoch ≠ (n.learn hdr).configEpoch from same)]
    simp [same]

theorem bumps_spec {n : Node Id} {myself : Id} (bumps : n.bumps myself hdr = true) :
    hdr.configEpoch = n.configEpoch ∧ (n.learn hdr).known hdr.sender = n.configEpoch ∧ myself < hdr.sender := by
  obtain ⟨same, collides⟩ := Bool.and_eq_true_iff.mp bumps
  obtain ⟨known, smaller⟩ := Bool.and_eq_true_iff.mp collides
  exact ⟨of_decide_eq_true same, of_decide_eq_true known, of_decide_eq_true smaller⟩

def epochs (first : Id → Nat) (c : Cluster Id) (j : Id) : List Nat :=
  first j :: (c.collisions.filter fun collision => collision.node = j).map Collision.newEpoch

structure Fair (first : Id → Nat) (c : Cluster Id) : Prop where
  current : ∀ i, (c.nodes i).configEpoch ≤ (c.nodes i).currentEpoch
  epochs : ∀ i, (c.nodes i).configEpoch ∈ epochs first c i
  headers : ∀ hdr ∈ c.sent, hdr.configEpoch ≤ hdr.currentEpoch ∧ hdr.configEpoch ∈ ClusterEpochs.epochs first c hdr.sender
  bounded : ∀ j, ∀ epoch ∈ ClusterEpochs.epochs first c j, epoch ≤ (c.nodes j).configEpoch
  known : ∀ i j, (c.nodes i).known j ≤ (c.nodes j).configEpoch
  collisions : ∀ e ∈ c.collisions, e.node < e.sender ∧ e.epoch < (c.nodes e.node).configEpoch ∧
    e.epoch ∈ ClusterEpochs.epochs first c e.sender
  once : (c.collisions.map fun e => (e.node, e.sender, e.epoch)).Nodup
  processed : ∀ i, ∀ hdr ∈ c.processed i, hdr.configEpoch ≤ (c.nodes i).currentEpoch ∧
    (i < hdr.sender → hdr.configEpoch = (c.nodes i).configEpoch → hdr.configEpoch < (c.nodes i).known hdr.sender)

theorem Fair.send (fair : Fair first c) (sender : Id) : Fair first (step c (.send sender)) := by
  refine ⟨fair.current, fair.epochs, fun hdr member => ?_, fair.bounded, fair.known, fair.collisions, fair.once, fair.processed⟩
  rcases mem_append.mp member with before | last
  · exact fair.headers hdr before
  · obtain rfl := mem_singleton.mp last
    exact ⟨fair.current sender, fair.epochs sender⟩

def Cluster.set (c : Cluster Id) (i : Id) (n : Node Id) : Cluster Id := { c with nodes := update c.nodes i n }

theorem Cluster.set_self (c : Cluster Id) (i : Id) (n : Node Id) : (c.set i n).nodes i = n := update_self ..

theorem Cluster.set_of_ne (c : Cluster Id) {j : Id} (n : Node Id) (other : j ≠ i) : (c.set i n).nodes j = c.nodes j := update_of_ne other ..

theorem Fair.learn (fair : Fair first c) (member : hdr ∈ c.sent) (other : hdr.sender ≠ i) : Fair first (c.set i ((c.nodes i).learn hdr)) := by
  have config : ∀ j, ((c.set i ((c.nodes i).learn hdr)).nodes j).configEpoch = (c.nodes j).configEpoch := by
    intro j
    by_cases here : j = i
    · subst here
      rw [Cluster.set_self]
      rfl
    · rw [Cluster.set_of_ne _ _ here]
  have current : ∀ j, (c.nodes j).currentEpoch ≤ ((c.set i ((c.nodes i).learn hdr)).nodes j).currentEpoch := by
    intro j
    by_cases here : j = i
    · subst here
      rw [Cluster.set_self]
      exact Nat.le_max_left _ _
    · rw [Cluster.set_of_ne _ _ here]
  have known : ∀ j k, (c.nodes j).known k ≤ ((c.set i ((c.nodes i).learn hdr)).nodes j).known k ∧
      ((c.set i ((c.nodes i).learn hdr)).nodes j).known k ≤ (c.nodes k).configEpoch := by
    intro j k
    by_cases here : j = i
    · subst here
      rw [Cluster.set_self]
      simp only [Node.learn]
      by_cases sender : k = hdr.sender
      · subst sender
        rw [update_self]
        exact ⟨Nat.le_max_left _ _, Nat.max_le.mpr ⟨fair.known j _, fair.bounded _ _ (fair.headers hdr member).2⟩⟩
      · rw [update_of_ne sender]
        exact ⟨Nat.le_refl _, fair.known j k⟩
    · rw [Cluster.set_of_ne _ _ here]
      exact ⟨Nat.le_refl _, fair.known j k⟩
  refine ⟨fun j => ?_, fun j => ?_, fair.headers, fun j epoch had => ?_, fun j k => ?_, fun e inside => ?_, fair.once, fun j h done => ?_⟩
  · rw [config]
    exact Nat.le_trans (fair.current j) (current j)
  · rw [config]
    exact fair.epochs j
  · rw [config]
    exact fair.bounded j epoch had
  · rw [config]
    exact (known j k).2
  · rw [config]
    exact fair.collisions e inside
  · obtain ⟨below, stale⟩ := fair.processed j h done
    refine ⟨Nat.le_trans below (current j), fun smaller same => ?_⟩
    rw [config] at same
    exact Nat.lt_of_lt_of_le (stale smaller same) (known j h.sender).1

def Cluster.bump (c : Cluster Id) (i sender : Id) : Cluster Id :=
  { c.set i { c.nodes i with currentEpoch := (c.nodes i).currentEpoch + 1, configEpoch := (c.nodes i).currentEpoch + 1 } with
    collisions := ⟨i, sender, (c.nodes i).configEpoch, (c.nodes i).currentEpoch + 1⟩ :: c.collisions }

theorem epochs_bump (first : Id → Nat) (c : Cluster Id) (i sender j : Id) (epoch : Nat) :
    epoch ∈ epochs first (c.bump i sender) j ↔ epoch ∈ epochs first c j ∨ j = i ∧ epoch = (c.nodes i).currentEpoch + 1 := by
  unfold epochs Cluster.bump
  by_cases here : i = j
  · subst here
    rw [filter_cons_of_pos (by simp), map_cons]
    simp only [mem_cons, true_and]
    grind
  · rw [filter_cons_of_neg (by simpa using here)]
    refine ⟨.inl, fun either => either.resolve_right ?_⟩
    rintro ⟨rfl, -⟩
    exact here rfl

theorem Fair.bump (fair : Fair first c) {sender : Id} (smaller : i < sender)
    (had : (c.nodes i).configEpoch ∈ ClusterEpochs.epochs first c sender) : Fair first (c.bump i sender) := by
  have above := fair.current i
  have config : ∀ j, ((c.bump i sender).nodes j).configEpoch = if j = i then (c.nodes i).currentEpoch + 1 else (c.nodes j).configEpoch := by
    intro j
    by_cases here : j = i
    · subst here
      simp [Cluster.bump, Cluster.set]
    · simp [Cluster.bump, Cluster.set, here]
  have grows : ∀ j, (c.nodes j).configEpoch ≤ ((c.bump i sender).nodes j).configEpoch := by
    intro j
    rw [config]
    split
    next here =>
      subst here
      omega
    next => exact Nat.le_refl _
  have current : ∀ j, ((c.bump i sender).nodes j).currentEpoch = if j = i then (c.nodes i).currentEpoch + 1 else (c.nodes j).currentEpoch := by
    intro j
    by_cases here : j = i
    · subst here
      simp [Cluster.bump, Cluster.set]
    · simp [Cluster.bump, Cluster.set, here]
  have known : ∀ j k, ((c.bump i sender).nodes j).known k = (c.nodes j).known k := by
    intro j k
    by_cases here : j = i
    · subst here
      simp [Cluster.bump, Cluster.set]
    · simp [Cluster.bump, Cluster.set, here]
  have more : ∀ j epoch, epoch ∈ ClusterEpochs.epochs first c j → epoch ∈ ClusterEpochs.epochs first (c.bump i sender) j :=
    fun j epoch before => (epochs_bump first c i sender j epoch).mpr (.inl before)
  refine ⟨fun j => ?_, fun j => ?_, fun hdr member => ?_, fun j epoch inside => ?_, fun j k => ?_, fun e inside => ?_, ?_, fun j h done => ?_⟩
  · rw [config, current]
    split
    · exact Nat.le_refl _
    · exact fair.current j
  · rw [config]
    split
    next here => exact (epochs_bump first c i sender j _).mpr (.inr ⟨here, rfl⟩)
    next => exact more j _ (fair.epochs j)
  · obtain ⟨below, before⟩ := fair.headers hdr member
    exact ⟨below, more _ _ before⟩
  · rcases (epochs_bump first c i sender j epoch).mp inside with before | ⟨here, rfl⟩
    · exact Nat.le_trans (fair.bounded j epoch before) (grows j)
    · rw [config, if_pos here]
  · rw [known]
    exact Nat.le_trans (fair.known j k) (grows k)
  · rcases mem_cons.mp inside with rfl | before
    · refine ⟨smaller, ?_, more _ _ had⟩
      simp only [config, if_true]
      omega
    · obtain ⟨order, low, seen⟩ := fair.collisions e before
      exact ⟨order, Nat.lt_of_lt_of_le low (grows _), more _ _ seen⟩
  · rw [Cluster.bump, map_cons, nodup_cons]
    refine ⟨fun again => ?_, fair.once⟩
    obtain ⟨e, before, same⟩ := List.mem_map.mp again
    simp only [Prod.mk.injEq] at same
    obtain ⟨-, low, -⟩ := fair.collisions e before
    rw [same.1, same.2.2] at low
    exact Nat.lt_irrefl _ low
  · obtain ⟨below, stale⟩ := fair.processed j h done
    rw [current, config, known]
    split
    next here =>
      subst here
      exact ⟨by omega, fun _ same => by omega⟩
    next => exact ⟨below, stale⟩

theorem Fair.record (fair : Fair first c) (below : hdr.configEpoch ≤ (c.nodes i).currentEpoch)
    (stale : i < hdr.sender → hdr.configEpoch = (c.nodes i).configEpoch → hdr.configEpoch < (c.nodes i).known hdr.sender) :
    Fair first { c with processed := update c.processed i (hdr :: c.processed i) } := by
  refine ⟨fair.current, fair.epochs, fair.headers, fair.bounded, fair.known, fair.collisions, fair.once, fun j h done => ?_⟩
  by_cases here : j = i
  · subst here
    simp only [update_self] at done
    rcases mem_cons.mp done with rfl | before
    · exact ⟨below, stale⟩
    · exact fair.processed j h before
  · simp only [update_of_ne here] at done
    exact fair.processed j h done

theorem deliver_quiet (quiet : (c.nodes i).bumps i hdr = false) : c.deliver i hdr =
      { c.set i ((c.nodes i).learn hdr) with processed := update c.processed i (hdr :: c.processed i) } := by
  unfold Cluster.deliver
  simp only [clusterProcessPacket_eq, quiet, Bool.false_eq_true, if_false]
  rfl

theorem deliver_bump (bumps : (c.nodes i).bumps i hdr = true)
    (fits : max (c.nodes i).currentEpoch hdr.currentEpoch + 1 < 2 ^ 64) :
    c.deliver i hdr = { (c.set i ((c.nodes i).learn hdr)).bump i hdr.sender with
        processed := update c.processed i (hdr :: c.processed i) } := by
  unfold Cluster.deliver Cluster.bump
  simp only [clusterProcessPacket_eq, bumps, if_true, Nat.mod_eq_of_lt fits, Cluster.set, update_idem, update_self]
  rfl

theorem Fair.deliver (fair : Fair first c) (member : hdr ∈ c.sent) (other : hdr.sender ≠ i)
    (fits : (c.nodes i).bumps i hdr = true → max (c.nodes i).currentEpoch hdr.currentEpoch + 1 < 2 ^ 64) :
    Fair first (c.deliver i hdr) := by
  have learned := fair.learn member other
  obtain ⟨low, had⟩ := fair.headers hdr member
  have seen : hdr.configEpoch ≤ ((c.nodes i).learn hdr).currentEpoch := Nat.le_trans low (Nat.le_max_right _ _)
  cases bumps : (c.nodes i).bumps i hdr with
  | true =>
    obtain ⟨same, -, smaller⟩ := bumps_spec bumps
    rw [deliver_bump bumps (fits bumps)]
    have bumped : Fair first ((c.set i ((c.nodes i).learn hdr)).bump i hdr.sender) := by
      apply learned.bump smaller
      rw [Cluster.set_self]
      exact same ▸ had
    have current : (((c.set i ((c.nodes i).learn hdr)).bump i hdr.sender).nodes i).configEpoch = ((c.nodes i).learn hdr).currentEpoch + 1 ∧
        (((c.set i ((c.nodes i).learn hdr)).bump i hdr.sender).nodes i).currentEpoch = ((c.nodes i).learn hdr).currentEpoch + 1 := by
      simp [Cluster.bump, Cluster.set]
    apply bumped.record
    · rw [current.2]
      omega
    · rw [current.1]
      intro _ equal
      omega
  | false =>
    rw [deliver_quiet bumps]
    apply learned.record
    · rw [Cluster.set_self]
      exact seen
    · rw [Cluster.set_self]
      intro smaller equal
      have higher : hdr.configEpoch ≤ ((c.nodes i).learn hdr).known hdr.sender := by
        simp only [Node.learn, update_self]
        exact Nat.le_max_right _ _
      have different : ((c.nodes i).learn hdr).known hdr.sender ≠ (c.nodes i).configEpoch := by
        intro known
        have now : (c.nodes i).bumps i hdr = true := by
          unfold Node.bumps Node.collides
          simp only [Bool.and_eq_true, decide_eq_true_eq]
          exact ⟨equal, known, smaller⟩
        rw [now] at bumps
        cases bumps
      have same : hdr.configEpoch = (c.nodes i).configEpoch := equal
      omega

theorem Fair.step (fair : Fair first c) {event : Event Id} (fits : event.NoWrap c) : Fair first (step c event) := by
  cases event with
  | send sender => exact fair.send sender
  | deliver receiver index =>
    simp only [ClusterEpochs.step]
    split
    next => exact fair
    next hdr found =>
      split
      next => exact fair
      next other => exact fair.deliver (mem_of_getElem? found) other (fits hdr found)

theorem Fair.run (fair : Fair first c) {events : List (Event Id)} (fits : Meets Event.NoWrap c events) : Fair first (run c events) := by
  induction events generalizing c with
  | nil => exact fair
  | cons event events ih =>
    obtain ⟨here, later⟩ := fits
    exact ih (fair.step here) later

theorem fair_start [Fintype Id] (s : Start Id) : Fair (fun i => (s.configEpoch i).toNat) s.cluster := by
  refine ⟨fun i => ?_, fun i => mem_cons_self, fun hdr member => ?_, fun j epoch had => ?_, fun i j => ?_, fun e member => ?_, .nil,
    fun i h done => ?_⟩
  · exact Nat.le_trans (Nat.le_max_left _ _) (Nat.le_max_right _ _)
  · cases member
  · obtain rfl := mem_singleton.mp had
    exact Nat.le_refl _
  · exact UInt64.le_iff_toNat_le.mp (s.valid i j)
  · cases member
  · cases done

/-- When every node has processed the current header of every other one, the epochs differ. -/
theorem Fair.distinct (fair : Fair first c) (informed : Informed c) : Distinct c := by
  have ordered : ∀ i j, i < j → (c.nodes i).configEpoch ≠ (c.nodes j).configEpoch := by
    intro i j smaller same
    obtain ⟨-, stale⟩ := fair.processed i _ (informed i j (ne_of_lt smaller))
    have behind := stale smaller same.symm
    exact absurd (fair.known i j) (Nat.not_le.mpr behind)
  intro i j same
  rcases lt_trichotomy i j with smaller | equal | greater
  · exact absurd same (ordered i j smaller)
  · exact equal
  · exact absurd same.symm (ordered j i greater)

theorem epochs_length (first : Id → Nat) (c : Cluster Id) (j : Id) : (epochs first c j).length = 1 + c.bumps j := by
  unfold epochs Cluster.bumps
  rw [length_cons, length_map, countP_eq_length_filter, Nat.add_comm]

def collided (c : Cluster Id) (i : Id) : List (Id × Nat) :=
  (c.collisions.filter fun e => e.node = i).map fun e => (e.sender, e.epoch)

theorem Fair.collided_nodup (fair : Fair first c) (i : Id) : (collided c i).Nodup := by
  have own : ((c.collisions.filter fun e => e.node = i).map fun e => (e.node, e.sender, e.epoch)).Nodup :=
    List.Nodup.sublist (filter_sublist.map _) fair.once
  apply List.Nodup.map_on ?_ own.of_map
  intro e member e' member' same
  apply inj_on_of_nodup_map own member member'
  have node : e.node = i := of_decide_eq_true (mem_filter.mp member).2
  have node' : e'.node = i := of_decide_eq_true (mem_filter.mp member').2
  simp only [Prod.mk.injEq] at same ⊢
  exact ⟨node.trans node'.symm, same⟩

theorem Fair.bumps_le [Fintype Id] (fair : Fair first c) (i : Id) : c.bumps i ≤ ∑ j ∈ Finset.univ.filter (i < ·), (1 + c.bumps j) := by
  have inside : (collided c i).toFinset ⊆
      (Finset.univ.filter (i < ·)).biUnion fun j => (ClusterEpochs.epochs first c j).toFinset.image fun epoch => (j, epoch) := by
    intro pair member
    obtain ⟨e, filtered, rfl⟩ := List.mem_map.mp (List.mem_toFinset.mp member)
    obtain ⟨logged, node⟩ := mem_filter.mp filtered
    obtain ⟨order, -, had⟩ := fair.collisions e logged
    rw [of_decide_eq_true node] at order
    apply Finset.mem_biUnion.mpr
    refine ⟨e.sender, Finset.mem_filter.mpr ⟨Finset.mem_univ _, order⟩, ?_⟩
    exact Finset.mem_image.mpr ⟨e.epoch, List.mem_toFinset.mpr had, rfl⟩
  calc c.bumps i = (collided c i).length := by rw [collided, length_map, Cluster.bumps, countP_eq_length_filter]
    _ = (collided c i).toFinset.card := (toFinset_card_of_nodup (fair.collided_nodup i)).symm
    _ ≤ _ := Finset.card_le_card inside
    _ ≤ ∑ j ∈ Finset.univ.filter (i < ·), ((ClusterEpochs.epochs first c j).toFinset.image fun epoch => (j, epoch)).card :=
      Finset.card_biUnion_le
    _ ≤ ∑ j ∈ Finset.univ.filter (i < ·), (1 + c.bumps j) := by
      apply Finset.sum_le_sum
      intro j _
      rw [← epochs_length first c j]
      exact Finset.card_image_le.trans (toFinset_card_le _)

/-- A count that is bounded by the counts of all that is greater at most doubles with each. -/
theorem bounded_by_greater [Fintype Id] {count : Id → Nat} (le : ∀ i, count i ≤ ∑ j ∈ Finset.univ.filter (i < ·), (1 + count j)) (i : Id) :
    count i < 2 ^ (Finset.univ.filter (i < ·)).card := by
  have sums : ∀ n i, (Finset.univ.filter (i < ·)).card = n → ∑ j ∈ Finset.univ.filter (i < ·), (1 + count j) < 2 ^ n := by
    intro n
    induction n with
    | zero =>
      intro i none
      rw [Finset.card_eq_zero.mp none, Finset.sum_empty]
      exact Nat.one_pos
    | succ n ih =>
      intro i size
      have some_ : (Finset.univ.filter (i < ·)).Nonempty := by
        apply Finset.card_pos.mp
        omega
      obtain ⟨-, greater⟩ := Finset.mem_filter.mp (Finset.min'_mem _ some_)
      have least : ∀ j, i < j → (Finset.univ.filter (i < ·)).min' some_ ≤ j := fun j above =>
        Finset.min'_le _ j (Finset.mem_filter.mpr ⟨Finset.mem_univ j, above⟩)
      generalize (Finset.univ.filter (i < ·)).min' some_ = m at greater least
      have parts : Finset.univ.filter (i < ·) = insert m (Finset.univ.filter (m < ·)) := by
        ext j
        simp only [Finset.mem_filter, Finset.mem_univ, true_and, Finset.mem_insert]
        refine ⟨fun above => (least j above).eq_or_lt.imp Eq.symm id, ?_⟩
        rintro (rfl | above)
        · exact greater
        · exact greater.trans above
      have outside : m ∉ Finset.univ.filter (m < ·) := by simp
      rw [parts, Finset.card_insert_of_notMem outside] at size
      rw [parts, Finset.sum_insert outside]
      have rest := ih m (by omega)
      have first := le m
      rw [Nat.pow_succ]
      omega
  exact Nat.lt_of_le_of_lt (le i) (sums _ i rfl)

theorem smaller_moves (c : Cluster Id) (event : Event Id) : SmallerMoves c event := by
  intro i moved
  cases event with
  | send sender => exact absurd rfl moved
  | deliver receiver index =>
    simp only [ClusterEpochs.step] at moved
    split at moved
    next => exact absurd rfl moved
    next hdr found =>
      split at moved
      next => exact absurd rfl moved
      next =>
        by_cases here : i = receiver
        · subst here
          cases bumps : (c.nodes i).bumps i hdr with
          | true =>
            obtain ⟨same, -, smaller⟩ := bumps_spec bumps
            exact ⟨index, hdr, rfl, found, same, smaller⟩
          | false =>
            rw [deliver_quiet bumps] at moved
            simp only [Cluster.set_self] at moved
            exact absurd rfl moved
        · unfold Cluster.deliver at moved
          simp only [update_of_ne here] at moved
          exact absurd rfl moved

/-- The collisions of every run end, and then the epochs differ, as long as no current epoch wraps. -/
theorem config_epochs_resolve [Fintype Id] (s : Start Id) (events : List (Event Id)) (fits : Meets Event.NoWrap s.cluster events) :
    (∀ i, (run s.cluster events).bumps i < 2 ^ (Finset.univ.filter (i < ·)).card) ∧
      (Informed (run s.cluster events) → Distinct (run s.cluster events)) ∧
      ∀ event, SmallerMoves (run s.cluster events) event := by
  have fair := (fair_start s).run fits
  exact ⟨bounded_by_greater fair.bumps_le, fair.distinct, smaller_moves _⟩

def twoNodes (current config : UInt64) : Start Bool := ⟨fun _ => current, fun _ => config, fun _ _ => 0, fun _ _ => UInt64.zero_le⟩

theorem config_epochs_resolve_two :
    Distinct (run (twoNodes 5 5).cluster
      [.send true, .deliver false 0, .send false, .deliver true 1, .send true, .deliver false 2]) := by
  have resolved := config_epochs_resolve (twoNodes 5 5)
    [.send true, .deliver false 0, .send false, .deliver true 1, .send true, .deliver false 2] (by
    refine ⟨trivial, fun hdr found _ => ?_, trivial, fun hdr found _ => ?_, trivial, fun hdr found _ => ?_, trivial⟩
    · cases found
      decide
    · cases found
      decide
    · cases found
      decide)
  apply resolved.2.1
  intro i j other
  cases i <;> cases j
  · exact absurd rfl other
  · decide
  · decide
  · exact absurd rfl other

/-- The current epoch wraps to zero, the epoch that both nodes have. -/
theorem wrapped_epoch_collides_again :
    let c := run (twoNodes 18446744073709551615 0).cluster [.send true, .deliver false 0, .send false, .deliver true 1]
    Informed c ∧ ¬ Distinct c := by
  refine ⟨fun i j other => ?_, fun distinct => ?_⟩
  · cases i <;> cases j
    · exact absurd rfl other
    · decide +kernel
    · decide +kernel
    · exact absurd rfl other
  · have same : false = true := distinct (by decide +kernel)
    cases same

end Cplusplus.Redis.ClusterEpochs
