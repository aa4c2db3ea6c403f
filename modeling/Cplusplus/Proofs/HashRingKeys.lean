import Cplusplus.HashRing

/-! Which keys change their node when a node is added or removed. -/

namespace Cplusplus.Consistent
open Clockwise List Option

variable {Node : Type} {stringify : Node → List UInt8} {h : HashRing Node} {node : Node} {key : List UInt8}

/-- A loop that sets one point after the other to `value`, where none erases it. -/
theorem foldl_points {σ : Type} (h : HashRing Node) (node : Node) (part : σ → HashRing Node) (body : σ → Nat → σ) (value : Option Node)
    (step : ∀ s r, (part s).hash = h.hash → (part (body s r)).hash = h.hash ∧ (part (body s r)).replicas = (part s).replicas ∧
      ∀ q, (part (body s r)).ring.lookup q = if q = h.point stringify node r then value else (part s).ring.lookup q)
    (rs : List Nat) (s : σ) (same : (part s).hash = h.hash) :
    (∀ q, (part (rs.foldl body s)).ring.lookup q = if q ∈ rs.map (h.point stringify node) then value else (part s).ring.lookup q) ∧
      (part (rs.foldl body s)).hash = h.hash ∧ (part (rs.foldl body s)).replicas = (part s).replicas := by
  induction rs generalizing s with
  | nil => exact ⟨fun q => by simp, same, rfl⟩
  | cons r rs ih =>
    obtain ⟨hash, replicas, point⟩ := step s r same
    obtain ⟨lookup, hash', replicas'⟩ := ih (body s r) hash
    refine ⟨fun q => ?_, hash', replicas'.trans replicas⟩
    rw [foldl_cons, lookup, point, map_cons]
    by_cases later : q ∈ rs.map (h.point stringify node)
    · rw [if_pos later, if_pos (mem_cons_of_mem _ later)]
    · simp [later]

theorem point_same {g h : HashRing Node} (same : g.hash = h.hash) (node : Node) (r : Nat) :
    g.point stringify node r = h.point stringify node r := by
  rw [HashRing.point, same, HashRing.point]

theorem addNode_map (h : HashRing Node) (node : Node) :
    (∀ q, (h.addNode stringify node).1.ring.lookup q = if q ∈ h.points stringify node then some node else h.ring.lookup q) ∧
      (h.addNode stringify node).1.hash = h.hash ∧ (h.addNode stringify node).1.replicas = h.replicas := by
  refine foldl_points h node Prod.fst (fun before r => ({ before.1 with ring := before.1.ring.insert (before.1.point stringify node r) node },
    some (before.1.point stringify node r))) (some node) (fun s r same => ⟨same, rfl, fun q => ?_⟩) _ (h, none) rfl
  rw [← point_same same]
  split
  next here =>
    rw [here]
    exact Finmap.lookup_insert _
  next other => exact Finmap.lookup_insert_of_ne _ other

theorem removeNode_map (h : HashRing Node) (node : Node) :
    (∀ q, (h.removeNode stringify node).ring.lookup q = if q ∈ h.points stringify node then none else h.ring.lookup q) ∧
      (h.removeNode stringify node).hash = h.hash ∧ (h.removeNode stringify node).replicas = h.replicas := by
  refine foldl_points h node id (fun h r => { h with ring := h.ring.erase (h.point stringify node r) }) none
    (fun s r same => ⟨same, rfl, fun q => ?_⟩) _ h rfl
  rw [← point_same same]
  split
  next here =>
    rw [here]
    exact Finmap.lookup_erase _ _
  next other => exact Finmap.lookup_erase_ne other

def HashRing.position (h : HashRing Node) (key : List UInt8) : Nat := h.hash (key.takeWhile (· ≠ 0))

theorem getNode_of_nearest {p : Nat} (nearest : Nearest (h.ring.lookup ·) (h.position key) p) : h.getNode key = h.ring.lookup p := by
  have found := ((lowerBound_nearest h.ring (h.position key)).1 p).mpr nearest
  unfold HashRing.getNode
  rw [show lowerBound h.ring (h.hash (key.takeWhile (· ≠ 0))) = some p from found, bind_some]

theorem getNode_empty (empty : h.ring.keys = ∅) : h.getNode key = none := by
  have missing := (lowerBound_nearest h.ring (h.position key)).2.mpr empty
  unfold HashRing.getNode
  rw [show lowerBound h.ring (h.hash (key.takeWhile (· ≠ 0))) = none from missing, bind_none]

theorem nearest_exists (some_ : h.ring.keys ≠ ∅) (pos : Nat) : ∃ p, Nearest (h.ring.lookup ·) pos p := by
  cases result : lowerBound h.ring pos with
  | none => exact absurd ((lowerBound_nearest h.ring pos).2.mp result) some_
  | some p => exact ⟨p, ((lowerBound_nearest h.ring pos).1 p).mp result⟩

theorem addNode_moves (h : HashRing Node) (node : Node) (key : List UInt8)
    (moved : (h.addNode stringify node).1.getNode key ≠ h.getNode key) : (h.addNode stringify node).1.getNode key = some node := by
  obtain ⟨lookup, hash, -⟩ := @addNode_map _ stringify h node
  have position : (h.addNode stringify node).1.position key = h.position key := by rw [HashRing.position, hash, HashRing.position]
  have more : ∀ q, (h.ring.lookup q).isSome = true → ((h.addNode stringify node).1.ring.lookup q).isSome = true := by
    intro q present
    rw [lookup]
    split
    · rfl
    · exact present
  by_cases empty : (h.addNode stringify node).1.ring.keys = ∅
  · have before : h.ring.keys = ∅ := by
      apply Finset.eq_empty_of_forall_notMem
      intro q member
      have inside := lookup_isSome.mp (more q (lookup_isSome.mpr member))
      rw [empty] at inside
      cases inside
    rw [getNode_empty empty, getNode_empty before] at moved
    exact absurd rfl moved
  · obtain ⟨p, nearest⟩ := nearest_exists empty ((h.addNode stringify node).1.position key)
    rw [getNode_of_nearest nearest, lookup] at moved ⊢
    split at moved
    next own => rw [if_pos own]
    next other =>
      have present := nearest.present
      simp only [lookup, if_neg other] at present
      have before := nearest.fewer more present
      rw [position] at before
      exact absurd (getNode_of_nearest before).symm moved

/-- Exactly the keys of the node move when it is removed, if all its points are its own. -/
theorem removeNode_moves (h : HashRing Node) (node : Node) :
    (∀ key, (h.removeNode stringify node).getNode key ≠ h.getNode key → h.getNode key = some node) ↔ h.OwnPoints stringify node := by
  obtain ⟨lookup, hash, -⟩ := @removeNode_map _ stringify h node
  have position : ∀ key, (h.removeNode stringify node).position key = h.position key := fun key => by
    rw [HashRing.position, hash, HashRing.position]
  have fewer : ∀ q, ((h.removeNode stringify node).ring.lookup q).isSome = true → (h.ring.lookup q).isSome = true := by
    intro q present
    rw [lookup] at present
    split at present
    · cases present
    · exact present
  have left : ∀ q, q ∉ h.points stringify node → (h.removeNode stringify node).ring.lookup q = h.ring.lookup q := by
    intro q other
    rw [lookup, if_neg other]
  constructor
  · intro keys p erased other owner different
    obtain ⟨r, -, rfl⟩ := List.mem_map.mp erased
    have key : h.getNode (stringify node ++ Decimal.decimal r) = some other := by
      rw [← owner]
      apply getNode_of_nearest
      exact nearest_self (isSome_iff_exists.mpr ⟨other, owner⟩)
    have kept : (h.removeNode stringify node).getNode (stringify node ++ Decimal.decimal r) = some other := by
      by_contra moved
      rw [← key] at moved
      have own := keys _ moved
      rw [key] at own
      exact different (some.inj own)
    have some_ : (h.removeNode stringify node).ring.keys ≠ ∅ := by
      intro empty
      rw [getNode_empty empty] at kept
      cases kept
    obtain ⟨q, nearest⟩ := nearest_exists some_ ((h.removeNode stringify node).position (stringify node ++ Decimal.decimal r))
    rw [getNode_of_nearest nearest] at kept
    have outside : q ∉ h.points stringify node := by
      intro inside
      rw [lookup, if_pos inside] at kept
      cases kept
    refine ⟨q, outside, (left q outside).symm.trans kept, fun q' outside' present => ?_⟩
    rw [position] at nearest
    apply nearest.first q'
    simp only [left q' outside']
    exact Finmap.lookup_isSome.mpr present
  · intro own key moved
    by_contra different
    have some_ : h.ring.keys ≠ ∅ := by
      intro empty
      have after : (h.removeNode stringify node).ring.keys = ∅ := by
        apply Finset.eq_empty_of_forall_notMem
        intro q member
        have inside := lookup_isSome.mp (fewer q (lookup_isSome.mpr member))
        rw [empty] at inside
        cases inside
      rw [getNode_empty empty, getNode_empty after] at moved
      exact moved rfl
    obtain ⟨p, nearest⟩ := nearest_exists some_ (h.position key)
    have before := getNode_of_nearest nearest
    obtain ⟨other, owner⟩ := isSome_iff_exists.mp nearest.present
    by_cases erased : p ∈ h.points stringify node
    · have distinct : other ≠ node := by
        rintro rfl
        exact different (before.trans owner)
      obtain ⟨q, outside, follows, next⟩ := own p erased other owner distinct
      have following : Nearest ((h.removeNode stringify node).ring.lookup ·) p q := by
        refine ⟨?_, fun q' present => next q' ?_ ?_⟩
        · simp only [left q outside, follows, isSome_some]
        · intro inside
          simp only [lookup, if_pos inside] at present
          cases present
        · exact Finmap.lookup_isSome.mp (fewer q' present)
      have reached := nearest.next fewer following
      rw [← position] at reached
      apply moved
      rw [getNode_of_nearest reached, left q outside, follows, before, owner]
    · have stays : Nearest ((h.removeNode stringify node).ring.lookup ·) (h.position key) p := by
        apply nearest.fewer fewer
        simp only [left p erased]
        exact nearest.present
      rw [← position] at stays
      apply moved
      rw [getNode_of_nearest stays, left p erased, before]

/-- Adding a node moves keys to it only. Removing it moves only its own keys exactly when the
points that it erases are its own. -/
theorem only_keys_of_node_move (stringify : Node → List UInt8) (replicas : Nat) (hash : List UInt8 → Nat) (ops : List (Op Node))
    (node : Node) :
    (∀ key, ((run stringify replicas hash ops).addNode stringify node).1.getNode key ≠ (run stringify replicas hash ops).getNode key →
      ((run stringify replicas hash ops).addNode stringify node).1.getNode key = some node) ∧
    ((∀ key, ((run stringify replicas hash ops).removeNode stringify node).getNode key ≠ (run stringify replicas hash ops).getNode key →
      (run stringify replicas hash ops).getNode key = some node) ↔
      (run stringify replicas hash ops).OwnPoints stringify node) :=
  ⟨addNode_moves _ node, removeNode_moves _ node⟩

def digitsHash (s : List UInt8) : Nat := s.foldr (fun c n => 257 * n + c.toNat + 1) 0

theorem digitsHash_injective : Function.Injective digitsHash := by
  intro s
  induction s with
  | nil =>
    intro t same
    cases t with
    | nil => rfl
    | cons d t =>
      simp only [digitsHash, foldr_nil, foldr_cons] at same
      omega
  | cons c s ih =>
    intro t same
    cases t with
    | nil =>
      simp only [digitsHash, foldr_nil, foldr_cons] at same
      omega
    | cons d t =>
      simp only [digitsHash, foldr_cons] at same
      have := c.toNat_lt
      have := d.toNat_lt
      have head : c.toNat = d.toNat := by omega
      have tail : digitsHash s = digitsHash t := by
        simp only [digitsHash]
        omega
      rw [UInt8.toNat_inj.mp head, ih tail]

variable {replicas : Nat} {hash : List UInt8 → Nat} {ops ops' : List (Op Node)}

/-- The nodes that were added and not removed since. -/
def live (ops : List (Op Node)) : Set Node :=
  ops.foldl (fun nodes op => match op with
    | .addNode node => insert node nodes
    | .removeNode node => nodes \ {node}) ∅

/-- No point belongs to two nodes. -/
def Apart (owner : Nat → Node → Prop) : Prop := ∀ p node other, owner p node → owner p other → node = other

section
variable (apart : Apart fun p node => p ∈ HashRing.points stringify ⟨∅, replicas, hash⟩ node)
include apart

theorem run_lookup (ops : List (Op Node)) : (∀ p node, (run stringify replicas hash ops).ring.lookup p = some node ↔
      node ∈ live ops ∧ p ∈ HashRing.points stringify ⟨∅, replicas, hash⟩ node) ∧
      (run stringify replicas hash ops).hash = hash ∧ (run stringify replicas hash ops).replicas = replicas := by
  induction ops using List.reverseRecOn with
  | nil => exact ⟨fun p node => by simp [run, live], rfl, rfl⟩
  | append_singleton ops op ih =>
    rw [run, foldl_append, ← run, live, foldl_append, ← live]
    generalize run stringify replicas hash ops = h at *
    obtain ⟨lookup, sameHash, sameReplicas⟩ := ih
    have points : ∀ node, h.points stringify node = HashRing.points stringify ⟨∅, replicas, hash⟩ node := by
      intro node
      rw [HashRing.points, sameReplicas]
      exact map_congr_left fun r _ => point_same sameHash node r
    cases op with
    | addNode added =>
      obtain ⟨after, hash', replicas'⟩ := @addNode_map _ stringify h added
      refine ⟨fun p node => ?_, hash'.trans sameHash, replicas'.trans sameReplicas⟩
      simp only [foldl_cons, foldl_nil, step, after, points, Set.mem_insert_iff]
      grind [Apart]
    | removeNode removed =>
      obtain ⟨after, hash', replicas'⟩ := @removeNode_map _ stringify h removed
      refine ⟨fun p node => ?_, hash'.trans sameHash, replicas'.trans sameReplicas⟩
      simp only [foldl_cons, foldl_nil, step, after, points, Set.mem_sdiff, Set.mem_singleton_iff]
      grind [Apart]

/-- The ring, and so the node of every key, depends on the nodes that are left, and not on the
order in which nodes were added and removed. -/
theorem ring_of_live_nodes (same : live ops = live ops') : run stringify replicas hash ops = run stringify replicas hash ops' := by
  obtain ⟨lookup, hash₁, replicas₁⟩ := run_lookup apart ops
  obtain ⟨lookup', hash₂, replicas₂⟩ := run_lookup apart ops'
  have ring : (run stringify replicas hash ops).ring = (run stringify replicas hash ops').ring :=
    Finmap.ext_lookup fun p => Option.ext fun node => by rw [lookup, lookup', same]
  generalize run stringify replicas hash ops = h at *
  generalize run stringify replicas hash ops' = h' at *
  cases h
  cases h'
  simp_all only

end

theorem ring_of_live_nodes_added_again :
    run (fun b => if b then [97] else [98]) 1 digitsHash [.addNode true, .addNode false, .removeNode true, .addNode true] =
      run (fun b => if b then [97] else [98]) 1 digitsHash [.addNode false, .addNode true] := by
  apply ring_of_live_nodes
  · intro p node other left right
    obtain ⟨_, _, rfl⟩ := List.mem_map.mp left
    obtain ⟨_, _, same⟩ := List.mem_map.mp right
    have texts := digitsHash_injective same
    cases node <;> cases other <;> first | rfl | simp at texts
  · ext node
    cases node <;> simp [live]

/-- The last replica of "a" and the first one of "a1" have the same text "a10". When "a" is
removed, the key "a10" goes from "a1" to "b". -/
theorem shared_text_moves_foreign_key :
    let h := run id 11 digitsHash [.addNode [97], .addNode [97, 49], .addNode [98]]
    Function.Injective digitsHash ∧ h.getNode [97, 49, 48] = some [97, 49] ∧ (h.removeNode id [97]).getNode [97, 49, 48] = some [98] := by
  refine ⟨digitsHash_injective, ?_, ?_⟩
  · decide +kernel
  · decide +kernel

end Cplusplus.Consistent
