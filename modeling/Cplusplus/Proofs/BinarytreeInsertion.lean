import Cplusplus.Binarytree
import Mathlib.Data.List.Perm.Basic
import Mathlib.Data.Nat.Basic

/-! What `AddNode` leaves of a tree: the loop cuts off the subtree that it walks down, so that the root keeps the last
value of each side only. -/

namespace Cplusplus.Binarytree

open List Option Function

variable {T : Type} {first x : T} {node p : Nat} {memory : Memory T}

def Hangs (t : BinaryTree T) (link : Option Nat) (side : List T) : Prop :=
  match side.getLast? with
  | none => link = none
  | some v => ∃ c, link = some c ∧ 0 < c ∧ c < t.count ∧ t.memory c = some ⟨v, none, none⟩

variable {t : BinaryTree T} {side : List T} {link : Option Nat} {c : Nat}

theorem Hangs.found (hangs : Hangs t link side)
    (linked : link = some c) : ∃ v ∈ side, 0 < c ∧ c < t.count ∧ t.memory c = some ⟨v, none, none⟩ := by
  cases last : side.getLast? with
  | none =>
    simp only [Hangs, last] at hangs
    simp [hangs] at linked
  | some v =>
    simp only [Hangs, last] at hangs
    obtain ⟨c', here, found⟩ := hangs
    obtain rfl := some.inj (linked.symm.trans here)
    exact ⟨v, mem_of_getLast? last, found⟩

theorem Hangs.last (t : BinaryTree T) (side : List T) (positive : 0 < c) (inside : c < t.count)
    (here : t.memory c = some ⟨x, none, none⟩) : Hangs t (some c) (side ++ [x]) := by
  simp only [Hangs, getLast?_append, getLast?_singleton, some_or]
  exact ⟨c, rfl, positive, inside, here⟩

theorem Hangs.keep {t t' : BinaryTree T} (hangs : Hangs t link side) (count : t.count ≤ t'.count)
    (same : ∀ c v, v ∈ side → 0 < c → c < t.count → t.memory c = some ⟨v, none, none⟩ → t'.memory c = t.memory c) : Hangs t' link side := by
  cases last : side.getLast? with
  | none => simpa only [Hangs, last] using hangs
  | some v =>
    simp only [Hangs, last] at hangs ⊢
    obtain ⟨c, here, positive, inside, found⟩ := hangs
    exact ⟨c, here, positive, by omega, (same c v (mem_of_getLast? last) positive inside found).trans found⟩

def leaf (side : List T) : Shape T :=
  match side.getLast? with
  | none => .nil
  | some v => .node v .nil .nil

theorem values_leaf (side : List T) : values (leaf side) = side.getLast?.toList := by
  cases last : side.getLast? with
  | none => simp [leaf, last, values]
  | some v => simp [leaf, last, values]

theorem leaf_subset {v : T} (member : v ∈ values (leaf side)) : v ∈ side := by
  rw [values_leaf, mem_toList] at member
  exact mem_of_getLast? member

theorem values_leaf_of_short (short : side.length ≤ 1) : values (leaf side) = side := by
  rw [values_leaf]
  cases side with
  | nil => rfl
  | cons v side =>
    obtain rfl := eq_nil_of_length_eq_zero (Nat.le_zero.mp (Nat.le_of_succ_le_succ short))
    rfl

theorem length_leaf (side : List T) : (values (leaf side)).length = min side.length 1 := by
  rw [values_leaf]
  cases side with
  | nil => rfl
  | cons v side => simp [getLast?_cons]

theorem Hangs.holds (hangs : Hangs t link side) : Holds t.memory link (leaf side) := by
  cases last : side.getLast? with
  | none =>
    simp only [Hangs, last] at hangs
    simpa only [hangs, leaf, last] using Holds.nil
  | some v =>
    simp only [Hangs, last] at hangs
    obtain ⟨c, rfl, _, _, here⟩ := hangs
    simpa only [leaf, last] using Holds.node here .nil .nil

theorem Hangs.printed (hangs : Hangs t link side) {fuel : Nat}
    (enough : 0 < fuel) : preOrderFrom t.memory fuel link = some (values (leaf side)) := by
  obtain ⟨fuel, rfl⟩ := Nat.exists_eq_succ_of_ne_zero (Nat.ne_of_gt enough)
  rw [values_leaf]
  cases last : side.getLast? with
  | none =>
    simp only [Hangs, last] at hangs
    simp [hangs, preOrderFrom]
  | some v =>
    simp only [Hangs, last] at hangs
    obtain ⟨c, rfl, _, _, here⟩ := hangs
    simp [preOrderFrom, here]

variable [LinearOrder T]

theorem relink_data (back : TreeNode T) : (relink x node back).data = back.data := by
  simp only [relink]
  split <;> rfl

theorem relink_child {back : TreeNode T} (child : (relink x node back).lchild = some c ∨ (relink x node back).rchild = some c) :
    c = node ∨ back.lchild = some c ∨ back.rchild = some c := by
  simp only [relink] at child
  split at child
  next => exact child.imp (fun new => (some.inj new).symm) Or.inr
  next => exact child.symm.imp (fun new => (some.inj new).symm) Or.inl

theorem forward_child {back : TreeNode T} (next : forward x back = some c) : back.lchild = some c ∨ back.rchild = some c := by
  simp only [forward] at next
  split at next
  next => exact .inl next
  next => exact .inr next

def Onward (first : T) (node : Nat) (memory : Memory T) (p : Nat) : Prop :=
  ∀ q n c, p ≤ q → memory q = some n → n.lchild = some c ∨ n.rchild = some c →
    q < c ∧ c < node ∧ ∃ m, memory c = some m ∧ (m.data < first ↔ n.data < first)

theorem Onward.update {value : Option (TreeNode T)} (onward : Onward first node memory p) (later : p < c) :
    Onward first node (update memory p value) c := by
  intro q n d after here child
  have other : q ≠ p := by omega
  rw [update_of_ne other] at here
  obtain ⟨next, inside, m, there, side⟩ := onward q n d (by omega) here child
  refine ⟨next, inside, m, ?_, side⟩
  rwa [update_of_ne (by omega)]

def Relinked (first x : T) (node p : Nat) (memory memory' : Memory T) : Prop :=
  ∀ q, memory' q = memory q ∨
    p ≤ q ∧ q < node ∧ ∃ m, memory q = some m ∧ (m.data < first ↔ x < first) ∧ memory' q = some (relink x node m)

theorem addLoop_relinks {fuel : Nat} {n : TreeNode T} (onward : Onward first node memory p) (here : memory p = some n)
    (side : n.data < first ↔ x < first) (inside : p < node) (enough : node ≤ fuel + p) :
    ∃ memory', addLoop x node fuel memory (some p) = some memory' ∧ Relinked first x node p memory memory' := by
  induction fuel generalizing memory p n with
  | zero => omega
  | succ fuel ih =>
    simp only [addLoop, here, bind_some]
    have changed : ∀ q, update memory p (some (relink x node n)) q = memory q ∨
        q = p ∧ update memory p (some (relink x node n)) q = some (relink x node n) := by
      intro q
      by_cases same : q = p
      · subst same
        exact .inr ⟨rfl, update_self ..⟩
      · exact .inl (update_of_ne same ..)
    cases next : forward x n with
    | none =>
      refine ⟨_, by rw [addLoop], fun q => ?_⟩
      apply (changed q).imp_right
      rintro ⟨rfl, new⟩
      exact ⟨Nat.le_refl _, inside, n, here, side, new⟩
    | some c =>
      obtain ⟨later, before, m, there, kept⟩ := onward p n c (Nat.le_refl _) here (forward_child next)
      have there' : update memory p (some (relink x node n)) c = some m := by
        rwa [update_of_ne (by omega)]
      obtain ⟨memory', run, relinked⟩ := ih (onward.update later) there' (kept.trans side) before (by omega)
      refine ⟨memory', run, fun q => ?_⟩
      cases relinked q with
      | inl same =>
        rw [same]
        apply (changed q).imp_right
        rintro ⟨rfl, new⟩
        exact ⟨Nat.le_refl _, inside, n, here, side, new⟩
      | inr walked =>
        obtain ⟨after, inside', m', found, side', new⟩ := walked
        rw [update_of_ne (by omega)] at found
        exact .inr ⟨by omega, inside', m', found, side', new⟩

structure Shallow (first : T) (smaller others : List T) (t : BinaryTree T) : Prop where
  root : t.root = some 0
  positive : 0 < t.count
  head : ∃ l r, t.memory 0 = some ⟨first, l, r⟩ ∧ Hangs t l smaller ∧ Hangs t r others
  smaller : ∀ v ∈ smaller, v < first
  others : ∀ v ∈ others, ¬ v < first
  onward : Onward first t.count t.memory 1

variable {smaller others : List T}

theorem addLoop_root (shallow : Shallow first smaller others t) {l r : Option Nat}
    (head : t.memory 0 = some ⟨first, l, r⟩) (left : Hangs t l smaller) (right : Hangs t r others) (x : T) :
    ∃ memory', addLoop x t.count (t.count + 1) (update t.memory t.count (some ⟨x, none, none⟩)) (some 0) = some memory' ∧
      memory' 0 = some (relink x t.count ⟨first, l, r⟩) ∧
      Relinked first x t.count 1 (update (update t.memory t.count (some ⟨x, none, none⟩)) 0
        (some (relink x t.count ⟨first, l, r⟩))) memory' := by
  have positive := shallow.positive
  have here : update t.memory t.count (some ⟨x, none, none⟩) 0 = some ⟨first, l, r⟩ := by
    rwa [update_of_ne (by omega)]
  simp only [addLoop, here, bind_some]
  cases next : forward x (⟨first, l, r⟩ : TreeNode T) with
  | none => exact ⟨_, by rw [addLoop], update_self .., fun q => .inl rfl⟩
  | some c =>
    have entered : ∃ v, (v < first ↔ x < first) ∧ 0 < c ∧ c < t.count ∧ t.memory c = some ⟨v, none, none⟩ := by
      simp only [forward] at next
      split at next
      next below =>
        obtain ⟨v, member, found⟩ := left.found next
        exact ⟨v, iff_of_true (shallow.smaller v member) below, found⟩
      next above =>
        obtain ⟨v, member, found⟩ := right.found next
        exact ⟨v, iff_of_false (shallow.others v member) above, found⟩
    obtain ⟨v, side, after, inside, found⟩ := entered
    have onward : Onward first t.count (update (update t.memory t.count (some ⟨x, none, none⟩)) 0
        (some (relink x t.count ⟨first, l, r⟩))) c := by
      intro q n d later here child
      have other : q ≠ 0 := by omega
      rw [update_of_ne other] at here
      by_cases new : q = t.count
      · subst new
        rw [update_self] at here
        cases here
        simp at child
      · rw [update_of_ne new] at here
        obtain ⟨next, bound, m, there, kept⟩ := shallow.onward q n d (by omega) here child
        refine ⟨next, bound, m, ?_, kept⟩
        rwa [update_of_ne (by omega), update_of_ne (by omega)]
    have there : update (update t.memory t.count (some ⟨x, none, none⟩)) 0
        (some (relink x t.count ⟨first, l, r⟩)) c = some ⟨v, none, none⟩ := by
      rwa [update_of_ne (by omega), update_of_ne (by omega)]
    obtain ⟨memory', run, relinked⟩ := @addLoop_relinks _ _ _ _ _ _ _ t.count _ onward there side inside (by omega)
    refine ⟨memory', run, ?_, fun q => ?_⟩
    · cases relinked 0 with
      | inl same => exact same.trans (update_self ..)
      | inr walked => omega
    · apply (relinked q).imp_right
      intro ⟨from_, walked⟩
      exact ⟨by omega, walked⟩

theorem Relinked.keeps_data {memory' : Memory T} (relinked : Relinked first x node p memory memory') {q : Nat} {m : TreeNode T}
    (here : memory q = some m) : ∃ m', memory' q = some m' ∧ m'.data = m.data := by
  cases relinked q with
  | inl same => exact ⟨m, same.trans here, rfl⟩
  | inr walked =>
    obtain ⟨_, _, n, found, _, new⟩ := walked
    obtain rfl := some.inj (here.symm.trans found)
    exact ⟨_, new, relink_data _⟩

theorem addNode_shallow (shallow : Shallow first smaller others t) (x : T) : ∃ t', addNode t x = some t' ∧
      Shallow first (if x < first then smaller ++ [x] else smaller) (if x < first then others else others ++ [x]) t' := by
  obtain ⟨l, r, head, left, right⟩ := shallow.head
  obtain ⟨memory', run, root, relinked⟩ := addLoop_root shallow head left right x
  have positive := shallow.positive
  refine ⟨⟨some 0, memory', t.count + 1⟩, by simp only [addNode, shallow.root, run, map_some], ?_⟩
  have started : ∀ q, q ≠ 0 → q < t.count → update (update t.memory t.count (some ⟨x, none, none⟩)) 0
      (some (relink x t.count ⟨first, l, r⟩)) q = t.memory q := by
    intro q inside old
    rw [update_of_ne inside, update_of_ne (by omega)]
  have made : memory' t.count = some ⟨x, none, none⟩ := by
    cases relinked t.count with
    | inl same => rw [same, update_of_ne (by omega), update_self]
    | inr walked => omega
  -- The leaf on the other side is not walked over.
  have apart : ∀ side : List T, (∀ v ∈ side, ¬ (v < first ↔ x < first)) → ∀ link, Hangs t link side →
      Hangs ⟨some 0, memory', t.count + 1⟩ link side := by
    intro side other link hangs
    apply hangs.keep (Nat.le_succ _)
    intro c v member positive inside found
    cases relinked c with
    | inl same => exact same.trans (started c (by omega) inside)
    | inr walked =>
      obtain ⟨_, _, m, there, side, _⟩ := walked
      rw [started c (by omega) inside, found] at there
      cases there
      exact absurd side (other v member)
  have onward : Onward first (t.count + 1) memory' 1 := by
    intro q n c later here child
    have linked : c = t.count ∧ q < t.count ∧ (n.data < first ↔ x < first) ∨
        q < c ∧ c < t.count ∧ ∃ m, t.memory c = some m ∧ (m.data < first ↔ n.data < first) := by
      cases relinked q with
      | inl same =>
        rw [here, update_of_ne (by omega)] at same
        by_cases new : q = t.count
        · subst new
          rw [update_self] at same
          cases same
          simp at child
        · rw [update_of_ne new] at same
          exact .inr (shallow.onward q n c later same.symm child)
      | inr walked =>
        obtain ⟨_, inside, m, found, side, new⟩ := walked
        obtain rfl := some.inj (here.symm.trans new)
        rw [relink_data]
        cases relink_child child with
        | inl last => exact .inl ⟨last, inside, side⟩
        | inr old =>
          rw [started q (by omega) inside] at found
          exact .inr (shallow.onward q m c later found old)
    obtain ⟨rfl, inside, side⟩ | ⟨next, inside, m, found, side⟩ := linked
    · exact ⟨inside, Nat.lt_succ_self _, _, made, side.symm⟩
    · obtain ⟨m', here', data⟩ := relinked.keeps_data ((started c (by omega) inside).trans found)
      exact ⟨next, by omega, m', here', by rw [data, side]⟩
  by_cases below : x < first
  · simp only [below, if_true]
    simp only [relink, gt_iff_lt, below, if_true] at root
    refine ⟨rfl, Nat.succ_pos _, ⟨_, _, root, Hangs.last _ smaller positive (Nat.lt_succ_self _) made, ?_⟩, ?_, shallow.others, onward⟩
    · exact apart others (fun v member same => shallow.others v member (same.mpr below)) r right
    · intro v member
      cases mem_append.mp member with
      | inl old => exact shallow.smaller v old
      | inr new => exact mem_singleton.mp new ▸ below
  · simp only [below, if_false]
    simp only [relink, gt_iff_lt, below, if_false] at root
    refine ⟨rfl, Nat.succ_pos _, ⟨_, _, root, ?_, Hangs.last _ others positive (Nat.lt_succ_self _) made⟩, shallow.smaller, ?_, onward⟩
    · exact apart smaller (fun v member same => below (same.mp (shallow.smaller v member))) l left
    · intro v member
      cases mem_append.mp member with
      | inl old => exact shallow.others v old
      | inr new => exact mem_singleton.mp new ▸ below

theorem addNodes_shallow (shallow : Shallow first smaller others t) (rest : List T) : ∃ t', rest.foldlM addNode t = some t' ∧
      Shallow first (smaller ++ rest.filter (· < first)) (others ++ rest.filter fun v => ¬ v < first) t' := by
  induction rest generalizing t smaller others with
  | nil => exact ⟨t, rfl, by simpa only [filter_nil, append_nil] using shallow⟩
  | cons x rest ih =>
    obtain ⟨t', added, next⟩ := addNode_shallow shallow x
    obtain ⟨last, run, final⟩ := ih next
    refine ⟨last, by rw [foldlM_cons, added]; exact run, ?_⟩
    by_cases below : x < first
    · rw [filter_cons_of_pos (by simpa only [decide_eq_true_eq] using below),
        filter_cons_of_neg (by simpa only [decide_eq_true_eq, not_not] using below)]
      simpa only [below, if_true, append_assoc, singleton_append] using final
    · rw [filter_cons_of_neg (by simpa only [decide_eq_true_eq] using below),
        filter_cons_of_pos (by simpa only [decide_eq_true_eq] using below)]
      simpa only [below, if_false, append_assoc, singleton_append] using final

theorem Shallow.printed (shallow : Shallow first smaller others t) :
    preOrder t = some (first :: values (leaf smaller) ++ values (leaf others)) := by
  obtain ⟨l, r, head, left, right⟩ := shallow.head
  simp only [preOrder, shallow.root, preOrderFrom, head, bind_some, left.printed shallow.positive, right.printed shallow.positive, map_some]

theorem Shallow.holds (shallow : Shallow first smaller others t) : Holds t.memory t.root (.node first (leaf smaller) (leaf others)) := by
  obtain ⟨l, r, head, left, right⟩ := shallow.head
  rw [shallow.root]
  exact .node head left.holds right.holds

theorem ordered_leaf (side : List T) : Ordered (leaf side) := by
  simp only [leaf]
  split <;> simp [Ordered, values]

theorem build_shallow (first : T) (rest : List T) : ∃ t, build (first :: rest) = some t ∧
      Shallow first (rest.filter (· < first)) (rest.filter fun v => ¬ v < first) t := by
  have root : update (fun _ => none) 0 (some ⟨first, none, none⟩) 0 = some (⟨first, none, none⟩ : TreeNode T) := update_self ..
  have start : Shallow first [] [] (⟨some 0, update (fun _ => none) 0 (some ⟨first, none, none⟩), 1⟩ : BinaryTree T) := by
    refine ⟨rfl, Nat.one_pos, ⟨none, none, root, rfl, rfl⟩, by simp, by simp, ?_⟩
    intro q n c later here
    have other : q ≠ 0 := by omega
    simp only [update_of_ne other, reduceCtorEq] at here
  obtain ⟨t, run, shallow⟩ := addNodes_shallow start rest
  exact ⟨t, run, by simpa only [nil_append] using shallow⟩

/-- A tree of the values is right exactly as long as no node but the root gets a child. -/
theorem addNode_searchable_iff (inserted : List T) :
    (∃ t, build inserted = some t ∧ Searchable t inserted) ↔ OneEachSide inserted := by
  cases inserted with
  | nil =>
    refine iff_of_true ⟨.empty, rfl, .nil, .nil, rfl, List.Perm.refl _, trivial⟩ trivial
  | cons first rest =>
    obtain ⟨t, run, shallow⟩ := build_shallow first rest
    have sides : (rest.filter (· < first) ++ rest.filter fun v => ¬ v < first).Perm rest := by
      simpa only [decide_not] using filter_append_perm (fun v => decide (v < first)) rest
    simp only [run, some.injEq, exists_eq_left', OneEachSide]
    constructor
    · intro ⟨tree, _, printed, same, _⟩
      have total := same.length_eq
      rw [← some.inj (shallow.printed.symm.trans printed)] at total
      have all := sides.length_eq
      have left := length_leaf (rest.filter (· < first))
      have right := length_leaf (rest.filter fun v => ¬ v < first)
      simp only [length_append, length_cons] at total
      rw [length_append] at all
      omega
    · intro ⟨left, right⟩
      refine ⟨_, shallow.holds, shallow.printed, ?_, ?_⟩
      · simp only [values, values_leaf_of_short left, values_leaf_of_short right, cons_append]
        exact sides.cons first
      · exact ⟨fun v member => shallow.smaller v (leaf_subset member), fun v member => shallow.others v (leaf_subset member),
          ordered_leaf _, ordered_leaf _⟩

/-- The node of 1 is cut off when 0 is inserted below it. -/
theorem addNode_loses_node : ¬ ∃ t, build [(2 : Nat), 1, 0] = some t ∧ Searchable t [2, 1, 0] := by
  intro ⟨t, run, tree, _, printed, same, _⟩
  have shown : (build [(2 : Nat), 1, 0]).bind preOrder = some [2, 0] := by rfl
  rw [run, bind_some, printed] at shown
  rw [some.inj shown] at same
  exact absurd same.length_eq (by decide)

end Cplusplus.Binarytree
