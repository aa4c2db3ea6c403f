import Cplusplus.Proofs.ZiplistValues

/-! The cascade: each entry whose size grows to 254 bytes or more makes the next
one grow if that has a narrow field. -/

namespace Cplusplus.Redis.Ziplist
open Bytes List Option

def cascade : Nat → List Node → List Node
  | _, [] => []
  | size, m :: ms =>
    if zipBiglen ≤ size ∧ m.wide = false then { m with wide := true } :: cascade (m.size + 4) ms else m :: ms

theorem cascade_bodies (size : Nat) (ns : List Node) : (cascade size ns).map Node.body = ns.map Node.body := by
  induction ns generalizing size with
  | nil => rfl
  | cons m ms ih =>
    simp only [cascade]
    split
    · simp only [map_cons, ih]
    · rfl

theorem cascade_ok {size old : Nat} {ns : List Node} (ok : ChainOk old ns) : ChainOk size (cascade size ns) := by
  induction ns generalizing size old with
  | nil => trivial
  | cons m ms ih =>
    simp only [cascade]
    split
    next grows =>
      have wider : ({ m with wide := true } : Node).size = m.size + 4 := by
        simp only [Node.size, grows.2, fieldSize]
        simp
        omega
      refine ⟨by simp, ok.2.1, ?_⟩
      rw [wider]
      exact ih ok.2.2
    next stays =>
      refine ⟨fun narrow => ?_, ok.2.1, ok.2.2⟩
      by_contra large
      exact stays ⟨Nat.le_of_not_lt large, narrow⟩

theorem cascade_sizes (size : Nat) (ns : List Node) : sizes ns ≤ sizes (cascade size ns) := by
  induction ns generalizing size with
  | nil => simp [cascade]
  | cons m ms ih =>
    simp only [cascade]
    split
    next grows =>
      have := ih (m.size + 4)
      simp only [sizes_cons, Node.size, grows.2, fieldSize] at this ⊢
      simp only [if_true, Bool.false_eq_true, if_false] at this ⊢
      omega
    next => exact Nat.le_refl _

variable (junk : List UInt8 → Nat → UInt8)

theorem block_take (total tail zllen : Nat) (rest : List UInt8) (k : Nat) :
    (block total tail zllen rest).take (ziplistHeaderSize + k) = block total tail zllen (rest.take k) := by
  have header : (leBytes 4 total ++ leBytes 4 tail ++ leBytes 2 zllen).length = ziplistHeaderSize := by
    simp [ziplistHeaderSize]
  rw [block, ← header, take_length_add_append, block]

theorem block_inj {total tail zllen : Nat} {rest rest' : List UInt8}
    (same : block total tail zllen rest = block total tail zllen rest') : rest = rest' :=
  append_cancel_left same

theorem ziplistResize_block (total tail zllen : Nat) (rest : List UInt8) {len : Nat}
    (large : ziplistHeaderSize < len) (small : len < 2 ^ 32) :
    ∃ init, ziplistResize junk (block total tail zllen rest) len = some (block len tail zllen (init ++ [zipEnd])) ∧
      init.length = len - (ziplistHeaderSize + 1) ∧
      ∀ k, k ≤ rest.length → k ≤ init.length → init.take k = rest.take k := by
  have same : ∀ k, k ≤ rest.length → ziplistHeaderSize + k ≤ len →
      (realloc junk (block total tail zllen rest) len).take (ziplistHeaderSize + k) = block total tail zllen (rest.take k) := by
    intro k inside fits
    rw [realloc_take fits (by rw [block_length]; omega), block_take]
  obtain ⟨after, cut, size⟩ : ∃ after, realloc junk (block total tail zllen rest) len = block total tail zllen after ∧
      after.length = len - ziplistHeaderSize := by
    refine ⟨(realloc junk (block total tail zllen rest) len).drop ziplistHeaderSize, ?_, ?_⟩
    · have header := same 0 (Nat.zero_le _) (by omega)
      have pieces := take_append_drop ziplistHeaderSize (realloc junk (block total tail zllen rest) len)
      rw [Nat.add_zero, take_zero] at header
      rw [header, block, append_nil] at pieces
      exact pieces.symm
    · rw [length_drop, realloc_length]
  have nonempty : after ≠ [] := fun none => by simp [none] at size; omega
  obtain ⟨init, last, rfl⟩ : ∃ init last, after = init ++ [last] :=
    ⟨after.dropLast, after.getLast nonempty, (dropLast_concat_getLast nonempty).symm⟩
  rw [length_append, length_singleton] at size
  refine ⟨init, ?_, by omega, fun k inside fits => ?_⟩
  · have written : store (block total tail zllen (init ++ [last])) 0 (leBytes 4 len) =
        some (block len tail zllen (init ++ [last])) := by
      have stored : store ([] ++ leBytes 4 total ++ (leBytes 4 tail ++ leBytes 2 zllen ++ (init ++ [last]))) 0
          (leBytes 4 len) = some ([] ++ leBytes 4 len ++ (leBytes 4 tail ++ leBytes 2 zllen ++ (init ++ [last]))) :=
        store_append rfl (by simp)
      simpa only [block, nil_append, append_assoc] using stored
    have position : (len + (2 ^ 32 - 1)) % 2 ^ 32 = ziplistHeaderSize + init.length := by omega
    have ended : store (init ++ [last]) init.length [zipEnd] = some (init ++ [zipEnd]) := by
      have stored : store (init ++ [last] ++ []) init.length [zipEnd] = some (init ++ [zipEnd] ++ []) := store_append rfl rfl
      simpa only [append_nil] using stored
    simp only [ziplistResize, Nat.mod_eq_of_lt small, cut, written, position, bind_eq_bind, bind_some, block_store, ended, map_some]
  · have taken := same k inside (by omega)
    rw [cut, block_take, take_append_of_le_length fits] at taken
    exact block_inj taken

theorem ziplistResize_none {zl : List UInt8} {len : Nat} (small : len % 2 ^ 32 < 4) : ziplistResize junk zl len = none := by
  have outside : store (realloc junk zl (len % 2 ^ 32)) 0 (leBytes 4 (len % 2 ^ 32)) = none :=
    store_none (by rw [realloc_length, leBytes_length]; omega)
  simp only [ziplistResize, outside, bind_eq_bind, bind_none]

theorem ziplistGrowPrevlen_spec {Y M : List UInt8} {b : UInt8} {total tail zllen size : Nat}
    (whole : total = ziplistHeaderSize + Y.length + 1 + M.length + 1) (fits : total + 4 < 2 ^ 32)
    (inside : tail < total) (large : zipBiglen ≤ size) :
    ziplistGrowPrevlen junk (block total tail zllen (Y ++ [b] ++ M ++ [zipEnd])) total (ziplistHeaderSize + Y.length) 1
        size =
      some (block (total + 4) (if tail = ziplistHeaderSize + Y.length then tail else tail + 4) zllen
        (Y ++ field true size ++ M ++ [zipEnd])) := by
  obtain ⟨init, resize, length, same⟩ := ziplistResize_block junk total tail zllen (Y ++ [b] ++ M ++ [zipEnd])
    (show ziplistHeaderSize < total + 4 by omega) fits
  have wide : zipPrevEncodeLength size = field true size := by
    simp [zipPrevEncodeLength_eq, needsWide, large]
  obtain ⟨J, rfl, extra⟩ : ∃ J, init = Y ++ ([b] ++ M ++ [zipEnd] ++ J) ∧ J.length = 3 := by
    refine ⟨init.drop (Y ++ [b] ++ M ++ [zipEnd]).length, ?_, ?_⟩
    · have kept := same (Y ++ [b] ++ M ++ [zipEnd]).length (Nat.le_refl _) (by simp; omega)
      rw [take_length] at kept
      rw [← take_append_drop (Y ++ [b] ++ M ++ [zipEnd]).length init, kept]
      simp
    · simp
      omega
  have sameTail : ziplistTailOffset (block (total + 4) tail zllen (Y ++ ([b] ++ M ++ [zipEnd] ++ J) ++ [zipEnd])) =
      some tail := block_tail (by omega) ..
  obtain ⟨G, target, split, gap, left⟩ : ∃ G target, [b] ++ M ++ [zipEnd] ++ J = G ++ target ∧ G.length = 5 ∧ target.length = M.length := by
    refine ⟨_, _, (take_append_drop 5 _).symm, ?_, ?_⟩ <;> simp <;> omega
  have moved : memmove (Y ++ ([b] ++ M ++ [zipEnd] ++ J) ++ [zipEnd]) (Y.length + 5) (Y.length + 1) M.length =
      some (Y ++ G ++ M ++ [zipEnd]) := by
    have cut : Y ++ [b] ++ M ++ ([zipEnd] ++ J ++ [zipEnd]) = Y ++ G ++ target ++ [zipEnd] := by
      rw [append_assoc Y G, ← split]
      simp
    rw [split, ← append_assoc Y G]
    exact memmove_append cut (by simp) (by simp [gap]) rfl left
  have stored : store (Y ++ G ++ M ++ [zipEnd]) Y.length (field true size) = some (Y ++ field true size ++ M ++ [zipEnd]) := by
    rw [append_assoc _ M, append_assoc _ M]
    exact store_append rfl (by simp [fieldSize, gap])
  have count : sizeDiff total (ziplistHeaderSize + Y.length + 1 + 1) = some M.length := by
    rw [sizeDiff, if_pos (by omega)]
    congr 1
    omega
  have shifted : ((tail : Int) + (4 : Nat)) % 2 ^ 32 = (tail + 4 : Nat) := by omega
  rw [Nat.add_assoc ziplistHeaderSize, Nat.add_assoc ziplistHeaderSize] at count
  by_cases last : tail = ziplistHeaderSize + Y.length
  · subst last
    simp only [ziplistGrowPrevlen, wide, field_length, fieldSize, if_true, resize, sameTail, ne_eq, not_true_eq_false,
      if_false, count, bind_eq_bind, bind_some, Nat.add_assoc ziplistHeaderSize, block_memmove, moved,
      map_some, block_store, stored, Nat.reduceSub]
  · simp only [ziplistGrowPrevlen, wide, field_length, fieldSize, if_true, resize, sameTail, last, ne_eq,
      not_false_eq_true, if_false, block_setTail, shifted, Int.toNat_natCast, count, bind_eq_bind, bind_some,
      Nat.add_assoc ziplistHeaderSize, block_memmove, moved, map_some, block_store, stored, Nat.reduceSub]

theorem cascade_same {size : Nat} {ns : List Node} (ok : ChainOk size ns) : cascade size ns = ns := by
  cases ns with
  | nil => rfl
  | cons m ms =>
    have stays : ¬ (zipBiglen ≤ size ∧ m.wide = false) := fun grows =>
      absurd (ok.1 grows.2) (Nat.not_lt.mpr grows.1)
    rw [cascade, if_neg stays]

theorem sizes_dropLast_cons (n : Node) (ns : List Node) (nonempty : ns ≠ []) : sizes (n :: ns).dropLast = n.size + sizes ns.dropLast := by
  rw [dropLast_cons_of_ne_nil nonempty, sizes_cons]

def atNode (zllen : Nat) (X : List UInt8) (q : Nat) (n : Node) (old : Nat) (ns : List Node) : List UInt8 :=
  block (ziplistHeaderSize + X.length + n.size + sizes ns + 1) (ziplistHeaderSize + X.length + sizes (n :: ns).dropLast)
    zllen (X ++ field n.wide q ++ n.body ++ encodeFrom old ns ++ [zipEnd])

theorem atNode_next (zllen : Nat) (X : List UInt8) (q : Nat) (n : Node) (old : Nat) (m : Node) (ms : List Node) :
    atNode zllen X q n old (m :: ms) = atNode zllen (X ++ field n.wide q ++ n.body) old m m.size ms := by
  have length : (X ++ field n.wide q ++ n.body).length = X.length + n.size := by
    simp [Node.size]
  unfold atNode
  rw [length]
  simp only [sizes_cons, sizes_dropLast_cons n (m :: ms) (by simp), encodeFrom, append_assoc, Nat.add_assoc]

theorem read_node (zllen old : Nat) (X : List UInt8) (n : Node) (ns : List Node) {q : Nat} (narrow : n.wide = false → q < zipBiglen)
    (bound : q < 2 ^ 32) (ok : BodyOk n.body) (fits : ziplistHeaderSize + X.length + n.size + sizes ns + 1 < 2 ^ 32) :
    (∃ b, (atNode zllen X q n old ns)[ziplistHeaderSize + X.length]? = some b ∧ b ≠ zipEnd) ∧
      ∃ e, zipEntry ((atNode zllen X q n old ns).drop (ziplistHeaderSize + X.length)) = some e ∧
        e.prevrawlensize = fieldSize n.wide ∧ e.prevrawlen = q ∧ e.rawlen = n.size := by
  have cut : (atNode zllen X q n old ns).drop (ziplistHeaderSize + X.length) = field n.wide q ++ n.body ++ (encodeFrom old ns ++ [zipEnd]) := by
    rw [atNode, block_drop, append_assoc, append_assoc, append_assoc, drop_left]
    simp
  constructor
  · rw [getElem?_drop_zero, cut, append_assoc]
    exact field_head narrow _
  · rw [cut]
    obtain ⟨e, read, width, prev, _, size⟩ := zipEntry_node narrow bound ok
      (show fieldSize n.wide + n.body.length < 2 ^ 32 by simp only [Node.size] at fits; omega) (encodeFrom old ns ++ [zipEnd])
    exact ⟨e, read, width, prev, size⟩

theorem Node.size_widen {m : Node} (thin : m.wide = false) : ({ m with wide := true } : Node).size = m.size + 4 := by
  simp only [Node.size, thin, fieldSize]
  simp
  omega

private theorem grow_node {zllen old size : Nat} {Y : List UInt8} {m : Node} {ms : List Node} (thin : m.wide = false)
    (large : zipBiglen ≤ size) (room : ziplistHeaderSize + Y.length + m.size + sizes ms + 1 + 4 < 2 ^ 32) :
    ziplistGrowPrevlen junk (atNode zllen Y old m m.size ms) (ziplistHeaderSize + Y.length + m.size + sizes ms + 1)
        (ziplistHeaderSize + Y.length) 1 size =
      some (atNode zllen Y size { m with wide := true } m.size ms) := by
  have thinSize : m.size = 1 + m.body.length := by simp [Node.size, thin, fieldSize]
  have before : atNode zllen Y old m m.size ms = block (ziplistHeaderSize + Y.length + m.size + sizes ms + 1)
      (ziplistHeaderSize + Y.length + sizes (m :: ms).dropLast) zllen
      (Y ++ [UInt8.ofNat old] ++ (m.body ++ encodeFrom m.size ms) ++ [zipEnd]) := by
    simp only [atNode, thin, field, Bool.false_eq_true, if_false, append_assoc]
  have lower : sizes (m :: ms).dropLast ≤ m.size + sizes ms := by
    have whole := congrArg sizes (dropLast_concat_getLast (show m :: ms ≠ [] by simp))
    simp only [sizes_append, sizes_cons, sizes_nil] at whole
    omega
  rw [before, ziplistGrowPrevlen_spec junk (by simp; omega) room (by omega) large]
  cases ms with
  | nil =>
    simp only [atNode, Node.size_widen thin, encodeFrom, sizes_nil, dropLast_singleton, Nat.add_zero, if_true, append_nil, append_assoc]
    congr 1
  | cons k ks =>
    have positive := m.size_pos
    have moved : ¬ (ziplistHeaderSize + Y.length + sizes (m :: k :: ks).dropLast = ziplistHeaderSize + Y.length) := by
      rw [sizes_dropLast_cons m (k :: ks) (by simp)]
      omega
    rw [if_neg moved, atNode, Node.size_widen thin, sizes_dropLast_cons m (k :: ks) (by simp),
      sizes_dropLast_cons _ (k :: ks) (by simp), Node.size_widen thin]
    simp only [append_assoc]
    congr 2 <;> omega

private theorem grow_node_none {zl : List UInt8} {total np size : Nat} (large : zipBiglen ≤ size) (fits : total < 2 ^ 32)
    (full : 2 ^ 32 ≤ total + 4) : ziplistGrowPrevlen junk zl total np 1 size = none := by
  have wide : needsWide size = true := by simp [needsWide, large]
  simp only [ziplistGrowPrevlen, zipPrevEncodeLength_eq, wide, field_length, fieldSize, if_true, Nat.reduceSub, bind_eq_bind]
  rw [ziplistResize_none junk (by omega)]
  rfl

theorem rewrite_node {zllen old size : Nat} {Y : List UInt8} {m : Node} {ms : List Node} :
    store (atNode zllen Y old m m.size ms) (ziplistHeaderSize + Y.length) (field m.wide size) = some (atNode zllen Y size m m.size ms) := by
  have stored : store (Y ++ field m.wide old ++ (m.body ++ encodeFrom m.size ms ++ [zipEnd])) Y.length (field m.wide size) =
      some (Y ++ field m.wide size ++ (m.body ++ encodeFrom m.size ms ++ [zipEnd])) := store_append rfl (by simp)
  simp only [← append_assoc] at stored
  rw [atNode, block_store, stored]
  rfl

theorem cascadeLoop_spec (zllen : Nat) (ns : List Node) : ∀ (fuel : Nat) (X : List UInt8) (q : Nat) (n : Node) (old : Nat), ns.length < fuel →
      (n.wide = false → q < zipBiglen) → q < 2 ^ 32 → BodyOk n.body → old < 2 ^ 32 → ChainOk old ns →
      ziplistHeaderSize + X.length + n.size + sizes ns + 1 < 2 ^ 32 →
      ziplistCascadeLoop junk fuel (atNode zllen X q n old ns) (ziplistHeaderSize + X.length + n.size + sizes ns + 1)
          (ziplistHeaderSize + X.length) =
        if ziplistHeaderSize + X.length + n.size + sizes (cascade n.size ns) + 1 < 2 ^ 32 then
          some (atNode zllen X q n n.size (cascade n.size ns))
        else none := by
  induction ns with
  | nil =>
    intro fuel X q n old enough narrow bound ok _ _ fits
    obtain ⟨left, rfl⟩ : ∃ left, fuel = left + 1 := ⟨fuel - 1, by omega⟩
    obtain ⟨⟨b, first, notEnd⟩, e, entry, _, _, size⟩ := read_node zllen old X n [] narrow bound ok fits
    have last : (atNode zllen X q n old [])[ziplistHeaderSize + X.length + n.size]? = some zipEnd := by
      have position : ziplistHeaderSize + X.length + n.size =
          ziplistHeaderSize + (X ++ field n.wide q ++ n.body ++ encodeFrom old []).length := by
        simp [Node.size, Nat.add_assoc]
      rw [position, atNode, block_get]
      simp
    simp only [cascade, fits, if_true, ziplistCascadeLoop, first, entry, size, last, bind_eq_bind, bind_some, notEnd, if_false]
    rfl
  | cons m ms ih =>
    intro fuel X q n old enough narrow bound ok boundOld chain fits
    obtain ⟨left, rfl⟩ : ∃ left, fuel = left + 1 := ⟨fuel - 1, by omega⟩
    obtain ⟨narrowM, okM, chainM⟩ := chain
    obtain ⟨⟨b, first, notEnd⟩, e, entry, _, _, size⟩ := read_node zllen old X n (m :: ms) narrow bound ok fits
    have after := atNode_next zllen X q n n.size
    have length : (X ++ field n.wide q ++ n.body).length = X.length + n.size := by
      simp [Node.size]
    simp only [atNode_next, sizes_cons] at first entry fits ⊢
    have place : ziplistHeaderSize + X.length + n.size = ziplistHeaderSize + (X ++ field n.wide q ++ n.body).length := by
      omega
    generalize X ++ field n.wide q ++ n.body = Y at *
    have boundN : n.size < 2 ^ 32 := by omega
    have total : ziplistHeaderSize + Y.length + (m.size + sizes ms) + 1 = ziplistHeaderSize + Y.length + m.size + sizes ms + 1 := by omega
    rw [place, total] at fits
    obtain ⟨⟨c, head, more⟩, f, entryM, width, prev, _⟩ := read_node zllen m.size Y m ms narrowM boundOld okM
      fits
    simp only [ziplistCascadeLoop, first, entry, size, place, total, head, entryM, prev, width, bind_eq_bind, bind_some, notEnd, more, if_false]
    by_cases unchanged : old = n.size
    · subst unchanged
      have same : cascade n.size (m :: ms) = m :: ms := cascade_same ⟨narrowM, okM, chainM⟩
      rw [if_pos rfl, same, sizes_cons, total, if_pos fits, after]
      rfl
    rw [if_neg unchanged, zipPrevEncodeLength_eq, field_length]
    by_cases grows : zipBiglen ≤ n.size ∧ m.wide = false
    · obtain ⟨large, thin⟩ := grows
      have wide : needsWide n.size = true := by simp [needsWide, large]
      have larger := cascade_sizes (m.size + 4) ms
      have cascaded : cascade n.size (m :: ms) = { m with wide := true } :: cascade (m.size + 4) ms := by
        rw [cascade, if_pos ⟨large, thin⟩]
      rw [cascaded, after, sizes_cons, wide, thin]
      simp only [fieldSize, Bool.false_eq_true, if_false, if_true, show 1 < 5 by decide, Nat.reduceSub, Node.size_widen thin]
      rcases Nat.lt_or_ge (ziplistHeaderSize + Y.length + m.size + sizes ms + 1 + 4) (2 ^ 32) with room | full
      · have loop := ih left Y n.size { m with wide := true } m.size (by simp only [length_cons] at enough; omega)
          (by simp) boundN okM (by omega) chainM (by rw [Node.size_widen thin]; omega)
        rw [Node.size_widen thin] at loop
        have count : ziplistHeaderSize + Y.length + m.size + sizes ms + 1 + 4 =
            ziplistHeaderSize + Y.length + (m.size + 4) + sizes ms + 1 := by omega
        rw [grow_node junk thin large room, bind_some, count, loop, Nat.add_assoc _ (m.size + 4)]
      · rw [grow_node_none junk large fits full, if_neg (by omega)]
        rfl
    · have cascaded : cascade n.size (m :: ms) = m :: ms := by rw [cascade, if_neg grows]
      rw [cascaded, after, sizes_cons, total, if_pos fits]
      have kept : ¬ fieldSize m.wide < fieldSize (needsWide n.size) := by
        intro wider
        cases thin : m.wide <;> cases wide : needsWide n.size <;> simp [thin, wide, fieldSize] at wider
        exact grows ⟨by simpa [needsWide] using wide, thin⟩
      rw [if_neg kept]
      split
      next shrinks =>
        have wide : m.wide = true := by
          cases thin : m.wide <;> cases wide : needsWide n.size <;> simp [thin, wide, fieldSize] at shrinks ⊢
        have force : zipPrevEncodeLengthForceLarge n.size = field m.wide n.size := by rw [wide]; rfl
        rw [force, rewrite_node]
      next same =>
        have width : needsWide n.size = m.wide := by
          cases thin : m.wide <;> cases wide : needsWide n.size <;> simp_all [fieldSize]
        rw [width, rewrite_node]

theorem length_le_sizes (ns : List Node) : ns.length ≤ sizes ns := by
  induction ns with
  | nil => exact Nat.le_refl _
  | cons n ns ih =>
    have positive := n.size_pos
    simp only [length_cons, sizes_cons]
    omega

theorem cascadeUpdate_spec (zllen old : Nat) (X : List UInt8) (n : Node) (ns : List Node) {q : Nat}
    (narrow : n.wide = false → q < zipBiglen) (bound : q < 2 ^ 32) (ok : BodyOk n.body) (boundOld : old < 2 ^ 32)
    (chain : ChainOk old ns) (fits : ziplistHeaderSize + X.length + n.size + sizes ns + 1 < 2 ^ 32) :
    ziplistCascadeUpdate junk (atNode zllen X q n old ns) (ziplistHeaderSize + X.length) =
      if ziplistHeaderSize + X.length + n.size + sizes (cascade n.size ns) + 1 < 2 ^ 32 then
        some (atNode zllen X q n n.size (cascade n.size ns))
      else none := by
  have enough : ns.length < (atNode zllen X q n old ns).length + 1 := by
    have := length_le_sizes ns
    simp only [atNode, block_length, length_append, encodeFrom_length]
    omega
  have total : ziplistBytes (atNode zllen X q n old ns) = some (ziplistHeaderSize + X.length + n.size + sizes ns + 1) := block_bytes fits ..
  rw [ziplistCascadeUpdate, total]
  exact cascadeLoop_spec junk zllen ns _ X q n old enough narrow bound ok boundOld chain fits

end Cplusplus.Redis.Ziplist
