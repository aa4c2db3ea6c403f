import Cplusplus.Proofs.ZiplistDelete

/-! Insertion. The entry that follows the new one is moved together with the bytes in
front of it or without some of its own, so that its field gets the width it needs;
the cascade follows. Where the block shrinks although an entry is inserted, bytes at
its end are cut off before they are moved. -/

namespace Cplusplus.Redis.Ziplist
open Bytes List Option

variable (junk : List UInt8 → Nat → UInt8)
variable {zl s : List UInt8} {prev zllen : Nat} {m new : Node} {ms before ns nodes : List Node}

def newNode (prev : Nat) (s : List UInt8) : Node := { wide := needsWide prev, body := zipBody s }

def insertRest (junk : List UInt8 → Nat → UInt8) (zl : List UInt8) (curlen p reqlen : Nat) (nextdiff : Int)
    (bytes : List UInt8) : Option (List UInt8) := do
  let zl ← if (← zl[p]?) ≠ zipEnd then ziplistMakeGap zl curlen p reqlen nextdiff else setTailOffset zl p
  let zl ← if nextdiff ≠ 0 then ziplistCascadeUpdate junk zl (p + reqlen) else some zl
  let zl ← store zl p bytes
  ziplistIncrLength zl 1

variable {nextdiff : Int}

theorem ziplistInsert_eq {p curlen : Nat} {b : UInt8}
    (bytes : ziplistBytes zl = some curlen) (prevlen : insertPrevlen zl p = some prev) (head : zl[p]? = some b)
    (diff : (if b ≠ zipEnd then zipPrevLenByteDiff (zl.drop p) ((newNode prev s).size % 2 ^ 32) else some 0) = some nextdiff) :
    ziplistInsert junk zl p s = (ziplistResize junk zl (((curlen + (newNode prev s).size : Nat) + nextdiff) % 2 ^ 64).toNat).bind fun zl =>
        insertRest junk zl curlen p (newNode prev s).size nextdiff (field (needsWide prev) prev ++ zipBody s) := by
  have width : zipPrevEncodeLength prev = field (needsWide prev) prev := zipPrevEncodeLength_eq prev
  obtain ⟨encoded, body⟩ | ⟨value, encoding, payload, encoded, saved, body⟩ := zipBody_cases s
  · have size : s.length + (field (needsWide prev) prev).length + (zipEncodeLength 0 s.length).length =
        (newNode prev s).size := by
      simp only [newNode, Node.size, body, length_append, field_length]
      omega
    split at diff
    next more =>
      simp only [ziplistInsert, bytes, prevlen, encoded, map_none, getD_none, width, size, head, more, diff,
        body, bind_eq_bind, bind_some, insertRest, append_assoc, ne_eq, not_false_eq_true, if_true]
    next last =>
      cases diff
      simp only [ziplistInsert, bytes, prevlen, encoded, map_none, getD_none, width, size, head, last,
        body, bind_eq_bind, bind_some, insertRest, append_assoc, if_false]
  · obtain ⟨_, _, notStr, _, payload', saved', length, _⟩ := zipTryEncoding_spec encoded
    obtain rfl := some.inj (saved.symm.trans saved')
    have header : zipEncodeLength encoding s.length = [encoding] := by
      rw [zipEncodeLength, notStr]
      rfl
    have size : zipIntSize encoding + (field (needsWide prev) prev).length + 1 = (newNode prev s).size := by
      simp only [newNode, Node.size, body, length_cons, field_length, length]
      omega
    split at diff
    next more =>
      simp only [ziplistInsert, bytes, prevlen, encoded, map_some, getD_some, saved, width, header,
        length_singleton, size, head, more, diff, body, bind_eq_bind, bind_some, insertRest,
        append_assoc, singleton_append, ne_eq, not_false_eq_true, if_true]
    next last =>
      cases diff
      simp only [ziplistInsert, bytes, prevlen, encoded, map_some, getD_some, saved, width, header,
        length_singleton, size, head, last, body, bind_eq_bind, bind_some, insertRest,
        append_assoc, singleton_append, if_false]

theorem image_at_end (zllen : Nat) (before : List Node) : (image zllen before)[ziplistHeaderSize + sizes before]? = some zipEnd := by
  rw [image, block_get, ← encodeFrom_length 0 before, getElem?_drop_zero, drop_left]
  rfl

theorem insertPrevlen_spec (zllen : Nat) (before after : List Node) (chain : ChainOk 0 (before ++ after))
    (fits : ziplistHeaderSize + sizes (before ++ after) + 1 < 2 ^ 32) :
    insertPrevlen (image zllen (before ++ after)) (ziplistHeaderSize + sizes before) = some (lastSize 0 before) := by
  obtain ⟨chainBefore, chainAfter⟩ := chainOk_append.mp chain
  have lower := lastSize_le 0 before
  rw [sizes_append] at fits
  cases after with
  | cons m ms =>
    rw [sizes_cons] at fits
    obtain ⟨narrow, ok, _⟩ := chainAfter
    obtain ⟨⟨b, head, notEnd⟩, _⟩ := read_node zllen m.size (encodeFrom 0 before) m ms narrow (by omega) ok (by rw [encodeFrom_length]; omega)
    have cut : (atNode zllen (encodeFrom 0 before) (lastSize 0 before) m m.size ms).drop
        (ziplistHeaderSize + (encodeFrom 0 before).length) =
          field m.wide (lastSize 0 before) ++ (m.body ++ encodeFrom m.size ms ++ [zipEnd]) := by
      rw [atNode, block_drop]
      simp only [append_assoc, drop_left]
    have read := (zipDecodePrevlen_field narrow (show lastSize 0 before < 2 ^ 32 by omega)
      (m.body ++ encodeFrom m.size ms ++ [zipEnd])).1
    rw [← cut] at read
    rw [encodeFrom_length] at head read
    simp only [image_split, insertPrevlen, head, notEnd, read, bind_eq_bind, bind_some, ne_eq, not_false_eq_true, if_true]
    rfl
  | nil =>
    rw [append_nil] at chain ⊢
    rw [sizes_nil] at fits
    have tail : ziplistTailOffset (image zllen before) = some (ziplistHeaderSize + sizes before.dropLast) := by
      have := sizes_dropLast_le before
      exact block_tail (by omega) ..
    simp only [insertPrevlen, image_at_end, tail, bind_eq_bind, bind_some, ne_eq, not_true_eq_false, if_false]
    cases before.eq_nil_or_concat with
    | inl empty =>
      subst empty
      have first := image_at_end zllen []
      rw [sizes_nil, Nat.add_zero] at first
      simp only [dropLast_nil, sizes_nil, Nat.add_zero, first, bind_some, not_true_eq_false, if_false]
      rfl
    | inr more =>
      obtain ⟨init, n, rfl⟩ := more
      rw [concat_eq_append] at chain fits ⊢
      obtain ⟨_, narrow, ok, _⟩ := chainOk_append.mp chain
      have lowerInit := lastSize_le 0 init
      simp only [sizes_append, sizes_cons, sizes_nil] at fits
      have cut : (image zllen (init ++ [n])).drop (ziplistHeaderSize + sizes init) = field n.wide (lastSize 0 init) ++ n.body ++ [zipEnd] := by
        rw [image, block_drop, encodeFrom_append, ← encodeFrom_length 0 init, append_assoc, drop_left]
        simp only [encodeFrom, append_nil]
      have raw := zipRawEntryLength_node narrow (show lastSize 0 init < 2 ^ 32 by omega) ok (by omega) [zipEnd]
      obtain ⟨b, head, notEnd⟩ := field_head narrow (n.body ++ [zipEnd])
      rw [← append_assoc, ← cut, ← getElem?_drop_zero] at head
      rw [← cut] at raw
      simp only [dropLast_concat, head, notEnd, raw, bind_some, not_false_eq_true, if_true, lastSize_append, lastSize_cons]
      rfl

theorem ziplistResize_grow (total tail zllen : Nat) (kept : List UInt8) (extra : Nat)
    (small : ziplistHeaderSize + kept.length + extra + 1 < 2 ^ 32) (R : List UInt8) :
    ∃ J, ziplistResize junk (block total tail zllen (kept ++ R)) (ziplistHeaderSize + kept.length + extra + 1) =
        some (block (ziplistHeaderSize + kept.length + extra + 1) tail zllen (kept ++ J ++ [zipEnd])) ∧
      J.length = extra := by
  obtain ⟨init, resized, length, same⟩ := ziplistResize_block junk total tail zllen (kept ++ R)
    (show ziplistHeaderSize < ziplistHeaderSize + kept.length + extra + 1 by omega) small
  have prefixed := same kept.length (by simp) (by omega)
  rw [take_left] at prefixed
  refine ⟨init.drop kept.length, ?_, by rw [length_drop]; omega⟩
  rw [resized]
  congr 3
  rw [← prefixed, length_take, Nat.min_eq_left (by omega), take_append_drop]

/-- The room for the new entry, with the next entry `m` behind it. The bytes `Z` at
the end are what the resize has added, and the end mark. -/
theorem makeGap_spec (zllen : Nat) {q r total : Nat} (X : List UInt8) {Z : List UInt8} (boundR : r < 2 ^ 32)
    (ok : BodyOk m.body) (chain : ChainOk m.size ms) (less : total < 2 ^ 32)
    (fits : ziplistHeaderSize + X.length + m.size + sizes ms + 1 < 2 ^ 32)
    (whole : total = ziplistHeaderSize + X.length + r + ({ m with wide := needsWide r } : Node).size + sizes ms + 1)
    (room : m.size + Z.length = r + ({ m with wide := needsWide r } : Node).size + 1)
    (ended : (field m.wide q ++ m.body ++ encodeFrom m.size ms ++ Z).getLast? = some zipEnd) :
    ∃ G, G.length = r ∧ ziplistMakeGap (block total (ziplistHeaderSize + X.length + sizes (m :: ms).dropLast) zllen
          (X ++ (field m.wide q ++ m.body ++ encodeFrom m.size ms ++ Z)))
          (ziplistHeaderSize + X.length + m.size + sizes ms + 1) (ziplistHeaderSize + X.length) r
          ((fieldSize (needsWide r) : Int) - fieldSize m.wide) =
        some (atNode zllen (X ++ G) r { m with wide := needsWide r } m.size ms) := by
  obtain ⟨m', changed⟩ : ∃ m' : Node, m' = { m with wide := needsWide r } := ⟨_, rfl⟩
  have width : m'.wide = needsWide r := by rw [changed]
  have body : m'.body = m.body := by rw [changed]
  have sizeOfNew : m'.size = fieldSize m'.wide + m.body.length := by rw [Node.size, body]
  have sizeOfOld : m.size = fieldSize m.wide + m.body.length := rfl
  have widthBound : ∀ wide, fieldSize wide = 1 ∨ fieldSize wide = 5 := by decide
  have bounds := widthBound m.wide
  have bounds' := widthBound m'.wide
  rw [← changed] at whole room ⊢
  rw [← width]
  obtain ⟨tail, tailIs⟩ : ∃ tail, tail = ziplistHeaderSize + X.length + sizes (m :: ms).dropLast := ⟨_, rfl⟩
  obtain ⟨H, header⟩ : ∃ H, H = leBytes 4 total ++ leBytes 4 tail ++ leBytes 2 zllen := ⟨_, rfl⟩
  have lengthH : H.length = ziplistHeaderSize := by simp [header, ziplistHeaderSize]
  have asBlock : ∀ rest, H ++ rest = block total tail zllen rest := fun rest => by rw [header, block]
  -- the new field ends where the old one ended
  obtain ⟨P, O, split, lengthO⟩ : ∃ P O, H ++ X ++ field m.wide q = P ++ O ∧ O.length = fieldSize m'.wide := by
    refine ⟨_, _, (take_append_drop (H.length + X.length + fieldSize m.wide - fieldSize m'.wide) _).symm, ?_⟩
    have : ziplistHeaderSize = 10 := rfl
    simp only [length_drop, length_append, field_length]
    omega
  have lengthP : P.length + fieldSize m'.wide = ziplistHeaderSize + X.length + fieldSize m.wide := by
    have same := congrArg List.length split
    simp only [length_append, field_length] at same
    omega
  -- the room for the new entry is in front of what is moved
  obtain ⟨G, target, place, lengthG, lengthTarget⟩ : ∃ G target, field m.wide q ++ m.body ++ encodeFrom m.size ms ++ Z =
      G ++ target ++ [zipEnd] ∧ G.length = r ∧ target.length = m'.size + sizes ms := by
    obtain ⟨Y, bytes⟩ := getLast?_eq_some_iff.mp ended
    have length := congrArg List.length bytes
    simp only [length_append, field_length, encodeFrom_length, length_singleton] at length
    refine ⟨Y.take r, Y.drop r, by rw [bytes, take_append_drop], ?_, ?_⟩
    · rw [length_take]
      omega
    · rw [length_drop]
      omega
  refine ⟨G, lengthG, ?_⟩
  have moved : memmove (block total tail zllen (X ++ (field m.wide q ++ m.body ++ encodeFrom m.size ms ++ Z)))
      (ziplistHeaderSize + X.length + r) P.length (m'.size + sizes ms) =
        some (block total tail zllen (X ++ G ++ O ++ m.body ++ encodeFrom m.size ms ++ [zipEnd])) := by
    have cut : P ++ (O ++ m.body ++ encodeFrom m.size ms) ++ Z = H ++ X ++ G ++ target ++ [zipEnd] := by
      rw [append_assoc (H ++ X), append_assoc (H ++ X), ← place]
      simp only [append_assoc, ← append_assoc P O, ← split]
    have shifted := memmove_append cut rfl rfl rfl
      (by simp only [length_append, lengthTarget, lengthO, encodeFrom_length, sizeOfNew])
    rw [place, ← asBlock, ← asBlock]
    simp only [length_append, lengthG, lengthO, encodeFrom_length, lengthH, append_assoc] at shifted ⊢
    rw [Nat.add_assoc ziplistHeaderSize]
    have count : fieldSize m'.wide + (m.body.length + sizes ms) = m'.size + sizes ms := by omega
    rw [count] at shifted
    exact shifted
  have stored : store (X ++ G ++ O ++ m.body ++ encodeFrom m.size ms ++ [zipEnd]) (X ++ G).length (field m'.wide r) =
      some (X ++ G ++ field m'.wide r ++ m.body ++ encodeFrom m.size ms ++ [zipEnd]) := by
    rw [append_assoc _ m.body, append_assoc _ (m.body ++ encodeFrom m.size ms), store_append rfl (by rw [field_length, lengthO])]
    simp only [append_assoc]
  have back : moveBack (ziplistHeaderSize + X.length) ((fieldSize m'.wide : Int) - fieldSize m.wide) = some P.length := by
    rw [moveBack, if_pos (by omega)]
    congr 1
    omega
  have count : ((ziplistHeaderSize + X.length + m.size + sizes ms + 1 : Nat) : Int) - (ziplistHeaderSize + X.length : Nat) -
      1 + ((fieldSize m'.wide : Int) - fieldSize m.wide) = (m'.size + sizes ms : Nat) := by omega
  have natural : ¬ ((m'.size + sizes ms : Nat) : Int) < 0 := by omega
  have lower := sizes_dropLast_le (m :: ms)
  rw [sizes_cons] at lower
  obtain ⟨start, startIs⟩ : ∃ start : Int, start = (tail : Int) + r := ⟨_, rfl⟩
  obtain ⟨e, b, entry, head, size, _, last⟩ := read_after total (start % 2 ^ 32).toNat zllen (X ++ G) m'
    (by simp [width, needsWide]) boundR (by rwa [body]) (by omega) chain
  have final := shift_tail m ms m'.wide
    (show start = (ziplistHeaderSize + X.length + r + sizes (m :: ms).dropLast : Nat) by omega) last
    (by simp only [Node.size]; omega)
  have position : ziplistHeaderSize + X.length + (r + e.headersize + e.len) = ziplistHeaderSize + (X ++ G).length + m'.size := by
    rw [length_append]
    omega
  rw [body, length_append, lengthG] at entry
  rw [body, ← position] at head
  rw [length_append, lengthG] at stored
  rw [Nat.add_assoc] at moved
  have noWrap : r % 2 ^ 32 = r := Nat.mod_eq_of_lt boundR
  have result : atNode zllen (X ++ G) r m' m.size ms = block total
      (ziplistHeaderSize + X.length + r + sizes (m' :: ms).dropLast) zllen
      (X ++ G ++ field m'.wide r ++ m.body ++ encodeFrom m.size ms ++ [zipEnd]) := by
    rw [atNode, length_append, lengthG, body, whole]
    simp only [Nat.add_assoc]
  rw [← tailIs, result]
  simp only [ziplistMakeGap, back, count, natural, Int.toNat_natCast, moved, noWrap, zipPrevEncodeLength_eq, ← width,
    Nat.add_assoc ziplistHeaderSize X.length r, block_store, stored, map_some, bind_eq_bind,
    bind_some, if_false, block_tail (show tail < 2 ^ 32 by omega), block_setTail, ← startIs, entry,
    block_tail (show (start % 2 ^ 32).toNat < 2 ^ 32 by omega), head]
  have changedSizes : sizes ({ m with wide := m'.wide } :: ms).dropLast = sizes (m' :: ms).dropLast := by
    rw [width, changed]
  rw [changedSizes] at final
  split
  next more =>
    rw [if_pos more] at final
    rw [final, Nat.add_assoc ziplistHeaderSize]
  next stop =>
    rw [if_neg stop] at final
    rw [final, Nat.add_assoc ziplistHeaderSize]

theorem image_insert (zllen : Nat) (before : List Node) (new m : Node) (ms : List Node) : image zllen (before ++ new :: m :: ms) =
      atNode zllen (encodeFrom 0 before ++ (field new.wide (lastSize 0 before) ++ new.body)) new.size m m.size ms := by
  have assoc : before ++ new :: m :: ms = (before ++ [new]) ++ m :: ms := by simp
  rw [assoc, image_split, encodeFrom_append, lastSize_append, lastSize_cons]
  simp only [encodeFrom, append_nil]
  rfl

theorem fill_gap (zllen q old : Nat) (X : List UInt8) (n : Node) (ns : List Node) {G N : List UInt8} (same : N.length = G.length) :
    store (atNode zllen (X ++ G) q n old ns) (ziplistHeaderSize + X.length) N = some (atNode zllen (X ++ N) q n old ns) := by
  have stored : store (X ++ G ++ (field n.wide q ++ n.body ++ encodeFrom old ns ++ [zipEnd])) X.length N =
      some (X ++ N ++ (field n.wide q ++ n.body ++ encodeFrom old ns ++ [zipEnd])) := store_append rfl same
  simp only [← append_assoc] at stored
  rw [atNode, block_store, stored, atNode, length_append, length_append, same]
  rfl

theorem insertRest_gap {total : Nat} {Z : List UInt8} (made : new = newNode (lastSize 0 before) s) (chain : ChainOk 0 (before ++ m :: ms))
    (less : total < 2 ^ 32) (fits : ziplistHeaderSize + sizes before + m.size + sizes ms + 1 < 2 ^ 32)
    (whole : total = ziplistHeaderSize + sizes before + new.size +
      ({ m with wide := needsWide new.size } : Node).size + sizes ms + 1)
    (room : m.size + Z.length = new.size + ({ m with wide := needsWide new.size } : Node).size + 1)
    (ended : (field m.wide (lastSize 0 before) ++ m.body ++ encodeFrom m.size ms ++ Z).getLast? = some zipEnd)
    (counts : Counts zllen (before ++ m :: ms).length) :
    ∃ zllen', Counts zllen' (before ++ new :: m :: ms).length ∧
      insertRest junk (block total (ziplistHeaderSize + sizes before + sizes (m :: ms).dropLast) zllen
          (encodeFrom 0 before ++ (field m.wide (lastSize 0 before) ++ m.body ++ encodeFrom m.size ms ++ Z)))
          (ziplistHeaderSize + sizes before + m.size + sizes ms + 1) (ziplistHeaderSize + sizes before) new.size
          ((fieldSize (needsWide new.size) : Int) - fieldSize m.wide)
          (field new.wide (lastSize 0 before) ++ zipBody s) =
        if ziplistHeaderSize + sizes (before ++ new :: relink new.size (m :: ms)) + 1 < 2 ^ 32 then
          some (image zllen' (before ++ new :: relink new.size (m :: ms)))
        else none := by
  obtain ⟨_, narrow, ok, chainAfter⟩ := chainOk_append.mp chain
  obtain ⟨m', changed⟩ : ∃ m' : Node, m' = { m with wide := needsWide new.size } := ⟨_, rfl⟩
  have width : m'.wide = needsWide new.size := by rw [changed]
  have body : m'.body = m.body := by rw [changed]
  have newBody : new.body = zipBody s := by rw [made, newNode]
  obtain ⟨G, lengthG, gap⟩ := makeGap_spec zllen (encodeFrom 0 before)
    (show new.size < 2 ^ 32 by omega) ok chainAfter less (by rwa [encodeFrom_length]) (by rwa [encodeFrom_length]) room
    ended
  obtain ⟨b, first, notEnd⟩ := field_head narrow (m.body ++ encodeFrom m.size ms ++ Z)
  have head : (block total (ziplistHeaderSize + sizes before + sizes (m :: ms).dropLast) zllen
      (encodeFrom 0 before ++ (field m.wide (lastSize 0 before) ++ m.body ++ encodeFrom m.size ms ++ Z)))[ziplistHeaderSize +
        sizes before]? = some b := by
    rw [block_get, ← encodeFrom_length 0 before, getElem?_drop_zero, drop_left]
    simpa only [append_assoc] using first
  have cascaded := cascadeUpdate_spec junk zllen m.size (encodeFrom 0 before ++ G) m' ms (q := new.size)
    (by simp [width, needsWide]) (by omega) (by rwa [body])
    (by omega) chainAfter (by rw [length_append, lengthG, encodeFrom_length, changed]; omega)
  have place : ziplistHeaderSize + (encodeFrom 0 before ++ G).length = ziplistHeaderSize + sizes before + new.size := by
    rw [length_append, lengthG, encodeFrom_length, Nat.add_assoc]
  rw [place] at cascaded
  rw [encodeFrom_length, ← changed] at gap
  have updated : (if (fieldSize (needsWide new.size) : Int) - fieldSize m.wide ≠ 0 then
        ziplistCascadeUpdate junk (atNode zllen (encodeFrom 0 before ++ G) new.size m' m.size ms)
          (ziplistHeaderSize + sizes before + new.size)
      else some (atNode zllen (encodeFrom 0 before ++ G) new.size m' m.size ms)) =
      if ziplistHeaderSize + sizes before + new.size + m'.size + sizes (cascade m'.size ms) + 1 < 2 ^ 32 then
        some (atNode zllen (encodeFrom 0 before ++ G) new.size m' m'.size (cascade m'.size ms))
      else none := by
    split
    next => exact cascaded
    next same =>
      have sizeOfNew : m'.size = fieldSize (needsWide new.size) + m.body.length := by rw [Node.size, body, width]
      have sizeOfOld : m.size = fieldSize m.wide + m.body.length := rfl
      have unchanged : m'.size = m.size := by omega
      rw [unchanged, cascade_same chainAfter, if_pos (by rw [changed] at unchanged; omega)]
  have size : (field new.wide (lastSize 0 before) ++ zipBody s).length = G.length := by
    rw [length_append, field_length, lengthG, Node.size, newBody]
  have filled := fill_gap zllen new.size m'.size (encodeFrom 0 before) m' (cascade m'.size ms) size
  rw [encodeFrom_length] at filled
  obtain ⟨zllen', incr, counts'⟩ := incrLength_node new.size m'.size
    (encodeFrom 0 before ++ (field new.wide (lastSize 0 before) ++ zipBody s)) m' (cascade m'.size ms) counts (by omega) (Int.le_refl 1)
  refine ⟨zllen', ?_, ?_⟩
  · have length : (((before ++ m :: ms).length : Int) + 1).toNat = (before ++ new :: m :: ms).length := by
      simp only [length_append, length_cons]
      omega
    rwa [length] at counts'
  have total' : ziplistHeaderSize + sizes (before ++ new :: m' :: cascade m'.size ms) + 1 =
      ziplistHeaderSize + sizes before + new.size + m'.size + sizes (cascade m'.size ms) + 1 := by
    simp only [sizes_append, sizes_cons]
    omega
  rw [relink, ← changed, total', image_insert, newBody]
  simp only [insertRest, head, notEnd, gap, bind_eq_bind, bind_some, ne_eq, not_false_eq_true, if_true]
  calc
    _ = Option.bind (if (fieldSize (needsWide new.size) : Int) - fieldSize m.wide ≠ 0 then
            ziplistCascadeUpdate junk (atNode zllen (encodeFrom 0 before ++ G) new.size m' m.size ms)
              (ziplistHeaderSize + sizes before + new.size)
          else some (atNode zllen (encodeFrom 0 before ++ G) new.size m' m.size ms)) fun zl =>
        (store zl (ziplistHeaderSize + sizes before) (field new.wide (lastSize 0 before) ++ zipBody s)).bind fun zl =>
          ziplistIncrLength zl 1 := by
      split
      next => rfl
      next => rfl
    _ = _ := by
      rw [updated]
      split
      next => simp only [bind_some, filled, incr]
      next => rfl

theorem insert_start_end (zllen : Nat) (made : new = newNode (lastSize 0 before) s) (chain : ChainOk 0 before)
    (small : ziplistHeaderSize + sizes before + 1 < 2 ^ 32) :
    ziplistInsert junk (image zllen before) (ziplistHeaderSize + sizes before) s = (ziplistResize junk (image zllen before)
        (((ziplistHeaderSize + sizes before + 1 + new.size : Nat) + (0 : Int)) % 2 ^ 64).toNat).bind fun zl =>
        insertRest junk zl (ziplistHeaderSize + sizes before + 1) (ziplistHeaderSize + sizes before) new.size 0
          (field new.wide (lastSize 0 before) ++ zipBody s) := by
  have prevlen := insertPrevlen_spec zllen before [] (by rwa [append_nil]) (by rwa [append_nil])
  rw [append_nil] at prevlen
  rw [made]
  exact ziplistInsert_eq junk (block_bytes small ..) prevlen (image_at_end zllen before) (if_neg (not_not.mpr rfl))

theorem insert_end (made : new = newNode (lastSize 0 before) s) (valid : Represents zl before)
    (fits : ziplistHeaderSize + sizes (before ++ [new]) + 1 < 2 ^ 32) :
    ∃ zllen, Counts zllen (before ++ [new]).length ∧
      ziplistInsert junk zl (ziplistHeaderSize + sizes before) s = some (image zllen (before ++ [new])) := by
  obtain ⟨chain, small, zllen, rfl, counts⟩ := valid
  have body : new.body = zipBody s := by rw [made, newNode]
  have positive := new.size_pos
  simp only [sizes_append, sizes_cons, sizes_nil] at fits
  have start := insert_start_end junk zllen made chain small
  have size : ((((ziplistHeaderSize + sizes before + 1 + new.size : Nat) : Int) + 0) % 2 ^ 64).toNat =
      ziplistHeaderSize + (encodeFrom 0 before ++ [zipEnd]).length + (new.size - 1) + 1 := by
    rw [length_append, encodeFrom_length, length_singleton]
    omega
  obtain ⟨J, resized, lengthJ⟩ := ziplistResize_grow junk (ziplistHeaderSize + sizes before + 1)
    (ziplistHeaderSize + sizes before.dropLast) zllen (encodeFrom 0 before ++ [zipEnd]) (new.size - 1)
    (by rw [length_append, encodeFrom_length, length_singleton]; omega) []
  rw [← size, append_nil] at resized
  have total : ziplistHeaderSize + (encodeFrom 0 before ++ [zipEnd]).length + (new.size - 1) + 1 =
      ziplistHeaderSize + (sizes before + new.size) + 1 := by
    rw [length_append, encodeFrom_length, length_singleton]
    omega
  have head : ∀ total tail, (block total tail zllen (encodeFrom 0 before ++ [zipEnd] ++ J ++ [zipEnd]))[ziplistHeaderSize +
      sizes before]? = some zipEnd := by
    intro total tail
    rw [block_get, ← encodeFrom_length 0 before, getElem?_drop_zero, append_assoc, append_assoc, drop_left]
    rfl
  have stored : store (encodeFrom 0 before ++ [zipEnd] ++ J ++ [zipEnd]) (sizes before)
      (field new.wide (lastSize 0 before) ++ zipBody s) = some (encodeFrom 0 (before ++ [new]) ++ [zipEnd]) := by
    have filled : store (encodeFrom 0 before ++ ([zipEnd] ++ J) ++ [zipEnd]) (sizes before)
        (field new.wide (lastSize 0 before) ++ zipBody s) = _ :=
      store_append (encodeFrom_length 0 before).symm
        (by rw [length_append, field_length, length_append, lengthJ, length_singleton, ← body, ← Node.size]; omega)
    simp only [← append_assoc] at filled ⊢
    rw [filled, encodeFrom_append]
    simp only [encodeFrom, body, append_nil, append_assoc]
  have newTail : (((ziplistHeaderSize + sizes before : Nat) : Int) % 2 ^ 32).toNat = ziplistHeaderSize + sizes before := by
    omega
  obtain ⟨zllen', incr, counts'⟩ := incrLength_block (ziplistHeaderSize + (sizes before + new.size) + 1)
    (ziplistHeaderSize + sizes before) (encodeFrom 0 (before ++ [new]) ++ [zipEnd]) counts (by omega) (Int.le_refl 1)
  refine ⟨zllen', ?_, ?_⟩
  · have length : ((before.length : Int) + 1).toNat = (before ++ [new]).length := by
      rw [length_append, length_singleton]
      omega
    rwa [length] at counts'
  · rw [start, image, resized, size, total]
    simp only [insertRest, head, block_setTail, newTail, block_store, stored, incr, map_some,
      bind_eq_bind, bind_some, ne_eq, not_true_eq_false, if_false]
    rw [image, dropLast_concat]
    simp only [sizes_append, sizes_cons, sizes_nil, Nat.add_zero]

theorem image_gap (zllen : Nat) (before : List Node) (m : Node) (ms : List Node) :
    image zllen (before ++ m :: ms) = block (ziplistHeaderSize + sizes before + m.size + sizes ms + 1)
      (ziplistHeaderSize + sizes before + sizes (m :: ms).dropLast) zllen
      (encodeFrom 0 before ++ (field m.wide (lastSize 0 before) ++ m.body ++ encodeFrom m.size ms) ++ [zipEnd]) := by
  rw [image_split, atNode, encodeFrom_length]
  simp only [append_assoc]

theorem insert_start (zllen : Nat) (made : new = newNode (lastSize 0 before) s)
    (chain : ChainOk 0 (before ++ m :: ms)) (fits : ziplistHeaderSize + sizes (before ++ m :: ms) + 1 < 2 ^ 32) :
    ziplistInsert junk (image zllen (before ++ m :: ms)) (ziplistHeaderSize + sizes before) s =
      (ziplistResize junk (image zllen (before ++ m :: ms))
        (((ziplistHeaderSize + sizes before + m.size + sizes ms + 1 + new.size : Nat) +
          ((fieldSize (needsWide (new.size % 2 ^ 32)) : Int) - fieldSize m.wide)) % 2 ^ 64).toNat).bind fun zl =>
        insertRest junk zl (ziplistHeaderSize + sizes before + m.size + sizes ms + 1) (ziplistHeaderSize + sizes before)
          new.size ((fieldSize (needsWide (new.size % 2 ^ 32)) : Int) - fieldSize m.wide)
          (field new.wide (lastSize 0 before) ++ zipBody s) := by
  obtain ⟨_, narrow, ok, _⟩ := chainOk_append.mp chain
  have prevlen := insertPrevlen_spec zllen before (m :: ms) chain fits
  have lower := lastSize_le 0 before
  simp only [sizes_append, sizes_cons] at fits
  have bytes : ziplistBytes (image zllen (before ++ m :: ms)) = some (ziplistHeaderSize + sizes before + m.size + sizes ms + 1) := by
    rw [image_gap]
    exact block_bytes (by omega) ..
  have cut : (image zllen (before ++ m :: ms)).drop (ziplistHeaderSize + sizes before) =
      field m.wide (lastSize 0 before) ++ (m.body ++ encodeFrom m.size ms ++ [zipEnd]) := by
    rw [image_gap, block_drop, ← encodeFrom_length 0 before]
    simp only [append_assoc, drop_left]
  obtain ⟨b, head, notEnd⟩ := field_head narrow (m.body ++ encodeFrom m.size ms ++ [zipEnd])
  rw [← cut, ← getElem?_drop_zero] at head
  have read := (zipDecodePrevlen_field narrow (show lastSize 0 before < 2 ^ 32 by omega)
    (m.body ++ encodeFrom m.size ms ++ [zipEnd])).2
  have diff : (if b ≠ zipEnd then zipPrevLenByteDiff ((image zllen (before ++ m :: ms)).drop (ziplistHeaderSize + sizes before))
      ((newNode (lastSize 0 before) s).size % 2 ^ 32) else some 0) =
        some ((fieldSize (needsWide (new.size % 2 ^ 32)) : Int) - fieldSize m.wide) := by
    rw [if_pos notEnd, cut, zipPrevLenByteDiff, read, zipPrevEncodeLength_eq, field_length, made]
    rfl
  have started := ziplistInsert_eq junk bytes prevlen head diff
  rw [started, made]
  rfl

theorem insert_gap
    (made : new = newNode (lastSize 0 before) s) (valid : Represents zl (before ++ m :: ms))
    (enough : m.wide = true → 4 ≤ new.size)
    (less : ziplistHeaderSize + sizes before + new.size + ({ m with wide := needsWide new.size } : Node).size +
      sizes ms + 1 < 2 ^ 32) :
    ∃ zllen, Counts zllen (before ++ new :: m :: ms).length ∧ ziplistInsert junk zl (ziplistHeaderSize + sizes before) s =
        if ziplistHeaderSize + sizes (before ++ new :: relink new.size (m :: ms)) + 1 < 2 ^ 32 then
          some (image zllen (before ++ new :: relink new.size (m :: ms)))
        else none := by
  obtain ⟨chain, fits, zllen, rfl, counts⟩ := valid
  have started := insert_start junk zllen made chain fits
  simp only [sizes_append, sizes_cons] at fits
  obtain ⟨m', changed⟩ : ∃ m' : Node, m' = { m with wide := needsWide new.size } := ⟨_, rfl⟩
  have width : m'.wide = needsWide new.size := by rw [changed]
  have sizeOfNew : m'.size = fieldSize m'.wide + m.body.length := by rw [Node.size, changed]
  have sizeOfOld : m.size = fieldSize m.wide + m.body.length := rfl
  have enough' : fieldSize m.wide ≤ new.size + fieldSize m'.wide := by
    have widthBound : ∀ wide, fieldSize wide = 1 ∨ fieldSize wide = 5 := by decide
    have bounds' := widthBound m'.wide
    cases wide : m.wide with
    | true =>
      have := enough wide
      rw [fieldSize, if_pos rfl]
      omega
    | false =>
      rw [fieldSize, if_neg Bool.false_ne_true]
      omega
  rw [← changed] at less
  rw [Nat.mod_eq_of_lt (show new.size < 2 ^ 32 by omega)] at started
  have kept : ziplistHeaderSize + (encodeFrom 0 before ++ (field m.wide (lastSize 0 before) ++ m.body ++
      encodeFrom m.size ms)).length + (new.size + m'.size - m.size) + 1 =
        ziplistHeaderSize + sizes before + new.size + m'.size + sizes ms + 1 := by
    simp only [length_append, field_length, encodeFrom_length]
    omega
  have size : (((ziplistHeaderSize + sizes before + m.size + sizes ms + 1 + new.size : Nat) +
      ((fieldSize (needsWide new.size) : Int) - fieldSize m.wide)) % 2 ^ 64).toNat =
        ziplistHeaderSize + sizes before + new.size + m'.size + sizes ms + 1 := by
    rw [← width]
    omega
  obtain ⟨J, resized, lengthJ⟩ := ziplistResize_grow junk
    (ziplistHeaderSize + sizes before + m.size + sizes ms + 1)
    (ziplistHeaderSize + sizes before + sizes (m :: ms).dropLast) zllen
    (encodeFrom 0 before ++ (field m.wide (lastSize 0 before) ++ m.body ++ encodeFrom m.size ms))
    (new.size + m'.size - m.size) (by omega) [zipEnd]
  rw [kept, ← image_gap] at resized
  obtain ⟨zllen', counts', rest⟩ := insertRest_gap junk (Z := J ++ [zipEnd]) made chain less (by omega)
    (by rw [← changed]) (by rw [← changed, length_append, lengthJ, length_singleton]; omega)
    (by rw [← append_assoc, getLast?_concat]) counts
  refine ⟨zllen', counts', ?_⟩
  rw [started, size, resized, bind_some, ← rest]
  simp only [append_assoc]

def overwriteLast : List Node → List Node
  | [] => []
  | [n] => [{ n with body := n.body.dropLast ++ [zipEnd] }]
  | n :: m :: ms => n :: overwriteLast (m :: ms)

def Stored (nodes : List Node) : Prop := ∀ n ∈ nodes, ∃ s : List UInt8, s.length < 2 ^ 32 ∧ n.body = zipBody s

theorem stored_of_bodies (same : ns.map Node.body = ms.map Node.body) (stored : Stored ms) : Stored ns := by
  intro n member
  have body : n.body ∈ ms.map Node.body := by
    rw [← same]
    exact List.mem_map_of_mem member
  obtain ⟨m, inside, equal⟩ := List.mem_map.mp body
  rw [← equal]
  exact stored m inside

theorem zipBody_nonempty (s : List UInt8) : zipBody s ≠ [] := by
  intro empty
  obtain ⟨_, body⟩ | ⟨value, encoding, payload, _, _, body⟩ := zipBody_cases s
  · have positive := zipEncodeLength_pos 0 s.length
    rw [empty] at body
    rw [(append_eq_nil_iff.mp body.symm).1] at positive
    cases positive
  · rw [empty] at body
    cases body

theorem overwriteLast_concat (init : List Node) (n : Node) :
    overwriteLast (init ++ [n]) = init ++ [{ n with body := n.body.dropLast ++ [zipEnd] }] := by
  induction init with
  | nil => rfl
  | cons k ks ih =>
    cases ks with
    | nil => rfl
    | cons l ls => rw [cons_append, cons_append, overwriteLast, ← cons_append, ih]; rfl

theorem overwritten_size {n : Node} (nonempty : n.body ≠ []) : ({ n with body := n.body.dropLast ++ [zipEnd] } : Node).size = n.size := by
  have positive := length_pos_iff.mpr nonempty
  simp only [Node.size, length_append, length_dropLast, length_singleton]
  omega

theorem encodeFrom_overwriteLast (prev : Nat) (stored : Stored nodes) (nonempty : nodes ≠ []) :
    encodeFrom prev (overwriteLast nodes) = (encodeFrom prev nodes).dropLast ++ [zipEnd] := by
  obtain ⟨init, n, rfl⟩ : ∃ init n, nodes = init ++ [n] := ⟨nodes.dropLast, nodes.getLast nonempty, (dropLast_concat_getLast nonempty).symm⟩
  obtain ⟨s, _, body⟩ := stored n (by simp)
  have more : n.body ≠ [] := by
    rw [body]
    exact zipBody_nonempty s
  rw [overwriteLast_concat, encodeFrom_append, encodeFrom_append]
  simp only [encodeFrom, append_nil]
  rw [← append_assoc (encodeFrom prev init) _ n.body, dropLast_append_of_ne_nil more]
  simp only [append_assoc]

theorem chainOk_overwriteLast (stored : Stored nodes) (chain : ChainOk prev nodes) : ChainOk prev (overwriteLast nodes) := by
  cases nodes.eq_nil_or_concat with
  | inl empty =>
    subst empty
    exact chain
  | inr more =>
    obtain ⟨init, n, rfl⟩ := more
    rw [concat_eq_append] at stored chain ⊢
    obtain ⟨s, bound, body⟩ := stored n (by simp)
    obtain ⟨left, narrow, _, _⟩ := chainOk_append.mp chain
    rw [overwriteLast_concat]
    refine chainOk_append.mpr ⟨left, narrow, ?_, trivial⟩
    rw [body]
    exact zipBody_overwrite bound

theorem overwriteLast_cons (n : Node) (nonempty : ns ≠ []) : overwriteLast (n :: ns) = n :: overwriteLast ns := by
  cases ns with
  | nil => cases nonempty rfl
  | cons m ms => rfl

theorem overwriteLast_append (before : List Node) (nonempty : ns ≠ []) : overwriteLast (before ++ ns) = before ++ overwriteLast ns := by
  induction before with
  | nil => rfl
  | cons k ks ih =>
    rw [cons_append, overwriteLast_cons k (by simp [nonempty]), ih]
    rfl

theorem cascade_overwriteLast (size : Nat) (ns : List Node) : cascade size (overwriteLast ns) = overwriteLast (cascade size ns) := by
  induction ns generalizing size with
  | nil => rfl
  | cons n ns ih =>
    cases ns with
    | nil =>
      simp only [overwriteLast, cascade]
      split <;> rfl
    | cons m ms =>
      rw [overwriteLast_cons n (cons_ne_nil m ms), cascade, cascade, ih]
      split
      next =>
        have more : cascade (n.size + 4) (m :: ms) ≠ [] := by
          rw [cascade]
          split <;> exact cons_ne_nil _ _
        rw [overwriteLast_cons _ more]
      next => rfl

theorem relink_overwriteLast (prev : Nat) (ns : List Node) : relink prev (overwriteLast ns) = overwriteLast (relink prev ns) := by
  cases ns with
  | nil => rfl
  | cons n ns =>
    cases ns with
    | nil => rfl
    | cons m ms =>
      rw [overwriteLast_cons n (cons_ne_nil m ms), relink, relink, cascade_overwriteLast]
      have more : cascade ({ n with wide := needsWide prev } : Node).size (m :: ms) ≠ [] := by
        rw [cascade]
        split <;> exact cons_ne_nil _ _
      rw [overwriteLast_cons _ more]

theorem sizes_overwriteLast (stored : Stored ns) :
    sizes (overwriteLast ns) = sizes ns ∧ sizes (overwriteLast ns).dropLast = sizes ns.dropLast := by
  cases ns.eq_nil_or_concat with
  | inl empty =>
    subst empty
    exact ⟨rfl, rfl⟩
  | inr more =>
    obtain ⟨init, n, rfl⟩ := more
    rw [concat_eq_append] at stored ⊢
    obtain ⟨s, _, body⟩ := stored n (by simp)
    have nonempty : n.body ≠ [] := by
      rw [body]
      exact zipBody_nonempty s
    rw [overwriteLast_concat]
    simp only [sizes_append, sizes_cons, overwritten_size nonempty, dropLast_concat, and_self]

theorem overwriteLast_length (nodes : List Node) : (overwriteLast nodes).length = nodes.length := by
  cases nodes.eq_nil_or_concat with
  | inl empty =>
    subst empty
    rfl
  | inr more =>
    obtain ⟨init, n, rfl⟩ := more
    rw [concat_eq_append, overwriteLast_concat, length_append, length_append]
    rfl

theorem overwriteLast_head (stored : Stored (m :: ms)) :
    ∃ m' ms', overwriteLast (m :: ms) = m' :: ms' ∧ m'.wide = m.wide ∧ m'.size = m.size := by
  cases ms with
  | nil =>
    obtain ⟨s, _, body⟩ := stored m (by simp)
    have nonempty : m.body ≠ [] := by
      rw [body]
      exact zipBody_nonempty s
    exact ⟨_, _, rfl, rfl, overwritten_size nonempty⟩
  | cons k ks => exact ⟨_, _, rfl, rfl, rfl⟩

/-- The insertion of three bytes in front of a wide field: the block shrinks by a byte. -/
theorem insert_cut (made : new = newNode (lastSize 0 before) s) (valid : Represents zl (before ++ m :: ms))
    (stored : Stored (m :: ms)) (wide : m.wide = true) (three : new.size = 3) :
    ∃ zllen, Counts zllen (before ++ new :: m :: ms).length ∧ ziplistInsert junk zl (ziplistHeaderSize + sizes before) s =
        if ziplistHeaderSize + sizes (before ++ new :: relink new.size (m :: ms)) + 1 < 2 ^ 32 then
          some (image zllen (overwriteLast (before ++ new :: relink new.size (m :: ms))))
        else none := by
  obtain ⟨chain, fits, zllen, rfl, counts⟩ := valid
  have started := insert_start junk zllen made chain fits
  simp only [sizes_append, sizes_cons] at fits
  obtain ⟨left, right⟩ := chainOk_append.mp chain
  have chain' := chainOk_overwriteLast stored right
  obtain ⟨same, sameTail⟩ := sizes_overwriteLast stored
  have bytes := encodeFrom_overwriteLast (lastSize 0 before) stored (cons_ne_nil m ms)
  obtain ⟨m', ms', split, width, size⟩ := overwriteLast_head stored
  rw [split] at chain' same sameTail bytes
  have sameRest : sizes ms' = sizes ms := by
    rw [sizes_cons, sizes_cons, size] at same
    omega
  have thin : needsWide new.size = false := by rw [three]; rfl
  have boundary : fieldSize (needsWide new.size) = 1 ∧ fieldSize m.wide = 5 := by
    rw [thin, wide]
    exact ⟨rfl, rfl⟩
  have shrunk : ({ m' with wide := needsWide new.size } : Node).size + 4 = m.size := by
    have narrower : ({ m' with wide := needsWide new.size } : Node).size = fieldSize (needsWide new.size) + m'.body.length := rfl
    have wider : m'.size = fieldSize m'.wide + m'.body.length := rfl
    rw [width] at wider
    omega
  have nonempty : field m.wide (lastSize 0 before) ++ m.body ++ encodeFrom m.size ms ≠ [] := by
    rw [field, if_pos wide]
    simp
  rw [Nat.mod_eq_of_lt (show new.size < 2 ^ 32 by omega)] at started
  have cut : (((ziplistHeaderSize + sizes before + m.size + sizes ms + 1 + new.size : Nat) +
      ((fieldSize (needsWide new.size) : Int) - fieldSize m.wide)) % 2 ^ 64).toNat = ziplistHeaderSize +
        (encodeFrom 0 before ++ (field m.wide (lastSize 0 before) ++ m.body ++ encodeFrom m.size ms).dropLast).length + 1 := by
    have sizeOfOld : m.size = fieldSize m.wide + m.body.length := rfl
    simp only [length_append, length_dropLast, field_length, encodeFrom_length]
    omega
  have resized := ziplistResize_keep junk (ziplistHeaderSize + sizes before + m.size + sizes ms + 1)
    (ziplistHeaderSize + sizes before + sizes (m :: ms).dropLast) zllen
    (encodeFrom 0 before ++ (field m.wide (lastSize 0 before) ++ m.body ++ encodeFrom m.size ms).dropLast)
    ([(field m.wide (lastSize 0 before) ++ m.body ++ encodeFrom m.size ms).getLast nonempty] ++ [zipEnd])
    (by rw [← cut]; omega)
  rw [append_assoc (encodeFrom 0 before), ← append_assoc _ _ [zipEnd], dropLast_concat_getLast nonempty,
    ← append_assoc, ← image_gap, ← cut] at resized
  have lastByte : (field m.wide (lastSize 0 before) ++ m.body ++ encodeFrom m.size ms).dropLast ++ [zipEnd] =
      field m'.wide (lastSize 0 before) ++ m'.body ++ encodeFrom m'.size ms' := bytes.symm
  have length : (before ++ m' :: ms').length = (before ++ m :: ms).length := by
    rw [length_append, ← split, overwriteLast_length, ← length_append]
  have total : (((ziplistHeaderSize + sizes before + m.size + sizes ms + 1 + new.size : Nat) +
      ((fieldSize (needsWide new.size) : Int) - fieldSize m.wide)) % 2 ^ 64).toNat =
      ziplistHeaderSize + sizes before + new.size + ({ m' with wide := needsWide new.size } : Node).size + sizes ms' + 1 := by
    omega
  obtain ⟨zllen', counted, rest⟩ := insertRest_gap junk (Z := []) made (chainOk_append.mpr ⟨left, chain'⟩)
    (by omega) (show ziplistHeaderSize + sizes before + m'.size + sizes ms' + 1 < 2 ^ 32 by omega) total
    (by rw [length_nil]; omega) (by rw [append_nil, ← lastByte, getLast?_concat]) (by rwa [length])
  have more : relink new.size (m :: ms) ≠ [] := cons_ne_nil _ _
  have after : before ++ new :: relink new.size (m' :: ms') = overwriteLast (before ++ new :: relink new.size (m :: ms)) := by
    rw [overwriteLast_append before (cons_ne_nil _ _), overwriteLast_cons new more, ← relink_overwriteLast, split]
  have sizeAfter : sizes (overwriteLast (before ++ new :: relink new.size (m :: ms))) = sizes (before ++ new :: relink new.size (m :: ms)) := by
    rw [overwriteLast_append before (cons_ne_nil _ _), overwriteLast_cons new more]
    simp only [sizes_append, sizes_cons, (sizes_overwriteLast (stored_of_bodies (relink_bodies _ _) stored)).1]
  refine ⟨zllen', ?_, ?_⟩
  · have longer : (before ++ new :: m' :: ms').length = (before ++ new :: m :: ms).length := by
      simp only [length_append, length_cons] at length ⊢
      omega
    rwa [longer] at counted
  · rw [after, sameTail, append_nil, ← lastByte, width, size, sameRest, sizeAfter] at rest
    rw [started, resized, bind_some, ← rest, append_assoc]

theorem ziplistResize_length {zl' : List UInt8} {len : Nat} (resized : ziplistResize junk zl len = some zl') : zl'.length = len % 2 ^ 32 := by
  simp only [ziplistResize, bind_eq_bind, bind_eq_some_iff] at resized
  obtain ⟨_, first, second⟩ := resized
  rw [store_length second, store_length first, realloc_length]

theorem memmove_target {block : List UInt8} {dst src n : Nat} (outside : block.length < dst) : memmove block dst src n = none := by
  unfold memmove
  split
  · exact store_none (by omega)
  · rfl

theorem insertRest_none {bytes : List UInt8} {curlen p reqlen : Nat} (outside : zl.length < p + reqlen)
    (size : bytes.length = reqlen) : insertRest junk zl curlen p reqlen nextdiff bytes = none := by
  have gap : ziplistMakeGap zl curlen p reqlen nextdiff = none := by
    simp only [ziplistMakeGap, memmove_target outside, bind_eq_bind, bind_none]
    cases moveBack p nextdiff with
    | none => rfl
    | some src =>
      simp only [bind_some]
      split <;> rfl
  simp only [insertRest, gap, bind_eq_bind]
  cases zl[p]? with
  | none => rfl
  | some b =>
    simp only [bind_some]
    split
    · rfl
    · cases stored : setTailOffset zl p with
      | none => rfl
      | some zl' =>
        have length : zl'.length = zl.length := store_length stored
        have past : zl'[p + reqlen]? = none := getElem?_eq_none (by omega)
        have full : store zl' p bytes = none := store_none (by omega)
        simp only [bind_some]
        split
        · simp only [ziplistCascadeUpdate, ziplistCascadeLoop, past, bind_eq_bind, bind_none]
          cases ziplistBytes zl' <;> rfl
        · rw [full]
          rfl

theorem insert_wraps {bytes : List UInt8} {curlen p reqlen : Nat} (header : 4 < p)
    (bound : curlen < 2 ^ 32) (large : 2 ^ 32 ≤ (curlen + reqlen : Nat) + nextdiff) (moderate : reqlen < 2 ^ 33)
    (width : nextdiff ≤ 4) (size : bytes.length = reqlen) :
    ((ziplistResize junk zl (((curlen + reqlen : Nat) + nextdiff) % 2 ^ 64).toNat).bind fun zl =>
      insertRest junk zl curlen p reqlen nextdiff bytes) = none := by
  cases resized : ziplistResize junk zl (((curlen + reqlen : Nat) + nextdiff) % 2 ^ 64).toNat with
  | none => rfl
  | some zl' =>
    have length := ziplistResize_length junk resized
    exact insertRest_none junk (by omega) size

/-- The insertion of two bytes in front of a wide field: what is to be moved has been cut off. -/
theorem insert_outside (made : new = newNode (lastSize 0 before) s) (valid : Represents zl (before ++ m :: ms)) (wide : m.wide = true)
    (two : new.size < 3) : ziplistInsert junk zl (ziplistHeaderSize + sizes before) s = none := by
  obtain ⟨chain, fits, zllen, rfl, counts⟩ := valid
  rw [insert_start junk zllen made chain fits]
  obtain ⟨_, narrow, _, _⟩ := chainOk_append.mp chain
  simp only [sizes_append, sizes_cons] at fits
  have width : fieldSize (needsWide (new.size % 2 ^ 32)) = 1 ∧ fieldSize m.wide = 5 := by
    have thin : needsWide (new.size % 2 ^ 32) = false := by
      rw [needsWide, decide_eq_false_iff_not, zipBiglen]
      omega
    rw [thin, wide]
    exact ⟨rfl, rfl⟩
  have positive := new.size_pos
  have sizeOfOld : m.size = fieldSize m.wide + m.body.length := rfl
  obtain ⟨diff, value⟩ : ∃ diff, diff = (fieldSize (needsWide (new.size % 2 ^ 32)) : Int) - fieldSize m.wide := ⟨_, rfl⟩
  have small : (((ziplistHeaderSize + sizes before + m.size + sizes ms + 1 + new.size : Nat) + diff) % 2 ^ 64).toNat =
      ziplistHeaderSize + sizes before + m.size + sizes ms + new.size - 3 := by omega
  obtain ⟨init, resized, length, same⟩ := ziplistResize_block junk
    (ziplistHeaderSize + sizes before + m.size + sizes ms + 1)
    (ziplistHeaderSize + sizes before + sizes (m :: ms).dropLast) zllen
    (encodeFrom 0 before ++ (field m.wide (lastSize 0 before) ++ m.body ++ encodeFrom m.size ms) ++ [zipEnd])
    (show ziplistHeaderSize < ziplistHeaderSize + sizes before + m.size + sizes ms + new.size - 3 by omega) (by omega)
  obtain ⟨b, first, notEnd⟩ := field_head narrow (m.body ++ encodeFrom m.size ms ++ [zipEnd])
  have head : (init ++ [zipEnd])[sizes before]? = some b := by
    have kept := congrArg (fun bytes => bytes[sizes before]?) (same (sizes before + 1)
      (by simp only [length_append, encodeFrom_length, field_length, length_singleton]; omega) (by omega))
    simp only [getElem?_take_of_lt (Nat.lt_succ_self _)] at kept
    rw [getElem?_append_left (by omega), kept, ← first, append_assoc, ← encodeFrom_length 0 before, getElem?_drop_zero, drop_left]
    simp only [append_assoc]
  have gap : ∀ total tail, ziplistMakeGap (block total tail zllen (init ++ [zipEnd]))
      (ziplistHeaderSize + sizes before + m.size + sizes ms + 1) (ziplistHeaderSize + sizes before) new.size diff = none := by
    intro total tail
    have back : moveBack (ziplistHeaderSize + sizes before) diff = some (ziplistHeaderSize + sizes before + 4) := by
      rw [moveBack, if_pos (by omega)]
      congr 1
      omega
    have count : ¬ ((ziplistHeaderSize + sizes before + m.size + sizes ms + 1 : Nat) : Int) -
        (ziplistHeaderSize + sizes before : Nat) - 1 + diff < 0 := by omega
    simp only [ziplistMakeGap, back, count, bind_eq_bind, bind_some, if_false]
    rw [memmove_none]
    · rfl
    · rw [block_length, length_append, length_singleton]
      omega
  rw [image_gap, ← value, small, resized]
  simp only [insertRest, block_get, head, notEnd, gap, bind_eq_bind, bind_some, bind_none, ne_eq, not_false_eq_true, if_true]

theorem counts_exists (count : Nat) : ∃ zllen, Counts zllen count := by
  refine ⟨min count uint16Max, ?_⟩
  unfold Counts
  omega

def insertedSize (before after : List Node) (new : Node) : Nat :=
  ziplistHeaderSize + sizes (before ++ new :: relink new.size after) + 1

def CutsNothing (zl : List UInt8) (after : List Node) (new : Node) : Prop :=
  ∀ m ∈ after.head?, m.wide = true → 4 ≤ new.size ∨ new.size = 3 ∧ zl[zl.length - 2]? = some zipEnd

theorem image_lastByte (zllen : Nat) (init : List Node) {n : Node} (nonempty : n.body ≠ []) :
    (image zllen (init ++ [n]))[(image zllen (init ++ [n])).length - 2]? = n.body.getLast? := by
  obtain ⟨body, last, split⟩ : ∃ body last, n.body = body ++ [last] := ⟨_, _, (dropLast_concat_getLast nonempty).symm⟩
  have bytes : encodeFrom 0 (init ++ [n]) ++ [zipEnd] =
      encodeFrom 0 init ++ field n.wide (lastSize 0 init) ++ body ++ ([last] ++ [zipEnd]) := by
    rw [encodeFrom_append, encodeFrom, encodeFrom, split]
    simp only [append_assoc, append_nil]
  have place : (image zllen (init ++ [n])).length - 2 = ziplistHeaderSize +
      (encodeFrom 0 init ++ field n.wide (lastSize 0 init) ++ body).length := by
    rw [image, block_length, bytes]
    simp only [length_append, length_singleton]
    omega
  rw [place, image, block_get, bytes, getElem?_drop_zero, drop_left, split, getLast?_concat]
  rfl

theorem sizes_relink_le (prev : Nat) (m : Node) (ms : List Node) :
    ({ m with wide := needsWide prev } : Node).size + sizes ms ≤ sizes (relink prev (m :: ms)) := by
  have := cascade_sizes ({ m with wide := needsWide prev } : Node).size ms
  rw [relink, sizes_cons]
  omega

theorem represents_insert {after : List Node} (made : new = newNode (lastSize 0 before) s) (valid : Represents zl (before ++ after))
    (bound : s.length < 2 ^ 32) (fits : insertedSize before after new < 2 ^ 32) (counts : Counts zllen (before ++ new :: after).length) :
    Represents (image zllen (before ++ new :: relink new.size after)) (before ++ new :: relink new.size after) := by
  obtain ⟨left, right⟩ := chainOk_append.mp valid.chain
  have same := congrArg List.length (relink_bodies new.size after)
  rw [length_map, length_map] at same
  refine ⟨chainOk_append.mpr ⟨left, ?_, ?_, relink_ok right⟩, fits, zllen, rfl, ?_⟩
  · rw [made]
    simp [newNode, needsWide]
  · rw [made, newNode]
    exact zipBody_ok bound
  · rwa [length_append, length_cons, same, ← length_cons, ← length_append]

theorem concat_of_bodies {bodies : List (List UInt8)} {b : List UInt8} (split : nodes.map Node.body = bodies ++ [b]) :
    ∃ init n, nodes = init ++ [n] ∧ n.body = b := by
  cases nodes.eq_nil_or_concat with
  | inl empty =>
    rw [empty] at split
    simp at split
  | inr more =>
    obtain ⟨init, n, rfl⟩ := more
    rw [concat_eq_append, map_append, map_singleton] at split
    obtain ⟨_, same⟩ := append_inj' split rfl
    exact ⟨init, n, concat_eq_append, head_eq_of_cons_eq same⟩

theorem lastByte_of_bodies {b : List UInt8} {bodies : List (List UInt8)} (valid : Represents zl nodes)
    (split : nodes.map Node.body = bodies ++ [b]) (nonempty : b ≠ []) : zl[zl.length - 2]? = b.getLast? := by
  obtain ⟨_, _, zllen, rfl, _⟩ := valid
  obtain ⟨init, n, rfl, rfl⟩ := concat_of_bodies split
  exact image_lastByte zllen init nonempty

theorem inserted_iff {after : List Node} {result : Option (List UInt8)} (made : new = newNode (lastSize 0 before) s)
    (valid : Represents zl (before ++ after)) (bound : s.length < 2 ^ 32) (counts : Counts zllen (before ++ new :: after).length)
    (run : result = if insertedSize before after new < 2 ^ 32 then some (image zllen (before ++ new :: relink new.size after)) else none) :
    (∃ zl' nodes body, result = some zl' ∧ Represents zl' nodes ∧
        nodes.map Node.body = before.map Node.body ++ body :: after.map Node.body ∧ bodyValue body = some s) ↔
      insertedSize before after new < 2 ^ 32 := by
  have body : new.body = zipBody s := by rw [made, newNode]
  rw [run]
  split
  next fits =>
    refine iff_of_true ⟨_, _, new.body, rfl, represents_insert made valid bound fits counts, ?_, ?_⟩ fits
    · rw [map_append, map_cons, relink_bodies]
    · rw [body]
      exact bodyValue_zipBody bound
  next large =>
    refine iff_of_false ?_ large
    intro found
    obtain ⟨_, _, _, failed, _⟩ := found
    cases failed

theorem newNode_size (prev : Nat) (bound : s.length < 2 ^ 32) : (newNode prev s).size < 2 ^ 33 := by
  have width : fieldSize (needsWide prev) ≤ 5 := by
    cases needsWide prev <;> decide
  have body : (zipBody s).length ≤ s.length + 9 := by
    obtain ⟨_, body⟩ | ⟨value, encoding, payload, encoded, saved, body⟩ := zipBody_cases s
    · have header : (zipEncodeLength 0 s.length).length ≤ 5 := by
        unfold zipEncodeLength
        rw [if_pos (by decide)]
        split
        · simp
        · split <;> simp
      rw [body, length_append]
      omega
    · obtain ⟨_, _, _, _, bytes, stored, length, _⟩ := zipTryEncoding_spec encoded
      obtain rfl := some.inj (saved.symm.trans stored)
      have size : zipIntSize encoding ≤ 8 := by
        unfold zipIntSize
        repeat (split; decide)
        decide
      rw [body, length_cons, length]
      omega
  rw [newNode, Node.size]
  simp only
  omega

theorem insert_at_end (made : new = newNode (lastSize 0 before) s) (valid : Represents zl before) (bound : s.length < 2 ^ 32) :
    ∃ zllen, Counts zllen (before ++ [new]).length ∧ ziplistInsert junk zl (ziplistHeaderSize + sizes before) s =
        if insertedSize before [] new < 2 ^ 32 then some (image zllen (before ++ new :: relink new.size [])) else none := by
  rcases Nat.lt_or_ge (insertedSize before [] new) (2 ^ 32) with fits | large
  · obtain ⟨zllen, counts, run⟩ := insert_end junk made valid fits
    refine ⟨zllen, counts, ?_⟩
    rw [run, if_pos fits]
    rfl
  · obtain ⟨chain, small, zllen, rfl, counts⟩ := valid
    have moderate := newNode_size (lastSize 0 before) bound
    have size : (field new.wide (lastSize 0 before) ++ zipBody s).length = new.size := by
      rw [made, newNode, Node.size, length_append, field_length]
    simp only [insertedSize, relink, sizes_append, sizes_cons, sizes_nil] at large
    obtain ⟨zllen', counts'⟩ := counts_exists (before ++ [new]).length
    refine ⟨zllen', counts', ?_⟩
    rw [if_neg (by simpa only [insertedSize, relink, sizes_append, sizes_cons, sizes_nil, Nat.not_lt] using large),
      insert_start_end junk zllen made chain small]
    rw [← made] at moderate
    exact insert_wraps junk (Nat.lt_of_lt_of_le (by decide) (Nat.le_add_right ziplistHeaderSize _)) small (by omega) moderate
      (by decide) size

theorem insert_before (made : new = newNode (lastSize 0 before) s) (valid : Represents zl (before ++ m :: ms))
    (bound : s.length < 2 ^ 32) (enough : m.wide = true → 4 ≤ new.size) :
    ∃ zllen, Counts zllen (before ++ new :: m :: ms).length ∧ ziplistInsert junk zl (ziplistHeaderSize + sizes before) s =
        if insertedSize before (m :: ms) new < 2 ^ 32 then some (image zllen (before ++ new :: relink new.size (m :: ms)))
        else none := by
  have lower := sizes_relink_le new.size m ms
  rcases Nat.lt_or_ge (ziplistHeaderSize + sizes before + new.size +
    ({ m with wide := needsWide new.size } : Node).size + sizes ms + 1) (2 ^ 32) with less | large
  · exact insert_gap junk made valid enough less
  · obtain ⟨chain, fits, zllen, rfl, counts⟩ := valid
    obtain ⟨zllen', counts'⟩ := counts_exists (before ++ new :: m :: ms).length
    have moderate := newNode_size (lastSize 0 before) bound
    rw [← made] at moderate
    have size : (field new.wide (lastSize 0 before) ++ zipBody s).length = new.size := by
      rw [made, newNode, Node.size, length_append, field_length]
    refine ⟨zllen', counts', ?_⟩
    rw [if_neg (by simp only [insertedSize, sizes_append, sizes_cons]; omega), insert_start junk zllen made chain fits]
    simp only [sizes_append, sizes_cons] at fits
    have sizeOfOld : m.size = fieldSize m.wide + m.body.length := rfl
    have sizeOfNew : ({ m with wide := needsWide new.size } : Node).size = fieldSize (needsWide new.size) + m.body.length := rfl
    have widthBound : ∀ wide, fieldSize wide = 1 ∨ fieldSize wide = 5 := by decide
    have bounds := widthBound m.wide
    have bounds' := widthBound (needsWide (new.size % 2 ^ 32))
    have large' : 2 ^ 32 ≤ ((ziplistHeaderSize + sizes before + m.size + sizes ms + 1 + new.size : Nat) : Int) +
        ((fieldSize (needsWide (new.size % 2 ^ 32)) : Int) - fieldSize m.wide) := by
      rcases Nat.lt_or_ge new.size (2 ^ 32) with fine | huge
      · rw [Nat.mod_eq_of_lt fine]
        omega
      · omega
    exact insert_wraps junk (Nat.lt_of_lt_of_le (by decide) (Nat.le_add_right ziplistHeaderSize _)) (by omega) large' moderate
      (by omega) size

theorem cut_iff
    {result : Option (List UInt8)} (made : new = newNode (lastSize 0 before) s)
    (valid : Represents zl (before ++ m :: ms)) (stored : Stored (m :: ms)) (bound : s.length < 2 ^ 32)
    (counts : Counts zllen (before ++ new :: m :: ms).length)
    (run : result = if insertedSize before (m :: ms) new < 2 ^ 32 then
      some (image zllen (overwriteLast (before ++ new :: relink new.size (m :: ms)))) else none) :
    (∃ zl' nodes body, result = some zl' ∧ Represents zl' nodes ∧
        nodes.map Node.body = before.map Node.body ++ body :: (m :: ms).map Node.body ∧ bodyValue body = some s) ↔
      insertedSize before (m :: ms) new < 2 ^ 32 ∧ zl[zl.length - 2]? = some zipEnd := by
  obtain ⟨init, last, split⟩ : ∃ init last, m :: ms = init ++ [last] := ⟨_, _, (dropLast_concat_getLast (cons_ne_nil m ms)).symm⟩
  obtain ⟨text, _, body⟩ := stored last (by rw [split]; simp)
  have nonempty : last.body ≠ [] := by
    rw [body]
    exact zipBody_nonempty text
  have bodies : (m :: ms).map Node.body = init.map Node.body ++ [last.body] := by
    rw [split, map_append, map_singleton]
  have bodiesBefore : (before ++ m :: ms).map Node.body = before.map Node.body ++ init.map Node.body ++ [last.body] := by
    rw [map_append, bodies, append_assoc]
  have here := lastByte_of_bodies valid bodiesBefore nonempty
  have after : (before ++ new :: relink new.size (m :: ms)).map Node.body =
      (before.map Node.body ++ new.body :: init.map Node.body) ++ [last.body] := by
    rw [map_append, map_cons, relink_bodies, bodies]
    simp
  obtain ⟨front, n, whole, same⟩ := concat_of_bodies after
  rw [here]
  rw [whole, overwriteLast_concat, same] at run
  rcases eq_or_ne (last.body.getLast?) (some zipEnd) with ended | other
  · obtain ⟨contents, value⟩ := getLast?_eq_some_iff.mp ended
    have unchanged : { n with body := last.body.dropLast ++ [zipEnd] } = n := by
      rw [← same] at value ⊢
      rw [value, dropLast_concat, ← value]
    rw [unchanged, ← whole] at run
    rw [inserted_iff made valid bound counts run]
    exact (and_iff_left ended).symm
  · refine iff_of_false ?_ fun fine => other fine.2
    intro found
    obtain ⟨zl', nodes, added, returned, valid', kept, _⟩ := found
    rw [run] at returned
    split at returned
    · have changed : zl'[zl'.length - 2]? = some zipEnd := by
        rw [← some.inj returned, image_lastByte zllen front (by simp), getLast?_concat]
      rw [bodies, ← cons_append, ← append_assoc] at kept
      have preserved := lastByte_of_bodies valid' kept nonempty
      exact other (preserved.symm.trans changed)
    · cases returned

theorem push_tail (valid : Represents zl before) (bound : s.length < 2 ^ 32)
    (fits : insertedSize before [] (newNode (lastSize 0 before) s) < 2 ^ 32) :
    ∃ zl', ziplistPush junk zl s false = some zl' ∧ Represents zl' (before ++ [newNode (lastSize 0 before) s]) := by
  obtain ⟨zllen, counts, run⟩ := insert_at_end junk rfl valid bound
  have same : Represents zl (before ++ []) := by rwa [append_nil]
  refine ⟨_, ?_, represents_insert rfl same bound fits counts⟩
  obtain ⟨_, small, old, rfl, _⟩ := valid
  have bytes := block_bytes small (ziplistHeaderSize + sizes before.dropLast) old (encodeFrom 0 before ++ [zipEnd])
  rw [if_pos fits] at run
  simp only [ziplistPush, image, bytes, bind_eq_bind, bind_some, Bool.false_eq_true, if_false, Nat.add_sub_cancel]
  exact run

theorem newNode_long_size (long : 32 ≤ s.length) :
    (newNode prev s).size = fieldSize (needsWide prev) + (zipEncodeLength 0 s.length).length + s.length := by
  have plain : zipTryEncoding s = none := by rw [zipTryEncoding, if_pos (.inl long)]
  simp only [newNode, Node.size, zipBody, plain, length_append, Nat.add_assoc]

theorem push_tail_last (valid : Represents zl before) (last : lastSize 0 before = prev) (made : new = newNode prev s)
    (bound : s.length < 2 ^ 32) (fits : ziplistHeaderSize + sizes (before ++ [new]) + 1 < 2 ^ 32) :
    ∃ zl', ziplistPush junk zl s false = some zl' ∧ Represents zl' (before ++ [new]) := by
  rw [← last] at made
  rw [made] at fits ⊢
  exact push_tail junk valid bound fits

end Cplusplus.Redis.Ziplist
