import Cplusplus.Proofs.ZiplistCascade

/-! Deletion. The entry after the hole gets the length of the entry before it in a
field of exactly the width needed, and the cascade follows. -/

namespace Cplusplus.Redis.Ziplist
open Bytes List Option

variable (junk : List UInt8 → Nat → UInt8)
variable {prev zllen : Nat} {before rs : List Node} {r : Node} {zl : List UInt8}

def image (zllen : Nat) (nodes : List Node) : List UInt8 :=
  block (ziplistHeaderSize + sizes nodes + 1) (ziplistHeaderSize + sizes nodes.dropLast) zllen
    (encodeFrom 0 nodes ++ [zipEnd])

def Counts (zllen count : Nat) : Prop := zllen ≤ uint16Max ∧ (zllen < uint16Max → zllen = count)

/-- `zlbytes` is the size, the last byte is the end mark, `zltail` is the offset of
the last entry, every `prevrawlen` is the size of the entry before. -/
structure Represents (zl : List UInt8) (nodes : List Node) : Prop where
  chain : ChainOk 0 nodes
  fits : ziplistHeaderSize + sizes nodes + 1 < 2 ^ 32
  bytes : ∃ zllen, zl = image zllen nodes ∧ Counts zllen nodes.length

theorem represents_new : Represents ziplistNew [] :=
  ⟨trivial, by decide, 0, by simp [ziplistNew, image, block, encodeFrom], by simp [Counts, uint16Max]⟩

theorem sizes_dropLast_append (ns : List Node) (m : Node) (ms : List Node) :
    sizes (ns ++ m :: ms).dropLast = sizes ns + sizes (m :: ms).dropLast := by
  rw [dropLast_append_of_ne_nil (by simp), sizes_append]

theorem image_split (zllen : Nat) (before : List Node) (m : Node) (ms : List Node) :
    image zllen (before ++ m :: ms) = atNode zllen (encodeFrom 0 before) (lastSize 0 before) m m.size ms := by
  simp only [image, atNode, sizes_dropLast_append, sizes_append, sizes_cons, encodeFrom_append, encodeFrom,
    encodeFrom_length, append_assoc, Nat.add_assoc]

theorem lastSize_le (prev : Nat) (ns : List Node) : lastSize prev ns ≤ prev + sizes ns := by
  induction ns generalizing prev with
  | nil => simp [lastSize]
  | cons n ns ih =>
    have := ih n.size
    rw [lastSize_cons, sizes_cons]
    omega

def relink (prev : Nat) : List Node → List Node
  | [] => []
  | m :: ms =>
    let m' := { m with wide := needsWide prev }
    m' :: cascade m'.size ms

theorem relink_bodies (prev : Nat) (ns : List Node) : (relink prev ns).map Node.body = ns.map Node.body := by
  cases ns with
  | nil => rfl
  | cons m ms => simp only [relink, map_cons, cascade_bodies]

variable {ns : List Node}

theorem relink_ok {old : Nat} (ok : ChainOk old ns) : ChainOk prev (relink prev ns) := by
  cases ns with
  | nil => trivial
  | cons m ms => exact ⟨by simp [needsWide], ok.2.1, cascade_ok ok.2.2⟩

theorem skipEntries_spec {total tail : Nat} (num : Nat) :
    ∀ (X : List UInt8) (q : Nat) (ns : List Node), ChainOk q ns → q < 2 ^ 32 → X.length + sizes ns < 2 ^ 32 →
      skipEntries (block total tail zllen (X ++ encodeFrom q ns ++ [zipEnd])) num (ziplistHeaderSize + X.length) =
        some (ziplistHeaderSize + X.length + sizes (ns.take num), (ns.take num).length) := by
  induction num with
  | zero => intro X q ns _ _ _; simp [skipEntries]
  | succ num ih =>
    intro X q ns chain bound fits
    cases ns with
    | nil =>
      have last : (block total tail zllen (X ++ encodeFrom q [] ++ [zipEnd]))[ziplistHeaderSize + X.length]? = some zipEnd := by
        rw [block_get]
        simp [encodeFrom]
      simp only [skipEntries, last, bind_eq_bind, bind_some, if_true, take_nil, sizes_nil]
      rfl
    | cons n ns =>
      obtain ⟨narrow, ok, rest⟩ := chain
      rw [sizes_cons] at fits
      have cut : (block total tail zllen (X ++ encodeFrom q (n :: ns) ++ [zipEnd])).drop (ziplistHeaderSize + X.length) =
          field n.wide q ++ n.body ++ (encodeFrom n.size ns ++ [zipEnd]) := by
        rw [block_drop]
        simp [encodeFrom]
      obtain ⟨b, first, notEnd⟩ := field_head narrow (n.body ++ (encodeFrom n.size ns ++ [zipEnd]))
      have head : (block total tail zllen (X ++ encodeFrom q (n :: ns) ++ [zipEnd]))[ziplistHeaderSize + X.length]? = some b := by
        rw [getElem?_drop_zero, cut, append_assoc]
        exact first
      have raw := zipRawEntryLength_node narrow bound ok (by omega) (encodeFrom n.size ns ++ [zipEnd])
      have length : (X ++ field n.wide q ++ n.body).length = X.length + n.size := by
        simp [Node.size]
      have next := ih (X ++ field n.wide q ++ n.body) n.size ns rest (by omega) (by omega)
      have bytes : X ++ field n.wide q ++ n.body ++ encodeFrom n.size ns ++ [zipEnd] = X ++ encodeFrom q (n :: ns) ++ [zipEnd] := by
        simp [encodeFrom]
      rw [bytes, length, ← Nat.add_assoc] at next
      simp only [skipEntries, head, cut, raw, next, bind_eq_bind, bind_some, notEnd, if_false,
        take_succ_cons, sizes_cons, length_cons, ← Nat.add_assoc]
      rfl

theorem encodeFrom_head (chain : ChainOk prev ns) : ∃ b, (encodeFrom prev ns ++ [zipEnd])[0]? = some b ∧ (b = zipEnd ↔ ns = []) := by
  cases ns with
  | nil => exact ⟨zipEnd, rfl, by simp⟩
  | cons n ns =>
    obtain ⟨b, first, notEnd⟩ := field_head chain.1 (n.body ++ encodeFrom n.size ns ++ [zipEnd])
    refine ⟨b, ?_, by simp [notEnd]⟩
    simpa only [encodeFrom, append_assoc] using first

theorem memmove_forward (X P moved post : List UInt8) :
    ∃ R, memmove (X ++ P ++ moved ++ post) X.length (X ++ P).length moved.length = some (X ++ moved ++ R) ∧
      R.length = P.length + post.length := by
  obtain ⟨target, R, split, length⟩ : ∃ target R, P ++ moved ++ post = target ++ R ∧ target.length = moved.length :=
    ⟨_, _, (take_append_drop moved.length _).symm, by simp; omega⟩
  have same : X ++ P ++ moved ++ post = X ++ target ++ R := by
    rw [append_assoc X target, ← split]
    simp
  refine ⟨R, ?_, ?_⟩
  · rw [same]
    exact memmove_append same rfl rfl rfl length
  · have total := congrArg List.length split
    simp only [length_append] at total
    omega

theorem sizes_dropLast_width (m : Node) (wide : Bool) (ms : List Node) : (sizes ({ m with wide := wide } :: ms).dropLast : Int) =
      sizes (m :: ms).dropLast + (if ms = [] then 0 else (fieldSize wide : Int) - fieldSize m.wide) := by
  cases ms with
  | nil => simp
  | cons k ks =>
    simp only [sizes_dropLast_cons _ (k :: ks) (cons_ne_nil k ks), Node.size, cons_ne_nil, if_false]
    omega

theorem sizes_dropLast_le (ns : List Node) : sizes ns.dropLast ≤ sizes ns := by
  cases ns with
  | nil => exact Nat.le_refl _
  | cons n ns =>
    have whole := congrArg sizes (dropLast_concat_getLast (cons_ne_nil n ns))
    rw [sizes_append] at whole
    omega

theorem shift_tail {start : Int} {base : Nat} (m : Node) (ms : List Node) (wide : Bool) {b : UInt8}
    (here : start = (base + sizes (m :: ms).dropLast : Nat)) (last : b = zipEnd ↔ ms = [])
    (fits : base + ({ m with wide := wide } : Node).size + sizes ms < 2 ^ 32) :
    (if b ≠ zipEnd then (((start % 2 ^ 32).toNat + ((fieldSize wide : Int) - fieldSize m.wide)) % 2 ^ 32).toNat
      else (start % 2 ^ 32).toNat) = base + sizes ({ m with wide := wide } :: ms).dropLast := by
  have shifted := sizes_dropLast_width m wide ms
  have lower := sizes_dropLast_le ({ m with wide := wide } :: ms)
  rw [sizes_cons] at lower
  split
  next more =>
    rw [if_neg (fun none => more (last.mpr none))] at shifted
    omega
  next stop =>
    rw [if_pos (last.mp (not_not.mp stop))] at shifted
    omega

variable {ms : List Node}

theorem read_after (total tail zllen : Nat) (A : List UInt8) (m : Node) (narrow : m.wide = false → prev < zipBiglen)
    (bound : prev < 2 ^ 32) (ok : BodyOk m.body) (small : m.size < 2 ^ 32) {old : Nat} (chain : ChainOk old ms) :
    ∃ e b, zipEntry ((block total tail zllen (A ++ field m.wide prev ++ m.body ++ encodeFrom old ms ++ [zipEnd])).drop
        (ziplistHeaderSize + A.length)) = some e ∧
      (block total tail zllen (A ++ field m.wide prev ++ m.body ++ encodeFrom old ms ++ [zipEnd]))[ziplistHeaderSize +
        A.length + m.size]? = some b ∧
      e.headersize + e.len = m.size ∧ e.rawlen = m.size ∧ (b = zipEnd ↔ ms = []) := by
  obtain ⟨e, entry, _, _, size, raw⟩ := zipEntry_node narrow bound ok small (encodeFrom old ms ++ [zipEnd])
  obtain ⟨b, head, last⟩ := encodeFrom_head chain
  have place : A.length + m.size = (A ++ field m.wide prev ++ m.body).length := by
    simp only [length_append, field_length, Node.size, Nat.add_assoc]
  refine ⟨e, b, ?_, ?_, size, raw, last⟩
  · rw [block_drop, ← entry]
    simp only [append_assoc, drop_left]
  · rw [Nat.add_assoc, block_get, place, getElem?_drop_zero, append_assoc _ (encodeFrom old ms), drop_left]
    exact head

/-- What `__ziplistDelete` does when an entry `m` follows the bytes `D` to delete. -/
theorem closeGap_spec (zllen : Nat) {q : Nat} (L D : List UInt8) {m : Node}
    (narrow : m.wide = false → q < zipBiglen) (bound : q < 2 ^ 32) (boundPrev : prev < 2 ^ 32) (ok : BodyOk m.body)
    (chain : ChainOk m.size ms) (room : needsWide prev = true → 6 ≤ D.length) (nonempty : 0 < D.length)
    (fits : ziplistHeaderSize + (L ++ D).length + m.size + sizes ms + 1 < 2 ^ 32) :
    ∃ R, ziplistCloseGap (atNode zllen (L ++ D) q m m.size ms) (ziplistHeaderSize + L.length)
        (ziplistHeaderSize + (L ++ D).length) D.length prev =
      some (block (ziplistHeaderSize + (L ++ D).length + m.size + sizes ms + 1)
          (ziplistHeaderSize + L.length + sizes ({ m with wide := needsWide prev } :: ms).dropLast) zllen
          (L ++ field (needsWide prev) prev ++ m.body ++ encodeFrom m.size ms ++ R),
        (fieldSize (needsWide prev) : Int) - fieldSize m.wide) := by
  have widthBound : ∀ wide, 0 < fieldSize wide ∧ fieldSize wide ≤ 5 := by decide
  have wideRoom : fieldSize (needsWide prev) ≤ D.length + fieldSize m.wide := by
    cases large : needsWide prev with
    | false => exact Nat.le_add_right_of_le nonempty
    | true => exact Nat.le_add_right_of_le (Nat.le_of_succ_le (room large))
  -- the new field ends where the old one ended
  obtain ⟨P, O, split, width⟩ : ∃ P O, D ++ field m.wide q = P ++ O ∧ O.length = fieldSize (needsWide prev) := by
    refine ⟨_, _, (take_append_drop (D.length + fieldSize m.wide - fieldSize (needsWide prev)) _).symm, ?_⟩
    simp
    omega
  have lengths : P.length + fieldSize (needsWide prev) = D.length + fieldSize m.wide := by
    have same := congrArg List.length split
    simp only [length_append, field_length] at same
    omega
  have sizeM : m.size = fieldSize m.wide + m.body.length := rfl
  have bounds := widthBound (needsWide prev)
  simp only [length_append] at fits ⊢
  obtain ⟨total, whole⟩ : ∃ total, total = ziplistHeaderSize + (L.length + D.length) + m.size + sizes ms + 1 := ⟨_, rfl⟩
  have start' : atNode zllen (L ++ D) q m m.size ms = block total (ziplistHeaderSize + (L.length + D.length) + sizes (m :: ms).dropLast) zllen
        (L ++ P ++ O ++ (m.body ++ encodeFrom m.size ms ++ [zipEnd])) := by
    rw [atNode, append_assoc L D, split, whole, length_append]
    simp only [append_assoc]
  have diff : zipPrevLenByteDiff ((atNode zllen (L ++ D) q m m.size ms).drop (ziplistHeaderSize + (L.length + D.length)))
      prev = some ((fieldSize (needsWide prev) : Int) - fieldSize m.wide) := by
    have cut : (atNode zllen (L ++ D) q m m.size ms).drop (ziplistHeaderSize + (L.length + D.length)) =
        field m.wide q ++ (m.body ++ encodeFrom m.size ms ++ [zipEnd]) := by
      rw [atNode, block_drop, ← length_append, append_assoc (L ++ D), append_assoc (L ++ D), append_assoc (L ++ D), drop_left]
      simp only [append_assoc]
    rw [cut, zipPrevLenByteDiff, (zipDecodePrevlen_field narrow bound _).2, zipPrevEncodeLength_eq, field_length]
    rfl
  have back : moveBack (ziplistHeaderSize + (L.length + D.length))
      ((fieldSize (needsWide prev) : Int) - fieldSize m.wide) = some (ziplistHeaderSize + (L ++ P).length) := by
    rw [moveBack, if_pos (by omega), length_append]
    congr 1
    omega
  have stored : store (L ++ P ++ O ++ (m.body ++ encodeFrom m.size ms ++ [zipEnd])) (L ++ P).length
      (field (needsWide prev) prev) = some (L ++ P ++ field (needsWide prev) prev ++ m.body ++ encodeFrom m.size ms ++ [zipEnd]) := by
    rw [store_append rfl (by rw [field_length, width])]
    simp only [append_assoc]
  obtain ⟨start, tailIs⟩ : ∃ start : Int, start =
      ((ziplistHeaderSize + (L.length + D.length) + sizes (m :: ms).dropLast : Nat) : Int) - D.length := ⟨_, rfl⟩
  obtain ⟨e, b, entry, head, _, raw, last⟩ := read_after total (start % 2 ^ 32).toNat zllen (L ++ P)
    { m with wide := needsWide prev } (by simp [needsWide]) boundPrev ok (by simp only [Node.size]; omega) chain
  have count : sizeDiff total (ziplistHeaderSize + (L ++ P).length + 1) =
      some (field (needsWide prev) prev ++ m.body ++ encodeFrom m.size ms).length := by
    simp only [length_append, field_length, encodeFrom_length, sizeDiff]
    rw [if_pos (by omega)]
    congr 1
    omega
  obtain ⟨R, moved, _⟩ := memmove_forward L P (field (needsWide prev) prev ++ m.body ++ encodeFrom m.size ms) [zipEnd]
  simp only [← append_assoc] at moved
  have final := shift_tail m ms (needsWide prev)
    (show start = (ziplistHeaderSize + L.length + sizes (m :: ms).dropLast : Nat) by omega) last
    (by simp only [Node.size]; omega)
  have lower := sizes_dropLast_le (m :: ms)
  rw [sizes_cons] at lower
  rw [start'] at diff ⊢
  refine ⟨R, ?_⟩
  simp only [ziplistCloseGap, diff, back, zipPrevEncodeLength_eq, block_store, stored, map_some, bind_eq_bind, bind_some, block_setTail,
    block_tail (show ziplistHeaderSize + (L.length + D.length) + sizes (m :: ms).dropLast < 2 ^ 32 by omega),
    block_tail (show (start % 2 ^ 32).toNat < 2 ^ 32 by omega), ← tailIs, entry, raw, head]
  split
  next more =>
    rw [if_pos more] at final
    simp only [final, block_bytes (show total < 2 ^ 32 by omega), count, block_memmove, moved, map_some, bind_some, ← whole]
    rfl
  next stop =>
    rw [if_neg stop] at final
    simp only [final, block_bytes (show total < 2 ^ 32 by omega), count, block_memmove, moved, map_some, bind_some, ← whole]
    rfl

theorem incrLength_block {count : Nat} {incr : Int} (total tail : Nat) (rest : List UInt8)
    (counts : Counts zllen count) (below : 0 ≤ (count : Int) + incr) (step : incr ≤ 1) :
    ∃ zllen', ziplistIncrLength (block total tail zllen rest) incr = some (block total tail zllen' rest) ∧
      Counts zllen' ((count : Int) + incr).toNat := by
  obtain ⟨small, known⟩ := counts
  have top : uint16Max = 65535 := rfl
  have read := block_zllen (show zllen < 2 ^ 16 by omega) total tail rest
  simp only [ziplistIncrLength, read, bind_eq_bind, bind_some]
  split
  next less =>
    have same := known less
    refine ⟨_, block_setLength .., ?_⟩
    unfold Counts
    omega
  next full =>
    refine ⟨zllen, rfl, ?_⟩
    unfold Counts
    omega

theorem ziplistResize_keep (total tail zllen : Nat) (kept R : List UInt8) (small : ziplistHeaderSize + kept.length + 1 < 2 ^ 32) :
    ziplistResize junk (block total tail zllen (kept ++ R)) (ziplistHeaderSize + kept.length + 1) =
      some (block (ziplistHeaderSize + kept.length + 1) tail zllen (kept ++ [zipEnd])) := by
  obtain ⟨init, resized, length, same⟩ := ziplistResize_block junk total tail zllen (kept ++ R)
    (show ziplistHeaderSize < ziplistHeaderSize + kept.length + 1 by omega) small
  have equal : init = kept := by
    have prefixed := same kept.length (by simp) (by omega)
    rw [take_left, take_of_length_le (by omega)] at prefixed
    exact prefixed
  rw [resized, equal]

theorem sizes_dropLast_lastSize (ns : List Node) : sizes ns.dropLast + lastSize 0 ns = sizes ns := by
  cases ns with
  | nil => rfl
  | cons n ns =>
    have whole := congrArg sizes (dropLast_concat_getLast (cons_ne_nil n ns))
    rw [sizes_append, sizes_cons, sizes_nil] at whole
    rw [lastSize, getLast?_eq_some_getLast (cons_ne_nil n ns)]
    exact whole

theorem image_append (zllen : Nat) (before rest : List Node) :
    image zllen (before ++ rest) = block (ziplistHeaderSize + sizes (before ++ rest) + 1)
      (ziplistHeaderSize + sizes (before ++ rest).dropLast) zllen
      (encodeFrom 0 before ++ encodeFrom (lastSize 0 before) rest ++ [zipEnd]) := by
  rw [image, encodeFrom_append]

theorem deleteEntries_reads (zllen : Nat) (chain : ChainOk 0 (before ++ r :: rs))
    (fits : ziplistHeaderSize + sizes (before ++ r :: rs) + 1 < 2 ^ 32) (num : Nat) :
    (∃ e, zipEntry ((image zllen (before ++ r :: rs)).drop (ziplistHeaderSize + sizes before)) = some e ∧ e.prevrawlen = lastSize 0 before) ∧
      skipEntries (image zllen (before ++ r :: rs)) num (ziplistHeaderSize + sizes before) =
        some (ziplistHeaderSize + sizes before + sizes ((r :: rs).take num), ((r :: rs).take num).length) := by
  obtain ⟨_, chainRest⟩ := chainOk_append.mp chain
  have lower := lastSize_le 0 before
  simp only [sizes_append] at fits
  have small : fieldSize r.wide + r.body.length < 2 ^ 32 := by
    rw [sizes_cons, Node.size] at fits
    omega
  rw [image_append, ← encodeFrom_length 0 before]
  constructor
  · obtain ⟨e, entry, _, prevrawlen, _, _⟩ := zipEntry_node chainRest.1 (show lastSize 0 before < 2 ^ 32 by omega)
      chainRest.2.1 small (encodeFrom r.size rs ++ [zipEnd])
    refine ⟨e, ?_, prevrawlen⟩
    rw [block_drop, ← entry]
    simp only [encodeFrom, append_assoc, drop_left]
  · exact skipEntries_spec num _ _ _ chainRest (by omega) (by rw [encodeFrom_length]; omega)

theorem deleteEntries_tail {num : Nat} (valid : Represents zl (before ++ r :: rs)) (all : (r :: rs).length ≤ num) :
    ∃ zl', ziplistDeleteEntries junk zl (ziplistHeaderSize + sizes before) num = some zl' ∧ Represents zl' before := by
  obtain ⟨chain, fits, zllen, rfl, counts⟩ := valid
  obtain ⟨⟨e, read, prevrawlen⟩, skipped⟩ := deleteEntries_reads zllen chain fits num
  have positive := r.size_pos
  have tailBefore := sizes_dropLast_lastSize before
  have sizeOfRest : 0 < sizes (r :: rs) := by
    rw [sizes_cons]
    omega
  rw [take_of_length_le all] at skipped
  simp only [sizes_append] at fits
  have last : (image zllen (before ++ r :: rs))[ziplistHeaderSize + sizes before + sizes (r :: rs)]? = some zipEnd := by
    rw [image_append, Nat.add_assoc ziplistHeaderSize (sizes before), block_get, ← encodeFrom_length 0 before,
      ← encodeFrom_length (lastSize 0 before) (r :: rs), ← length_append, getElem?_drop_zero, drop_left]
    rfl
  have totlen : (ziplistHeaderSize + sizes before + sizes (r :: rs) - (ziplistHeaderSize + sizes before)) % 2 ^ 32 = sizes (r :: rs) := by omega
  have newTail : (((ziplistHeaderSize + sizes before : Nat) : Int) - (lastSize 0 before : Nat)) % 2 ^ 32 =
      (ziplistHeaderSize + sizes before.dropLast : Nat) := by omega
  have size : (((ziplistHeaderSize + (sizes before + sizes (r :: rs)) + 1 : Nat) : Int) - sizes (r :: rs) + 0) % 2 ^ 32 =
      (ziplistHeaderSize + sizes before + 1 : Nat) := by omega
  obtain ⟨zllen', incr, counts'⟩ := incrLength_block (ziplistHeaderSize + sizes before + 1)
    (ziplistHeaderSize + sizes before.dropLast) (encodeFrom 0 before ++ [zipEnd]) counts
    (show 0 ≤ ((before ++ r :: rs).length : Int) + -((r :: rs).length : Int) by simp only [length_append]; omega)
    (by omega)
  have resized := ziplistResize_keep junk (ziplistHeaderSize + (sizes before + sizes (r :: rs)) + 1)
    (ziplistHeaderSize + sizes before.dropLast) zllen
    (encodeFrom 0 before) (encodeFrom (lastSize 0 before) (r :: rs) ++ [zipEnd]) (by rw [encodeFrom_length]; omega)
  rw [encodeFrom_length, ← append_assoc] at resized
  refine ⟨image zllen' before, ?_, (chainOk_append.mp chain).1, by omega, zllen', rfl, ?_⟩
  · rw [image_append, sizes_append] at read skipped last ⊢
    simp only [ziplistDeleteEntries, read, skipped, totlen, Nat.ne_of_gt sizeOfRest, last, prevrawlen, block_setTail,
      newTail, Int.toNat_natCast, block_bytes fits, size, resized, incr, bind_eq_bind, bind_some,
      Option.pure_def, if_false, ne_eq, not_true_eq_false]
    rfl
  · have same : (((before ++ r :: rs).length : Int) + -((r :: rs).length : Int)).toNat = before.length := by
      rw [length_append]
      omega
    rwa [same] at counts'

theorem resize_node (total zllen q old : Nat) {X : List UInt8} (R : List UInt8) {n : Node}
    (fits : ziplistHeaderSize + X.length + n.size + sizes ns + 1 < 2 ^ 32) :
    ziplistResize junk (block total (ziplistHeaderSize + X.length + sizes (n :: ns).dropLast) zllen
        (X ++ field n.wide q ++ n.body ++ encodeFrom old ns ++ R)) (ziplistHeaderSize + X.length + n.size + sizes ns + 1) =
      some (atNode zllen X q n old ns) := by
  have length : ziplistHeaderSize + (X ++ field n.wide q ++ n.body ++ encodeFrom old ns).length =
      ziplistHeaderSize + X.length + n.size + sizes ns := by
    simp only [length_append, field_length, encodeFrom_length, Node.size, Nat.add_assoc]
  rw [← length] at fits ⊢
  rw [ziplistResize_keep junk _ _ _ _ R fits, length, atNode]

theorem incrLength_node (q old : Nat) (X : List UInt8) (n : Node) (ns : List Node) {count : Nat} {incr : Int}
    (counts : Counts zllen count) (below : 0 ≤ (count : Int) + incr) (step : incr ≤ 1) :
    ∃ zllen', ziplistIncrLength (atNode zllen X q n old ns) incr = some (atNode zllen' X q n old ns) ∧
      Counts zllen' ((count : Int) + incr).toNat :=
  incrLength_block _ _ _ counts below step

theorem size_after_long (chain : ChainOk prev (r :: rs)) (long : needsWide prev = true) : 6 ≤ sizes (r :: rs) := by
  obtain ⟨narrow, ⟨_, lensize, _, some_, length, _⟩, _⟩ := chain
  have wide : r.wide = true := by
    cases thin : r.wide with
    | true => rfl
    | false =>
      have small := narrow thin
      simp only [needsWide, decide_eq_true_eq] at long
      omega
  rw [sizes_cons, Node.size, wide, fieldSize, if_pos rfl]
  omega

theorem deleteEntries_gap {m : Node} {num : Nat} (valid : Represents zl (before ++ r :: rs ++ m :: ms)) (all : (r :: rs).length = num) :
    ∃ zllen, Counts zllen (before.length + (m :: ms).length) ∧ ziplistDeleteEntries junk zl (ziplistHeaderSize + sizes before) num =
        if ziplistHeaderSize + sizes (before ++ relink (lastSize 0 before) (m :: ms)) + 1 < 2 ^ 32 then
          some (image zllen (before ++ relink (lastSize 0 before) (m :: ms)))
        else none := by
  obtain ⟨chain, fits, zllen, rfl, counts⟩ := valid
  obtain ⟨chainLeft, narrow, ok, chainRight⟩ := chainOk_append.mp chain
  obtain ⟨chainBefore, chainRemoved⟩ := chainOk_append.mp chainLeft
  have bytes := image_split zllen (before ++ r :: rs) m ms
  rw [encodeFrom_append] at bytes
  rw [append_assoc, cons_append] at chain fits
  obtain ⟨⟨e, read, prevrawlen⟩, skipped⟩ := deleteEntries_reads zllen chain fits num
  rw [← cons_append, take_left' all, ← append_assoc] at skipped
  rw [← cons_append, ← append_assoc] at read
  have boundPrev := lastSize_le 0 before
  have boundLast := lastSize_le 0 (before ++ r :: rs)
  rw [← cons_append] at fits
  simp only [sizes_append] at fits boundLast
  rw [sizes_cons m ms] at fits
  have room := size_after_long chainRemoved
  have positive : 0 < sizes (r :: rs) := by
    have := r.size_pos
    rw [sizes_cons]
    omega
  obtain ⟨m', changed⟩ : ∃ m' : Node, m' = { m with wide := needsWide (lastSize 0 before) } := ⟨_, rfl⟩
  have width : m'.wide = needsWide (lastSize 0 before) := by rw [changed]
  have body : m'.body = m.body := by rw [changed]
  obtain ⟨R, closed⟩ := closeGap_spec zllen (encodeFrom 0 before)
    (encodeFrom (lastSize 0 before) (r :: rs)) narrow (by omega) (show lastSize 0 before < 2 ^ 32 by omega) ok
    chainRight (by rwa [encodeFrom_length]) (by rwa [encodeFrom_length])
    (by simp only [length_append, encodeFrom_length]; omega)
  rw [← bytes, ← changed, ← width, ← body] at closed
  simp only [length_append, encodeFrom_length, ← Nat.add_assoc] at closed
  have sizeOfNew : m'.size = fieldSize m'.wide + m.body.length := by rw [Node.size, body]
  have sizeOfOld : m.size = fieldSize m.wide + m.body.length := rfl
  have widthBound : ∀ wide, fieldSize wide = 1 ∨ fieldSize wide = 5 := by decide
  have grows : m'.size ≤ m.size + sizes (r :: rs) := by
    have := widthBound m.wide
    cases long : needsWide (lastSize 0 before) with
    | true =>
      have := room long
      rw [width, long, fieldSize, if_pos rfl] at sizeOfNew
      omega
    | false =>
      rw [width, long, fieldSize, if_neg Bool.false_ne_true] at sizeOfNew
      omega
  obtain ⟨⟨b, head, notEnd⟩, _⟩ := read_node zllen m.size
    (encodeFrom 0 before ++ encodeFrom (lastSize 0 before) (r :: rs)) m ms narrow (by omega) ok
    (by simp only [length_append, encodeFrom_length]; omega)
  rw [← bytes, length_append, encodeFrom_length, encodeFrom_length, ← Nat.add_assoc] at head
  have totlen : (ziplistHeaderSize + sizes before + sizes (r :: rs) - (ziplistHeaderSize + sizes before)) % 2 ^ 32 = sizes (r :: rs) := by omega
  have total : ziplistHeaderSize + sizes before + sizes (r :: rs) + m.size + sizes ms + 1 < 2 ^ 32 := by omega
  have size : (((ziplistHeaderSize + sizes before + sizes (r :: rs) + m.size + sizes ms + 1 : Nat) : Int) -
      sizes (r :: rs) + ((fieldSize m'.wide : Int) - fieldSize m.wide)) % 2 ^ 32 =
      (ziplistHeaderSize + (encodeFrom 0 before).length + m'.size + sizes ms + 1 : Nat) := by
    rw [encodeFrom_length]
    omega
  have less : ziplistHeaderSize + (encodeFrom 0 before).length + m'.size + sizes ms + 1 < 2 ^ 32 := by
    rw [encodeFrom_length]
    omega
  have resized := resize_node junk (ziplistHeaderSize + sizes before + sizes (r :: rs) + m.size + sizes ms + 1) zllen
    (lastSize 0 before) m.size R less
  obtain ⟨zllen', incr, counts'⟩ := incrLength_node (lastSize 0 before) m.size (encodeFrom 0 before) m' ms counts
    (show 0 ≤ ((before ++ r :: rs ++ m :: ms).length : Int) + -((r :: rs).length : Int) by
      simp only [length_append]
      omega)
    (by omega)
  have cascaded := cascadeUpdate_spec junk zllen' m.size (encodeFrom 0 before) m' ms (q := lastSize 0 before)
    (by simp [width, needsWide]) (by omega) (by rwa [body]) (by omega) chainRight less
  rw [encodeFrom_length] at resized cascaded size
  refine ⟨zllen', ?_, ?_⟩
  · have same : (((before ++ r :: rs ++ m :: ms).length : Int) + -((r :: rs).length : Int)).toNat =
        before.length + (m :: ms).length := by
      simp only [length_append]
      omega
    rwa [same] at counts'
  · rw [relink, ← changed, image_split zllen' before m', sizes_append, sizes_cons]
    simp only [ziplistDeleteEntries, read, skipped, totlen, Nat.ne_of_gt positive, head, notEnd, prevrawlen, closed,
      block_bytes total, size, Int.toNat_natCast, resized, incr, bind_eq_bind, bind_some, Option.pure_def, if_false,
      ne_eq, not_false_eq_true, if_true]
    have total' : ziplistHeaderSize + (sizes before + (m'.size + sizes (cascade m'.size ms))) + 1 =
        ziplistHeaderSize + sizes before + m'.size + sizes (cascade m'.size ms) + 1 := by omega
    rw [total']
    split
    next => exact cascaded
    next same =>
      have unchanged : m'.size = m.size := by omega
      rw [unchanged, cascade_same chainRight, if_pos (by omega)]

def deletedSize (before rest : List Node) (num : Nat) : Nat :=
  if num = 0 then ziplistHeaderSize + sizes (before ++ rest) + 1
  else ziplistHeaderSize + sizes (before ++ relink (lastSize 0 before) (rest.drop num)) + 1

theorem represents_relink {removed after : List Node} (chain : ChainOk 0 (before ++ removed ++ after))
    (fits : ziplistHeaderSize + sizes (before ++ relink (lastSize 0 before) after) + 1 < 2 ^ 32)
    (counts : Counts zllen (before.length + after.length)) :
    Represents (image zllen (before ++ relink (lastSize 0 before) after)) (before ++ relink (lastSize 0 before) after) := by
  obtain ⟨left, right⟩ := chainOk_append.mp chain
  have same := congrArg List.length (relink_bodies (lastSize 0 before) after)
  rw [length_map, length_map] at same
  refine ⟨chainOk_append.mpr ⟨(chainOk_append.mp left).1, relink_ok right⟩, fits, zllen, rfl, ?_⟩
  rwa [length_append, same]

theorem deleteEntries_end {nodes : List Node} (valid : Represents zl nodes) (num : Nat) :
    ziplistDeleteEntries junk zl (ziplistHeaderSize + sizes nodes) num = none := by
  obtain ⟨_, _, zllen, rfl, _⟩ := valid
  have last : (image zllen nodes).drop (ziplistHeaderSize + sizes nodes) = [zipEnd] := by
    rw [image, block_drop, ← encodeFrom_length 0 nodes, drop_left]
  have fails : zipEntry [zipEnd] = none := rfl
  simp only [ziplistDeleteEntries, last, fails, bind_eq_bind, bind_none]

theorem deleteEntries_none (valid : Represents zl (before ++ r :: rs)) :
    ziplistDeleteEntries junk zl (ziplistHeaderSize + sizes before) 0 = some zl := by
  obtain ⟨chain, fits, zllen, rfl, _⟩ := valid
  obtain ⟨⟨e, read, _⟩, skipped⟩ := deleteEntries_reads zllen chain fits 0
  simp only [ziplistDeleteEntries, read, skipped, take_zero, sizes_nil, Nat.add_zero, Nat.sub_self, Nat.zero_mod,
    bind_eq_bind, bind_some, if_true]
  rfl

/-- `__ziplistDelete` removes the entries it is told to, exactly if `p` is at an entry
and the list that results is smaller than 2^32 bytes. -/
theorem ziplistDelete_removes {zl : List UInt8} {before rest : List Node}
    (valid : Represents zl (before ++ rest)) (num : Nat) :
    (∃ zl' nodes, ziplistDeleteEntries junk zl (ziplistHeaderSize + sizes before) num = some zl' ∧
        Represents zl' nodes ∧ nodes.map Node.body = before.map Node.body ++ (rest.drop num).map Node.body) ↔
      rest ≠ [] ∧ deletedSize before rest num < 2 ^ 32 := by
  have fits := valid.fits
  cases rest with
  | nil =>
    rw [append_nil] at valid
    simp [deleteEntries_end junk valid num]
  | cons r rs =>
    rw [deletedSize]
    cases num with
    | zero =>
      rw [deleteEntries_none junk valid, if_pos rfl]
      exact iff_of_true ⟨zl, _, rfl, valid, map_append⟩ ⟨cons_ne_nil r rs, fits⟩
    | succ num =>
      rw [if_neg (Nat.succ_ne_zero num)]
      cases left : (r :: rs).drop (num + 1) with
      | nil =>
        obtain ⟨zl', deleted, valid'⟩ := deleteEntries_tail junk valid (drop_eq_nil_iff.mp left)
        have smaller := valid'.fits
        refine iff_of_true ⟨zl', before, deleted, valid', (append_nil _).symm⟩ ⟨cons_ne_nil r rs, ?_⟩
        rwa [relink, append_nil]
      | cons m ms =>
        have cut : r :: rs = r :: rs.take num ++ m :: ms := by
          rw [← left, ← take_succ_cons, take_append_drop]
        have count : (r :: rs.take num).length = num + 1 := by
          have longer : num + 1 < (r :: rs).length := by
            apply Nat.lt_of_not_le
            intro short
            rw [drop_eq_nil_iff.mpr short] at left
            cases left
          rw [← take_succ_cons, length_take]
          omega
        rw [cut, ← append_assoc] at valid
        obtain ⟨zllen, counts, deleted⟩ := deleteEntries_gap junk valid count
        rw [deleted]
        split
        next small =>
          refine iff_of_true ⟨_, _, rfl, represents_relink valid.chain small counts, ?_⟩ ⟨cons_ne_nil r rs, small⟩
          rw [map_append, relink_bodies]
        next large =>
          refine iff_of_false ?_ fun fine => large fine.2
          rintro ⟨_, _, failed, _⟩
          cases failed

def stringNode (wide : Bool) (len : Nat) : Node where
  wide := wide
  body := zipEncodeLength 0 len ++ replicate len 0

theorem stringNode_ok {wide : Bool} {len : Nat} (bound : len < 2 ^ 32) : BodyOk (stringNode wide len).body := by
  have ok := bodyOk_string (s := replicate len 0) (by rwa [length_replicate])
  rwa [length_replicate] at ok

theorem stringNode_size (wide : Bool) (len : Nat) : (stringNode wide len).size = fieldSize wide + (zipEncodeLength 0 len).length + len := by
  rw [Node.size, stringNode, length_append, length_replicate, Nat.add_assoc]

theorem ziplistDelete_removes_head :
    (∃ zl' nodes, ziplistDeleteEntries (fun _ _ => 0) (image 2 [stringNode false 3, stringNode false 4])
          ziplistHeaderSize 1 = some zl' ∧
        Represents zl' nodes ∧ nodes.map Node.body = [(stringNode false 4).body]) ↔
      [stringNode false 3, stringNode false 4] ≠ [] ∧
        deletedSize [] [stringNode false 3, stringNode false 4] 1 < 2 ^ 32 := by
  have valid : Represents (image 2 [stringNode false 3, stringNode false 4])
      ([] ++ [stringNode false 3, stringNode false 4]) :=
    ⟨⟨fun _ => by decide, stringNode_ok (by decide), fun _ => by decide, stringNode_ok (by decide), trivial⟩, by decide, 2,
      rfl, by decide, fun _ => rfl⟩
  exact ziplistDelete_removes (fun _ _ => 0) valid 1

/-- Four entries in 2^32 - 1 bytes: after the deletion of the second one the third and
the fourth need wide fields. -/
theorem ziplistDelete_outgrows :
    ∃ (zl : List UInt8) (before rest : List Node), Represents zl (before ++ rest) ∧ rest ≠ [] ∧
      ∀ junk, ziplistDeleteEntries junk zl (ziplistHeaderSize + sizes before) 1 = none := by
  obtain ⟨len, length⟩ : ∃ len, len = 2 ^ 32 - 530 := ⟨_, rfl⟩
  have header : (zipEncodeLength 0 len).length = 5 := by
    unfold zipEncodeLength
    rw [if_pos (by decide), if_neg (by omega), if_neg (by omega)]
    simp
  have big : (stringNode false len).size = len + 6 := by
    rw [stringNode_size, header, fieldSize, if_neg Bool.false_ne_true]
    omega
  have small : (stringNode true 0).size = 6 := by decide
  have medium : (stringNode false 250).size = 253 := by rw [stringNode_size]; decide
  have needs : needsWide (len + 6) = true := by
    rw [needsWide, decide_eq_true_eq, zipBiglen]
    omega
  have valid : Represents (image 4 [stringNode false len, stringNode true 0, stringNode false 250, stringNode false 250])
      ([stringNode false len] ++ [stringNode true 0] ++ [stringNode false 250, stringNode false 250]) := by
    refine ⟨⟨fun _ => by decide, stringNode_ok (by omega), fun wide => ?_, stringNode_ok (by decide), fun _ => ?_,
      stringNode_ok (by decide), fun _ => ?_, stringNode_ok (by decide), trivial⟩, ?_, 4, rfl, by decide, fun _ => rfl⟩
    · cases wide
    · rw [small]
      decide
    · rw [medium]
      decide
    · simp only [cons_append, nil_append, sizes_cons, sizes_nil, big, small, medium, ziplistHeaderSize]
      omega
  refine ⟨_, [stringNode false len], [stringNode true 0, stringNode false 250, stringNode false 250], valid,
    cons_ne_nil _ _, fun junk => ?_⟩
  obtain ⟨zllen, _, deleted⟩ := deleteEntries_gap junk valid rfl
  rw [length_singleton] at deleted
  have last : lastSize 0 [stringNode false len] = len + 6 := by rw [lastSize_cons, big]; rfl
  have widened : ({ stringNode false 250 with wide := true } : Node).size = 257 := by
    rw [Node.size_widen rfl, medium]
  have grown : cascade 257 [stringNode false 250] = [{ stringNode false 250 with wide := true }] := by
    rw [cascade, if_pos ⟨by decide, rfl⟩, cascade]
  rw [deleted, if_neg]
  rw [last, relink, needs]
  simp only [widened, grown, sizes_append, sizes_cons, sizes_nil, big, ziplistHeaderSize]
  omega

end Cplusplus.Redis.Ziplist
