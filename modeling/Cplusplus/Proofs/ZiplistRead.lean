import Cplusplus.ZsetRanges
import Cplusplus.Proofs.ZiplistDelete

/-! Reading a ziplist. A pointer is given by the nodes in front of it; each of the functions
that move or read is computed at such a pointer. -/

namespace Cplusplus.Redis.Ziplist
open Bytes Decimal List Option

def pointer (before : List Node) : Nat := ziplistHeaderSize + sizes before

variable {zl : List UInt8} {nodes before after : List Node} {m n : Node}

theorem pointer_append (before after : List Node) : pointer (before ++ after) = pointer before + sizes after := by
  rw [pointer, sizes_append, ← Nat.add_assoc, ← pointer]

theorem pointer_next (before : List Node) (n : Node) : pointer (before ++ [n]) = pointer before + n.size := by
  simp [pointer_append]

namespace Represents

theorem drop_at (valid : Represents zl (before ++ after)) : zl.drop (pointer before) = encodeFrom (lastSize 0 before) after ++ [zipEnd] := by
  obtain ⟨_, _, zllen, rfl, _⟩ := valid
  rw [image_append, pointer, ← encodeFrom_length 0 before, block_drop, append_assoc, drop_left]

theorem drop_node (valid : Represents zl (before ++ n :: after)) :
    zl.drop (pointer before) = field n.wide (lastSize 0 before) ++ n.body ++ (encodeFrom n.size after ++ [zipEnd]) := by
  rw [valid.drop_at, encodeFrom]
  simp only [append_assoc]

theorem length_eq (valid : Represents zl nodes) : zl.length = pointer nodes + 1 := by
  obtain ⟨_, _, zllen, rfl, _⟩ := valid
  simp only [image, pointer, block_length, length_append, encodeFrom_length, length_singleton, Nat.add_assoc]

theorem node (valid : Represents zl (before ++ n :: after)) :
    (n.wide = false → lastSize 0 before < zipBiglen) ∧ lastSize 0 before < 2 ^ 32 ∧ BodyOk n.body ∧ n.size < 2 ^ 32 := by
  obtain ⟨chain, fits, _⟩ := valid
  obtain ⟨narrow, ok, _⟩ := (chainOk_append.mp chain).2
  have lower := lastSize_le 0 before
  rw [sizes_append, sizes_cons] at fits
  exact ⟨narrow, by omega, ok, by omega⟩

theorem mark (valid : Represents zl (before ++ after)) : ∃ b, zl[pointer before]? = some b ∧ (b = zipEnd ↔ after = []) := by
  obtain ⟨b, head, last⟩ := encodeFrom_head (chainOk_append.mp valid.chain).2
  refine ⟨b, ?_, last⟩
  rw [getElem?_drop_zero, valid.drop_at]
  exact head

theorem mark_node (valid : Represents zl (before ++ n :: after)) : ∃ b, zl[pointer before]? = some b ∧ b ≠ zipEnd := by
  obtain ⟨b, head, last⟩ := valid.mark
  exact ⟨b, head, fun ended => cons_ne_nil n after (last.mp ended)⟩

theorem mark_end (valid : Represents zl nodes) : zl[pointer nodes]? = some zipEnd := by
  rw [← append_nil nodes] at valid
  obtain ⟨b, head, last⟩ := valid.mark
  rw [head, last.mpr rfl]

theorem rawlen (valid : Represents zl (before ++ n :: after)) : zipRawEntryLength (zl.drop (pointer before)) = some n.size := by
  obtain ⟨narrow, bound, ok, small⟩ := valid.node
  rw [valid.drop_node]
  exact zipRawEntryLength_node narrow bound ok small _

theorem prevlen (valid : Represents zl (before ++ n :: after)) :
    zipDecodePrevlen (zl.drop (pointer before)) = some (fieldSize n.wide, lastSize 0 before) := by
  obtain ⟨narrow, bound, _⟩ := valid.node
  rw [valid.drop_node, append_assoc]
  exact (zipDecodePrevlen_field narrow bound _).1

theorem tailOffset (valid : Represents zl nodes) : ziplistTailOffset zl = some (pointer nodes.dropLast) := by
  obtain ⟨_, fits, zllen, rfl, _⟩ := valid
  have lower := sizes_dropLast_le nodes
  exact block_tail (by omega) _ _ _

theorem next (valid : Represents zl (before ++ n :: after)) :
    ziplistNext zl (pointer before) = some (if after = [] then none else some (pointer (before ++ [n]))) := by
  obtain ⟨b, head, notEnd⟩ := valid.mark_node
  have size := valid.rawlen
  rw [append_cons] at valid
  obtain ⟨c, head', last⟩ := valid.mark
  rw [pointer_next] at head' ⊢
  simp only [ziplistNext, head, notEnd, size, head', last, if_false, bind_eq_bind, bind_some]
  rfl

theorem next_end (valid : Represents zl nodes) : ziplistNext zl (pointer nodes) = some none := by
  simp only [ziplistNext, valid.mark_end, if_true, bind_eq_bind, bind_some]
  rfl

theorem prev (valid : Represents zl (before ++ m :: n :: after)) : ziplistPrev zl (pointer (before ++ [m])) = some (some (pointer before)) := by
  rw [append_cons] at valid
  obtain ⟨b, head, notEnd⟩ := valid.mark_node
  have size := valid.prevlen
  rw [lastSize_append, lastSize_cons, lastSize] at size
  have positive := m.size_pos
  have inside : 0 < m.size ∧ m.size ≤ pointer before + m.size := ⟨positive, Nat.le_add_left _ _⟩
  have notFirst : pointer before + m.size ≠ ziplistHeaderSize := by
    unfold pointer
    omega
  rw [pointer_next] at *
  simp only [ziplistPrev, head, notEnd, notFirst, size, getLast?_nil, map_none, getD_none, inside,
    and_self, if_true, if_false, bind_eq_bind, bind_some, Nat.add_sub_cancel]
  rfl

theorem prev_first (valid : Represents zl (n :: after)) : ziplistPrev zl (pointer []) = some none := by
  rw [← nil_append (n :: after)] at valid
  obtain ⟨b, head, notEnd⟩ := valid.mark_node
  simp only [ziplistPrev, head, notEnd, if_false, bind_eq_bind, bind_some]
  rfl

theorem index_first (valid : Represents zl nodes) : ziplistIndex zl 0 = some (if nodes = [] then none else some (pointer [])) := by
  rw [← nil_append nodes] at valid
  obtain ⟨b, head, last⟩ := valid.mark
  have first : indexForward zl 0 (pointer []) = some (pointer [], if b = zipEnd then 0 else -1) := by
    simp only [indexForward, head, bind_eq_bind, bind_some]
    rfl
  have start : pointer [] = ziplistHeaderSize := rfl
  rw [start] at first head
  simp only [ziplistIndex, Int.lt_irrefl, Int.toNat_zero, first, head, start, last, if_false, bind_eq_bind, bind_some, Option.pure_def]
  by_cases empty : nodes = [] <;> simp [empty]

theorem index_empty (valid : Represents zl []) : ziplistIndex zl (-2) = some none := by
  have tail := valid.tailOffset
  have ended := valid.mark_end
  rw [dropLast_nil] at tail
  simp only [ziplistIndex, tail, ended, true_or, if_true, bind_eq_bind, bind_some, Option.pure_def, show (-2 : Int) < 0 by decide]

theorem index_second_last (valid : Represents zl (before ++ [m, n])) : ziplistIndex zl (-2) = some (some (pointer before)) := by
  obtain ⟨c, head', notEnd'⟩ := valid.mark_node
  have size' := valid.prevlen
  have tail := valid.tailOffset
  have front : (before ++ [m, n]).dropLast = before ++ [m] := by
    rw [append_cons, dropLast_concat]
  rw [front] at tail
  rw [append_cons] at valid
  obtain ⟨b, head, notEnd⟩ := valid.mark_node
  have size := valid.prevlen
  rw [lastSize_append, lastSize_cons, lastSize, getLast?_nil, map_none, getD_none] at size
  have positive := m.size_pos
  have inside : m.size ≤ pointer (before ++ [m]) := by
    rw [pointer_next]
    exact Nat.le_add_left _ _
  have back : pointer (before ++ [m]) - m.size = pointer before := by
    rw [pointer_next, Nat.add_sub_cancel]
  have walk : indexBackward zl 1 (pointer (before ++ [m])) m.size = some (pointer before, if 0 < lastSize 0 before then -1 else 0) := by
    simp only [indexBackward, positive, inside, back, size', if_true, bind_eq_bind, bind_some]
  have count : (-(-2 : Int) - 1).toNat = 1 := by decide
  have done : ¬ 0 < if 0 < lastSize 0 before then (-1 : Int) else 0 := by
    split <;> decide
  simp only [ziplistIndex, tail, head, notEnd, size, count, walk, head', notEnd', done, if_true, if_false, or_false,
    bind_eq_bind, bind_some, show (-2 : Int) < 0 by decide]
  rfl

end Represents

/-- Deletion of one entry; it fails exactly if the list that results needs 2^32 bytes. -/
theorem Represents.delete (junk : List UInt8 → Nat → UInt8) (valid : Represents zl (before ++ n :: after)) :
    (pointer (before ++ relink (lastSize 0 before) after) + 1 < 2 ^ 32 → ∃ zl', ziplistDelete junk zl (pointer before) = some zl' ∧
        Represents zl' (before ++ relink (lastSize 0 before) after)) ∧
    (2 ^ 32 ≤ pointer (before ++ relink (lastSize 0 before) after) + 1 → ziplistDelete junk zl (pointer before) = none) := by
  cases after with
  | nil =>
    obtain ⟨zl', deleted, valid'⟩ := deleteEntries_tail junk valid (Nat.le_refl 1)
    rw [relink, append_nil]
    exact ⟨fun _ => ⟨zl', deleted, valid'⟩, fun large => absurd valid'.fits (Nat.not_lt.mpr large)⟩
  | cons m after =>
    rw [append_cons] at valid
    obtain ⟨zllen, counts, deleted⟩ := deleteEntries_gap junk valid rfl
    unfold pointer
    refine ⟨fun fits => ?_, fun large => ?_⟩
    · rw [if_pos fits] at deleted
      exact ⟨_, deleted, represents_relink valid.chain fits counts⟩
    · rw [if_neg (Nat.not_lt.mpr large)] at deleted
      exact deleted

/-- The lists that result when entries behind `before` are deleted one after the other are
all smaller than 2^32 bytes. -/
def DeletesFit (before : List Node) : Nat → List Node → Prop
  | 0, _ => True
  | count + 1, rest =>
    pointer (before ++ relink (lastSize 0 before) rest.tail) + 1 < 2 ^ 32 ∧
      DeletesFit before count (relink (lastSize 0 before) rest.tail)

variable {p : List UInt8} {width : Nat}

theorem load_extend {value : Nat} (read : load width p = some value) (rest : List UInt8) : load width (p ++ rest) = some value := by
  unfold load at read ⊢
  split at read
  next inside =>
    rw [if_pos (by rw [length_append]; omega), take_append_of_le_length inside]
    exact read
  next => cases read

variable {value : Int}

theorem loadInt_extend (read : loadInt width p = some value) (rest : List UInt8) : loadInt width (p ++ rest) = some value := by
  obtain ⟨number, loaded, same⟩ := map_eq_some_iff.mp read
  rw [loadInt, load_extend loaded rest, map_some, same]

theorem zipLoadInteger_extend {encoding : UInt8} (read : zipLoadInteger p encoding = some value)
    (rest : List UInt8) : zipLoadInteger (p ++ rest) encoding = some value := by
  unfold zipLoadInteger at read ⊢
  split
  next this =>
    rw [if_pos this] at read
    exact loadInt_extend read rest
  next other =>
  rw [if_neg other] at read
  split
  next this =>
    rw [if_pos this] at read
    exact loadInt_extend read rest
  next other =>
  rw [if_neg other] at read
  split
  next this =>
    rw [if_pos this] at read
    exact loadInt_extend read rest
  next other =>
  rw [if_neg other] at read
  split
  next this =>
    rw [if_pos this] at read
    obtain ⟨number, loaded, same⟩ := map_eq_some_iff.mp read
    rw [load_extend loaded rest, map_some, same]
  next other =>
  rw [if_neg other] at read
  split
  next this =>
    rw [if_pos this] at read
    exact loadInt_extend read rest
  next other =>
    rw [if_neg other] at read
    exact read

theorem signed_range {w : Nat} (small : w ≤ 64) (x : BitVec w) : -2 ^ 63 ≤ x.toInt ∧ x.toInt < 2 ^ 63 := by
  have low := BitVec.le_toInt x
  have high := BitVec.toInt_lt (x := x)
  have bound : 2 ^ (w - 1) ≤ 2 ^ 63 := Nat.pow_le_pow_right (by decide) (by omega)
  have cast : ((2 ^ (w - 1) : Nat) : Int) = 2 ^ (w - 1) := by norm_cast
  omega

theorem loadInt_range (small : width ≤ 8) (read : loadInt width p = some value) : -2 ^ 63 ≤ value ∧ value < 2 ^ 63 := by
  obtain ⟨number, _, rfl⟩ := map_eq_some_iff.mp read
  exact signed_range (by omega) _

theorem zipLoadInteger_range {encoding : UInt8} (read : zipLoadInteger p encoding = some value) : -2 ^ 63 ≤ value ∧ value < 2 ^ 63 := by
  unfold zipLoadInteger at read
  split at read
  · exact loadInt_range (by decide) read
  split at read
  · exact loadInt_range (by decide) read
  split at read
  · exact loadInt_range (by decide) read
  split at read
  · obtain ⟨number, _, rfl⟩ := map_eq_some_iff.mp read
    exact signed_range (by decide) _
  split at read
  · exact loadInt_range (by decide) read
  split at read
  · cases read
    have := (encoding &&& 0x0f).toNat_lt
    omega
  · cases read

theorem ll2string_entry (bound : value.natAbs < 2 ^ 64) : ll2string 128 value = numeral value :=
  ll2string_roomy bound (by decide)

theorem Represents.get (valid : Represents zl (before ++ n :: after)) {value : List UInt8}
    (stored : bodyValue n.body = some value) : ziplistGetObject zl (pointer before) = some value := by
  obtain ⟨narrow, bound, ⟨encoding, lensize, len, positive, length, decode⟩, small⟩ := valid.node
  obtain ⟨b, head, notEnd⟩ := valid.mark_node
  have cut := valid.drop_node
  generalize encodeFrom n.size after ++ [zipEnd] = rest at cut
  have dropped : (field n.wide (lastSize 0 before) ++ (n.body ++ rest)).drop (fieldSize n.wide) = n.body ++ rest := by
    rw [← field_length n.wide (lastSize 0 before), drop_left]
  have contents : zl.drop (pointer before + (fieldSize n.wide + lensize)) = n.body.drop lensize ++ rest := by
    rw [← drop_drop, cut, append_assoc, ← drop_drop, dropped, drop_append_of_le_length (by omega)]
  have entry : zipEntry (zl.drop (pointer before)) =
      some ⟨fieldSize n.wide, lastSize 0 before, lensize, len, fieldSize n.wide + lensize, encoding⟩ := by
    rw [cut, append_assoc]
    simp only [zipEntry, (zipDecodePrevlen_field narrow bound (n.body ++ rest)).1, dropped, decode, bind_eq_bind, bind_some]
    rfl
  have here := decode []
  rw [append_nil] at here
  simp only [bodyValue, here, bind_eq_bind, bind_some] at stored
  cases isStr : zipIsStr encoding with
  | true =>
    have inside : pointer before + (fieldSize n.wide + lensize) + len ≤ zl.length := by
      have total := congrArg List.length contents
      rw [length_append, length_drop, length_drop] at total
      have nonempty : pointer before < zl.length := (List.getElem?_eq_some_iff.mp head).1
      have whole := congrArg List.length cut
      simp only [length_append, field_length, length_drop] at whole
      omega
    rw [isStr, if_pos rfl] at stored
    simp only [ziplistGetObject, ziplistGet, head, notEnd, entry, isStr, inside, contents, if_false, if_true,
      bind_eq_bind, bind_some, Option.pure_def]
    rw [← stored, take_append_of_le_length (by rw [length_drop]; omega)]
    rfl
  | false =>
    rw [isStr, if_neg Bool.false_ne_true] at stored
    obtain ⟨number, loaded, rfl⟩ := map_eq_some_iff.mp (by
      rw [map_eq_bind]
      exact stored)
    have range := zipLoadInteger_range loaded
    have bounded : number.natAbs < 2 ^ 64 := by omega
    simp only [ziplistGetObject, ziplistGet, head, notEnd, entry, isStr, contents, zipLoadInteger_extend loaded rest,
      ll2string_entry bounded, Bool.false_eq_true, if_false, bind_eq_bind, bind_some,
      Option.pure_def]

end Cplusplus.Redis.Ziplist
