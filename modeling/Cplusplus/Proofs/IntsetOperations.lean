import Cplusplus.Intset
import Cplusplus.Library.Run
import Cplusplus.Proofs.ZiplistValues
import Mathlib.Data.Finset.Card

/-! The values of an intset and the binary search among them. -/

namespace Cplusplus.Redis.Intsets

section
open Bytes Redis.Ziplist List Option

section
def Fits (enc : IntsetEnc) (v : Int) : Prop := -2 ^ (8 * enc.size - 1) ≤ v ∧ v < 2 ^ (8 * enc.size - 1)

structure Holds (is : Intset) (values : List Int) : Prop where
  sorted : values.Pairwise (· < ·)
  fits : ∀ v ∈ values, Fits is.encoding v
  length : is.length = values.length
  contents : is.contents = values.flatMap (intBytes is.encoding.size)
  room : values.length * is.encoding.size < 2 ^ 32

variable {is : Intset} {values front back : List Int} {v : Int} {enc : IntsetEnc}

theorem size_pos (enc : IntsetEnc) : 0 < enc.size := by cases enc <;> decide

theorem intBytes_length (width : Nat) (v : Int) : (intBytes width v).length = width := leBytes_length ..

theorem fits_int64 : Fits .int64 v ↔ -2 ^ 63 ≤ v ∧ v < 2 ^ 63 := Iff.rfl

theorem valueEncoding_cases (v : Int) : (intsetValueEncoding v = .int64 ∧ (v < -2 ^ 31 ∨ 2 ^ 31 - 1 < v)) ∨
      (intsetValueEncoding v = .int32 ∧ (-2 ^ 31 ≤ v ∧ v < 2 ^ 31) ∧ (v < -2 ^ 15 ∨ 2 ^ 15 - 1 < v)) ∨
      (intsetValueEncoding v = .int16 ∧ -2 ^ 15 ≤ v ∧ v < 2 ^ 15) := by
  unfold intsetValueEncoding
  split
  next large => exact .inl ⟨rfl, large⟩
  next =>
    split
    next large => exact .inr (.inl ⟨rfl, by omega, large⟩)
    next => exact .inr (.inr ⟨rfl, by omega⟩)

theorem encoding_le (int64 : Fits .int64 v) : (intsetValueEncoding v).size ≤ enc.size ↔ Fits enc v := by
  rw [fits_int64] at int64
  rcases valueEncoding_cases v with ⟨encoding, range⟩ | ⟨encoding, range⟩ | ⟨encoding, range⟩
  · rw [encoding]
    cases enc <;> simp only [Fits, IntsetEnc.size] <;> omega
  · rw [encoding]
    cases enc <;> simp only [Fits, IntsetEnc.size] <;> omega
  · rw [encoding]
    cases enc <;> simp only [Fits, IntsetEnc.size] <;> omega

theorem Fits.int64 (fits : Fits enc v) : Fits .int64 v := by
  cases enc <;> simp only [Fits, IntsetEnc.size] at fits ⊢ <;> omega

theorem Fits.mono {enc' : IntsetEnc} (fits : Fits enc v) (wider : enc.size ≤ enc'.size) : Fits enc' v :=
  (encoding_le fits.int64).mp (Nat.le_trans ((encoding_le fits.int64).mpr fits) wider)

theorem loadInt_records (fits : ∀ v ∈ values, Fits enc v) (rest : List UInt8) {pos : Nat} (inside : pos < values.length) :
    loadInt enc.size ((values.flatMap (intBytes enc.size) ++ rest).drop (pos * enc.size)) = some values[pos] := by
  have total := records_length (intBytes_length enc.size) values
  have less := Nat.mul_le_mul_right enc.size (Nat.le_of_lt inside)
  obtain ⟨low, high⟩ := fits values[pos] (getElem_mem inside)
  rw [drop_append_of_le_length (by omega), records_drop (intBytes_length enc.size), drop_eq_getElem_cons inside, flatMap_cons, append_assoc]
  exact loadInt_intBytes enc.size (size_pos enc) low high _

theorem Holds.get (holds : Holds is values) (pos : Nat) : intsetGetPos is pos = values[pos]? := by
  rw [intsetGetPos, intsetGetEncoded, holds.contents]
  rcases Nat.lt_or_ge pos values.length with inside | outside
  · have read := loadInt_records holds.fits [] inside
    rw [append_nil] at read
    rw [read, getElem?_eq_getElem inside]
  · have empty : load is.encoding.size [] = none := if_neg (Nat.not_le.mpr (size_pos _))
    rw [records_drop (intBytes_length _), drop_eq_nil_of_le outside, getElem?_eq_none outside, flatMap_nil, loadInt, empty, map_none]

def Found (values : List Int) (value : Int) (found : Bool) (pos : Nat) : Prop :=
  ∃ front back, front.length = pos ∧
    if found then values = front ++ value :: back
    else values = front ++ back ∧ (∀ x ∈ front, x < value) ∧ ∀ x ∈ back, value < x

theorem found_at {pos : Nat} (here : values[pos]? = some v) : Found values v true pos := by
  obtain ⟨inside, rfl⟩ := List.getElem?_eq_some_iff.mp here
  refine ⟨values.take pos, values.drop (pos + 1), ?_, ?_⟩
  · rw [length_take, Nat.min_eq_left (Nat.le_of_lt inside)]
  · rw [if_pos rfl, ← drop_eq_getElem_cons inside, take_append_drop]

theorem belongs_at {pos : Nat} (inside : pos ≤ values.length) (low : ∀ i < pos, ∀ x, values[i]? = some x → x < v)
    (high : ∀ i ≥ pos, ∀ x, values[i]? = some x → v < x) : Found values v false pos := by
  refine ⟨values.take pos, values.drop pos, ?_, ?_⟩
  · rw [length_take, Nat.min_eq_left inside]
  · rw [if_neg Bool.false_ne_true, take_append_drop]
    refine ⟨rfl, ?_, ?_⟩
    · intro x member
      obtain ⟨i, at_⟩ := mem_iff_getElem?.mp member
      rw [getElem?_take] at at_
      split at at_
      next less => exact low i less x at_
      next => cases at_
    · intro x member
      obtain ⟨i, at_⟩ := mem_iff_getElem?.mp member
      rw [getElem?_drop] at at_
      exact high _ (Nat.le_add_right pos i) x at_

theorem sorted_lt (sorted : values.Pairwise (· < ·)) {i j : Nat} {x y : Int} (less : i < j) (left : values[i]? = some x)
    (right : values[j]? = some y) : x < y := by
  obtain ⟨inside, rfl⟩ := List.getElem?_eq_some_iff.mp left
  obtain ⟨inside', rfl⟩ := List.getElem?_eq_some_iff.mp right
  exact pairwise_iff_getElem.mp sorted i j inside inside' less

/-- The binary search: what is in front of `min` is smaller, what is behind `max` is larger. -/
theorem intsetSearchLoop_spec (holds : Holds is values) (v : Int) :
    ∀ (fuel : Nat) (min max mid cur : Int), 0 ≤ min → max < values.length → min ≤ max + 1 → max - min + 1 < fuel →
      (min ≤ max ∨ cur ≠ v) → (∀ i : Nat, i < min → ∀ x, values[i]? = some x → x < v) →
      (∀ i : Nat, max < i → ∀ x, values[i]? = some x → v < x) →
      ∃ min' mid' cur', intsetSearchLoop is v fuel min max mid cur = some (min', mid', cur') ∧
        if v = cur' then Found values v true mid'.toNat else Found values v false min'.toNat := by
  intro fuel
  induction fuel with
  | zero => intro min max mid cur _ _ _ enough; omega
  | succ fuel ih =>
    intro min max mid cur start stop order enough proper low high
    unfold intsetSearchLoop
    split
    next going =>
      obtain ⟨m, middle⟩ : ∃ m : Nat, (min + max) / 2 = m := Int.eq_ofNat_of_zero_le (by omega)
      have inside : m < values.length := by omega
      have here := getElem?_eq_getElem inside
      have read : intsetGetPos is m = some values[m] := by rw [holds.get, here]
      simp only [middle, Int.toNat_natCast, read, bind_eq_bind, bind_some]
      split
      next below =>
        apply ih (m + 1) max m values[m] (by omega) stop (by omega) (by omega) (.inr (Int.ne_of_lt below)) _ high
        intro i less x at_
        rcases Nat.lt_or_eq_of_le (show i ≤ m by omega) with lower | rfl
        · exact Int.lt_trans (sorted_lt holds.sorted lower at_ here) below
        · rw [here] at at_
          cases at_
          exact below
      next =>
        split
        next above =>
          apply ih min (m - 1) m values[m] start (by omega) (by omega) (by omega) (.inr (Int.ne_of_gt above)) low
          intro i less x at_
          rcases Nat.lt_or_eq_of_le (show m ≤ i by omega) with higher | rfl
          · exact Int.lt_trans above (sorted_lt holds.sorted higher here at_)
          · rw [here] at at_
            cases at_
            exact above
        next notBelow notAbove =>
          have equal : values[m] = v := Int.le_antisymm (Int.not_lt.mp notAbove) (Int.not_lt.mp notBelow)
          refine ⟨min, m, values[m], rfl, ?_⟩
          rw [if_pos equal.symm]
          exact found_at (by rw [Int.toNat_natCast, here, equal])
    next crossed =>
      refine ⟨min, mid, cur, rfl, ?_⟩
      rw [if_neg (proper.resolve_left crossed).symm]
      apply belongs_at (by omega)
      · exact fun i less => low i (by omega)
      · exact fun i more => high i (by omega)

theorem intsetSearch_spec (holds : Holds is values) (v : Int) :
    ∃ found pos, intsetSearch is v = some (found, pos) ∧ Found values v found pos := by
  unfold intsetSearch
  rw [holds.length]
  cases values.eq_nil_or_concat with
  | inl empty =>
    subst empty
    exact ⟨false, 0, rfl, [], [], rfl, by simp⟩
  | inr more =>
    obtain ⟨init, last, rfl⟩ := more
    rw [concat_eq_append] at holds ⊢
    obtain ⟨first, rest, order⟩ : ∃ first rest, init ++ [last] = first :: rest := exists_cons_of_ne_nil (by simp)
    have nonempty : (init ++ [last]).length ≠ 0 := by simp
    have readLast : intsetGetPos is ((init ++ [last]).length - 1) = some last := by
      rw [holds.get]
      simp
    have readFirst : intsetGetPos is 0 = some first := by
      rw [holds.get, order]
      rfl
    simp only [nonempty, if_false, readLast, readFirst, bind_eq_bind, bind_some]
    split
    next above =>
      refine ⟨false, _, rfl, init ++ [last], [], rfl, ?_⟩
      rw [if_neg Bool.false_ne_true, append_nil]
      refine ⟨rfl, ?_, by simp⟩
      intro x member
      rcases mem_append.mp member with member | member
      · exact Int.lt_trans ((pairwise_append.mp holds.sorted).2.2 x member last (by simp)) above
      · rwa [mem_singleton.mp member]
    next =>
      split
      next below =>
        refine ⟨false, 0, rfl, [], first :: rest, rfl, ?_⟩
        rw [if_neg Bool.false_ne_true, order]
        refine ⟨rfl, by simp, ?_⟩
        intro x member
        have sorted := holds.sorted
        rw [order] at sorted
        rcases mem_cons.mp member with rfl | member
        · exact below
        · exact Int.lt_trans below ((pairwise_cons.mp sorted).1 x member)
      next =>
        obtain ⟨min, mid, cur, run, result⟩ := intsetSearchLoop_spec holds v ((init ++ [last]).length + 1) 0
          ((init ++ [last]).length - 1) (-1) (-1) (Int.le_refl 0) (by omega) (by omega) (by omega) (.inl (by omega))
          (by omega) (by
            intro i far x at_
            have := (List.getElem?_eq_some_iff.mp at_).1
            omega)
        simp only [run, bind_some]
        split at result
        next equal => exact ⟨true, _, by rw [if_pos equal]; rfl, result⟩
        next differ => exact ⟨false, _, by rw [if_neg differ]; rfl, result⟩

end

/-! Adding and removing. The bytes are moved and re-encoded in place; the room of the set is
computed in 32 bits. -/

section
variable (junk : List UInt8 → Nat → UInt8)
variable {is : Intset} {values front back : List Int} {v : Int} {enc : IntsetEnc}

theorem sorted_insert (sorted : (front ++ back).Pairwise (· < ·)) (low : ∀ x ∈ front, x < v) (high : ∀ x ∈ back, v < x) :
    (front ++ v :: back).Pairwise (· < ·) := by
  obtain ⟨left, right, across⟩ := pairwise_append.mp sorted
  refine pairwise_append.mpr ⟨left, pairwise_cons.mpr ⟨high, right⟩, ?_⟩
  intro x inFront y inBack
  rcases mem_cons.mp inBack with rfl | inBack
  · exact low x inFront
  · exact across x inFront y inBack

theorem not_mem_of_between (low : ∀ x ∈ front, x < v) (high : ∀ x ∈ back, v < x) : v ∉ front ++ back := by
  intro member
  rcases mem_append.mp member with member | member
  · exact Int.lt_irrefl v (low v member)
  · exact Int.lt_irrefl v (high v member)

theorem found_iff {found : Bool} {pos : Nat} (result : Found values v found pos) : found = true ↔ v ∈ values := by
  obtain ⟨front, back, _, split⟩ := result
  cases found with
  | true =>
    rw [if_pos rfl] at split
    exact iff_of_true rfl (by simp [split])
  | false =>
    rw [if_neg Bool.false_ne_true] at split
    obtain ⟨rfl, low, high⟩ := split
    exact iff_of_false Bool.false_ne_true (not_mem_of_between low high)

theorem size_le (enc : IntsetEnc) : 2 ≤ enc.size := by cases enc <;> decide

theorem resize_size (small : (values.length + 1) * enc.size < 2 ^ 32) :
    (values.length + 1) % 2 ^ 32 * enc.size % 2 ^ 32 = (values.length + 1) * enc.size := by
  have := Nat.mul_le_mul_left (values.length + 1) (size_le enc)
  rw [Nat.mod_eq_of_lt (show values.length + 1 < 2 ^ 32 by omega), Nat.mod_eq_of_lt small]

theorem insert_spec (holds : Holds is (front ++ back)) (fits : Fits is.encoding v) (low : ∀ x ∈ front, x < v)
    (high : ∀ x ∈ back, v < x) (room : ((front ++ back).length + 1) * is.encoding.size < 2 ^ 32) :
    ∃ moved is', (if front.length < is.length then
          intsetMoveTail (intsetResize junk is (is.length + 1)) front.length (front.length + 1)
        else some (intsetResize junk is (is.length + 1))) = some moved ∧
      intsetSetPos moved front.length v = some is' ∧
      Holds { is' with length := (is.length + 1) % 2 ^ 32 } (front ++ v :: back) := by
  have size := records_length (intBytes_length is.encoding.size)
  have small := Nat.mul_le_mul_left ((front ++ back).length + 1) (size_le is.encoding)
  obtain ⟨spare, grown, length⟩ := realloc_grow junk is.contents (((front ++ back).length + 1) * is.encoding.size)
    (by rw [holds.contents, size]; exact Nat.mul_le_mul_right _ (Nat.le_succ _))
  rw [holds.contents, size, Nat.succ_mul, Nat.add_sub_cancel_left] at length
  have resized : intsetResize junk is (is.length + 1) =
      { is with contents := (front ++ back).flatMap (intBytes is.encoding.size) ++ spare } := by
    rw [intsetResize, holds.length, resize_size room, grown, holds.contents]
  obtain ⟨after, bytes_⟩ : ∃ after : Intset, after = { is with
      contents := (front ++ [v]).flatMap (intBytes is.encoding.size) ++ back.flatMap (intBytes is.encoding.size) } := ⟨_, rfl⟩
  have kept : Holds { after with length := (is.length + 1) % 2 ^ 32 } (front ++ v :: back) := by
    rw [bytes_]
    constructor
    · exact sorted_insert holds.sorted low high
    · intro x member
      rw [mem_append, mem_cons, or_left_comm, ← mem_append] at member
      rcases member with rfl | member
      · exact fits
      · exact holds.fits x member
    · simp only [holds.length, length_append, length_cons] at small room ⊢
      omega
    · simp
    · simpa only [length_append, length_cons, Nat.add_assoc] using room
  rw [resized]
  cases back with
  | nil =>
    rw [append_nil] at *
    have last : ¬ front.length < is.length := by rw [holds.length]; exact Nat.lt_irrefl _
    have stored := store_record (intBytes_length is.encoding.size) front length v [] rfl
    rw [append_nil] at stored
    refine ⟨_, after, if_neg last, ?_, kept⟩
    simp only [intsetSetPos, stored, bind_eq_bind, bind_some, bytes_, flatMap_nil, append_nil]
    rfl
  | cons b back =>
    have inside : front.length < is.length := by
      rw [holds.length, length_append, length_cons]
      omega
    obtain ⟨old, width, moved⟩ := memmove_up (intBytes_length is.encoding.size) front (b :: back) length
    have bytes : (is.length - front.length) * is.encoding.size % 2 ^ 32 = (b :: back).length * is.encoding.size := by
      rw [holds.length, length_append, Nat.add_sub_cancel_left, Nat.mod_eq_of_lt]
      have part := holds.room
      rw [length_append, Nat.add_mul] at part
      omega
    have stored := store_record (intBytes_length is.encoding.size) front width v ((b :: back).flatMap (intBytes is.encoding.size)) rfl
    refine ⟨{ is with contents := front.flatMap (intBytes is.encoding.size) ++ old ++
      (b :: back).flatMap (intBytes is.encoding.size) }, after, ?_, ?_, kept⟩
    · rw [if_pos inside]
      simp only [intsetMoveTail, bytes, moved, bind_eq_bind, bind_some]
      rfl
    · simp only [intsetSetPos, stored, bind_eq_bind, bind_some, bytes_]
      rfl

/-- The values are re-encoded from the last one on; a value is read before the bytes of the
wider encoding reach it. -/
theorem upgradeLoop_spec (enc newenc : IntsetEnc) (wider : enc.size ≤ newenc.size) (fits : ∀ x ∈ values, Fits enc x)
    (shift : Nat) :
    ∀ (k : Nat) (is : Intset) (gap tail : List UInt8), k ≤ values.length → is.encoding = newenc →
      is.contents = (values.take k).flatMap (intBytes enc.size) ++ gap ++ tail →
      gap.length + k * enc.size = (k + shift) * newenc.size →
      ∃ gap', gap'.length = shift * newenc.size ∧ intsetUpgradeLoop enc shift k is =
        some { is with contents := gap' ++ (values.take k).flatMap (intBytes newenc.size) ++ tail } := by
  intro k
  induction k with
  | zero =>
    intro is gap tail _ _ contents length
    rw [Nat.zero_mul, Nat.add_zero, Nat.zero_add] at length
    refine ⟨gap, length, ?_⟩
    rw [take_zero, flatMap_nil, nil_append] at contents
    rw [take_zero, flatMap_nil, append_nil, ← contents]
    rfl
  | succ k ih =>
    intro is gap tail inside encoding contents length
    have here : k < values.length := inside
    have prefix_ : (values.take (k + 1)).length = k + 1 := by rw [length_take, Nat.min_eq_left inside]
    have size := records_length (intBytes_length enc.size) (values.take k)
    rw [length_take, Nat.min_eq_left (Nat.le_of_lt here)] at size
    have fits' : ∀ x ∈ values.take (k + 1), Fits enc x := fun x member => fits x (mem_of_mem_take member)
    have last : k < (values.take (k + 1)).length := by omega
    have read := loadInt_records fits' (gap ++ tail) last
    rw [← append_assoc, ← contents, getElem_take] at read
    have small := Nat.mul_le_mul_left k wider
    rw [Nat.succ_mul, Nat.add_right_comm k 1 shift, Nat.succ_mul, Nat.add_mul] at length
    -- the bytes of the new encoding are cut off the end of what is in front of the tail
    obtain ⟨gap', old, split, cut⟩ : ∃ gap' old, intBytes enc.size values[k] ++ gap = gap' ++ old ∧
        gap'.length + k * enc.size = (k + shift) * newenc.size :=
      ⟨_, _, (take_append_drop ((k + shift) * newenc.size - k * enc.size) _).symm, by
        rw [length_take, length_append, intBytes_length, Nat.add_mul]
        omega⟩
    have lengths := congrArg List.length split
    rw [length_append, length_append, intBytes_length] at lengths
    have whole : is.contents = (values.take k).flatMap (intBytes enc.size) ++ gap' ++ old ++ tail := by
      rw [contents, take_succ_eq_append_getElem here, flatMap_append, flatMap_singleton, append_assoc _ _ gap, split, ← append_assoc]
    have stored : store ((values.take k).flatMap (intBytes enc.size) ++ gap' ++ old ++ tail) ((k + shift) * newenc.size)
        (intBytes newenc.size values[k]) =
          some ((values.take k).flatMap (intBytes enc.size) ++ gap' ++ intBytes newenc.size values[k] ++ tail) := by
      apply store_append
      · rw [length_append, size]
        omega
      · rw [intBytes_length]
        rw [Nat.add_mul] at cut
        omega
    obtain ⟨next, bytes_⟩ : ∃ next : Intset, next = { is with
        contents := (values.take k).flatMap (intBytes enc.size) ++ gap' ++ intBytes newenc.size values[k] ++ tail } := ⟨_, rfl⟩
    obtain ⟨final, width, run⟩ := ih next gap' (intBytes newenc.size values[k] ++ tail) (Nat.le_of_lt here)
      (by rw [bytes_]; exact encoding) (by rw [bytes_]; exact append_assoc _ _ _) cut
    rw [whole] at read
    refine ⟨final, width, ?_⟩
    simp only [intsetUpgradeLoop, intsetGetEncoded, read, intsetSetPos, encoding, whole, stored, bind_eq_bind, bind_some, Option.pure_def]
    rw [bytes_, encoding] at run
    rw [run, take_succ_eq_append_getElem here, flatMap_append, flatMap_singleton]
    simp only [append_assoc]

theorem beyond (holds : Holds is values) (large : ¬ Fits is.encoding v) : if v < 0 then ∀ x ∈ values, v < x else ∀ x ∈ values, x < v := by
  unfold Fits at large
  split
  next negative =>
    intro x member
    have := (holds.fits x member).1
    have : (0 : Int) < 2 ^ (8 * is.encoding.size - 1) := Int.pow_pos (by decide)
    omega
  next =>
    intro x member
    have := (holds.fits x member).2
    omega

theorem intsetUpgradeAndAdd_spec (holds : Holds is values) (int64 : Fits .int64 v) (large : ¬ Fits is.encoding v)
    (room : (values.length + 1) * (intsetValueEncoding v).size < 2 ^ 32) :
    ∃ is' front back, intsetUpgradeAndAdd junk is v = some is' ∧ values = front ++ back ∧ Holds is' (front ++ v :: back) := by
  have wider : is.encoding.size ≤ (intsetValueEncoding v).size := by
    rw [← encoding_le int64] at large
    omega
  have fits : Fits (intsetValueEncoding v) v := (encoding_le int64).mp (Nat.le_refl _)
  have far := beyond holds large
  obtain ⟨newenc, enc_⟩ : ∃ newenc, newenc = intsetValueEncoding v := ⟨_, rfl⟩
  rw [← enc_] at room wider fits
  obtain ⟨shift, shift_⟩ : ∃ shift, shift = if v < 0 then 1 else 0 := ⟨_, rfl⟩
  have bit : shift = 0 ∨ shift = 1 := by
    rw [shift_]
    split
    · exact .inr rfl
    · exact .inl rfl
  have size := records_length (intBytes_length is.encoding.size) values
  have small := Nat.mul_le_mul_left values.length wider
  obtain ⟨spare, grown, length⟩ := realloc_grow junk is.contents ((values.length + 1) * newenc.size)
    (by rw [holds.contents, size, Nat.succ_mul]; omega)
  rw [holds.contents, size] at length
  obtain ⟨gap, tail, split, width⟩ : ∃ gap tail, spare = gap ++ tail ∧
      gap.length + values.length * is.encoding.size = (values.length + shift) * newenc.size :=
    ⟨_, _, (take_append_drop ((values.length + shift) * newenc.size - values.length * is.encoding.size) _).symm, by
      rw [length_take, length, Nat.succ_mul, Nat.add_mul]
      rcases bit with rfl | rfl <;> omega⟩
  have lengths := congrArg List.length split
  rw [length_append, length, Nat.succ_mul] at lengths
  obtain ⟨wide, wide_⟩ : ∃ wide : Intset, wide = ⟨newenc, is.length, is.contents ++ spare⟩ := ⟨_, rfl⟩
  have resized : intsetResize junk { is with encoding := newenc } (is.length + 1) = wide := by
    rw [intsetResize, holds.length, resize_size room, grown, wide_, holds.length]
  obtain ⟨gap', width', run⟩ := upgradeLoop_spec is.encoding newenc wider holds.fits shift values.length wide gap tail
    (Nat.le_refl _) (by rw [wide_]) (by rw [wide_, holds.contents, split, take_length, append_assoc]) width
  rw [take_length, ← holds.length, wide_] at run
  rw [wide_] at resized
  have finish : ∀ contents values', contents = values'.flatMap (intBytes newenc.size) → values'.Pairwise (· < ·) →
      values'.length = values.length + 1 → (∀ x ∈ values', x = v ∨ x ∈ values) →
      Holds ⟨newenc, (is.length + 1) % 2 ^ 32, contents⟩ values' := by
    intro contents values' bytes sorted count members
    constructor
    · exact sorted
    · intro x member
      rcases members x member with rfl | old
      · exact fits
      · exact (holds.fits x old).mono wider
    · have := Nat.mul_le_mul_left (values.length + 1) (size_le newenc)
      rw [count, holds.length]
      exact Nat.mod_eq_of_lt (by omega)
    · exact bytes
    · rw [count]
      exact room
  rcases bit with rfl | rfl
  · have positive : ¬ v < 0 := fun negative => by simp [negative] at shift_
    rw [if_neg positive] at far
    rw [Nat.zero_mul] at width'
    obtain rfl := eq_nil_of_length_eq_zero width'
    rw [Nat.add_zero] at width
    have stored := store_record (intBytes_length newenc.size) values (show tail.length = newenc.size by omega) v [] rfl
    simp only [append_nil, ← holds.length] at stored
    refine ⟨_, values, [], ?_, (append_nil _).symm, finish _ _ rfl ?_ (by simp) (by simp [or_comm])⟩
    · simp only [intsetUpgradeAndAdd, ← enc_, resized, ← shift_, run, intsetSetPos, stored,
        nil_append, bind_eq_bind, bind_some, Nat.zero_ne_one, if_false]
      rfl
    · exact sorted_insert (by simpa using holds.sorted) far (by simp)
  · have negative : v < 0 := by
      by_contra positive
      simp [positive] at shift_
    rw [if_pos negative] at far
    rw [Nat.one_mul] at width'
    obtain rfl := eq_nil_of_length_eq_zero (show tail.length = 0 by rw [Nat.succ_mul] at width; omega)
    have stored := store_record (intBytes_length newenc.size) [] width' v (values.flatMap (intBytes newenc.size))
      (Nat.zero_mul _).symm
    rw [flatMap_nil, nil_append, nil_append] at stored
    refine ⟨_, [], values, ?_, rfl, finish ([v].flatMap (intBytes newenc.size) ++ values.flatMap (intBytes newenc.size)) _
      ?_ ?_ (by simp) (by simp)⟩
    · simp only [intsetUpgradeAndAdd, ← enc_, resized, ← shift_, run, intsetSetPos, append_nil, Nat.zero_mul,
        stored, if_true, bind_eq_bind, bind_some]
      rfl
    · simp
    · exact sorted_insert (by simpa using holds.sorted) (by simp) far

def sizeWith (is : Intset) (value : Int) : Nat := (is.length + 1) * max is.encoding.size (intsetValueEncoding value).size

section
variable (holds : Holds is values)
include holds

theorem intsetAdd_present (member : v ∈ values) : intsetAdd junk is v = some (is, false) := by
  have fits := holds.fits v member
  have narrow := Nat.not_lt.mpr ((encoding_le fits.int64).mpr fits)
  obtain ⟨found, pos, run, result⟩ := intsetSearch_spec holds v
  obtain rfl := (found_iff result).mpr member
  simp only [intsetAdd, narrow, if_false, run, if_true, bind_eq_bind, bind_some]
  rfl

theorem intsetAdd_absent (int64 : Fits .int64 v) (absent : v ∉ values) (room : sizeWith is v < 2 ^ 32) :
    ∃ is' front back, intsetAdd junk is v = some (is', true) ∧ values = front ++ back ∧ Holds is' (front ++ v :: back) := by
  rw [sizeWith, holds.length] at room
  by_cases fits : Fits is.encoding v
  · have small := (encoding_le int64).mpr fits
    have narrow := Nat.not_lt.mpr small
    rw [Nat.max_eq_left small] at room
    obtain ⟨found, pos, run, result⟩ := intsetSearch_spec holds v
    obtain rfl : found = false := by
      rw [← Bool.not_eq_true, found_iff result]
      exact absent
    obtain ⟨front, back, rfl, rfl, low, high⟩ := result
    obtain ⟨moved, is', move, set_, holds'⟩ := insert_spec junk holds fits low high room
    refine ⟨_, front, back, ?_, rfl, holds'⟩
    simp only [intsetAdd, narrow, if_false, run, Bool.false_eq_true, bind_eq_bind, bind_some]
    split
    next inside =>
      rw [if_pos inside] at move
      simp only [move, set_, bind_some]
      rfl
    next last =>
      rw [if_neg last] at move
      cases move
      simp only [set_, bind_some]
      rfl
  · have wide := Nat.lt_of_not_le fun small => fits ((encoding_le int64).mp small)
    rw [Nat.max_eq_right (Nat.le_of_lt wide)] at room
    obtain ⟨is', front, back, run, split, holds'⟩ := intsetUpgradeAndAdd_spec junk holds int64 fits room
    refine ⟨is', front, back, ?_, split, holds'⟩
    simp only [intsetAdd, wide, if_true, run, bind_eq_bind, bind_some]
    rfl

/-- Without room for one more value of 64 bits, the set is cut and the value falls outside. -/
theorem intsetAdd_outgrows (int64 : Fits .int64 v) (absent : v ∉ values)
    (wide : is.encoding = .int64) (full : values.length + 1 = 2 ^ 29) : intsetAdd junk is v = none := by
  have narrow : ¬ is.encoding.size < (intsetValueEncoding v).size := by
    rw [wide]
    exact Nat.not_lt.mpr ((encoding_le int64).mpr int64)
  obtain ⟨found, pos, run, result⟩ := intsetSearch_spec holds v
  obtain rfl : found = false := by
    rw [← Bool.not_eq_true, found_iff result]
    exact absent
  obtain ⟨front, back, rfl, rfl, _, _⟩ := result
  have cut : intsetResize junk is (is.length + 1) = { is with contents := [] } := by
    have size : (is.length + 1) % 2 ^ 32 * is.encoding.size % 2 ^ 32 = 0 := by
      rw [holds.length, full, wide]
      rfl
    rw [intsetResize, size]
    simp [realloc]
  simp only [intsetAdd, narrow, if_false, run, Bool.false_eq_true, cut, bind_eq_bind, bind_some]
  have outside : ∀ bytes : List UInt8, store [] (front.length * is.encoding.size) (intBytes is.encoding.size v) = none :=
    fun _ => store_none (by rw [intBytes_length, wide, IntsetEnc.size, length_nil]; omega)
  split
  next inside =>
    have moved : memmove [] ((front.length + 1) * is.encoding.size) (front.length * is.encoding.size)
        ((is.length - front.length) * is.encoding.size % 2 ^ 32) = none := by
      apply memmove_none
      rw [wide, IntsetEnc.size, length_nil]
      have := holds.length
      rw [length_append] at full this
      omega
    simp only [intsetMoveTail, moved, bind_eq_bind, bind_none]
  next => simp only [intsetSetPos, outside [], bind_eq_bind, bind_none]

theorem intsetRemove_present (member : v ∈ values) :
    ∃ is' front back, intsetRemove junk is v = some (is', true) ∧ values = front ++ v :: back ∧ Holds is' (front ++ back) := by
  have fits := holds.fits v member
  have narrow := (encoding_le fits.int64).mpr fits
  obtain ⟨found, pos, run, result⟩ := intsetSearch_spec holds v
  obtain rfl := (found_iff result).mpr member
  obtain ⟨front, back, rfl, rfl⟩ := result
  have size := records_length (intBytes_length is.encoding.size)
  have sub : List.Sublist (front ++ back) (front ++ v :: back) := (List.Sublist.refl front).append (sublist_cons_self v back)
  have count : is.length - 1 = (front ++ back).length := by
    rw [holds.length]
    simp
  have room : (front ++ back).length * is.encoding.size < 2 ^ 32 := Nat.lt_of_le_of_lt (Nat.mul_le_mul_right _ sub.length_le) holds.room
  have len : (is.length - 1) % 2 ^ 32 * is.encoding.size % 2 ^ 32 = (front ++ back).length * is.encoding.size := by
    have := Nat.mul_le_mul_left (front ++ back).length (size_le is.encoding)
    rw [count, Nat.mod_eq_of_lt (show (front ++ back).length < 2 ^ 32 by omega), Nat.mod_eq_of_lt room]
  obtain ⟨spare, width, moved⟩ := memmove_down (intBytes_length is.encoding.size) front v back
  obtain ⟨spare', moved'⟩ : ∃ spare', (if front.length < is.length - 1 then intsetMoveTail is (front.length + 1) front.length
      else some is) = some { is with contents := (front ++ back).flatMap (intBytes is.encoding.size) ++ spare' } := by
    split
    next inside =>
      have bytes : (is.length - (front.length + 1)) * is.encoding.size % 2 ^ 32 = back.length * is.encoding.size := by
        have part := room
        rw [length_append, Nat.add_mul] at part
        have rest : is.length - (front.length + 1) = back.length := by
          rw [holds.length, length_append, length_cons]
          omega
        rw [rest, Nat.mod_eq_of_lt (by omega)]
      refine ⟨spare, ?_⟩
      simp only [intsetMoveTail, bytes, holds.contents, moved, bind_eq_bind, bind_some]
      rfl
    next last =>
      obtain rfl : back = [] := by
        rw [count, length_append] at last
        exact eq_nil_of_length_eq_zero (by omega)
      refine ⟨intBytes is.encoding.size v, ?_⟩
      have contents := holds.contents
      rw [flatMap_append, flatMap_singleton] at contents
      rw [append_nil, ← contents]
  refine ⟨{ is with contents := (front ++ back).flatMap (intBytes is.encoding.size), length := is.length - 1 }, front, back, ?_,
    rfl, ⟨holds.sorted.sublist sub, fun x member => holds.fits x (sub.subset member), count, rfl, room⟩⟩
  have kept := realloc_cut junk ((front ++ back).flatMap (intBytes is.encoding.size)) spare'
  rw [size] at kept
  simp only [intsetRemove, narrow, if_true, run, bind_eq_bind, bind_some]
  split
  next inside =>
    rw [if_pos inside] at moved'
    simp only [moved', intsetResize, len, kept, bind_some]
    rfl
  next last =>
    rw [if_neg last] at moved'
    have contents := congrArg Intset.contents (some.inj moved')
    simp only [intsetResize, len, contents, kept]
    rfl

theorem intsetRemove_absent (absent : v ∉ values) : intsetRemove junk is v = some (is, false) := by
  unfold intsetRemove
  split
  next =>
    obtain ⟨found, pos, run, result⟩ := intsetSearch_spec holds v
    obtain rfl : found = false := by
      rw [← Bool.not_eq_true, found_iff result]
      exact absent
    simp only [run, Bool.false_eq_true, if_false, bind_eq_bind, bind_some]
    rfl
  next => rfl

theorem intsetFind_spec (int64 : Fits .int64 v) : intsetFind is v = some (decide (v ∈ values)) := by
  unfold intsetFind
  split
  next =>
    obtain ⟨found, pos, run, result⟩ := intsetSearch_spec holds v
    rw [run, map_some, some.injEq, Bool.eq_iff_iff, decide_eq_true_iff]
    exact found_iff result
  next large =>
    have absent : v ∉ values := fun member => large ((encoding_le int64).mpr (holds.fits v member))
    rw [decide_eq_false absent]

end

end

end

/-! Runs of an intset: it answers as a finite set of integers does, as long as it is smaller
than 2^32 bytes. -/

section
open List

inductive IntsetOp where
  | add (value : BitVec 64)
  | remove (value : BitVec 64)
  | find (value : BitVec 64)

def intsetStep (junk : List UInt8 → Nat → UInt8) (is : Intset) : IntsetOp → Option (Intset × Bool)
  | .add value => intsetAdd junk is value.toInt
  | .remove value => intsetRemove junk is value.toInt
  | .find value => (intsetFind is value.toInt).map fun found => (is, found)

def setStep (s : Finset Int) : IntsetOp → Finset Int × Bool
  | .add value => (insert value.toInt s, value.toInt ∉ s)
  | .remove value => (s.erase value.toInt, value.toInt ∈ s)
  | .find value => (s, value.toInt ∈ s)

/-- A value that is added is there already or leaves the set smaller than 2^32 bytes. -/
def IntsetOp.Room (is : Intset) : IntsetOp → Prop
  | .add value => (∃ pos < is.length, intsetGetPos is pos = some value.toInt) ∨ sizeWith is value.toInt < 2 ^ 32
  | _ => True

instance (is : Intset) (op : IntsetOp) : Decidable (op.Room is) :=
  match op with
  | .add value => inferInstanceAs (Decidable ((∃ pos < is.length, intsetGetPos is pos = some value.toInt) ∨
    sizeWith is value.toInt < 2 ^ 32))
  | .remove _ | .find _ => .isTrue trivial

variable (junk : List UInt8 → Nat → UInt8)
variable {is : Intset} {values front back : List Int} {s : Finset Int}

theorem fits_bits (value : BitVec 64) : Fits .int64 value.toInt := by
  have low := BitVec.le_toInt value
  have high := BitVec.toInt_lt (x := value)
  rw [fits_int64]
  omega

theorem holds_new : Holds intsetNew [] where
  sorted := .nil
  fits := by simp
  length := rfl
  contents := rfl
  room := by decide

def Represents (is : Intset) (s : Finset Int) : Prop := ∃ values, Holds is values ∧ values.toFinset = s

theorem intsetStep_simulates (is : Intset) (s : Finset Int) (op : IntsetOp) (rep : Represents is s) (room : op.Room is) :
    ∃ is', intsetStep junk is op = some (is', (setStep s op).2) ∧ Represents is' (setStep s op).1 := by
  obtain ⟨values, holds, rfl⟩ := rep
  cases op with
  | add value =>
    by_cases member : value.toInt ∈ values
    · refine ⟨is, ?_, values, holds, ?_⟩
      · simp [intsetStep, setStep, intsetAdd_present junk holds member, member]
      · simp [setStep, member]
    · have small : sizeWith is value.toInt < 2 ^ 32 := by
        rcases room with ⟨pos, _, here⟩ | small
        · rw [holds.get] at here
          exact absurd (mem_of_getElem? here) member
        · exact small
      obtain ⟨is', front, back, run, rfl, holds'⟩ := intsetAdd_absent junk holds (fits_bits value) member small
      refine ⟨is', ?_, _, holds', ?_⟩
      · simp only [intsetStep, run, setStep, List.mem_toFinset, member, not_false_eq_true, decide_true]
      · ext x
        simp only [setStep, List.mem_toFinset, Finset.mem_insert, mem_append, mem_cons]
        exact or_left_comm
  | remove value =>
    by_cases member : value.toInt ∈ values
    · obtain ⟨is', front, back, run, rfl, holds'⟩ := intsetRemove_present junk holds member
      refine ⟨is', ?_, _, holds', ?_⟩
      · simp only [intsetStep, run, setStep, List.mem_toFinset, member, decide_true]
      · have distinct : (front ++ value.toInt :: back).Nodup := holds.sorted.imp fun less => Int.ne_of_lt less
        have absent := (nodup_middle.mp distinct).notMem
        ext x
        simp only [setStep, List.mem_toFinset, Finset.mem_erase, mem_append, mem_cons]
        constructor
        · intro inside
          refine ⟨?_, inside.imp_right .inr⟩
          rintro rfl
          exact absent (mem_append.mpr inside)
        · rintro ⟨other, inside⟩
          exact inside.imp_right fun inside => inside.resolve_left other
    · refine ⟨is, ?_, values, holds, ?_⟩
      · simp only [intsetStep, intsetRemove_absent junk holds member, setStep, List.mem_toFinset, member, decide_false]
      · rw [setStep, Finset.erase_eq_of_notMem (by rwa [List.mem_toFinset])]
  | find value =>
    refine ⟨is, ?_, values, holds, rfl⟩
    simp only [intsetStep, intsetFind_spec holds (fits_bits value), Option.map_some, setStep, List.mem_toFinset]

structure StoresSet (is : Intset) (s : Finset Int) : Prop where
  values : ∃ values : List Int, values.Pairwise (· < ·) ∧ values.toFinset = s ∧ is.length = values.length ∧
    (∀ v ∈ values, Fits is.encoding v) ∧ ∀ pos, intsetGetPos is pos = values[pos]?
  card : intsetLen is = s.card
  find : ∀ value : BitVec 64, intsetFind is value.toInt = some (decide (value.toInt ∈ s))

theorem Represents.storesSet (rep : Represents is s) : StoresSet is s := by
  obtain ⟨values, holds, rfl⟩ := rep
  refine ⟨⟨values, holds.sorted, rfl, holds.length, holds.fits, holds.get⟩, ?_, ?_⟩
  · rw [toFinset_card_of_nodup (holds.sorted.imp fun less => Int.ne_of_lt less)]
    exact holds.length
  · intro value
    rw [intsetFind_spec holds (fits_bits value)]
    simp only [List.mem_toFinset]

def RefinesSet (ops : List IntsetOp) : Prop :=
  ∃ is, Run.exec (intsetStep junk) intsetNew ops = some (is, (Run.specExec setStep ∅ ops).2) ∧
    StoresSet is (Run.specExec setStep ∅ ops).1

theorem intset_refines_set (ops : List IntsetOp)
    (room : Run.Allowed (intsetStep junk) (fun is op => op.Room is) intsetNew ops) : RefinesSet junk ops := by
  obtain ⟨is, run, rep⟩ := Run.exec_refines (intsetStep_simulates junk) ops ⟨[], holds_new, rfl⟩ room
  exact ⟨is, run, rep.storesSet⟩

/-- Two upgrades, the second one at the front. -/
theorem intset_refines_set_upgrades : RefinesSet (fun _ _ => 0)
    [.add 5, .add 70000, .add (-3000000000), .add 5, .find 70000, .remove 5, .find 5] :=
  intset_refines_set _ _ (by decide +kernel)

def largeValue (k : Nat) : BitVec 64 := BitVec.ofNat 64 (2 ^ 40 + k)

theorem largeValue_toInt {k : Nat} (small : k < 2 ^ 40) : (largeValue k).toInt = 2 ^ 40 + k := by
  rw [largeValue, BitVec.toInt_eq_toNat_of_lt]
  · rw [BitVec.toNat_ofNat, Nat.mod_eq_of_lt (by omega)]
    push_cast
    rfl
  · rw [BitVec.toNat_ofNat]
    omega

theorem int64_of_large (holds : Holds is values) {x : Int} (member : x ∈ values) (large : 2 ^ 40 ≤ x) : is.encoding = .int64 := by
  obtain ⟨_, high⟩ := holds.fits x member
  cases encoding : is.encoding with
  | int64 => rfl
  | int32 | int16 =>
    rw [encoding, IntsetEnc.size] at high
    omega

theorem exec_outgrows (count : Nat) : ∀ (is : Intset) (values : List Int) (start : Nat), Holds is values → values.length = start →
      (∀ x ∈ values, 2 ^ 40 ≤ x ∧ x < 2 ^ 40 + start) → start + (count + 1) = 2 ^ 29 →
      Run.exec (intsetStep junk) is ((List.range' start (count + 1)).map fun k => .add (largeValue k)) = none := by
  induction count with
  | zero =>
    intro is values start holds length bounds total
    have value := largeValue_toInt (k := start) (by omega)
    have absent : (largeValue start).toInt ∉ values := fun member => by
      have := (bounds _ member).2
      omega
    obtain ⟨x, member⟩ := exists_mem_of_length_pos (l := values) (by omega)
    have full := intsetAdd_outgrows junk holds (fits_bits (largeValue start)) absent
      (int64_of_large holds member (bounds x member).1) (by omega)
    simp only [range'_succ, map_cons, Run.exec, intsetStep, full, Option.bind_none]
  | succ count ih =>
    intro is values start holds length bounds total
    have value := largeValue_toInt (k := start) (by omega)
    have absent : (largeValue start).toInt ∉ values := fun member => by
      have := (bounds _ member).2
      omega
    have room : sizeWith is (largeValue start).toInt < 2 ^ 32 := by
      have widest : ∀ enc : IntsetEnc, enc.size ≤ 8 := by
        intro enc
        cases enc <;> decide
      have size : max is.encoding.size (intsetValueEncoding (largeValue start).toInt).size ≤ 8 := Nat.max_le.mpr ⟨widest _, widest _⟩
      have := Nat.mul_le_mul_left (is.length + 1) size
      rw [sizeWith, holds.length] at *
      omega
    obtain ⟨is', front, back, run, rfl, holds'⟩ := intsetAdd_absent junk holds (fits_bits (largeValue start)) absent room
    have onward := ih is' _ (start + 1) holds' (by simp only [length_append, length_cons] at length ⊢; omega) (by
      intro x member
      rw [mem_append, mem_cons, or_left_comm, ← mem_append] at member
      rcases member with rfl | member
      · omega
      · have := bounds x member
        omega) (by omega)
    rw [range'_succ, map_cons, Run.exec, intsetStep, run, Option.bind_some, onward, Option.map_none]

/-- Adding 2^29 values of 64 bits. -/
theorem intset_outgrows : ¬ ∀ (junk : List UInt8 → Nat → UInt8) (ops : List IntsetOp), RefinesSet junk ops := by
  intro all
  obtain ⟨count, size⟩ : ∃ count, count + 1 = 2 ^ 29 := ⟨2 ^ 29 - 1, by decide⟩
  obtain ⟨is, run, _⟩ := all (fun _ _ => 0) ((List.range' 0 (count + 1)).map fun k => .add (largeValue k))
  have fails := exec_outgrows (fun _ _ => 0) count intsetNew [] 0 holds_new rfl (by simp) (by omega)
  rw [fails] at run
  cases run

end

end Cplusplus.Redis.Intsets
