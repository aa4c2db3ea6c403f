import Cplusplus.Proofs.UtilText
import Cplusplus.Proofs.ZslOrder
import Cplusplus.StringObjects

/-! A string object stands for the same bytes in each of its encodings. Objects have counted
references; nobody else sees a change of an object that has one owner. -/

namespace Cplusplus.Redis.StringObjects

open List Option

section
open OutputBuffer (Value encodingEmbstrSizeLimit createStringObject)
open References

/-- The bytes that an object stands for. An object whose pointer is NULL has none. -/
def decoded : Value → Option (List UInt8)
  | .int value => some (numeral value.toInt)
  | value => value.text

def decodedAt (objects : Objects) (o : Nat) : Option (List UInt8) := (objects.get o).bind fun cell => decoded cell.value

structure Shares (server : Server) (objects : Objects) (owners : List Nat) : Prop where
  owned : ∀ i < sharedIntegers, server.integers i ∈ owners
  value : ∀ i < sharedIntegers, (objects.get (server.integers i)).map Cell.value = some (.int (BitVec.ofNat 64 i))

variable {server : Server} {objects after : Objects} {owners : List Nat} {o : Nat} {s : List UInt8}

theorem same_refl (objects : Objects) (owners : List Nat) : Counted.Same objects objects owners := fun _ _ => rfl

theorem same_trans {middle : Objects} {owners others : List Nat} (first : Counted.Same objects middle owners)
    (second : Counted.Same middle after others) (subset : ∀ addr ∈ owners, addr ∈ others) : Counted.Same objects after owners :=
  fun addr member => (second addr (subset addr member)).trans (first addr member)

variable {value : Value}

theorem decodedAt_value (found : (objects.get o).map Cell.value = some value) : decodedAt objects o = decoded value := by
  obtain ⟨cell, present, rfl⟩ := map_eq_some_iff.mp found
  rw [decodedAt, present]
  rfl

theorem cell_of_decodedAt (text : decodedAt objects o = some s) : ∃ cell, objects.get o = some cell ∧ decoded cell.value = some s :=
  bind_eq_some_iff.mp text

theorem Counted.Same.decodedAt {objects after : Objects} (same : Counted.Same objects after owners) {addr : Nat} (member : addr ∈ owners) :
    decodedAt after addr = decodedAt objects addr := by
  have values := same addr member
  unfold StringObjects.decodedAt
  cases before : objects.get addr with
  | none =>
    rw [before] at values
    rw [map_eq_none_iff.mp values]
  | some cell =>
    rw [before] at values
    obtain ⟨cell', found, value⟩ := map_eq_some_iff.mp values
    rw [found, bind_some, bind_some, value]

def Answers (objects : Objects) (owners : List Nat) (s : List UInt8) (result : Option (Objects × Nat)) : Prop :=
  ∃ after o', result = some (after, o') ∧ Counted after (o' :: owners) ∧ Counted.Same objects after owners ∧ decodedAt after o' = some s

theorem answers_itself (counted : Counted objects (o :: owners)) (text : decodedAt objects o = some s) :
    Answers objects owners s (some (objects, o)) :=
  ⟨objects, o, rfl, counted, same_refl _ _, text⟩

theorem answers_write (counted : Counted objects (o :: owners)) (sole : o ∉ owners) (same : decoded value = some s) :
    Answers objects owners s (do
      let objects ← objects.write o value
      return (objects, o)) := by
  obtain ⟨after, written, counted', others, value'⟩ := counted.write sole value
  refine ⟨after, o, by rw [written]; rfl, counted', others, ?_⟩
  rw [decodedAt_value value', same]

theorem decoded_ofInt {value : Int} (low : -2 ^ 63 ≤ value) (high : value < 2 ^ 63) :
    decoded (.int (BitVec.ofInt 64 value)) = some (numeral value) := by
  rw [decoded, BitVec.toInt_ofInt, Int.bmod_eq_of_le (by omega) (by omega)]

section
variable (counted : Counted objects (o :: owners))
include counted

theorem encodeInteger_answers (sole : o ∉ owners) (shares : Shares server objects owners) {value : Int} (low : -2 ^ 63 ≤ value)
    (high : value < 2 ^ 63) : Answers objects owners (numeral value) (encodeInteger server objects o value) := by
  unfold encodeInteger
  split
  next shared =>
    obtain ⟨-, positive, small⟩ := shared
    have inside : value.toNat < sharedIntegers := by omega
    obtain ⟨freed, dropped, counted', others⟩ := counted.decrRef
    obtain ⟨after, taken, counted'', others'⟩ := counted'.incrRef (shares.owned _ inside)
    refine ⟨after, server.integers value.toNat, by rw [dropped]; simp only [bind_eq_bind, bind_some, taken]; rfl, counted'',
      same_trans others others' fun _ member => member, ?_⟩
    have value' := shares.value _ inside
    rw [← others _ (shares.owned _ inside), ← others' _ (shares.owned _ inside)] at value'
    have cast : BitVec.ofNat 64 value.toNat = BitVec.ofInt 64 value := by
      rw [← BitVec.ofInt_natCast, Int.toNat_of_nonneg positive]
    rw [decodedAt_value value', cast, decoded_ofInt low high]
  next => exact answers_write counted sole (decoded_ofInt low high)

theorem encodeText_answers (sole : o ∉ owners)
    (text : decodedAt objects o = some s) (own : value.text = some s) : Answers objects owners s (encodeText objects o value s) := by
  cases value with
  | embstr => exact answers_itself counted text
  | int => exact answers_itself counted text
  | raw ptr =>
    cases ptr with
    | none => exact answers_itself counted text
    | some sds =>
      simp only [encodeText]
      split
      next =>
        obtain ⟨after, dropped, counted', others⟩ := ((counted.alloc (.embstr s)).perm (List.Perm.swap _ _ _)).decrRef
        refine ⟨after, (Heap.alloc objects (.embstr s)).2, by rw [dropped]; rfl, counted', ?_, ?_⟩
        · exact same_trans (fun addr member => counted.same_alloc _ addr (mem_cons_of_mem _ member)) others
            fun _ member => mem_cons_of_mem _ member
        · rw [Counted.Same.decodedAt others mem_cons_self, decodedAt, get_alloc_self]
          rfl
      next =>
        split
        next => exact answers_write counted sole own
        next => exact answers_itself counted text

theorem encodeString_answers (shares : Shares server objects owners)
    (text : decodedAt objects o = some s) {cell : Cell Value} (present : objects.get o = some cell) (own : cell.value.text = some s) :
    Answers objects owners s (encodeString server objects o cell.refcount cell.value s) := by
  unfold encodeString
  split
  next => exact answers_itself counted text
  next single =>
    have sole := counted.unique present (Nat.le_of_not_lt single)
    split
    next number accepted =>
      split at accepted
      next =>
        obtain ⟨rfl, low, high⟩ := string2ll_numeral accepted
        exact encodeInteger_answers counted sole shares low high
      next => cases accepted
    next => exact encodeText_answers counted sole text own

theorem tryObjectEncoding_answers (shares : Shares server objects owners)
    (text : decodedAt objects o = some s) : Answers objects owners s (tryObjectEncoding server objects o) := by
  obtain ⟨⟨value, refcount⟩, present, same⟩ := cell_of_decodedAt text
  have encodes := fun own => encodeString_answers counted shares text present own
  simp only [tryObjectEncoding, present, bind_eq_bind, bind_some]
  cases value with
  | int => exact answers_itself counted text
  | embstr text' =>
    cases same
    exact encodes rfl
  | raw ptr =>
    have own : (Value.raw ptr).text = some s := same
    simp only [own, bind_some]
    exact encodes own

end

theorem createStringObject_numeral (value : BitVec 64) : createStringObject (ll2string 32 value.toInt) = .embstr (numeral value.toInt) := by
  have low := BitVec.le_toInt value
  have high := BitVec.toInt_lt (x := value)
  have short := numeral_length low high
  rw [ll2string_roomy (by omega) (by decide), createStringObject, if_pos (by simp only [encodingEmbstrSizeLimit]; omega)]

theorem getDecodedObject_answers (counted : Counted objects owners) (member : o ∈ owners) (text : decodedAt objects o = some s) :
    Answers objects owners s (getDecodedObject objects o) ∧
      ∀ after o', getDecodedObject objects o = some (after, o') → ((after.get o').bind fun cell => cell.value.text) = some s := by
  obtain ⟨⟨value, refcount⟩, present, same⟩ := cell_of_decodedAt text
  have refers : ∀ own : value.text = some s, Answers objects owners s (do
      let objects ← objects.incrRef o
      return (objects, o)) ∧ ∀ after o', (do
        let objects ← objects.incrRef o
        return (objects, o)) = some (after, o') → ((after.get o').bind fun cell => cell.value.text) = some s := by
    intro own
    obtain ⟨after, taken, counted', others⟩ := counted.incrRef member
    simp only [taken, bind_eq_bind, bind_some]
    refine ⟨⟨after, o, rfl, counted', others, by rw [Counted.Same.decodedAt others member, text]⟩, fun _ _ result => ?_⟩
    cases result
    have value' := others o member
    rw [present] at value'
    obtain ⟨cell, found, value''⟩ := map_eq_some_iff.mp value'
    rw [found, bind_some, value'']
    exact own
  simp only [getDecodedObject, present, bind_eq_bind, bind_some]
  cases value with
  | embstr => exact refers same
  | raw => exact refers same
  | int value =>
    rw [decoded] at same
    simp only [createStringObject_numeral]
    have made : Heap.get (objects ++ [some ⟨.embstr (numeral value.toInt), 1⟩]) objects.length =
        some ⟨.embstr (numeral value.toInt), 1⟩ := get_alloc_self
    refine ⟨⟨_, _, rfl, counted.alloc _, counted.same_alloc _, ?_⟩, fun _ _ result => ?_⟩
    · rw [decodedAt, made]
      exact same
    · cases result
      rw [made]
      exact same

end

/-! Comparing string objects in any two encodings. The difference of two lengths is cut to an int,
which changes its sign when a string is a prefix of one that is 2^31 bytes longer. -/

section
open OutputBuffer (Value)
open References

def Lexicographic (s t : List UInt8) (c : Int) : Prop := (c < 0 ↔ s < t) ∧ (c = 0 ↔ s = t) ∧ (0 < c ↔ t < s)

theorem memcmp_swap (s t : List UInt8) : memcmp t s = -memcmp s t := by
  induction s generalizing t with
  | nil => cases t <;> rfl
  | cons x s ih =>
    cases t with
    | nil => rfl
    | cons y t =>
      simp only [memcmp]
      by_cases same : x = y
      · rw [if_pos same, if_pos same.symm, ih]
      · rw [if_neg same, if_neg (Ne.symm same)]
        omega

theorem memcmp_eq_zero (s t : List UInt8) : memcmp s t = 0 ↔ s <+: t ∨ t <+: s := by
  induction s generalizing t with
  | nil => simp [memcmp]
  | cons x s ih =>
    cases t with
    | nil => simp [memcmp]
    | cons y t =>
      simp only [memcmp, cons_prefix_cons]
      split
      next same => simp [ih, same]
      next differ =>
        have apart : (x.toNat : Int) - y.toNat ≠ 0 := fun equal => differ (UInt8.toNat_inj.mp (by omega))
        simp [apart, differ, Ne.symm differ]

theorem lexicographic_compare (s t : List UInt8) : Lexicographic s t (Redis.compareStringObjects s t) := by
  refine ⟨Zsl.compareStringObjects_lt s t, Zsl.compareStringObjects_eq s t, ?_⟩
  rw [← Zsl.compareStringObjects_lt t s]
  simp only [Redis.compareStringObjects, memcmp_swap s t, Int.neg_eq_zero]
  split <;> omega

/-- The lengths of two strings, one of which is a prefix of the other, have a difference that fits an int. -/
def Near (s t : List UInt8) : Prop :=
  s <+: t ∨ t <+: s → -2 ^ 31 ≤ (s.length : Int) - t.length ∧ (s.length : Int) - t.length < 2 ^ 31

variable {s t : List UInt8}

theorem compareTexts_apart (apart : memcmp s t ≠ 0) : compareTexts s t = Redis.compareStringObjects s t := by
  rw [compareTexts, Redis.compareStringObjects, if_neg apart, if_neg apart]

theorem compareTexts_cut (same : memcmp s t = 0) :
    compareTexts s t = ((s.length : Int) - t.length).bmod (2 ^ 32) ∧ Redis.compareStringObjects s t = (s.length : Int) - t.length := by
  rw [compareTexts, Redis.compareStringObjects, if_pos same, if_pos same, BitVec.toInt_ofInt]
  exact ⟨rfl, rfl⟩

theorem bmod_zero_iff {d : Int} (low : -2 ^ 32 < d) (high : d < 2 ^ 32) : d.bmod (2 ^ 32) = 0 ↔ d = 0 := by
  rw [Int.bmod_def]
  split <;> omega

theorem bmod_sign_iff {d : Int} (low : -2 ^ 32 < d) (high : d < 2 ^ 32) :
    ((d.bmod (2 ^ 32) < 0 ↔ d < 0) ∧ (0 < d.bmod (2 ^ 32) ↔ 0 < d)) ↔ -2 ^ 31 ≤ d ∧ d < 2 ^ 31 := by
  rw [Int.bmod_def]
  split <;> omega

theorem compareTexts_zero (left : s.length < 2 ^ 32) (right : t.length < 2 ^ 32) : compareTexts s t = 0 ↔ s = t := by
  obtain ⟨-, zero, -⟩ := lexicographic_compare s t
  by_cases same : memcmp s t = 0
  · obtain ⟨cut, exact_⟩ := compareTexts_cut same
    rw [← zero, cut, exact_, bmod_zero_iff (by omega) (by omega)]
  · rw [compareTexts_apart same, zero]

theorem compareTexts_lexicographic_iff (left : s.length < 2 ^ 32) (right : t.length < 2 ^ 32) :
    Lexicographic s t (compareTexts s t) ↔ Near s t := by
  have whole := lexicographic_compare s t
  by_cases same : memcmp s t = 0
  · obtain ⟨cut, exact_⟩ := compareTexts_cut same
    have near := (memcmp_eq_zero s t).mp same
    obtain ⟨less, zero, greater⟩ := whole
    rw [exact_] at less zero greater
    have sign := bmod_sign_iff (d := (s.length : Int) - t.length) (by omega) (by omega)
    have equal := bmod_zero_iff (d := (s.length : Int) - t.length) (by omega) (by omega)
    rw [Lexicographic, ← less, ← zero, ← greater, cut]
    constructor
    · exact fun holds _ => sign.mp ⟨holds.1, holds.2.2⟩
    · intro holds
      obtain ⟨negative, positive⟩ := sign.mpr (holds near)
      exact ⟨negative, equal, positive⟩
  · rw [compareTexts_apart same]
    exact iff_of_true whole fun near => absurd ((memcmp_eq_zero s t).mpr near) same

variable {objects : Objects} {a b : Nat}

theorem comparedText_eq (value : Value) : comparedText value = decoded value := by
  cases value with
  | int value =>
    have low := BitVec.le_toInt value
    have high := BitVec.toInt_lt (x := value)
    rw [comparedText, decoded, ll2string_roomy (by omega) (by decide)]
  | raw => rfl
  | embstr => rfl

theorem compareStringObjects_texts (left : decodedAt objects a = some s) (right : decodedAt objects b = some t) :
    compareStringObjects objects a b = some (compareTexts s t) := by
  unfold compareStringObjects
  split
  next same =>
    subst same
    obtain rfl := some.inj (left.symm.trans right)
    have itself : memcmp s s = 0 := (memcmp_eq_zero s s).mpr (.inl (prefix_refl s))
    rw [(compareTexts_cut itself).1, Int.sub_self]
    rfl
  next =>
    obtain ⟨x, found, text⟩ := cell_of_decodedAt left
    obtain ⟨y, found', text'⟩ := cell_of_decodedAt right
    simp only [found, found', comparedText_eq, text, text', bind_eq_bind, bind_some]
    rfl

theorem equalStringObjects_texts (left : decodedAt objects a = some s) (right : decodedAt objects b = some t)
    (short : s.length < 2 ^ 32) (short' : t.length < 2 ^ 32) : equalStringObjects objects a b = some (decide (s = t)) := by
  obtain ⟨⟨x, count⟩, found, text⟩ := cell_of_decodedAt left
  obtain ⟨⟨y, count'⟩, found', text'⟩ := cell_of_decodedAt right
  have compared : (compareStringObjects objects a b).bind (fun cmp => some (decide (cmp = 0))) = some (decide (s = t)) := by
    rw [compareStringObjects_texts left right, bind_some, some.injEq, decide_eq_decide]
    exact compareTexts_zero short short'
  simp only [equalStringObjects, found, found', bind_eq_bind, bind_some]
  cases x with
  | raw => exact compared
  | embstr => exact compared
  | int v =>
    cases y with
    | raw => exact compared
    | embstr => exact compared
    | int w =>
      cases text
      cases text'
      simp only [Option.pure_def, some.injEq, decide_eq_decide]
      constructor
      · rintro rfl
        rfl
      · intro same
        exact BitVec.eq_of_toInt_eq (numeral_injective ⟨BitVec.le_toInt v, BitVec.toInt_lt⟩ ⟨BitVec.le_toInt w, BitVec.toInt_lt⟩ same)

structure EncodingIndependent (server : Server) (objects : Objects) (owners : List Nat) (a b : Nat) (s t : List UInt8) : Prop where
  encodes : Answers objects owners s (tryObjectEncoding server objects a)
  decodes : Answers objects (a :: owners) s (getDecodedObject objects a) ∧
    ∀ after o', getDecodedObject objects a = some (after, o') → ((after.get o').bind fun cell => cell.value.text) = some s
  compares : ∃ c, compareStringObjects objects a b = some c ∧ Lexicographic s t c
  equals : ∃ c, compareStringObjects objects a b = some c ∧ equalStringObjects objects a b = some (decide (c = 0))

/-- Everything else holds of any two strings; the sign of the comparison is right exactly if the
difference of the lengths fits an int, or the strings differ before either of them ends. -/
theorem encodingIndependent_iff {server : Server} {owners : List Nat} (counted : Counted objects (a :: owners))
    (shares : Shares server objects owners) (left : decodedAt objects a = some s) (right : decodedAt objects b = some t)
    (short : s.length < 2 ^ 32) (short' : t.length < 2 ^ 32) :
    EncodingIndependent server objects owners a b s t ↔ Near s t := by
  have compared := compareStringObjects_texts left right
  rw [← compareTexts_lexicographic_iff short short']
  constructor
  · rintro ⟨-, -, ⟨c, result, order⟩, -⟩
    rw [compared] at result
    rwa [← some.inj result] at order
  · intro order
    refine ⟨tryObjectEncoding_answers counted shares left, getDecodedObject_answers counted mem_cons_self left,
      ⟨_, compared, order⟩, _, compared, ?_⟩
    rw [equalStringObjects_texts left right short short', some.injEq, decide_eq_decide]
    exact (compareTexts_zero short short').symm

/-! A heap with the shared integers, the text 2 and the integer 12345. -/

def sharedObjects (n : Nat) : Objects := (List.range n).map fun i => some ⟨.int (BitVec.ofNat 64 i), 1⟩

theorem sharedObjects_get (n addr : Nat) : (sharedObjects n).get addr = if addr < n then some ⟨.int (BitVec.ofNat 64 addr), 1⟩ else none := by
  rw [Heap.get, sharedObjects, getElem?_map]
  split
  next inside =>
    rw [getElem?_range inside]
    rfl
  next outside =>
    rw [getElem?_eq_none (by rw [length_range]; omega)]
    rfl

theorem sharedObjects_counted (n : Nat) : Counted (sharedObjects n) (List.range n) := by
  intro addr
  rw [sharedObjects_get]
  split
  next cell found =>
    split at found
    next => cases found
    next outside => exact count_eq_zero_of_not_mem fun member => outside (mem_range.mp member)
  next cell found =>
    split at found
    next inside =>
      cases found
      exact ⟨count_eq_one_of_mem nodup_range (mem_range.mpr inside), Nat.one_pos⟩
    next => cases found

def mixedObjects (n : Nat) : Objects := (((sharedObjects n).alloc (.embstr [50])).1.alloc (.int 12345)).1

theorem sharedObjects_length (n : Nat) : (sharedObjects n).length = n := by simp [sharedObjects]

theorem mixedObjects_get (n addr : Nat) : (mixedObjects n).get addr = if addr = n + 1 then some ⟨.int 12345, 1⟩
    else if addr = n then some ⟨.embstr [50], 1⟩ else (sharedObjects n).get addr := by
  have length : ((sharedObjects n).alloc (.embstr [50])).1.length = n + 1 := by
    rw [Heap.alloc, length_append, sharedObjects_length, length_singleton]
  rw [mixedObjects, get_alloc, get_alloc, length, sharedObjects_length]

theorem mixedObjects_spec (n : Nat) (many : sharedIntegers ≤ n) : Counted (mixedObjects n) ((n + 1) :: n :: List.range n) ∧
      Shares ⟨0, .noEviction, id⟩ (mixedObjects n) (n :: List.range n) ∧ decodedAt (mixedObjects n) (n + 1) = some (numeral 12345) ∧
      decodedAt (mixedObjects n) n = some [50] := by
  refine ⟨?_, ⟨fun i small => ?_, fun i small => ?_⟩, ?_, ?_⟩
  · have counted := ((sharedObjects_counted n).alloc (.embstr [50])).alloc (.int 12345)
    have first : ((sharedObjects n).alloc (.embstr [50])).2 = n := sharedObjects_length n
    have second : (((sharedObjects n).alloc (.embstr [50])).1.alloc (.int 12345)).2 = n + 1 := by
      rw [Heap.alloc, Heap.alloc, length_append, sharedObjects_length, length_singleton]
    rwa [first, second] at counted
  · exact mem_cons_of_mem _ (mem_range.mpr (Nat.lt_of_lt_of_le small many))
  · have inside : i < n := Nat.lt_of_lt_of_le small many
    have here : (mixedObjects n).get i = some ⟨.int (BitVec.ofNat 64 i), 1⟩ := by
      rw [mixedObjects_get, if_neg (by omega), if_neg (by omega), sharedObjects_get, if_pos inside]
    exact congrArg (Option.map Cell.value) here
  · rw [decodedAt, mixedObjects_get, if_pos rfl]
    rfl
  · rw [decodedAt, mixedObjects_get, if_neg (by omega), if_pos rfl]
    rfl

theorem encodingIndependent_int :
    EncodingIndependent ⟨0, .noEviction, id⟩ (mixedObjects sharedIntegers) (sharedIntegers :: List.range sharedIntegers)
      (sharedIntegers + 1) sharedIntegers (numeral 12345) [50] ↔ Near (numeral 12345) [50] := by
  have short : (numeral 12345).length < 2 ^ 32 := by
    have digits := numeral_length (v := 12345) (by omega) (by omega)
    omega
  have short' : ([50] : List UInt8).length < 2 ^ 32 := by simp
  have at_ : ∀ n, sharedIntegers ≤ n → (EncodingIndependent ⟨0, .noEviction, id⟩ (mixedObjects n) (n :: List.range n) (n + 1) n
      (numeral 12345) [50] ↔ Near (numeral 12345) [50]) := by
    intro n large
    obtain ⟨counted, shares, left, right⟩ := mixedObjects_spec n large
    exact encodingIndependent_iff counted shares left right short short'
  exact at_ sharedIntegers (Nat.le_refl _)

def lettersAndEmpty (n : Nat) : Objects := [some ⟨.raw (some ⟨replicate n 97, 0, 8 + n + 1⟩), 1⟩, some ⟨.embstr [], 1⟩]

theorem compareStringObjects_far :
    decodedAt (lettersAndEmpty (2 ^ 31)) 0 = some (replicate (2 ^ 31) 97) ∧ decodedAt (lettersAndEmpty (2 ^ 31)) 1 = some [] ∧
      [] < replicate (2 ^ 31) (97 : UInt8) ∧ compareStringObjects (lettersAndEmpty (2 ^ 31)) 0 1 = some (-2 ^ 31) := by
  have left : ∀ n, decodedAt (lettersAndEmpty n) 0 = some (replicate n 97) := fun _ => rfl
  have right : ∀ n, decodedAt (lettersAndEmpty n) 1 = some [] := fun _ => rfl
  refine ⟨left _, right _, nil_lt_cons _ _, ?_⟩
  have cut := (compareTexts_cut (s := replicate (2 ^ 31) 97) (t := []) ((memcmp_eq_zero _ _).mpr (.inr nil_prefix))).1
  rw [compareStringObjects_texts (left _) (right _), cut, length_replicate, length_nil]
  rfl

end

end Cplusplus.Redis.StringObjects
