import Cplusplus.Proofs.DictOperations
import Cplusplus.Proofs.IntsetOperations
import Cplusplus.SetType
import Mathlib.Data.Int.Interval

/-! The two encodings of a set: what a table and an intset hold as sets of texts, and the
conversion of one into the other. -/

namespace Cplusplus.Redis.SetType
open Intsets List Option

section
variable {hash : List UInt8 → BitVec 32} {junk : List UInt8 → Nat → UInt8} {canResize : Bool}
variable {d d' : SetDict} {s : Finset (List UInt8)} {is : Intset} {values : List Int} {v : Int}

theorem getDecodedObject_int (value : BitVec 64) : getDecodedObject (.int value) = numeral value.toInt := by
  have low := BitVec.le_toInt value
  have high := BitVec.toInt_lt (x := value)
  exact ll2string_roomy (by omega) (by decide)

theorem toInt_fits (value : BitVec 64) : Fits .int64 value.toInt := by
  have low := BitVec.le_toInt value
  have high := BitVec.toInt_lt (x := value)
  rw [fits_int64]
  omega

theorem representable_text (o : StringObject) : isObjectRepresentableAsLongLong o = string2ll (getDecodedObject o) := by
  cases o with
  | sds text => rfl
  | int value =>
    obtain ⟨low, high⟩ := fits_int64.mp (toInt_fits value)
    rw [getDecodedObject_int, string2ll_complete low high]
    rfl

theorem createStringObject_text (fits : Fits .int64 v) : getDecodedObject (createStringObjectFromLongLong v) = numeral v := by
  rw [fits_int64] at fits
  rw [createStringObjectFromLongLong, getDecodedObject_int, BitVec.toInt_ofInt_eq_self (by decide) (by omega) (by omega)]

theorem dictEncObjKeyCompare_iff (key1 key2 : StringObject) :
    dictEncObjKeyCompare key1 key2 = true ↔ getDecodedObject key1 = getDecodedObject key2 := by
  have texts : ∀ text1 text2, dictSdsKeyCompare text1 text2 = true ↔ text1 = text2 := by
    intro text1 text2
    rw [dictSdsKeyCompare]
    split
    next lengths =>
      constructor
      · intro equal
        cases equal
      · rintro rfl
        exact absurd rfl lengths
    next => exact decide_eq_true_iff
  cases key1 with
  | sds text1 => exact texts ..
  | int value1 =>
    cases key2 with
    | sds text2 => exact texts ..
    | int value2 =>
      rw [dictEncObjKeyCompare, decide_eq_true_iff, getDecodedObject_int, getDecodedObject_int]
      constructor
      · rintro rfl
        rfl
      · intro same
        exact BitVec.eq_of_toInt_eq (numeral_injective (fits_int64.mp (toInt_fits _)) (fits_int64.mp (toInt_fits _)) same)

structure HtHolds (hash : List UInt8 → BitVec 32) (d : SetDict) (s : Finset (List UInt8)) : Prop where
  valid : Valid hash d
  keys : ∀ text, d.HasKey text ↔ text ∈ s
  objects : ∀ e ∈ d.contents, getDecodedObject e.val = e.key

theorem HtHolds.kept (holds : HtHolds hash d s) (kept : Kept hash d d') : HtHolds hash d' s where
  valid := kept.valid
  keys text := (kept.hasKey text).trans (holds.keys text)
  objects e member := holds.objects e (kept.contents ▸ member)

theorem htHolds_create (hash : List UInt8 → BitVec 32) : HtHolds hash dictCreate ∅ where
  valid := ⟨tableValid_reset, tableValid_reset, by
    simp [dictCreate, Dict.contents, Dictht.contents, dictReset], fun _ => rfl, by simp [dictCreate]⟩
  keys text := by simp [Dict.HasKey, dictCreate, Dict.contents, Dictht.contents, dictReset]
  objects e member := by simp [dictCreate, Dict.contents, Dictht.contents, dictReset] at member

section
variable (holds : HtHolds hash d s)
include holds

theorem HtHolds.insert {e : DictEntry (List UInt8) StringObject} (valid : Valid hash d')
    (contents : d'.contents = e ::ₘ d.contents) (object : getDecodedObject e.val = e.key) :
    HtHolds hash d' (insert e.key s) where
  valid := valid
  keys text := by
    rw [Finset.mem_insert, ← holds.keys, Dict.HasKey, contents]
    simp only [Multiset.mem_cons, exists_eq_or_imp, Dict.HasKey]
    exact or_congr_left eq_comm
  objects f member := by
    rw [contents, Multiset.mem_cons] at member
    rcases member with rfl | member
    · exact object
    · exact holds.objects f member

theorem HtHolds.add (addr : Nat) (value : StringObject) (addable : Addable hash canResize d (getDecodedObject value)) :
    ∃ d', dictAdd hash canResize d addr (getDecodedObject value) value =
        some (d', if getDecodedObject value ∈ s then .err else .ok) ∧ HtHolds hash d' (Insert.insert (getDecodedObject value) s) := by
  obtain ⟨_, d₂, _, _, kept, started, ⟨present, add⟩ | ⟨absent, add⟩⟩ := dictAddRaw_spec holds.valid addr _ value addable
  · have member := (holds.keys _).mp present
    refine ⟨d₂, ?_, ?_⟩
    · simp [dictAdd, add, member]
    · rw [Finset.insert_eq_of_mem member]
      exact holds.kept kept
  · have member := mt (holds.keys _).mpr absent
    have new := mt (kept.hasKey _).mp absent
    obtain ⟨inserted, contents, _⟩ := insertEntry_spec kept.valid started (e := ⟨addr, getDecodedObject value, value⟩) new
    refine ⟨_, ?_, (holds.kept kept).insert inserted contents rfl⟩
    simp [dictAdd, add, member]

theorem HtHolds.delete (text : List UInt8) :
    ∃ d', dictGenericDelete hash d text = some (d', if text ∈ s then .ok else .err) ∧ HtHolds hash d' (s.erase text) := by
  obtain ⟨d₁, kept, _, ⟨absent, delete⟩ | ⟨second, idx, found, delete⟩⟩ := dictGenericDelete_spec holds.valid text
  · have member := mt (holds.keys _).mpr absent
    refine ⟨d₁, ?_, ?_⟩
    · rw [delete, if_neg member]
    · rw [Finset.erase_eq_of_notMem member]
      exact holds.kept kept
  · obtain ⟨after, e, rfl, contents⟩ := unlink_spec kept.valid found
    have holds₁ := holds.kept kept
    have member : e.key ∈ s := by
      rw [← holds₁.keys]
      exact ⟨e, contents ▸ Multiset.mem_cons_self e _, rfl⟩
    have distinct := holds₁.valid.distinct
    rw [contents, Multiset.map_cons, Multiset.nodup_cons] at distinct
    refine ⟨_, by rw [delete, if_pos member], after, fun text => ?_, fun f other => ?_⟩
    · rw [Finset.mem_erase, ← holds₁.keys, Dict.HasKey, Dict.HasKey, contents]
      simp only [Multiset.mem_cons, exists_eq_or_imp]
      constructor
      · rintro ⟨f, inside, rfl⟩
        refine ⟨?_, .inr ⟨f, inside, rfl⟩⟩
        intro same
        exact distinct.1 (Multiset.mem_map.mpr ⟨f, inside, same⟩)
      · rintro ⟨other, same | inside⟩
        · exact absurd same.symm other
        · exact inside
    · exact holds₁.objects f (contents ▸ Multiset.mem_cons_of_mem other)

theorem HtHolds.find (text : List UInt8) :
    ∃ d' found, dictFind hash d text = some (d', found) ∧ HtHolds hash d' s ∧ found.isSome = decide (text ∈ s) := by
  obtain ⟨d', found, find, kept, report⟩ := dictFindSlot_spec holds.valid text
  refine ⟨d', found.map fun slot => slot.2.2, by simp [dictFind, find], holds.kept kept, ?_⟩
  rw [isSome_map]
  cases found with
  | none =>
    have member := mt (holds.keys _).mpr report
    simp [member]
  | some slot =>
    have member := (holds.keys text).mp ⟨slot.2.2, report.1, report.2.1⟩
    simp [member]

end

def texts (values : List Int) : Finset (List UInt8) := (values.map numeral).toFinset

theorem mem_texts (fits : ∀ x ∈ values, Fits .int64 x) (o : StringObject) :
    getDecodedObject o ∈ texts values ↔ ∃ v ∈ values, isObjectRepresentableAsLongLong o = some v := by
  rw [texts, List.mem_toFinset, List.mem_map, representable_text]
  constructor
  · rintro ⟨v, member, same⟩
    obtain ⟨low, high⟩ := fits_int64.mp (fits v member)
    exact ⟨v, member, by rw [← same, string2ll_complete low high]⟩
  · rintro ⟨v, member, read⟩
    exact ⟨v, member, (string2ll_numeral read).1⟩

theorem length_le (holds : Holds is values) : values.length ≤ 2 ^ 30 := by
  have room := holds.room
  cases encoding : is.encoding with
  | int16 =>
    have inside : values.toFinset ⊆ Finset.Ico (-2 ^ 15) (2 ^ 15) := by
      intro v member
      have fits := holds.fits v (List.mem_toFinset.mp member)
      rw [encoding] at fits
      exact Finset.mem_Ico.mpr fits
    have few := Finset.card_le_card inside
    rw [toFinset_card_of_nodup (holds.sorted.imp fun less => Int.ne_of_lt less), Int.card_Ico] at few
    exact few.trans (by decide)
  | int32 | int64 =>
    rw [encoding, IntsetEnc.size] at room
    omega

theorem addable_small (canResize : Bool) (valid : Valid hash d) (idle : d.rehashidx = none) (small : d.ht0.size ≤ 2 ^ 30)
    (used : d.ht0.used ≤ d.ht0.size) (text : List UInt8) : Addable hash canResize d text := by
  have stopped : d.isRehashing = false := by rw [Dict.isRehashing, idle]; rfl
  have grown : ∀ size, size ≤ 2 ^ 31 → ∃ d' status, dictExpand d size = some (d', status) ∧ (d'.ht d'.isRehashing).size ≤ 2 ^ 31 := by
    intro size bound
    obtain ⟨⟨d', status⟩, expand⟩ := dictExpand_defined d (show size ≤ 2 ^ 60 by omega)
    refine ⟨d', status, expand, ?_⟩
    have unchanged : (d.ht d.isRehashing).size ≤ 2 ^ 31 := by
      rw [stopped]
      exact small.trans (by decide)
    rcases dictExpand_cases expand with ⟨rfl, _⟩ | ⟨t, alloc, _, result⟩
    · exact unchanged
    · obtain ⟨_, width, _⟩ := dictCalloc_power alloc
      obtain ⟨k, _, high, same, _⟩ := dictNextPower_le bound (by decide) (by decide)
      have narrow : t.size ≤ 2 ^ 31 := by
        rw [width, same]
        exact Nat.pow_le_pow_right (by decide) high
      rcases result with ⟨_, rfl⟩ | ⟨_, rfl⟩
      · rw [show Dict.isRehashing { d with ht0 := t } = false from stopped]
        exact narrow
      · exact narrow
  obtain ⟨d', status, expand, narrow⟩ : ∃ d' status, dictExpandIfNeeded canResize d = some (d', status) ∧
      (d'.ht d'.isRehashing).size ≤ 2 ^ 31 := by
    unfold dictExpandIfNeeded
    rw [if_neg (by simp [stopped])]
    split
    · exact grown _ (by decide)
    split
    · exact grown _ (by omega)
    · refine ⟨d, .ok, rfl, ?_⟩
      rw [stopped]
      exact small.trans (by decide)
  obtain ⟨kept, _, started⟩ := dictExpandIfNeeded_spec valid expand
  have inside := (kept.valid.table d' d'.isRehashing).slot_inside (kept.valid.target_size started) text
  refine ⟨_, ?_, .inr (inside.trans_le narrow)⟩
  simp [addIndex, dictStepIfRehashing, stopped, expand]

structure Presized (hash : List UInt8 → BitVec 32) (d : SetDict) (size count : Nat) : Prop where
  valid : Valid hash d
  idle : d.rehashidx = none
  size : d.ht0.size = size
  used : d.ht0.used = count

theorem presized_expand (hash : List UInt8 → BitVec 32) {length : Nat} (bound : length ≤ 2 ^ 30) :
    ∃ d status size, dictExpand dictCreate length = some (d, status) ∧ Presized hash d size 0 ∧ length ≤ size ∧
      size ≤ 2 ^ 30 ∧ HtHolds hash d ∅ := by
  obtain ⟨⟨d, status⟩, expand⟩ := dictExpand_defined (dictCreate : SetDict) (show length ≤ 2 ^ 60 by omega)
  obtain ⟨k, _, high, same, fits⟩ := dictNextPower_le bound (by decide) (by decide)
  have kept := dictExpand_preserves (htHolds_create hash).valid expand
  have positive := Nat.pow_pos (n := k) (show 0 < 2 by decide)
  rcases dictExpand_cases expand with ⟨_, refused⟩ | ⟨t, alloc, _, ⟨_, rfl⟩ | ⟨started, _⟩⟩
  · rw [same] at refused
    simp [dictCreate, Dict.isRehashing, dictReset] at refused
  · obtain ⟨_, width, _, used, _⟩ := dictCalloc_power alloc
    refine ⟨_, _, 2 ^ k, expand, ⟨kept.valid, rfl, width.trans same, used⟩, fits, ?_, (htHolds_create hash).kept kept⟩
    exact Nat.pow_le_pow_right (by decide) high
  · exact absurd rfl started

theorem Presized.add {size count : Nat} (presized : Presized hash d size count) (room : count < size) (addr : Nat) (value : StringObject)
    (absent : ¬ d.HasKey (getDecodedObject value)) (small : size ≤ 2 ^ 30)
    (added : dictAdd hash canResize d addr (getDecodedObject value) value = some (d', .ok)) : Presized hash d' size (count + 1) := by
  obtain ⟨valid, idle, rfl, rfl⟩ := presized
  have stopped : d.isRehashing = false := by rw [Dict.isRehashing, idle]; rfl
  obtain ⟨d₁, d₂, step, expand, _, started, ⟨present, _⟩ | ⟨_, add⟩⟩ :=
    dictAddRaw_spec valid addr _ value (addable_small canResize valid idle small (Nat.le_of_lt room) _)
  · exact absurd present absent
  · have unchanged : d₂ = d := by
      simp only [dictStepIfRehashing, stopped, Bool.false_eq_true, if_false, some.injEq] at step
      subst step
      rw [dictExpandIfNeeded, if_neg (by simp [stopped]), if_neg (by omega), if_neg (by omega)] at expand
      cases expand
      rfl
    subst unchanged
    rw [dictAdd, add] at added
    cases added
    obtain ⟨inserted, _, _⟩ := insertEntry_spec valid started (e := ⟨addr, getDecodedObject value, value⟩) absent
    have target : d₂.insertEntry hash ⟨addr, getDecodedObject value, value⟩ =
        { d₂ with ht0 := (d₂.insertEntry hash ⟨addr, getDecodedObject value, value⟩).ht0 } := by
      simp [Dict.insertEntry, stopped, Dict.setHt]
    refine ⟨inserted, ?_, ?_, ?_⟩
    · rw [target]
      exact idle
    · simp [Dict.insertEntry, stopped, Dict.setHt, Dict.ht]
    · simp [Dict.insertEntry, stopped, Dict.setHt, Dict.ht]

theorem setTypeConvertLoop_spec (canResize : Bool) (addr : Nat → Nat) {size : Nat} (small : size ≤ 2 ^ 30) (holds : Holds is values)
    (enough : values.length ≤ size) (front back : List Int) (split : values = front ++ back)
    (presized : Presized hash d size front.length) (moved : HtHolds hash d (texts front)) :
    ∃ d', setTypeConvertLoop hash canResize addr is (back.length + 1) front.length d = some d' ∧
      Presized hash d' size values.length ∧ HtHolds hash d' (texts values) := by
  have length := holds.length
  induction back generalizing front d with
  | nil =>
    rw [append_nil] at split
    subst split
    refine ⟨d, ?_, presized, moved⟩
    simp only [setTypeConvertLoop, intsetGet, length, Nat.lt_irrefl, if_false, bind_eq_bind, bind_some, Option.pure_def]
  | cons v back ih =>
    have fits : Fits .int64 v := (holds.fits v (by simp [split])).int64
    have text := createStringObject_text fits
    have here : values[front.length]? = some v := by simp [split]
    have inside : front.length < values.length := (List.getElem?_eq_some_iff.mp here).1
    have distinct : (front ++ v :: back).Nodup := split ▸ holds.sorted.imp fun less => Int.ne_of_lt less
    have absent : numeral v ∉ texts front := by
      rw [texts, List.mem_toFinset, List.mem_map]
      rintro ⟨w, member, same⟩
      have fits' : Fits .int64 w := (holds.fits w (by simp [split, member])).int64
      obtain rfl := numeral_injective (fits_int64.mp fits') (fits_int64.mp fits) same
      exact (nodup_middle.mp distinct).notMem (mem_append_left _ member)
    have notKey : ¬ d.HasKey (getDecodedObject (createStringObjectFromLongLong v)) := by
      rw [moved.keys, text]
      exact absent
    have room : front.length < size := by omega
    obtain ⟨d', added, moved'⟩ := moved.add (addr front.length) (createStringObjectFromLongLong v)
      (addable_small canResize presized.valid presized.idle (presized.size ▸ small) (by rw [presized.size, presized.used]; omega) _)
    have extended : texts (front ++ [v]) = Insert.insert (numeral v) (texts front) := by
      ext x
      simp [texts, eq_comm]
    rw [text, if_neg absent] at added
    have presized' := presized.add room _ _ notKey small (text ▸ added)
    rw [text, ← extended] at moved'
    obtain ⟨last, loop, final⟩ := ih (front ++ [v]) (by simp [split]) (by simpa using presized') moved'
    refine ⟨last, ?_, final⟩
    rw [length_append, length_singleton] at loop
    rw [length_cons, setTypeConvertLoop]
    simp only [intsetGet, length, inside, if_true, holds.get, here, map_some, bind_eq_bind, bind_some, text, added]
    exact loop

theorem setTypeConvert_spec (hash : List UInt8 → BitVec 32) (canResize : Bool) (addr : Nat → Nat) (holds : Holds is values) :
    ∃ d size, setTypeConvert hash canResize addr is = some d ∧ Presized hash d size values.length ∧ values.length ≤ size ∧
      size ≤ 2 ^ 30 ∧ HtHolds hash d (texts values) := by
  obtain ⟨d, status, size, expand, presized, enough, small, moved⟩ := presized_expand hash (length_le holds)
  obtain ⟨d', loop, final, moved'⟩ := setTypeConvertLoop_spec canResize addr small holds enough [] values rfl
    presized moved
  refine ⟨d', size, ?_, final, enough, small, moved'⟩
  simp only [setTypeConvert, intsetLen, holds.length, expand, bind_eq_bind, bind_some]
  exact loop

end

/-! Runs of the set type: in either encoding, and across the conversion, it answers as a
finite set of byte strings does. -/

section
inductive SetTypeOp where
  | add (setMaxIntsetEntries : Nat) (canResize : Bool) (addr : Nat → Nat) (value : StringObject)
  | remove (canResize : Bool) (value : StringObject)
  | isMember (value : StringObject)

def setTypeStep (hash : List UInt8 → BitVec 32) (junk : List UInt8 → Nat → UInt8) (subject : SetObject) :
    SetTypeOp → Option (SetObject × Bool)
  | .add setMaxIntsetEntries canResize addr value => setTypeAdd hash junk setMaxIntsetEntries canResize addr subject value
  | .remove canResize value => setTypeRemove hash junk canResize subject value
  | .isMember value => setTypeIsMember hash subject value

def textStep (s : Finset (List UInt8)) : SetTypeOp → Finset (List UInt8) × Bool
  | .add _ _ _ value => (insert (getDecodedObject value) s, getDecodedObject value ∉ s)
  | .remove _ value => (s.erase (getDecodedObject value), getDecodedObject value ∈ s)
  | .isMember value => (s, getDecodedObject value ∈ s)

/-- An added member fits: the bucket of its text is below 2^31, or as an integer it leaves the
intset smaller than 2^32 bytes. -/
def AddRoom (hash : List UInt8 → BitVec 32) (canResize : Bool) (value : StringObject) : SetObject → Prop
  | .ht ptr => Addable hash canResize ptr (getDecodedObject value)
  | .intset ptr => ∀ llval ∈ isObjectRepresentableAsLongLong value, IntsetOp.Room ptr (.add (BitVec.ofInt 64 llval))

def SetTypeOp.Room (hash : List UInt8 → BitVec 32) (subject : SetObject) : SetTypeOp → Prop
  | .add _ canResize _ value => AddRoom hash canResize value subject
  | _ => True

instance (hash : List UInt8 → BitVec 32) (canResize : Bool) (value : StringObject) (subject : SetObject) :
    Decidable (AddRoom hash canResize value subject) :=
  match subject with
  | .ht ptr => inferInstanceAs (Decidable (Addable hash canResize ptr (getDecodedObject value)))
  | .intset ptr => inferInstanceAs (Decidable (∀ llval ∈ isObjectRepresentableAsLongLong value,
      IntsetOp.Room ptr (.add (BitVec.ofInt 64 llval))))

instance (hash : List UInt8 → BitVec 32) (subject : SetObject) (op : SetTypeOp) : Decidable (op.Room hash subject) :=
  match op with
  | .add _ canResize _ value => inferInstanceAs (Decidable (AddRoom hash canResize value subject))
  | .remove .. | .isMember _ => .isTrue trivial

def Represents (hash : List UInt8 → BitVec 32) : SetObject → Finset (List UInt8) → Prop
  | .ht ptr, s => HtHolds hash ptr s
  | .intset ptr, s => ∃ values, Holds ptr values ∧ texts values = s

variable {hash : List UInt8 → BitVec 32} (junk : List UInt8 → Nat → UInt8) {canResize : Bool} {subject : SetObject}
variable {s : Finset (List UInt8)} {is : Intset} {values front back : List Int} {v : Int}

theorem fits_values (holds : Holds is values) : ∀ x ∈ values, Fits .int64 x := fun x member => (holds.fits x member).int64

variable {o : StringObject}

theorem representable_fits (read : isObjectRepresentableAsLongLong o = some v) : Fits .int64 v := by
  rw [representable_text] at read
  exact fits_int64.mpr (string2ll_numeral read).2

theorem representable_numeral (read : isObjectRepresentableAsLongLong o = some v) : numeral v = getDecodedObject o := by
  rw [representable_text] at read
  exact (string2ll_numeral read).1

theorem mem_texts_iff (holds : Holds is values) (read : isObjectRepresentableAsLongLong o = some v) :
    getDecodedObject o ∈ texts values ↔ v ∈ values := by
  rw [mem_texts (fits_values holds)]
  constructor
  · rintro ⟨w, member, other⟩
    rw [read] at other
    cases other
    exact member
  · intro member
    exact ⟨v, member, read⟩

theorem not_mem_texts (holds : Holds is values) (other : isObjectRepresentableAsLongLong o = none) : getDecodedObject o ∉ texts values := by
  rw [mem_texts (fits_values holds)]
  rintro ⟨w, _, read⟩
  rw [other] at read
  cases read

theorem represents_create (value : StringObject) : Represents hash (setTypeCreate value) ∅ := by
  rw [setTypeCreate]
  split
  · exact ⟨[], holds_new, rfl⟩
  · exact htHolds_create hash

theorem texts_middle (front back : List Int) (v : Int) : texts (front ++ v :: back) = insert (numeral v) (texts (front ++ back)) := by
  ext x
  simp only [texts, map_append, map_cons, List.mem_toFinset, mem_append, mem_cons, Finset.mem_insert]
  exact or_left_comm

theorem setTypeAdd_simulates (setMaxIntsetEntries : Nat) (addr : Nat → Nat) (value : StringObject)
    (rep : Represents hash subject s) (room : AddRoom hash canResize value subject) :
    ∃ subject', setTypeAdd hash junk setMaxIntsetEntries canResize addr subject value = some (subject', decide (getDecodedObject value ∉ s)) ∧
      Represents hash subject' (insert (getDecodedObject value) s) := by
  cases subject with
  | ht ptr =>
    obtain ⟨ptr', added, holds⟩ := HtHolds.add rep (addr 0) value room
    refine ⟨.ht ptr', ?_, holds⟩
    by_cases member : getDecodedObject value ∈ s <;> simp [setTypeAdd, added, member]
  | intset is =>
    obtain ⟨values, holds, rfl⟩ := rep
    cases read : isObjectRepresentableAsLongLong value with
    | some llval =>
      have fits := representable_fits read
      have member := mem_texts_iff holds read
      by_cases present : llval ∈ values
      · refine ⟨.intset is, ?_, values, holds, ?_⟩
        · simp [setTypeAdd, read, intsetAdd_present junk holds present, member, present]
        · rw [Finset.insert_eq_of_mem (member.mpr present)]
      · have small : sizeWith is llval < 2 ^ 32 := by
          rw [fits_int64] at fits
          have exact64 : (BitVec.ofInt 64 llval).toInt = llval := BitVec.toInt_ofInt_eq_self (by decide) (by omega) (by omega)
          rcases room llval read with ⟨pos, _, here⟩ | small
          · rw [holds.get, exact64] at here
            exact absurd (mem_of_getElem? here) present
          · rwa [exact64] at small
        obtain ⟨is', front, back, run, rfl, holds'⟩ := intsetAdd_absent junk holds fits present small
        have grown : texts (front ++ llval :: back) = insert (getDecodedObject value) (texts (front ++ back)) := by
          rw [texts_middle, representable_numeral read]
        by_cases many : setMaxIntsetEntries < intsetLen is'
        · obtain ⟨d, _, convert, _, _, _, moved⟩ := setTypeConvert_spec hash canResize addr holds'
          refine ⟨.ht d, ?_, grown ▸ moved⟩
          simp [setTypeAdd, read, run, many, convert, member, present]
        · refine ⟨.intset is', ?_, _, holds', grown⟩
          simp [setTypeAdd, read, run, many, member, present]
    | none =>
      have absent := not_mem_texts holds read
      obtain ⟨d, size, convert, presized, enough, small, moved⟩ := setTypeConvert_spec hash canResize addr holds
      obtain ⟨d', added, inserted⟩ := moved.add (addr (intsetLen is)) value (addable_small canResize
        presized.valid presized.idle (presized.size ▸ small) (by rw [presized.size, presized.used]; exact enough) _)
      rw [if_neg absent] at added
      refine ⟨.ht d', ?_, inserted⟩
      simp [setTypeAdd, read, convert, added, absent]

theorem setTypeRemove_simulates (canResize : Bool) (value : StringObject) (rep : Represents hash subject s) :
    ∃ subject', setTypeRemove hash junk canResize subject value = some (subject', decide (getDecodedObject value ∈ s)) ∧
      Represents hash subject' (s.erase (getDecodedObject value)) := by
  cases subject with
  | ht ptr =>
    obtain ⟨ptr', deleted, holds⟩ := HtHolds.delete rep (getDecodedObject value)
    by_cases member : getDecodedObject value ∈ s
    · rw [if_pos member] at deleted
      cases needs : htNeedsResize ptr' with
      | true =>
        obtain ⟨⟨small, status⟩, resize⟩ := dictResize_defined canResize ptr'
        refine ⟨.ht small, ?_, holds.kept (dictResize_preserves holds.valid resize)⟩
        simp [setTypeRemove, deleted, needs, resize, member]
      | false => exact ⟨.ht ptr', by simp [setTypeRemove, deleted, needs, member], holds⟩
    · rw [if_neg member] at deleted
      exact ⟨.ht ptr', by simp [setTypeRemove, deleted, member], holds⟩
  | intset is =>
    obtain ⟨values, holds, rfl⟩ := rep
    cases read : isObjectRepresentableAsLongLong value with
    | some llval =>
      have member := mem_texts_iff holds read
      by_cases present : llval ∈ values
      · obtain ⟨is', front, back, run, rfl, holds'⟩ := intsetRemove_present junk holds present
        refine ⟨.intset is', ?_, _, holds', ?_⟩
        · simp [setTypeRemove, read, run, member]
        · have distinct : (front ++ llval :: back).Nodup := holds.sorted.imp fun less => Int.ne_of_lt less
          have absent : getDecodedObject value ∉ texts (front ++ back) := by
            rw [mem_texts_iff holds' read]
            exact (nodup_middle.mp distinct).notMem
          rw [texts_middle, representable_numeral read, Finset.erase_insert absent]
      · refine ⟨.intset is, ?_, values, holds, ?_⟩
        · simp [setTypeRemove, read, intsetRemove_absent junk holds present, member, present]
        · rw [Finset.erase_eq_of_notMem (mt member.mp present)]
    | none =>
      have absent := not_mem_texts holds read
      refine ⟨.intset is, ?_, values, holds, ?_⟩
      · simp [setTypeRemove, read, absent]
      · rw [Finset.erase_eq_of_notMem absent]

theorem setTypeIsMember_simulates (value : StringObject) (rep : Represents hash subject s) :
    ∃ subject', setTypeIsMember hash subject value = some (subject', decide (getDecodedObject value ∈ s)) ∧ Represents hash subject' s := by
  cases subject with
  | ht ptr =>
    obtain ⟨ptr', found, find, holds, answer⟩ := HtHolds.find rep (getDecodedObject value)
    exact ⟨.ht ptr', by simp [setTypeIsMember, find, answer], holds⟩
  | intset is =>
    obtain ⟨values, holds, rfl⟩ := rep
    refine ⟨.intset is, ?_, values, holds, rfl⟩
    cases read : isObjectRepresentableAsLongLong value with
    | some llval =>
      simp [setTypeIsMember, read, intsetFind_spec holds (representable_fits read), mem_texts_iff holds read]
    | none => simp [setTypeIsMember, read, not_mem_texts holds read]

theorem setTypeStep_simulates (subject : SetObject) (s : Finset (List UInt8)) (op : SetTypeOp)
    (rep : Represents hash subject s) (room : op.Room hash subject) :
    ∃ subject', setTypeStep hash junk subject op = some (subject', (textStep s op).2) ∧ Represents hash subject' (textStep s op).1 := by
  cases op with
  | add setMaxIntsetEntries canResize addr value => exact setTypeAdd_simulates junk setMaxIntsetEntries addr value rep room
  | remove canResize value => exact setTypeRemove_simulates junk canResize value rep
  | isMember value => exact setTypeIsMember_simulates value rep

theorem Represents.size (rep : Represents hash subject s) : setTypeSize subject = s.card := by
  cases subject with
  | ht ptr =>
    have same : s = (ptr.contents.map DictEntry.key).toFinset := by
      ext text
      rw [← HtHolds.keys rep, Multiset.mem_toFinset, Multiset.mem_map]
      rfl
    rw [setTypeSize, Dict.dictSize, (HtHolds.valid rep).first.count, (HtHolds.valid rep).second.count, same,
      Multiset.toFinset_card_of_nodup (HtHolds.valid rep).distinct, Multiset.card_map, Dict.contents, Multiset.card_add]
  | intset is =>
    obtain ⟨values, holds, rfl⟩ := rep
    have distinct : (values.map numeral).Nodup := by
      apply List.Nodup.map_on ?_ (holds.sorted.imp fun less => Int.ne_of_lt less)
      intro v left w right same
      exact numeral_injective (fits_int64.mp (fits_values holds v left)) (fits_int64.mp (fits_values holds w right)) same
    rw [texts, toFinset_card_of_nodup distinct, length_map]
    exact holds.length

structure StoresTexts (hash : List UInt8 → BitVec 32) (subject : SetObject) (s : Finset (List UInt8)) : Prop where
  isMember : ∀ value, ∃ subject', setTypeIsMember hash subject value = some (subject', decide (getDecodedObject value ∈ s))
  size : setTypeSize subject = s.card

theorem Represents.storesTexts (rep : Represents hash subject s) : StoresTexts hash subject s where
  isMember value := by
    obtain ⟨subject', answer, _⟩ := setTypeIsMember_simulates value rep
    exact ⟨subject', answer⟩
  size := rep.size

def RefinesTexts (hash : List UInt8 → BitVec 32) (first : StringObject) (ops : List SetTypeOp) : Prop :=
  ∃ subject, Run.exec (setTypeStep hash junk) (setTypeCreate first) ops =
      some (subject, (Run.specExec textStep ∅ ops).2) ∧
    StoresTexts hash subject (Run.specExec textStep ∅ ops).1

theorem setType_refines_texts (first : StringObject) (ops : List SetTypeOp)
    (room : Run.Allowed (setTypeStep hash junk) (fun subject op => op.Room hash subject) (setTypeCreate first) ops) :
    RefinesTexts junk hash first ops := by
  obtain ⟨subject, run, rep⟩ := Run.exec_refines (setTypeStep_simulates junk) ops (represents_create first) room
  exact ⟨subject, run, rep.storesTexts⟩

/-- "5" and 70000 in an intset, which the third integer makes a table; "05" is no integer. -/
theorem setType_refines_texts_converted : RefinesTexts (fun _ _ => 0) (fun text => BitVec.ofNat 32 text.length) (.sds [53])
    [.add 2 true id (.sds [53]), .add 2 true id (.int 70000), .isMember (.sds [48, 53]), .add 2 true id (.sds [45, 49]),
      .isMember (.int 5), .add 2 true id (.sds [48, 53]), .remove true (.sds [53]), .isMember (.sds [53])] :=
  setType_refines_texts _ _ _ (by decide +kernel)

theorem intsetAdd_length {is' : Intset} {success : Bool} (add : intsetAdd junk is v = some (is', success))
    (bound : is.length < 2 ^ 32) : is'.length < 2 ^ 32 := by
  unfold intsetAdd at add
  simp only [bind_eq_bind, Option.pure_def] at add
  split at add
  · obtain ⟨upgraded, upgrade, same⟩ := bind_eq_some_iff.mp add
    cases same
    simp only [intsetUpgradeAndAdd, bind_eq_bind, bind_eq_some_iff, Option.pure_def, some.injEq]
      at upgrade
    obtain ⟨_, _, _, _, rfl⟩ := upgrade
    exact Nat.mod_lt _ (by decide)
  · obtain ⟨⟨found, pos⟩, _, add⟩ := bind_eq_some_iff.mp add
    split at add
    · cases add
      exact bound
    · split at add
      all_goals
        simp only [bind_eq_some_iff, some.injEq, Prod.mk.injEq] at add
        obtain ⟨_, _, _, _, rfl, _⟩ := add
        exact Nat.mod_lt _ (by decide)

theorem exec_adds (hash : List UInt8 → BitVec 32) (canResize : Bool) (addr : Nat → Nat) (added : List (BitVec 64)) (bound : is.length < 2 ^ 32) :
    Run.exec (setTypeStep hash junk) (.intset is) (added.map fun value => .add (2 ^ 32) canResize addr (.int value)) =
      (Run.exec (intsetStep junk) is (added.map .add)).map fun last => (.intset last.1, last.2) := by
  induction added generalizing is with
  | nil => rfl
  | cons value added ih =>
    simp only [map_cons, Run.exec, intsetStep, setTypeStep, setTypeAdd, isObjectRepresentableAsLongLong]
    cases add : intsetAdd junk is value.toInt with
    | none => rfl
    | some after =>
      obtain ⟨is', success⟩ := after
      have small := intsetAdd_length junk add bound
      have few : ¬ (success = true ∧ 2 ^ 32 < intsetLen is') := by
        rw [intsetLen]
        omega
      simp only [bind_eq_bind, bind_some, few, if_false, Option.pure_def, ih small, Option.map_map]
      rfl

/-- Adding 2^29 integers of 64 bits where set-max-intset-entries is 2^32. -/
theorem setType_outgrows : ¬ ∀ (hash : List UInt8 → BitVec 32) (junk : List UInt8 → Nat → UInt8) (first : StringObject)
    (ops : List SetTypeOp), RefinesTexts junk hash first ops := by
  intro all
  obtain ⟨count, size⟩ : ∃ count, count + 1 = 2 ^ 29 := ⟨2 ^ 29 - 1, by decide⟩
  obtain ⟨subject, run, _⟩ := all (fun _ => 0) (fun _ _ => 0) (.int 0) (((List.range' 0 (count + 1)).map largeValue).map
    fun value => .add (2 ^ 32) true id (.int value))
  have fails := exec_outgrows (fun _ _ => 0) count intsetNew [] 0 holds_new rfl (by simp) (by omega)
  have start : setTypeCreate (.int 0) = .intset intsetNew := rfl
  rw [start, exec_adds _ _ true id _ (by decide), List.map_map] at run
  rw [show IntsetOp.add ∘ largeValue = fun k => .add (largeValue k) from rfl, fails] at run
  cases run

end

end Cplusplus.Redis.SetType
