import Cplusplus.Proofs.DictIterator
import Cplusplus.Proofs.SetTypeRun

/-! What the set commands read and write: the elements of a set, the lookups in other sets
and the destination. -/

namespace Cplusplus.Redis.SetType
open Intsets
open List (drop_zero foldlM_cons map_cons map_map mem_cons_of_mem mem_cons_self mem_filter mem_map toFinset_cons)
open Option (bind_eq_bind bind_some map_some pure_def some_ne_none)

section
variable {hash : List UInt8 → BitVec 32} {subject : SetObject} {s : Finset (List UInt8)} {is : Intset} {values : List Int}
variable {d : SetDict}

def elementText (ele : SetElement) : List UInt8 := getDecodedObject ele.object

/-- Each text of the set once, and no integer outside of 64 bits. -/
structure Lists (elements : List SetElement) (s : Finset (List UInt8)) : Prop where
  distinct : (elements.map elementText).Nodup
  mem : ∀ text, text ∈ elements.map elementText ↔ text ∈ s
  fits : ∀ v, .intset v ∈ elements → Fits .int64 v

theorem intsetElements_spec (holds : Holds is values) (fuel ii : Nat) (inside : ii ≤ values.length)
    (enough : values.length < fuel + ii) : intsetElements is fuel ii = some ((values.drop ii).map .intset) := by
  have length := holds.length
  induction fuel generalizing ii with
  | zero => omega
  | succ fuel ih =>
    by_cases last : ii = values.length
    · simp [intsetElements, intsetGet, length, last]
    · have less : ii < values.length := by omega
      have rest := ih (ii + 1) less (by omega)
      rw [List.drop_eq_getElem_cons less, map_cons, intsetElements]
      simp only [intsetGet, length, less, if_true, holds.get, List.getElem?_eq_getElem less, map_some, bind_eq_bind, bind_some, rest, pure_def]

theorem dictElements_spec (holds : HtHolds hash d s) :
    ((dictElements d).map getDecodedObject : Multiset (List UInt8)) = d.contents.map DictEntry.key := by
  have entries : ((List.range d.ht0.size).flatMap d.ht0.table ++
      if d.isRehashing then (List.range d.ht1.size).flatMap d.ht1.table else [] :
        Multiset (DictEntry (List UInt8) StringObject)) = d.contents := by
    rw [Dict.contents, Dictht.contents_flatten, Dictht.contents_flatten, Multiset.coe_add]
    congr 2
    cases moving : d.rehashidx with
    | some idx => simp [Dict.isRehashing, moving, List.flatMap]
    | none => simp [Dict.isRehashing, moving, holds.valid.idle moving, dictReset]
  have objects := holds.objects
  rw [← entries] at objects ⊢
  rw [dictElements, Multiset.map_coe, map_map]
  congr 1
  apply List.map_congr_left
  intro e member
  exact objects e member

theorem setTypeElements_spec (rep : Represents hash subject s) : ∃ elements, setTypeElements subject = some elements ∧ Lists elements s := by
  cases subject with
  | ht ptr =>
    have keys := dictElements_spec rep
    have same : ((dictElements ptr).map SetElement.ht).map elementText = (dictElements ptr).map getDecodedObject := by
      rw [map_map]
      rfl
    refine ⟨_, rfl, ?_, fun text => ?_, fun v member => ?_⟩
    · rw [same, ← Multiset.coe_nodup, keys]
      exact (HtHolds.valid rep).distinct
    · rw [same, ← Multiset.mem_coe, keys, Multiset.mem_map]
      exact HtHolds.keys rep text
    · obtain ⟨o, _, other⟩ := mem_map.mp member
      cases other
  | intset is =>
    obtain ⟨values, holds, rfl⟩ := rep
    have elements := intsetElements_spec holds (is.length + 1) 0 (Nat.zero_le _) (by rw [holds.length]; omega)
    have fits := fits_values holds
    have same : (values.map SetElement.intset).map elementText = values.map numeral := by
      rw [map_map]
      apply List.map_congr_left
      intro v member
      exact createStringObject_text (fits v member)
    refine ⟨_, elements, ?_, fun text => ?_, fun v member => ?_⟩
    · rw [drop_zero, same]
      apply List.Nodup.map_on ?_ (holds.sorted.imp fun less => Int.ne_of_lt less)
      intro v left w right same
      exact numeral_injective (fits_int64.mp (fits v left)) (fits_int64.mp (fits w right)) same
    · rw [drop_zero, same, texts, List.mem_toFinset]
    · rw [drop_zero] at member
      obtain ⟨w, inside, equal⟩ := mem_map.mp member
      cases equal
      exact fits v inside

theorem Lists.filter {elements : List SetElement} (lists : Lists elements s) (p : List UInt8 → Bool) :
    Lists (elements.filter fun ele => p (elementText ele)) (s.filter fun text => p text) where
  distinct := lists.distinct.sublist (List.filter_sublist.map _)
  mem text := by
    rw [Finset.mem_filter, ← lists.mem, mem_map, mem_map]
    constructor
    · rintro ⟨ele, member, rfl⟩
      obtain ⟨inside, accepted⟩ := mem_filter.mp member
      exact ⟨⟨ele, inside, rfl⟩, accepted⟩
    · rintro ⟨⟨ele, inside, rfl⟩, accepted⟩
      exact ⟨ele, mem_filter.mpr ⟨inside, accepted⟩, rfl⟩
  fits v member := lists.fits v (mem_filter.mp member).1

theorem Lists.toFinset {elements : List SetElement} (lists : Lists elements s) : (elements.map elementText).toFinset = s := by
  ext text
  rw [List.mem_toFinset, lists.mem]

theorem Lists.length {elements : List SetElement} (lists : Lists elements s) : elements.length = s.card := by
  rw [← lists.toFinset, List.toFinset_card_of_nodup lists.distinct, List.length_map]

def DbHolds (hash : List UInt8 → BitVec 32) (db : SetDb) (S : List UInt8 → Finset (List UInt8)) : Prop :=
  ∀ key, match db key with
    | none => S key = ∅
    | some (.set obj) => Represents hash obj (S key)
    | some .other => True

def Looked (db db' : SetDb) : Prop := ∀ key, (db' key = none ↔ db key = none) ∧ (db' key = some .other ↔ db key = some .other)

theorem Looked.refl (db : SetDb) : Looked db db := fun _ => ⟨Iff.rfl, Iff.rfl⟩

theorem Looked.trans {db db' db'' : SetDb} (first : Looked db db') (second : Looked db' db'') : Looked db db'' :=
  fun key => ⟨(second key).1.trans (first key).1, (second key).2.trans (first key).2⟩

/-- The set of a pointer; NULL is the empty set. -/
def setAt (S : List UInt8 → Finset (List UInt8)) : SetPointer → Finset (List UInt8)
  | none => ∅
  | some key => S key

def Live (db : SetDb) (set : SetPointer) : Prop := ∃ key obj, set = some key ∧ db key = some (.set obj)

variable {db db' : SetDb} {S : List UInt8 → Finset (List UInt8)} {set : SetPointer} {server : SetServer}

theorem Looked.live (looked : Looked db db') (live : Live db set) : Live db' set := by
  obtain ⟨key, obj, rfl, here⟩ := live
  cases after : db' key with
  | none =>
    rw [(looked key).1.mp after] at here
    cases here
  | some value =>
    cases value with
    | set obj' => exact ⟨key, obj', rfl, after⟩
    | other =>
      rw [(looked key).2.mp after] at here
      cases here

theorem DbHolds.object (holds : DbHolds hash db S) (live : Live db set) :
    ∃ obj, db.object set = some obj ∧ Represents hash obj (setAt S set) := by
  obtain ⟨key, obj, rfl, here⟩ := live
  have rep := holds key
  rw [here] at rep
  exact ⟨obj, by simp [SetDb.object, here], rep⟩

theorem isMember_spec (holds : DbHolds server.dictGenHashFunction db S) (live : Live db set) (ele : StringObject) :
    ∃ db', db.isMember server set ele = some (db', decide (getDecodedObject ele ∈ setAt S set)) ∧
      DbHolds server.dictGenHashFunction db' S ∧ Looked db db' := by
  obtain ⟨key, obj, rfl, here⟩ := live
  have rep := holds key
  rw [here] at rep
  obtain ⟨obj', answer, rep'⟩ := setTypeIsMember_simulates ele rep
  refine ⟨Function.update db key (some (.set obj')), ?_, fun other => ?_, fun other => ?_⟩
  · simp only [SetDb.isMember, SetDb.object, here, answer, bind_eq_bind, bind_some, pure_def]
    rfl
  · by_cases same : other = key
    · subst same
      rw [Function.update_self]
      exact rep'
    · rw [Function.update_of_ne same]
      exact holds other
  · by_cases same : other = key
    · subst same
      rw [Function.update_self, here]
      simp
    · rw [Function.update_of_ne same]
      exact ⟨Iff.rfl, Iff.rfl⟩

theorem sinterTest_spec (holds : DbHolds server.dictGenHashFunction db S) (live : Live db set) (ele : SetElement)
    (fits : ∀ v, ele = .intset v → Fits .int64 v) :
    ∃ db', sinterTest server db set ele = some (db', decide (elementText ele ∈ setAt S set)) ∧
      DbHolds server.dictGenHashFunction db' S ∧ Looked db db' := by
  obtain ⟨obj, object, rep⟩ := holds.object live
  obtain ⟨db', member, after⟩ := isMember_spec holds live ele.object
  cases obj with
  | ht ptr =>
    refine ⟨db', ?_, after⟩
    cases ele <;> simp only [sinterTest, object, bind_eq_bind, bind_some] <;> exact member
  | intset ptr =>
    obtain ⟨values, stored, same⟩ := rep
    have found : ∀ (o : StringObject) (v : Int), isObjectRepresentableAsLongLong o = some v →
        intsetFind ptr v = some (decide (getDecodedObject o ∈ setAt S set)) := by
      intro o v read
      rw [intsetFind_spec stored (representable_fits read)]
      simp only [← same, mem_texts_iff stored read]
    cases ele with
    | intset v =>
      obtain ⟨low, high⟩ := fits_int64.mp (fits v rfl)
      have read : isObjectRepresentableAsLongLong (createStringObjectFromLongLong v) = some v := by
        rw [createStringObjectFromLongLong, isObjectRepresentableAsLongLong, BitVec.toInt_ofInt_eq_self (by decide) (by omega) (by omega)]
      refine ⟨db, ?_, holds, .refl db⟩
      simp only [sinterTest, object, found _ v read, bind_eq_bind, bind_some, pure_def]
      rfl
    | ht o =>
      cases o with
      | sds text =>
        refine ⟨db', ?_, after⟩
        simp only [sinterTest, object, bind_eq_bind, bind_some]
        exact member
      | int value =>
        have answer := found (.int value) value.toInt rfl
        by_cases inside : getDecodedObject (.int value) ∈ setAt S set
        · rw [decide_eq_true inside] at answer
          refine ⟨db', ?_, after⟩
          simp only [sinterTest, object, answer, bind_eq_bind, bind_some, Bool.not_true, Bool.false_eq_true, if_false]
          exact member
        · rw [decide_eq_false inside] at answer
          refine ⟨db, ?_, holds, .refl db⟩
          simp only [sinterTest, object, answer, bind_eq_bind, bind_some, Bool.not_false, if_true, pure_def]
          rw [decide_eq_false (show elementText (.ht (.int value)) ∉ setAt S set from inside)]

end

/-! The loops of SINTER, SUNION and SDIFF: what each adds to the reply or to the destination. -/

section
variable {server : SetServer} {db db' : SetDb} {S : List UInt8 → Finset (List UInt8)} {set first : SetPointer}
variable {s : Finset (List UInt8)} {dst dst' : SetObject} {elements : List SetElement}

def AddsFit (server : SetServer) (dst : SetObject) (values : List StringObject) : Prop :=
  Run.Allowed (addToSet server) (fun dst value => AddRoom server.dictGenHashFunction server.canResize value dst) dst values

instance (server : SetServer) (dst : SetObject) (values : List StringObject) : Decidable (AddsFit server dst values) :=
  inferInstanceAs (Decidable (Run.Allowed _ _ _ _))

theorem addToSet_spec (rep : Represents server.dictGenHashFunction dst s) (ele : SetElement)
    (room : AddRoom server.dictGenHashFunction server.canResize ele.object dst) :
    ∃ dst', addToSet server dst ele.object = some (dst', decide (elementText ele ∉ s)) ∧
      Represents server.dictGenHashFunction dst' (insert (elementText ele) s) :=
  setTypeAdd_simulates server.junk server.setMaxIntsetEntries (server.addr dst) ele.object rep room

theorem sinterTestAll_spec (first : SetPointer) (ele : SetElement) (fits : ∀ v, ele = .intset v → Fits .int64 v) (sets : List SetPointer)
    (holds : DbHolds server.dictGenHashFunction db S) (live : ∀ set ∈ sets, Live db set) :
    ∃ db', sinterTestAll server first ele sets db = some (db', decide (∀ set ∈ sets, set = first ∨ elementText ele ∈ setAt S set)) ∧
      DbHolds server.dictGenHashFunction db' S ∧ Looked db db' := by
  induction sets generalizing db with
  | nil => exact ⟨db, by simp [sinterTestAll], holds, .refl db⟩
  | cons set sets ih =>
    by_cases same : set = first
    · obtain ⟨db', rest, after⟩ := ih holds fun other member => live other (mem_cons_of_mem _ member)
      refine ⟨db', ?_, after⟩
      rw [sinterTestAll, if_pos same, rest]
      simp [same]
    · obtain ⟨db₁, test, holds₁, looked⟩ := sinterTest_spec holds (live set mem_cons_self) ele fits
      by_cases inside : elementText ele ∈ setAt S set
      · obtain ⟨db', rest, holds', looked'⟩ := ih holds₁ fun other member =>
          looked.live (live other (mem_cons_of_mem _ member))
        refine ⟨db', ?_, holds', looked.trans looked'⟩
        rw [decide_eq_true inside] at test
        rw [sinterTestAll, if_neg same]
        simp [test, rest, inside]
      · refine ⟨db₁, ?_, holds₁, looked⟩
        rw [decide_eq_false inside] at test
        rw [sinterTestAll, if_neg same]
        simp [test, inside, same]

def inAll (S : List UInt8 → Finset (List UInt8)) (first : SetPointer) (sets : List SetPointer) (text : List UInt8) : Bool :=
  decide (∀ set ∈ sets, set = first ∨ text ∈ setAt S set)

theorem sinterLoop_spec {α : Type} {emit : α → SetElement → Option α} {out last : α} (first : SetPointer) (sets : List SetPointer)
    (elements : List SetElement) (fits : ∀ v, .intset v ∈ elements → Fits .int64 v)
    (holds : DbHolds server.dictGenHashFunction db S) (live : ∀ set ∈ sets, Live db set)
    (emitted : (elements.filter fun ele => inAll S first sets (elementText ele)).foldlM emit out = some last) :
    ∃ db', sinterLoop server emit first sets elements db out = some (db', last) ∧ DbHolds server.dictGenHashFunction db' S ∧ Looked db db' := by
  induction elements generalizing db out with
  | nil =>
    cases emitted
    exact ⟨db, rfl, holds, .refl db⟩
  | cons ele elements ih =>
    obtain ⟨db₁, test, holds₁, looked⟩ := sinterTestAll_spec first ele
      (fun v same => fits v (same ▸ mem_cons_self)) sets holds live
    have onward := fun out' => @ih db₁ out' (fun v member => fits v (mem_cons_of_mem _ member)) holds₁
      (fun set member => looked.live (live set member))
    cases accepted : inAll S first sets (elementText ele) with
    | true =>
      simp only [List.filter_cons, accepted, if_true, foldlM_cons, bind_eq_bind, Option.bind_eq_some_iff] at emitted
      obtain ⟨out', emit, emitted⟩ := emitted
      obtain ⟨db', rest, holds', looked'⟩ := onward _ emitted
      refine ⟨db', ?_, holds', looked.trans looked'⟩
      rw [inAll] at accepted
      rw [accepted] at test
      simp only [sinterLoop, test, bind_eq_bind, bind_some, if_true, emit]
      exact rest
    | false =>
      simp only [List.filter_cons, accepted, Bool.false_eq_true, if_false] at emitted
      obtain ⟨db', rest, holds', looked'⟩ := onward _ emitted
      refine ⟨db', ?_, holds', looked.trans looked'⟩
      rw [inAll] at accepted
      rw [accepted] at test
      simp only [sinterLoop, test, bind_eq_bind, bind_some, Bool.false_eq_true, if_false]
      exact rest

theorem emitReply_spec (elements : List SetElement) (fits : ∀ v, .intset v ∈ elements → Fits .int64 v)
    (replies : List (List UInt8)) : elements.foldlM emitReply replies = some (replies ++ elements.map elementText) := by
  induction elements generalizing replies with
  | nil => simp
  | cons ele elements ih =>
    have one : emitReply replies ele = some (replies ++ [elementText ele]) := by
      cases ele with
      | ht o => rfl
      | intset v =>
        have fits := fits v mem_cons_self
        rw [elementText, SetElement.object, createStringObject_text fits, emitReply, ll2string_roomy]
        · rw [fits_int64] at fits
          omega
        · decide
    rw [foldlM_cons, one, bind_eq_bind, bind_some, ih fun v member => fits v (mem_cons_of_mem _ member), map_cons, List.append_assoc]
    rfl

def added (s : Finset (List UInt8)) (elements : List SetElement) : Finset (List UInt8) :=
  s ∪ (elements.map elementText).toFinset

theorem added_cons (s : Finset (List UInt8)) (ele : SetElement) (elements : List SetElement) :
    added s (ele :: elements) = added (insert (elementText ele) s) elements := by
  ext text
  simp only [added, map_cons, toFinset_cons, Finset.mem_union, Finset.mem_insert]
  rw [or_left_comm, or_assoc]

section
variable (elements)

theorem emitStore_spec (rep : Represents server.dictGenHashFunction dst s) (fit : AddsFit server dst (elements.map SetElement.object)) :
    ∃ dst', elements.foldlM (emitStore server) dst = some dst' ∧ Represents server.dictGenHashFunction dst' (added s elements) := by
  induction elements generalizing dst s with
  | nil => exact ⟨dst, rfl, by simpa [added] using rep⟩
  | cons ele elements ih =>
    obtain ⟨room, fit⟩ := fit
    obtain ⟨dst₁, add, rep₁⟩ := addToSet_spec rep ele room
    obtain ⟨dst', rest, rep'⟩ := ih rep₁ (fit _ add)
    refine ⟨dst', ?_, added_cons s ele elements ▸ rep'⟩
    simp only [foldlM_cons, emitStore, add, map_some, bind_eq_bind, bind_some]
    exact rest

theorem increment_spec {count : Nat} (bound : count + 1 < 2 ^ 31) : increment count = some ((count + 1 : Nat) : Int) := by
  rw [increment, if_pos (by omega)]
  rfl

theorem addElements_spec (more : List StringObject) (rep : Represents server.dictGenHashFunction dst s)
    (fit : AddsFit server dst (elements.map SetElement.object ++ more)) (few : (added s elements).card < 2 ^ 31) :
    ∃ dst', addElements server elements dst s.card = some (dst', ((added s elements).card : Int)) ∧
      Represents server.dictGenHashFunction dst' (added s elements) ∧ AddsFit server dst' more := by
  induction elements generalizing dst s with
  | nil =>
    have same : added s [] = s := by simp [added]
    rw [same]
    exact ⟨dst, rfl, rep, fit⟩
  | cons ele elements ih =>
    obtain ⟨room, fit⟩ := fit
    obtain ⟨dst₁, add, rep₁⟩ := addToSet_spec rep ele room
    rw [added_cons] at few ⊢
    obtain ⟨dst', rest, after⟩ := ih rep₁ (fit _ add) few
    refine ⟨dst', ?_, after⟩
    by_cases present : elementText ele ∈ s
    · rw [Finset.insert_eq_of_mem present] at rest ⊢
      rw [decide_eq_false (not_not.mpr present)] at add
      simp only [addElements, add, bind_eq_bind, bind_some, Bool.false_eq_true, if_false]
      exact rest
    · have smaller : (insert (elementText ele) s).card ≤ (added (insert (elementText ele) s) elements).card :=
        Finset.card_le_card Finset.subset_union_left
      rw [Finset.card_insert_of_notMem present] at rest smaller
      rw [decide_eq_true present] at add
      simp only [addElements, add, bind_eq_bind, bind_some, if_true, increment_spec (show s.card + 1 < 2 ^ 31 by omega)]
      exact rest

end

def elementsAt (db : SetDb) (set : SetPointer) : List SetElement := ((db.object set).bind setTypeElements).getD []

theorem elementsAt_spec (holds : DbHolds server.dictGenHashFunction db S) (live : Live db set) :
    ∃ obj, db.object set = some obj ∧ setTypeElements obj = some (elementsAt db set) ∧ Lists (elementsAt db set) (setAt S set) := by
  obtain ⟨obj, object, rep⟩ := holds.object live
  obtain ⟨elements, read, lists⟩ := setTypeElements_spec rep
  have same : elementsAt db set = elements := by simp [elementsAt, object, read]
  exact ⟨obj, object, by rw [same, read], by rwa [same]⟩

def unionOf (S : List UInt8 → Finset (List UInt8)) (s : Finset (List UInt8)) (sets : List SetPointer) : Finset (List UInt8) :=
  s ∪ sets.toFinset.biUnion (setAt S)

theorem unionOf_cons (set : SetPointer) (sets : List SetPointer) : unionOf S s (set :: sets) = unionOf S (s ∪ setAt S set) sets := by
  rw [unionOf, unionOf, toFinset_cons, Finset.biUnion_insert, Finset.union_assoc]

theorem Lists.added (lists : Lists elements s) (t : Finset (List UInt8)) : added t elements = t ∪ s := by
  rw [SetType.added, lists.toFinset]

theorem unionLoop_spec (sets : List SetPointer) (holds : DbHolds server.dictGenHashFunction db S)
    (live : ∀ set ∈ sets, set ≠ none → Live db set) (rep : Represents server.dictGenHashFunction dst s)
    (fit : AddsFit server dst ((sets.flatMap (elementsAt db)).map SetElement.object)) (few : (unionOf S s sets).card < 2 ^ 31) :
    ∃ dst', unionLoop server db sets dst s.card = some (dst', ((unionOf S s sets).card : Int)) ∧
      Represents server.dictGenHashFunction dst' (unionOf S s sets) := by
  induction sets generalizing dst s with
  | nil =>
    have same : unionOf S s [] = s := by simp [unionOf]
    rw [same]
    exact ⟨dst, rfl, rep⟩
  | cons set sets ih =>
    have live' := fun other member => live other (mem_cons_of_mem set member)
    rw [unionOf_cons] at few ⊢
    rw [List.flatMap_cons, List.map_append] at fit
    cases set with
    | none =>
      have same : s ∪ setAt S none = s := Finset.union_empty s
      rw [same] at few ⊢
      exact ih live' rep fit few
    | some key =>
      obtain ⟨obj, object, read, lists⟩ := elementsAt_spec holds (live (some key) mem_cons_self (some_ne_none _))
      have grown := lists.added s
      have smaller : (s ∪ setAt S (some key)).card ≤ (unionOf S (s ∪ setAt S (some key)) sets).card :=
        Finset.card_le_card Finset.subset_union_left
      obtain ⟨dst₁, add, rep₁, fit₁⟩ := addElements_spec _ _ rep fit (by rw [grown]; omega)
      rw [grown] at add rep₁
      obtain ⟨dst', rest, rep'⟩ := ih live' rep₁ fit₁ few
      refine ⟨dst', ?_, rep'⟩
      simp only [unionLoop, object, read, add, bind_eq_bind, bind_some]
      exact rest

/-- The elements that none of the other sets contains. -/
def inNone (S : List UInt8 → Finset (List UInt8)) (sets : List SetPointer) (text : List UInt8) : Bool :=
  decide (∀ set ∈ sets, text ∉ setAt S set)

theorem inNone_cons (set : SetPointer) (sets : List SetPointer) (text : List UInt8) :
    inNone S (set :: sets) text = (decide (text ∉ setAt S set) && inNone S sets text) := by
  rw [inNone, inNone, ← Bool.decide_and]
  congr 1
  rw [List.forall_mem_cons]

theorem diffTestAll_some (key : List UInt8) (ele : StringObject) (sets : List SetPointer) (db : SetDb) :
    diffTestAll server first ele (some key :: sets) db = if some key = first then some (db, false)
      else (db.isMember server (some key) ele).bind fun after =>
        if after.2 then some (after.1, false) else diffTestAll server first ele sets after.1 := rfl

theorem diffTestAll_spec (ele : StringObject) (sets : List SetPointer) (holds : DbHolds server.dictGenHashFunction db S)
    (live : ∀ set ∈ sets, set ≠ none → Live db set) (inside : getDecodedObject ele ∈ setAt S first) :
    ∃ db', diffTestAll server first ele sets db = some (db', inNone S sets (getDecodedObject ele)) ∧
      DbHolds server.dictGenHashFunction db' S ∧ Looked db db' := by
  induction sets generalizing db with
  | nil => exact ⟨db, by simp [diffTestAll, inNone], holds, .refl db⟩
  | cons set sets ih =>
    have live' := fun other member => live other (mem_cons_of_mem set member)
    cases set with
    | none =>
      obtain ⟨db', rest, after⟩ := ih holds live'
      refine ⟨db', ?_, after⟩
      rw [diffTestAll, rest, inNone_cons, decide_eq_true (show getDecodedObject ele ∉ setAt S none from Finset.notMem_empty _), Bool.true_and]
    | some key =>
      by_cases same : some key = first
      · refine ⟨db, ?_, holds, .refl db⟩
        rw [diffTestAll_some, if_pos same, inNone_cons, same, decide_eq_false (not_not.mpr inside), Bool.false_and]
      · obtain ⟨db₁, member, holds₁, looked⟩ := isMember_spec holds (live (some key) mem_cons_self (some_ne_none _)) ele
        by_cases found : getDecodedObject ele ∈ setAt S (some key)
        · refine ⟨db₁, ?_, holds₁, looked⟩
          rw [decide_eq_true found] at member
          rw [inNone_cons, decide_eq_false (not_not.mpr found), Bool.false_and, diffTestAll_some, if_neg same]
          simp [member]
        · obtain ⟨db', rest, holds', looked'⟩ := ih holds₁ fun other member present => looked.live (live' other member present)
          refine ⟨db', ?_, holds', looked.trans looked'⟩
          rw [decide_eq_false found] at member
          rw [inNone_cons, decide_eq_true found, Bool.true_and, diffTestAll_some, if_neg same]
          simp [member, rest]

theorem diffLoopOne_spec (first : SetPointer) (sets : List SetPointer) (elements : List SetElement)
    (holds : DbHolds server.dictGenHashFunction db S) (live : ∀ set ∈ sets, set ≠ none → Live db set)
    (inside : ∀ ele ∈ elements, elementText ele ∈ setAt S first) (distinct : (elements.map elementText).Nodup)
    (new : ∀ ele ∈ elements, elementText ele ∉ s) (rep : Represents server.dictGenHashFunction dst s)
    (fit : AddsFit server dst ((elements.filter fun ele => inNone S sets (elementText ele)).map SetElement.object))
    (few : (added s (elements.filter fun ele => inNone S sets (elementText ele))).card < 2 ^ 31) :
    ∃ db' dst', diffLoopOne server first sets elements db dst s.card =
        some (db', dst', ((added s (elements.filter fun ele => inNone S sets (elementText ele))).card : Int)) ∧
      DbHolds server.dictGenHashFunction db' S ∧ Looked db db' ∧
      Represents server.dictGenHashFunction dst' (added s (elements.filter fun ele => inNone S sets (elementText ele))) := by
  induction elements generalizing db dst s with
  | nil =>
    have same : added s [] = s := by simp [added]
    rw [List.filter_nil, same]
    exact ⟨db, dst, rfl, holds, .refl db, rep⟩
  | cons ele elements ih =>
    rw [map_cons, List.nodup_cons] at distinct
    obtain ⟨db₁, test, holds₁, looked⟩ := diffTestAll_spec ele.object sets holds live (inside ele mem_cons_self)
    have live₁ := fun set member present => looked.live (live set member present)
    have inside' := fun other member => inside other (mem_cons_of_mem ele member)
    cases accepted : inNone S sets (elementText ele) with
    | false =>
      simp only [List.filter_cons, accepted, Bool.false_eq_true, if_false] at fit few ⊢
      obtain ⟨db', dst', rest, holds', looked', rep'⟩ := ih holds₁ live₁ inside' distinct.2
        (fun other member => new other (mem_cons_of_mem ele member)) rep fit few
      refine ⟨db', dst', ?_, holds', looked.trans looked', rep'⟩
      rw [elementText] at accepted
      simp only [diffLoopOne, test, accepted, bind_eq_bind, bind_some]
      exact rest
    | true =>
      simp only [List.filter_cons, accepted, if_true, added_cons] at fit few ⊢
      obtain ⟨room, fit⟩ := fit
      obtain ⟨dst₁, add, rep₁⟩ := addToSet_spec rep ele room
      have smaller : (insert (elementText ele) s).card ≤ (added (insert (elementText ele) s)
          (elements.filter fun ele => inNone S sets (elementText ele))).card := Finset.card_le_card Finset.subset_union_left
      have count := Finset.card_insert_of_notMem (new ele mem_cons_self)
      obtain ⟨db', dst', rest, holds', looked', rep'⟩ := ih holds₁ live₁ inside' distinct.2 (by
        intro other member
        rw [Finset.mem_insert, not_or]
        refine ⟨fun same => distinct.1 ?_, new other (mem_cons_of_mem ele member)⟩
        rw [← same]
        exact List.mem_map_of_mem member) rep₁ (fit _ add) few
      refine ⟨db', dst', ?_, holds', looked.trans looked', rep'⟩
      rw [elementText] at accepted
      rw [count] at rest smaller
      have bound : s.card + 1 < 2 ^ 31 := smaller.trans_lt few
      simp only [diffLoopOne, test, accepted, add, increment_spec bound, bind_eq_bind, bind_some]
      exact rest

theorem removeElements_spec (elements : List SetElement) (rep : Represents server.dictGenHashFunction dst s) :
    ∃ dst', removeElements server elements dst s.card = some (dst', ((s \ (elements.map elementText).toFinset).card : Int)) ∧
      Represents server.dictGenHashFunction dst' (s \ (elements.map elementText).toFinset) := by
  induction elements generalizing dst s with
  | nil => exact ⟨dst, by simp [removeElements], by simpa using rep⟩
  | cons ele elements ih =>
    obtain ⟨dst₁, remove, rep₁⟩ := setTypeRemove_simulates server.junk server.canResize ele.object rep
    have left : s \ ((ele :: elements).map elementText).toFinset = s.erase (elementText ele) \ (elements.map elementText).toFinset := by
      ext text
      simp only [map_cons, toFinset_cons, Finset.mem_sdiff, Finset.mem_insert, Finset.mem_erase, not_or]
      rw [and_left_comm, ← and_assoc]
    obtain ⟨dst', rest, rep'⟩ := ih rep₁
    rw [left]
    refine ⟨dst', ?_, rep'⟩
    by_cases present : elementText ele ∈ s
    · have positive := Finset.card_pos.mpr ⟨_, present⟩
      rw [decide_eq_true (show getDecodedObject ele.object ∈ s from present)] at remove
      rw [show s.erase (getDecodedObject ele.object) = s.erase (elementText ele) from rfl, Finset.card_erase_of_mem present,
        Nat.cast_sub positive] at rest
      simp only [removeElements, remove, bind_eq_bind, bind_some, if_true]
      exact rest
    · rw [decide_eq_false (show getDecodedObject ele.object ∉ s from present)] at remove
      rw [show s.erase (getDecodedObject ele.object) = s from Finset.erase_eq_of_notMem present] at rest
      rw [Finset.erase_eq_of_notMem present]
      simp only [removeElements, remove, bind_eq_bind, bind_some, Bool.false_eq_true, if_false]
      exact rest

theorem diffLoopTwo_spec (sets : List SetPointer) (holds : DbHolds server.dictGenHashFunction db S)
    (live : ∀ set ∈ sets, set ≠ none → Live db set) (rep : Represents server.dictGenHashFunction dst s) :
    ∃ dst', diffLoopTwo server db sets dst s.card = some (dst', ((s \ unionOf S ∅ sets).card : Int)) ∧
      Represents server.dictGenHashFunction dst' (s \ unionOf S ∅ sets) := by
  induction sets generalizing dst s with
  | nil => exact ⟨dst, by simp [diffLoopTwo, unionOf], by simpa [unionOf] using rep⟩
  | cons set sets ih =>
    have live' := fun other member => live other (mem_cons_of_mem set member)
    have left : s \ unionOf S ∅ (set :: sets) = (s \ setAt S set) \ unionOf S ∅ sets := by
      rw [sdiff_sdiff_left]
      simp [unionOf]
    rw [left]
    cases set with
    | none =>
      have same : s \ setAt S none = s := Finset.sdiff_empty
      rw [same]
      exact ih live' rep
    | some key =>
      obtain ⟨obj, object, read, lists⟩ := elementsAt_spec holds (live (some key) mem_cons_self (some_ne_none _))
      obtain ⟨dst₁, remove, rep₁⟩ := removeElements_spec (elementsAt db (some key)) rep
      rw [lists.toFinset] at remove rep₁
      by_cases empty : (s \ setAt S (some key)).card = 0
      · have none_left := Finset.card_eq_zero.mp empty
        rw [none_left] at rep₁ remove ⊢
        refine ⟨dst₁, ?_, by simpa using rep₁⟩
        simp [diffLoopTwo, object, read, remove]
      · obtain ⟨dst', rest, rep'⟩ := ih live' rep₁
        refine ⟨dst', ?_, rep'⟩
        have nonzero : ¬ (((s \ setAt S (some key)).card : Int) = 0) := by omega
        simp only [diffLoopTwo, object, read, remove, nonzero, if_false, bind_eq_bind, bind_some]
        exact rest

end

end Cplusplus.Redis.SetType
