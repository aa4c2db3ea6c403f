import Cplusplus.HashType
import Cplusplus.Proofs.DictMap
import Cplusplus.Proofs.SetTypeRun
import Cplusplus.Proofs.ZiplistFind
import Mathlib.Data.Finmap

/-! The ziplist of a hash: fields and values take turns, a field is found at its own places only,
and an update, a deletion and an insertion do to the pairs what they do to the map. -/

namespace Cplusplus.Redis.HashType

section
open Ziplist SetType Intsets List

abbrev Text := List UInt8

abbrev TextMap := Finmap fun _ : Text => Text

theorem string2ll_text {text : Text} {value : Int} (read : string2ll text = some value) :
    getDecodedObject (.int (BitVec.ofInt 64 value)) = text := by
  obtain ⟨same, low, high⟩ := string2ll_numeral read
  rw [getDecodedObject_int, BitVec.toInt_ofInt_eq_self (by decide) (by omega) (by omega), same]

theorem tryObjectEncoding_text (o : StringObject) : getDecodedObject (tryObjectEncoding o) = getDecodedObject o := by
  cases o with
  | int value => rfl
  | sds text =>
    simp only [tryObjectEncoding]
    split
    next =>
      split
      next value read => exact string2ll_text read
      next => rfl
    next => rfl

theorem ziplistObject_text (s : Text) : getDecodedObject (ziplistObject (entryOf s)) = s := by
  unfold entryOf
  split
  next value encoding encoded =>
    obtain ⟨same, ⟨low, high⟩, -⟩ := zipTryEncoding_spec encoded
    rw [ziplistObject, createStringObject_text (fits_int64.mpr ⟨low, high⟩), same]
  next => rfl

def flatten : List (Text × Text) → Entries
  | [] => []
  | (field, value) :: pairs => entryOf field :: entryOf value :: flatten pairs

@[simp] theorem flatten_length (pairs : List (Text × Text)) : (flatten pairs).length = 2 * pairs.length := by
  induction pairs with
  | nil => rfl
  | cons pair pairs ih => simp only [flatten, length_cons, ih, Nat.mul_succ]

theorem flatten_append (front back : List (Text × Text)) : flatten (front ++ back) = flatten front ++ flatten back := by
  induction front with
  | nil => rfl
  | cons pair front ih => simp only [cons_append, flatten, ih]

theorem findLoop_pass {field : Text} {front : List (Text × Text)} (absent : field ∉ front.map Prod.fst) {vencoding : FindEncoding}
    (remembers : Remembers field vencoding) (rest : Entries) :
    ∃ later, Remembers field later ∧
      findLoop field 1 0 vencoding (flatten front ++ rest) = (findLoop field 1 0 later rest).map (· + 2 * front.length) := by
  induction front generalizing vencoding with
  | nil => exact ⟨vencoding, remembers, by simp [flatten]⟩
  | cons pair front ih =>
    rw [map_cons, mem_cons, not_or] at absent
    obtain ⟨found, kept⟩ := findMatches_spec (s := pair.1) remembers
    obtain ⟨later, remembered, passed⟩ := ih absent.2 kept
    refine ⟨later, remembered, ?_⟩
    have other : (findMatches field vencoding (entryOf pair.1)).1 = false := by
      rw [found, decide_eq_false_iff_not]
      exact fun same => absent.1 same.symm
    simp only [flatten, cons_append, findLoop, other, Bool.false_eq_true, if_false, passed, Option.map_map]
    rfl

theorem find_absent {field : Text} {pairs : List (Text × Text)} (absent : field ∉ pairs.map Prod.fst) :
    hashTypeFindField (flatten pairs) field = none := by
  obtain ⟨later, -, passed⟩ := findLoop_pass absent (.inl rfl) []
  rw [append_nil] at passed
  unfold hashTypeFindField Entries.index Entries.find
  cases pairs with
  | nil => rfl
  | cons pair pairs => simp [passed, findLoop]

theorem find_present {field value : Text} {front back : List (Text × Text)} (absent : field ∉ front.map Prod.fst) :
    hashTypeFindField (flatten (front ++ (field, value) :: back)) field = some (2 * front.length) := by
  obtain ⟨later, remembered, passed⟩ := findLoop_pass absent (.inl rfl) (flatten ((field, value) :: back))
  have found := (findMatches_spec (s := field) remembered).1
  have here : findLoop field 1 0 later (flatten ((field, value) :: back)) = some 0 := by
    simp [flatten, findLoop, found]
  have nonempty : 0 < (flatten (front ++ (field, value) :: back)).length := by
    simp only [flatten_length, length_append, length_cons]
    omega
  simp only [hashTypeFindField, Entries.index, Int.le_refl, if_true, Int.toNat_zero, nonempty, Option.bind_some, Entries.find, drop_zero]
  rw [flatten_append, passed, here]
  simp

section Present

variable (front back : List (Text × Text)) (field value : Text)

theorem flatten_middle : flatten (front ++ (field, value) :: back) = flatten front ++ entryOf field :: entryOf value :: flatten back := by
  rw [flatten_append, flatten]

theorem next_field : (flatten (front ++ (field, value) :: back)).next (2 * front.length) = some (2 * front.length + 1) := by
  rw [Entries.next, if_pos]
  simp only [flatten_length, length_append, length_cons]
  omega

theorem get_field : (flatten (front ++ (field, value) :: back)).get (2 * front.length) = some (entryOf field) := by
  rw [Entries.get, flatten_middle, getElem?_append_right (by simp)]
  simp

theorem get_value : (flatten (front ++ (field, value) :: back)).get (2 * front.length + 1) = some (entryOf value) := by
  rw [Entries.get, flatten_middle, getElem?_append_right (by simp)]
  simp

theorem replace_value (new : Text) :
    ((flatten (front ++ (field, value) :: back)).delete (2 * front.length + 1)).insert (2 * front.length + 1) new =
      flatten (front ++ (field, new) :: back) := by
  have size : (flatten front ++ [entryOf field]).length = 2 * front.length + 1 := by simp
  rw [flatten_middle, flatten_middle, Entries.delete, append_cons, ← size, eraseIdx_append_of_length_le (Nat.le_refl _),
    Nat.sub_self, eraseIdx_zero, tail_cons, Entries.insert, take_left, drop_left, ← append_cons]

theorem delete_pair : ((flatten (front ++ (field, value) :: back)).delete (2 * front.length)).delete (2 * front.length) =
      flatten (front ++ back) := by
  have size : (flatten front).length = 2 * front.length := flatten_length front
  simp only [flatten_append, flatten, Entries.delete, ← size, eraseIdx_append_of_length_le (Nat.le_refl _), Nat.sub_self,
    eraseIdx_zero, tail_cons]

end Present

theorem push_pair (pairs : List (Text × Text)) (field value : Text) :
    ((flatten pairs).push field false).push value false = flatten (pairs ++ [(field, value)]) := by
  have size : (flatten pairs).push field false = flatten pairs ++ [entryOf field] := by
    simp [Entries.push, Entries.insert, -flatten_length]
  rw [size, Entries.push, Entries.insert, if_neg Bool.false_ne_true, take_length, drop_length, flatten_append, append_assoc]
  rfl

structure Lists (pairs : List (Text × Text)) (m : TextMap) : Prop where
  distinct : (pairs.map Prod.fst).Nodup
  graph : ∀ field value, m.lookup field = some value ↔ (field, value) ∈ pairs

variable {pairs front back : List (Text × Text)} {m : TextMap} {field value : Text}

theorem lists_empty : Lists [] ∅ := ⟨nodup_nil, by simp⟩

theorem Lists.absent (lists : Lists pairs m) (missing : m.lookup field = none) : field ∉ pairs.map Prod.fst := by
  rintro member
  obtain ⟨⟨f, v⟩, inside, rfl⟩ := List.mem_map.mp member
  rw [(lists.graph f v).mpr inside] at missing
  cases missing

theorem Lists.split (lists : Lists pairs m) (stored : m.lookup field = some value) :
    ∃ front back, pairs = front ++ (field, value) :: back ∧ field ∉ front.map Prod.fst ∧ field ∉ back.map Prod.fst := by
  obtain ⟨front, back, rfl⟩ := append_of_mem ((lists.graph field value).mp stored)
  have distinct := lists.distinct
  rw [map_append, map_cons] at distinct
  obtain ⟨outside, -⟩ := nodup_cons.mp (nodup_middle.mp distinct)
  rw [mem_append, not_or] at outside
  exact ⟨front, back, rfl, outside.1, outside.2⟩

theorem Lists.append (lists : Lists pairs m) (missing : m.lookup field = none) (value : Text) :
    Lists (pairs ++ [(field, value)]) (m.insert field value) := by
  have absent := lists.absent missing
  refine ⟨?_, fun f v => ?_⟩
  · rw [map_append, map_singleton]
    exact nodup_append.mpr ⟨lists.distinct, nodup_singleton _, by
      rintro f member g other rfl
      obtain rfl := mem_singleton.mp other
      exact absent member⟩
  · rw [mem_append, mem_singleton, Prod.mk.injEq]
    by_cases same : f = field
    · subst same
      rw [Finmap.lookup_insert, Option.some.injEq]
      constructor
      · rintro rfl
        exact .inr ⟨rfl, rfl⟩
      · rintro (inside | ⟨-, rfl⟩)
        · exact absurd (List.mem_map_of_mem inside) absent
        · rfl
    · rw [Finmap.lookup_insert_of_ne m same, lists.graph]
      simp [same]

section
variable (lists : Lists (front ++ (field, value) :: back) m)
include lists

theorem Lists.update (new : Text) : Lists (front ++ (field, new) :: back) (m.insert field new) := by
  have distinct := lists.distinct
  rw [map_append, map_cons] at distinct
  obtain ⟨outside, -⟩ := nodup_cons.mp (nodup_middle.mp distinct)
  rw [mem_append, not_or] at outside
  refine ⟨by rw [map_append, map_cons]; exact distinct, fun f v => ?_⟩
  have old := lists.graph f v
  simp only [mem_append, mem_cons, Prod.mk.injEq] at old ⊢
  by_cases same : f = field
  · subst same
    rw [Finmap.lookup_insert, Option.some.injEq]
    constructor
    · rintro rfl
      exact .inr (.inl ⟨rfl, rfl⟩)
    · rintro (inside | ⟨-, rfl⟩ | inside)
      · exact absurd (List.mem_map_of_mem inside) outside.1
      · rfl
      · exact absurd (List.mem_map_of_mem inside) outside.2
  · rw [Finmap.lookup_insert_of_ne m same, old]
    simp [same]

theorem Lists.remove : Lists (front ++ back) (m.erase field) := by
  have distinct := lists.distinct
  rw [map_append, map_cons] at distinct
  obtain ⟨outside, rest⟩ := nodup_cons.mp (nodup_middle.mp distinct)
  rw [← map_append] at outside rest
  refine ⟨rest, fun f v => ?_⟩
  have old := lists.graph f v
  by_cases same : f = field
  · subst same
    rw [Finmap.lookup_erase]
    exact ⟨(fun impossible => by cases impossible), fun inside => absurd (List.mem_map_of_mem inside) outside⟩
  · rw [Finmap.lookup_erase_ne same, old]
    simp [same]

end

theorem Lists.size (lists : Lists pairs m) : pairs.length = m.keys.card := by
  have same : m.keys = (pairs.map Prod.fst).toFinset := by
    ext f
    rw [Finmap.mem_keys, Finmap.mem_iff, List.mem_toFinset, List.mem_map]
    constructor
    · rintro ⟨v, stored⟩
      exact ⟨(f, v), (lists.graph f v).mp stored, rfl⟩
    · rintro ⟨⟨g, v⟩, inside, rfl⟩
      exact ⟨v, (lists.graph g v).mpr inside⟩
  rw [same, toFinset_card_of_nodup lists.distinct, length_map]

end

/-! Runs of the hash type: in either encoding, and across the conversion, it answers as a finite
map from byte strings to byte strings does. -/

section
open Ziplist SetType List Option Function

inductive HashTypeOp where
  | set (hashMaxZiplistEntries : Nat) (canResize : Bool) (addr : Nat → Nat) (field value : StringObject)
  | delete (canResize : Bool) (field : StringObject)
  | getObject (field : StringObject)
  | existsField (field : StringObject)
  | length
  | tryConversion (hashMaxZiplistValue : Nat) (canResize : Bool) (addr : Nat → Nat) (argv : List StringObject)

inductive HashTypeReply where
  | flag (result : Bool)
  | object (text : Option Text)
  | length (n : Nat)
  | converted
deriving DecidableEq

def hashTypeStep (hash : Text → BitVec 32) (o : HashObject) : HashTypeOp → Option (HashObject × HashTypeReply)
  | .set hashMaxZiplistEntries canResize addr field value =>
    (hashTypeSet hash hashMaxZiplistEntries canResize addr o field value).map fun r => (r.1, .flag r.2)
  | .delete canResize field => (hashTypeDelete hash canResize o field).map fun r => (r.1, .flag r.2)
  | .getObject field => (hashTypeGetObject hash o field).map fun r => (r.1, .object (r.2.map getDecodedObject))
  | .existsField field => (hashTypeExists hash o field).map fun r => (r.1, .flag r.2)
  | .length => some (o, .length (hashTypeLength o))
  | .tryConversion hashMaxZiplistValue canResize addr argv =>
    (hashTypeTryConversion hash hashMaxZiplistValue canResize addr o argv).map fun o => (o, .converted)

def textMapStep (m : TextMap) : HashTypeOp → TextMap × HashTypeReply
  | .set _ _ _ field value =>
    (m.insert (getDecodedObject field) (getDecodedObject value), .flag (m.lookup (getDecodedObject field)).isSome)
  | .delete _ field => (m.erase (getDecodedObject field), .flag (m.lookup (getDecodedObject field)).isSome)
  | .getObject field => (m, .object (m.lookup (getDecodedObject field)))
  | .existsField field => (m, .flag (m.lookup (getDecodedObject field)).isSome)
  | .length => (m, .length m.keys.card)
  | .tryConversion _ _ _ _ => (m, .converted)

def conversionAdds (canResize : Bool) (addr : Nat → Nat) : Nat → Entries → List (DictOp Text StringObject)
  | i, field :: value :: zl =>
    .add canResize (addr i) (getDecodedObject (tryObjectEncoding (ziplistObject field))) (tryObjectEncoding (ziplistObject value)) ::
      conversionAdds canResize addr (i + 2) zl
  | _, _ => []

/-- Every field of the ziplist has a bucket below 2^31 when it is moved. -/
def ConversionRoom (hash : Text → BitVec 32) (canResize : Bool) (addr : Nat → Nat) (zl : Entries) : Prop :=
  Run.Allowed (dictStep hash) (fun d op => op.Supported hash d) dictCreate (conversionAdds canResize addr 0 zl)

instance (hash : Text → BitVec 32) (canResize : Bool) (addr : Nat → Nat) (zl : Entries) :
    Decidable (ConversionRoom hash canResize addr zl) :=
  inferInstanceAs (Decidable (Run.Allowed ..))

/-- A new field of a table has a bucket below 2^31, and so has every field of a ziplist that is converted. -/
def HashTypeOp.Room (hash : Text → BitVec 32) (o : HashObject) : HashTypeOp → Prop
  | .set hashMaxZiplistEntries canResize addr field value =>
    match o with
    | .ht ptr => Addable hash canResize ptr (getDecodedObject field)
    | .ziplist zl =>
      match hashTypeSetZiplist zl (getDecodedObject field) (getDecodedObject value) with
      | none => True
      | some (zl, _) => hashMaxZiplistEntries < zl.length / 2 → ConversionRoom hash canResize addr zl
  | .tryConversion _ canResize addr _ =>
    match o with
    | .ht _ => True
    | .ziplist zl => ConversionRoom hash canResize addr zl
  | _ => True

instance (hash : Text → BitVec 32) (o : HashObject) (op : HashTypeOp) : Decidable (op.Room hash o) := by
  unfold HashTypeOp.Room
  repeat' split
  all_goals infer_instance

variable {hash : Text → BitVec 32} {canResize : Bool} {addr : Nat → Nat} {o : HashObject} {m : TextMap}
variable {pairs front back : List (Text × Text)} {d : HashDict}

def TableRep (hash : Text → BitVec 32) (d : HashDict) (m : TextMap) : Prop :=
  ∃ objects, MapRep hash d objects ∧ ∀ field, m.lookup field = (objects field).map getDecodedObject

def Represents (hash : Text → BitVec 32) : HashObject → TextMap → Prop
  | .ziplist zl, m => ∃ pairs, zl = flatten pairs ∧ Lists pairs m
  | .ht ptr, m => TableRep hash ptr m

theorem tableRep_create : TableRep hash dictCreate ∅ := ⟨fun _ => none, mapRep_create, by simp⟩

theorem TableRep.insert {objects : Text → Option StringObject} (same : ∀ field, m.lookup field = (objects field).map getDecodedObject)
    (field : Text) (value : StringObject) (f : Text) :
    (m.insert field (getDecodedObject value)).lookup f = (update objects field (some value) f).map getDecodedObject := by
  by_cases here : f = field
  · subst here
    rw [Finmap.lookup_insert, update_self, map_some]
  · rw [Finmap.lookup_insert_of_ne m here, update_of_ne here, same]

section
variable (rep : TableRep hash d m)
include rep

theorem TableRep.add {field : Text} (value : StringObject) {addr : Nat} (absent : m.lookup field = none)
    (addable : Addable hash canResize d field) :
    ∃ d', dictAdd hash canResize d addr field value = some (d', .ok) ∧ TableRep hash d' (m.insert field (getDecodedObject value)) := by
  obtain ⟨objects, rep, same⟩ := rep
  obtain ⟨d', step, rep'⟩ := dictStep_simulates d objects (.add canResize addr field value) rep addable
  have missing : objects field = none := by
    have := same field
    rwa [absent, eq_comm, map_eq_none_iff] at this
  obtain ⟨result, added, shown⟩ := map_eq_some_iff.mp step
  simp only [mapStep, missing, isSome_none, Bool.false_eq_true, if_false, Prod.mk.injEq, DictReply.status.injEq] at shown rep'
  obtain ⟨rfl, ok⟩ := shown
  exact ⟨result.1, by rw [added, ← ok], _, rep', TableRep.insert same field value⟩

theorem TableRep.replace (field : Text) (value : StringObject) (addr : Nat) (addable : Addable hash canResize d field) :
    ∃ d', dictReplace hash canResize d addr field value = some (d', (m.lookup field).isNone) ∧
      TableRep hash d' (m.insert field (getDecodedObject value)) := by
  obtain ⟨objects, rep, same⟩ := rep
  obtain ⟨d', step, rep'⟩ := dictStep_simulates d objects (.replace canResize addr field value) rep addable
  obtain ⟨result, replaced, shown⟩ := map_eq_some_iff.mp step
  simp only [mapStep, Prod.mk.injEq, DictReply.replaced.injEq] at shown rep'
  obtain ⟨rfl, answer⟩ := shown
  refine ⟨result.1, ?_, _, rep', TableRep.insert same field value⟩
  rw [replaced, same, isNone_map, ← answer]

theorem TableRep.delete (field : Text) :
    ∃ d', dictGenericDelete hash d field = some (d', if (m.lookup field).isSome then .ok else .err) ∧ TableRep hash d' (m.erase field) := by
  obtain ⟨objects, rep, same⟩ := rep
  obtain ⟨d', step, rep'⟩ := dictStep_simulates d objects (.delete field) rep trivial
  obtain ⟨result, deleted, shown⟩ := map_eq_some_iff.mp step
  have present : (m.lookup field).isSome = (objects field).isSome := by rw [same, isSome_map]
  simp only [mapStep] at shown rep'
  rw [present]
  split at shown
  next stored =>
    simp only [Prod.mk.injEq, DictReply.status.injEq] at shown
    obtain ⟨rfl, ok⟩ := shown
    refine ⟨result.1, by rw [deleted, if_pos stored, ← ok], update objects field none, by simpa only [if_pos stored] using rep', fun f => ?_⟩
    by_cases here : f = field
    · subst here
      rw [Finmap.lookup_erase, update_self, map_none]
    · rw [Finmap.lookup_erase_ne here, update_of_ne here, same]
  next missing =>
    simp only [Prod.mk.injEq, DictReply.status.injEq] at shown
    obtain ⟨rfl, err⟩ := shown
    refine ⟨result.1, by rw [deleted, if_neg missing, ← err], objects, by simpa only [if_neg missing] using rep', fun f => ?_⟩
    by_cases here : f = field
    · subst here
      rw [Finmap.lookup_erase, not_isSome_iff_eq_none.mp missing, map_none]
    · rw [Finmap.lookup_erase_ne here, same]

theorem TableRep.find (field : Text) : ∃ d' found, dictFind hash d field = some (d', found) ∧ TableRep hash d' m ∧
      (found.map DictEntry.val).map getDecodedObject = m.lookup field := by
  obtain ⟨objects, rep, same⟩ := rep
  obtain ⟨d', found, find, kept, value⟩ := dictFind_value rep field
  exact ⟨d', found, find, ⟨objects, rep.kept kept, same⟩, by rw [value, same]⟩

theorem TableRep.size : d.dictSize = m.keys.card := by
  obtain ⟨objects, rep, same⟩ := rep
  apply rep.finiteMap.size
  intro field
  rw [Finmap.mem_keys, ← Finmap.lookup_isSome, same, isSome_map]

end

theorem Lists.unique {other : TextMap} (left : Lists pairs m) (right : Lists pairs other) : m = other := by
  apply Finmap.ext_lookup
  intro field
  apply Option.ext
  intro value
  rw [left.graph, right.graph]

def fieldPointer (front back : List (Text × Text)) : Option Nat :=
  if 2 * front.length < (flatten (front ++ back)).length then some (2 * front.length) else none

theorem convertLoop_spec (fuel : Nat) {mfront : TextMap} (listed : Lists front mfront) (rep : TableRep hash d mfront)
    (lists : Lists (front ++ back) m) (enough : back.length ≤ fuel)
    (room : Run.Allowed (dictStep hash) (fun d op => op.Supported hash d) d
      (conversionAdds canResize addr (2 * front.length) (flatten back))) :
    ∃ d', hashTypeConvertLoop hash canResize addr (flatten (front ++ back)) fuel (fieldPointer front back) d = some d' ∧
      TableRep hash d' m := by
  induction back generalizing front mfront d fuel with
  | nil =>
    have ended : fieldPointer front [] = none := by simp [fieldPointer]
    rw [append_nil] at lists
    obtain rfl := listed.unique lists
    rw [ended]
    exact ⟨d, by cases fuel <;> rfl, rep⟩
  | cons pair back ih =>
    obtain ⟨field, value⟩ := pair
    obtain ⟨fuel, rfl⟩ : ∃ rest, fuel = rest + 1 := ⟨fuel - 1, by rw [length_cons] at enough; omega⟩
    have start : fieldPointer front ((field, value) :: back) = some (2 * front.length) := by
      rw [fieldPointer, if_pos]
      simp only [flatten_length, length_append, length_cons]
      omega
    have following : (flatten (front ++ (field, value) :: back)).next (2 * front.length + 1) =
        fieldPointer (front ++ [(field, value)]) back := by
      simp only [Entries.next, fieldPointer, append_assoc, singleton_append, length_append, length_singleton, Nat.mul_add, Nat.mul_one]
    have missing : mfront.lookup field = none := by
      have distinct := lists.distinct
      rw [map_append, map_cons] at distinct
      obtain ⟨outside, -⟩ := nodup_cons.mp (nodup_middle.mp distinct)
      rw [mem_append, not_or] at outside
      rw [← not_isSome_iff_eq_none]
      intro stored
      obtain ⟨v, found⟩ := isSome_iff_exists.mp stored
      exact outside.1 (List.mem_map.mpr ⟨(field, v), (listed.graph field v).mp found, rfl⟩)
    obtain ⟨here, later⟩ := room
    have text := (tryObjectEncoding_text _).trans (ziplistObject_text field)
    have shown := (tryObjectEncoding_text _).trans (ziplistObject_text value)
    simp only [text] at here later
    obtain ⟨d', added, rep'⟩ := @TableRep.add _ _ _ _ rep _ (tryObjectEncoding (ziplistObject (entryOf value))) (addr (2 * front.length)) missing here
    rw [shown] at rep'
    have lists' := lists
    rw [append_cons] at lists'
    obtain ⟨last, looped, final⟩ := ih fuel (listed.append missing value) rep' lists' (by rw [length_cons] at enough; omega) (by
      have rest := later (d', .status .ok) (by simp [dictStep, added])
      simpa only [length_append, length_singleton, Nat.mul_add] using rest)
    refine ⟨last, ?_, final⟩
    rw [← append_cons] at looped
    rw [start]
    simp only [hashTypeConvertLoop, next_field, get_field, get_value, bind_eq_bind, bind_some, text, added, following]
    exact looped

theorem convertZiplist_spec (lists : Lists pairs m) (room : ConversionRoom hash canResize addr (flatten pairs)) :
    ∃ d, hashTypeConvertZiplist hash canResize addr (flatten pairs) = some d ∧ TableRep hash d m := by
  have looped := @convertLoop_spec _ _ _ _ [] _ _ (flatten pairs).length.succ _ lists_empty tableRep_create lists
    (by rw [flatten_length]; omega) room
  have start : (flatten pairs).index 0 = fieldPointer [] pairs := by simp [Entries.index, fieldPointer]
  rw [hashTypeConvertZiplist, start]
  exact looped

theorem getFromZiplist_spec (lists : Lists pairs m) (field : StringObject) :
    hashTypeGetFromZiplist (flatten pairs) field = some ((m.lookup (getDecodedObject field)).map entryOf) := by
  unfold hashTypeGetFromZiplist
  cases stored : m.lookup (getDecodedObject field) with
  | none =>
    rw [find_absent (lists.absent stored)]
    rfl
  | some value =>
    obtain ⟨front, back, rfl, outside, -⟩ := lists.split stored
    rw [find_present outside]
    simp only [next_field, get_value, bind_eq_bind, bind_some]
    rfl

theorem setZiplist_spec (lists : Lists pairs m) (field value : Text) :
    ∃ pairs', hashTypeSetZiplist (flatten pairs) field value = some (flatten pairs', (m.lookup field).isSome) ∧
      Lists pairs' (m.insert field value) := by
  unfold hashTypeSetZiplist
  cases stored : m.lookup field with
  | none =>
    refine ⟨pairs ++ [(field, value)], ?_, lists.append stored value⟩
    rw [find_absent (lists.absent stored), push_pair]
    rfl
  | some old =>
    obtain ⟨front, back, rfl, outside, -⟩ := lists.split stored
    refine ⟨front ++ (field, value) :: back, ?_, lists.update value⟩
    rw [find_present outside]
    simp only [next_field, bind_eq_bind, bind_some, replace_value]
    rfl

theorem hashTypeSet_simulates (hashMaxZiplistEntries : Nat) (field value : StringObject) (rep : Represents hash o m)
    (room : (HashTypeOp.set hashMaxZiplistEntries canResize addr field value).Room hash o) :
    ∃ o', hashTypeSet hash hashMaxZiplistEntries canResize addr o field value = some (o', (m.lookup (getDecodedObject field)).isSome) ∧
      Represents hash o' (m.insert (getDecodedObject field) (getDecodedObject value)) := by
  cases o with
  | ht ptr =>
    obtain ⟨d', replaced, rep'⟩ := TableRep.replace rep (getDecodedObject field) value (addr 0) room
    refine ⟨.ht d', ?_, rep'⟩
    simp only [hashTypeSet, replaced, bind_eq_bind, bind_some, not_isNone]
    rfl
  | ziplist zl =>
    obtain ⟨pairs, rfl, lists⟩ := rep
    obtain ⟨pairs', set, lists'⟩ := setZiplist_spec lists (getDecodedObject field) (getDecodedObject value)
    simp only [HashTypeOp.Room, set] at room
    simp only [hashTypeSet, set, hashTypeLength, bind_eq_bind, bind_some]
    split
    next many =>
      obtain ⟨d, converted, table⟩ := convertZiplist_spec lists' (room many)
      exact ⟨.ht d, by rw [converted]; rfl, table⟩
    next => exact ⟨.ziplist (flatten pairs'), rfl, pairs', rfl, lists'⟩

theorem hashTypeDelete_simulates (canResize : Bool) (field : StringObject) (rep : Represents hash o m) :
    ∃ o', hashTypeDelete hash canResize o field = some (o', (m.lookup (getDecodedObject field)).isSome) ∧
      Represents hash o' (m.erase (getDecodedObject field)) := by
  cases o with
  | ht ptr =>
    obtain ⟨d', deleted, rep'⟩ := TableRep.delete rep (getDecodedObject field)
    simp only [hashTypeDelete, deleted, bind_eq_bind, bind_some]
    cases stored : (m.lookup (getDecodedObject field)).isSome with
    | false => exact ⟨.ht d', rfl, rep'⟩
    | true =>
      simp only [if_true]
      split
      next =>
        obtain ⟨⟨small, status⟩, resize⟩ := dictResize_defined canResize d'
        obtain ⟨objects, table, same⟩ := rep'
        have kept := dictResize_preserves table.1 resize
        exact ⟨.ht small, by rw [resize]; rfl, objects, table.kept kept, same⟩
      next => exact ⟨.ht d', rfl, rep'⟩
  | ziplist zl =>
    obtain ⟨pairs, rfl, lists⟩ := rep
    simp only [hashTypeDelete]
    cases stored : m.lookup (getDecodedObject field) with
    | none =>
      have absent : getDecodedObject field ∉ m := by rwa [← Finmap.lookup_eq_none]
      rw [find_absent (lists.absent stored)]
      refine ⟨.ziplist (flatten pairs), rfl, pairs, rfl, ?_⟩
      have same : m.erase (getDecodedObject field) = m := by
        apply Finmap.ext_lookup
        intro f
        by_cases here : f = getDecodedObject field
        · rw [here, Finmap.lookup_erase, stored]
        · rw [Finmap.lookup_erase_ne here]
      rw [same]
      exact lists
    | some value =>
      obtain ⟨front, back, rfl, outside, -⟩ := lists.split stored
      rw [find_present outside]
      simp only [delete_pair]
      exact ⟨.ziplist (flatten (front ++ back)), rfl, front ++ back, rfl, lists.remove⟩

theorem hashTypeGetObject_simulates (field : StringObject) (rep : Represents hash o m) :
    ∃ o' value, hashTypeGetObject hash o field = some (o', value) ∧ Represents hash o' m ∧
      value.map getDecodedObject = m.lookup (getDecodedObject field) := by
  cases o with
  | ht ptr =>
    obtain ⟨d', found, find, rep', shown⟩ := TableRep.find rep (getDecodedObject field)
    exact ⟨.ht d', found.map DictEntry.val, by simp [hashTypeGetObject, find], rep', shown⟩
  | ziplist zl =>
    obtain ⟨pairs, rfl, lists⟩ := rep
    refine ⟨.ziplist (flatten pairs), _, by simp [hashTypeGetObject, getFromZiplist_spec lists]; rfl, ⟨pairs, rfl, lists⟩, ?_⟩
    cases m.lookup (getDecodedObject field) with
    | none => rfl
    | some value => simp [ziplistObject_text]

theorem hashTypeExists_simulates (field : StringObject) (rep : Represents hash o m) :
    ∃ o', hashTypeExists hash o field = some (o', (m.lookup (getDecodedObject field)).isSome) ∧ Represents hash o' m := by
  cases o with
  | ht ptr =>
    obtain ⟨d', found, find, rep', shown⟩ := TableRep.find rep (getDecodedObject field)
    refine ⟨.ht d', ?_, rep'⟩
    rw [← shown, isSome_map, isSome_map]
    simp [hashTypeExists, find]
  | ziplist zl =>
    obtain ⟨pairs, rfl, lists⟩ := rep
    exact ⟨.ziplist (flatten pairs), by simp [hashTypeExists, getFromZiplist_spec lists], pairs, rfl, lists⟩

theorem hashTypeLength_spec (rep : Represents hash o m) : hashTypeLength o = m.keys.card := by
  cases o with
  | ht ptr => exact TableRep.size rep
  | ziplist zl =>
    obtain ⟨pairs, rfl, lists⟩ := rep
    rw [hashTypeLength, flatten_length, Nat.mul_div_cancel_left _ (by decide), lists.size]

theorem hashTypeTryConversion_simulates (hashMaxZiplistValue : Nat) (argv : List StringObject) (rep : Represents hash o m)
    (room : (HashTypeOp.tryConversion hashMaxZiplistValue canResize addr argv).Room hash o) :
    ∃ o', hashTypeTryConversion hash hashMaxZiplistValue canResize addr o argv = some o' ∧ Represents hash o' m := by
  cases o with
  | ht ptr => exact ⟨.ht ptr, rfl, rep⟩
  | ziplist zl =>
    obtain ⟨pairs, rfl, lists⟩ := rep
    unfold hashTypeTryConversion
    simp only
    split
    next =>
      obtain ⟨d, converted, table⟩ := convertZiplist_spec lists room
      exact ⟨.ht d, by rw [converted]; rfl, table⟩
    next => exact ⟨.ziplist (flatten pairs), rfl, pairs, rfl, lists⟩

theorem hashTypeStep_simulates (o : HashObject) (m : TextMap) (op : HashTypeOp) (rep : Represents hash o m) (room : op.Room hash o) :
    ∃ o', hashTypeStep hash o op = some (o', (textMapStep m op).2) ∧ Represents hash o' (textMapStep m op).1 := by
  cases op with
  | set hashMaxZiplistEntries canResize addr field value =>
    obtain ⟨o', set, rep'⟩ := hashTypeSet_simulates hashMaxZiplistEntries field value rep room
    exact ⟨o', by simp [hashTypeStep, set, textMapStep], rep'⟩
  | delete canResize field =>
    obtain ⟨o', deleted, rep'⟩ := hashTypeDelete_simulates canResize field rep
    exact ⟨o', by simp [hashTypeStep, deleted, textMapStep], rep'⟩
  | getObject field =>
    obtain ⟨o', value, got, rep', shown⟩ := hashTypeGetObject_simulates field rep
    exact ⟨o', by simp [hashTypeStep, got, shown, textMapStep], rep'⟩
  | existsField field =>
    obtain ⟨o', answered, rep'⟩ := hashTypeExists_simulates field rep
    exact ⟨o', by simp [hashTypeStep, answered, textMapStep], rep'⟩
  | length => exact ⟨o, by simp [hashTypeStep, hashTypeLength_spec rep, textMapStep], rep⟩
  | tryConversion hashMaxZiplistValue canResize addr argv =>
    obtain ⟨o', converted, rep'⟩ := hashTypeTryConversion_simulates hashMaxZiplistValue argv rep room
    exact ⟨o', by simp [hashTypeStep, converted, textMapStep], rep'⟩

def RefinesMap (hash : Text → BitVec 32) (ops : List HashTypeOp) : Prop :=
  ∃ o, Run.exec (hashTypeStep hash) createHashObject ops = some (o, (Run.specExec textMapStep ∅ ops).2)

theorem hashType_refines_map (hash : Text → BitVec 32) (ops : List HashTypeOp)
    (room : Run.Allowed (hashTypeStep hash) (fun o op => op.Room hash o) createHashObject ops) : RefinesMap hash ops := by
  have start : Represents hash createHashObject ∅ := ⟨[], rfl, lists_empty⟩
  obtain ⟨o, run, -⟩ := Run.exec_refines hashTypeStep_simulates ops start room
  exact ⟨o, run⟩

/-- The second field is updated, the third one makes the ziplist a table. -/
theorem hashType_refines_map_converted : RefinesMap (fun text => BitVec.ofNat 32 text.length)
    [.set 2 true id (.sds [102]) (.int 5), .set 2 true id (.int 5) (.sds [102]), .set 2 true id (.sds [53]) (.sds [48, 49]),
      .getObject (.sds [102]), .length, .set 2 true id (.sds [120, 120]) (.sds []), .getObject (.int 5),
      .delete true (.sds [53]), .existsField (.sds [53]), .length] :=
  hashType_refines_map _ _ (by decide +kernel)

/-- The run ends at the latest when a key with a hash of 2^31 or more comes into a table of 2^31 entries. -/
theorem sets_fault (keys : List Text) (last : Text) {d : HashDict} (balanced : Balanced hash 1 d)
    (distinct : (keys ++ [last]).Nodup) (absent : ∀ key ∈ keys ++ [last], ¬ d.HasKey key)
    (many : 2 ^ 31 ≤ d.dictSize + keys.length) (few : d.dictSize + keys.length ≤ 2 ^ 59) (high : 2 ^ 31 ≤ (hash last).toNat) :
    Run.exec (hashTypeStep hash) (.ht d) ((keys ++ [last]).map fun key => .set 0 true id (.sds key) (.sds [])) = none := by
  induction keys generalizing d with
  | nil =>
    obtain ⟨slot, target, larger, ⟨j, -, rfl⟩, masked, outcome⟩ :=
      dictReplace_new balanced few 0 (StringObject.sds []) (absent last (by simp))
    have wide : 32 ≤ j := by
      by_contra narrow
      have := Nat.pow_le_pow_right (show 0 < 2 by decide) (show j ≤ 31 by omega)
      simp only [length_nil] at many
      omega
    have large : ¬ slot < 2 ^ 31 := by
      have below : (hash last).toNat < 2 ^ j := Nat.lt_of_lt_of_le (hash last).isLt (Nat.pow_le_pow_right (by decide) wide)
      rw [masked, Nat.and_two_pow_sub_one_eq_mod, Nat.mod_eq_of_lt below]
      omega
    rw [if_neg large] at outcome
    simp [Run.exec, hashTypeStep, hashTypeSet, getDecodedObject, outcome]
  | cons key keys ih =>
    simp only [cons_append, nodup_cons, length_cons] at distinct many few
    obtain ⟨slot, target, -, -, -, outcome⟩ := dictReplace_new balanced (by omega) 0 (StringObject.sds []) (absent key (by simp))
    split at outcome
    next =>
      obtain ⟨d', replaced, balanced', size, contents⟩ := outcome
      have rest := ih balanced' distinct.2 (by
        intro other member present
        obtain ⟨e, inside, rfl⟩ := present
        rw [contents, Multiset.mem_cons] at inside
        rcases inside with rfl | inside
        · exact distinct.1 member
        · exact absent e.key (by simp only [cons_append, mem_cons]; exact .inr member) ⟨e, inside, rfl⟩)
        (by omega) (by omega)
      simp only [cons_append, map_cons, Run.exec, hashTypeStep, hashTypeSet, getDecodedObject, id, replaced,
        bind_eq_bind, bind_some, map_some, rest, map_none, Option.pure_def]
    next => simp [Run.exec, hashTypeStep, hashTypeSet, getDecodedObject, outcome]

/-- A hash that becomes a table at once, and 2^31 + 1 fields of four bytes, each one its own hash. -/
theorem hashType_outgrows : ¬ ∀ (hash : Text → BitVec 32) (ops : List HashTypeOp), RefinesMap hash ops := by
  intro all
  let key := fun i : Nat => Bytes.leBytes 4 i
  let hash := fun text : Text => BitVec.ofNat 32 (Bytes.leValue text)
  have value : ∀ i < 2 ^ 32, Bytes.leValue (key i) = i := by
    intro i bound
    rw [Bytes.leValue_leBytes, Nat.mod_eq_of_lt (by omega)]
  obtain ⟨count, size⟩ : ∃ count, count = 2 ^ 31 := ⟨_, rfl⟩
  obtain ⟨o, run⟩ := all hash (.tryConversion 0 true id [.sds [0]] ::
    ((List.range' (2 ^ 31 - 1) count).map key ++ [key (2 ^ 32 - 1)]).map fun key => .set 0 true id (.sds key) (.sds []))
  have fault := @sets_fault hash ((List.range' (2 ^ 31 - 1) count).map key) (key (2 ^ 32 - 1)) _ balanced_create (by
      rw [← map_singleton, ← map_append]
      apply List.Nodup.map_on
      · intro i left j right same
        have bound : ∀ k ∈ List.range' (2 ^ 31 - 1) count ++ [2 ^ 32 - 1], k < 2 ^ 32 := by
          intro k member
          rw [mem_append, mem_range'_1, mem_singleton] at member
          omega
        have values := congrArg Bytes.leValue same
        rwa [value i (bound i left), value j (bound j right)] at values
      · apply nodup_append.mpr
        refine ⟨nodup_range', nodup_singleton _, fun i left j right => ?_⟩
        rw [mem_range'_1] at left
        rw [mem_singleton] at right
        omega)
    (by intro key _ present; simp [Dict.HasKey, dictCreate, Dict.contents, Dictht.contents, dictReset] at present)
    (by rw [length_map, length_range', size]; exact Nat.le_add_left _ _)
    (by rw [length_map, length_range', size]; decide) (by
      simp only [hash, value _ (show 2 ^ 32 - 1 < 2 ^ 32 by decide)]
      decide)
  have converted : hashTypeStep hash createHashObject (.tryConversion 0 true id [.sds [0]]) = some (.ht dictCreate, .converted) := rfl
  simp only [Run.exec, converted, bind_some, fault, map_none] at run
  cases run

end

end Cplusplus.Redis.HashType
