import Cplusplus.Proofs.SetLoops
import Mathlib.Tactic.FinCases

/-! The set commands against the operations on finite sets that they stand for. -/

namespace Cplusplus.Redis.SetType
open Intsets List Option Function

inductive SetCommand where
  | sinter
  | sunion
  | sdiff

def setCommand (server : SetServer) (db : SetDb) (setkeys : List (List UInt8)) (dstkey : Option (List UInt8)) :
    SetCommand → Option (SetDb × SetReply)
  | .sinter => sinterGenericCommand server db setkeys dstkey
  | .sunion => sunionDiffGenericCommand server db setkeys dstkey .union
  | .sdiff => sunionDiffGenericCommand server db setkeys dstkey .diff

def resultOf (S : List UInt8 → Finset (List UInt8)) (key : List UInt8) (keys : List (List UInt8)) :
    SetCommand → Finset (List UInt8)
  | .sinter => (S key).filter fun text => ∀ other ∈ keys, text ∈ S other
  | .sunion => (key :: keys).toFinset.biUnion S
  | .sdiff => S key \ keys.toFinset.biUnion S

variable {server : SetServer} {db db' : SetDb} {S : List UInt8 → Finset (List UInt8)} {hash : List UInt8 → BitVec 32}
variable {key dstkey : List UInt8} {keys : List (List UInt8)} {dst : SetObject} {result : Finset (List UInt8)}

/-- The entry of the array `sets`: NULL for a missing key. -/
def pointer (db : SetDb) (key : List UInt8) : SetPointer := if (db key).isNone then none else some key

def addedElements (server : SetServer) (db : SetDb) (S : List UInt8 → Finset (List UInt8)) (key : List UInt8)
    (keys : List (List UInt8)) : SetCommand → List SetElement
  | .sinter =>
    match server.qsort (qsortCompareSetsByCardinality db) ((key :: keys).map some) with
    | [] => []
    | first :: sets => (elementsAt db first).filter fun ele => inAll S first sets (elementText ele)
  | .sunion => ((key :: keys).map (pointer db)).flatMap (elementsAt db)
  | .sdiff =>
    let sets := keys.map (pointer db)
    if diffAlgo db (pointer db key :: sets) (pointer db key) = 1 then
      (elementsAt db (pointer db key)).filter fun ele => inNone S sets (elementText ele)
    else elementsAt db (pointer db key)

/-- The destination can take what is added to it, and the `int` that counts it does not
overflow. SINTER without a destination adds nothing. -/
def CommandFits (server : SetServer) (db : SetDb) (S : List UInt8 → Finset (List UInt8)) (key : List UInt8)
    (keys : List (List UInt8)) (dstkey : Option (List UInt8)) (command : SetCommand) : Prop :=
  let elements := addedElements server db S key keys command
  match command with
  | .sinter => dstkey.isSome → AddsFit server (.intset intsetNew) (elements.map SetElement.object)
  | .sunion | .sdiff => AddsFit server (.intset intsetNew) (elements.map SetElement.object) ∧ (added ∅ elements).card < 2 ^ 31

/-- The reply lists the result, each element once, or the destination holds it, or is deleted
if it is empty. Nothing else is changed. -/
def Answers (hash : List UInt8 → BitVec 32) (db db' : SetDb) (S : List UInt8 → Finset (List UInt8))
    (result : Finset (List UInt8)) (reply : SetReply) : Option (List UInt8) → Prop
  | none => ∃ texts, reply = .multibulk texts.length texts ∧ texts.Nodup ∧ texts.toFinset = result ∧ texts.length = result.card ∧
      DbHolds hash db' S ∧ Looked db db'
  | some dstkey => reply = .integer result.card ∧ DbHolds hash db' (update S dstkey result) ∧
      (db' dstkey = none ↔ result = ∅) ∧ Looked (update db dstkey none) (update db' dstkey none)

theorem answers_reply {elements : List SetElement} (holds : DbHolds hash db' S) (looked : Looked db db') (lists : Lists elements result) :
    Answers hash db db' S result (.multibulk elements.length (elements.map elementText)) none := by
  refine ⟨elements.map elementText, by rw [length_map], lists.distinct, lists.toFinset, ?_, holds, looked⟩
  rw [length_map]
  exact lists.length

theorem holds_deleted (holds : DbHolds hash db S) : DbHolds hash (update db dstkey none) (update S dstkey ∅) := by
  intro key
  by_cases same : key = dstkey
  · subst same
    simp
  · rw [update_of_ne same, update_of_ne same]
    exact holds key

theorem looked_deleted (looked : Looked db db') (value : Option DbObject) :
    Looked (update db dstkey none) (update (update db' dstkey value) dstkey none) := by
  intro key
  rw [update_idem]
  by_cases same : key = dstkey
  · subst same
    simp
  · rw [update_of_ne same, update_of_ne same]
    exact looked key

theorem answers_deleted (holds : DbHolds hash db' S) (looked : Looked db db') :
    Answers hash db (update db' dstkey none) S ∅ (.integer 0) (some dstkey) :=
  ⟨rfl, holds_deleted holds, by simp, looked_deleted looked none⟩

theorem answers_store (holds : DbHolds hash db' S) (looked : Looked db db') (rep : Represents hash dst result) :
    Answers hash db (storeSet db' dstkey dst).1 S result (storeSet db' dstkey dst).2 (some dstkey) := by
  have size := rep.size
  by_cases empty : result = ∅
  · subst empty
    rw [Finset.card_empty] at size
    rw [storeSet, if_neg (by omega)]
    exact answers_deleted holds looked
  · have positive := Finset.card_pos.mpr (Finset.nonempty_iff_ne_empty.mpr empty)
    rw [storeSet, if_pos (by omega)]
    refine ⟨by rw [size], fun key => ?_, ?_, ?_⟩
    · by_cases same : key = dstkey
      · subst same
        simpa using rep
      · simp only [update_of_ne same]
        exact holds key
    · simp [empty]
    · rw [update_idem]
      exact looked_deleted looked _

theorem sinterLookup_spec (keys : List (List UInt8)) (sets : ∀ key ∈ keys, db key ≠ some .other) :
    (sinterLookup db keys = .missing ∧ ∃ key ∈ keys, db key = none) ∨
      sinterLookup db keys = .sets (keys.map some) ∧ ∀ set ∈ keys.map some, Live db set := by
  induction keys with
  | nil => exact .inr ⟨rfl, by simp⟩
  | cons key keys ih =>
    cases here : db key with
    | none => exact .inl ⟨by simp [sinterLookup, here], key, mem_cons_self, here⟩
    | some value =>
      cases value with
      | other => exact absurd here (sets key mem_cons_self)
      | set obj =>
        rcases ih fun other member => sets other (mem_cons_of_mem key member) with ⟨lookup, missing⟩ | ⟨lookup, live⟩
        · obtain ⟨other, member, absent⟩ := missing
          exact .inl ⟨by simp [sinterLookup, here, lookup], other, mem_cons_of_mem key member, absent⟩
        · refine .inr ⟨by simp [sinterLookup, here, lookup], ?_⟩
          rw [map_cons, forall_mem_cons]
          exact ⟨⟨key, obj, rfl, here⟩, live⟩

theorem inter_missing (holds : DbHolds hash db S) {other : List UInt8} (member : other ∈ key :: keys) (absent : db other = none) :
    resultOf S key keys .sinter = ∅ := by
  have empty := holds other
  rw [absent] at empty
  rw [resultOf, Finset.filter_eq_empty_iff]
  intro text inside all
  rcases mem_cons.mp member with rfl | member
  · rw [empty] at inside
    exact absurd inside (Finset.notMem_empty _)
  · have inside := all other member
    rw [empty] at inside
    exact absurd inside (Finset.notMem_empty _)

theorem inter_first {first : SetPointer} {sets : List SetPointer} (same : (first :: sets).Perm ((key :: keys).map some)) :
    ((setAt S first).filter fun text => inAll S first sets text) = resultOf S key keys .sinter := by
  ext text
  have all : (text ∈ setAt S first ∧ ∀ set ∈ sets, set = first ∨ text ∈ setAt S set) ↔ ∀ set ∈ first :: sets, text ∈ setAt S set := by
    rw [forall_mem_cons]
    apply and_congr_right
    intro inside
    apply forall₂_congr
    intro set _
    constructor
    · rintro (rfl | member)
      · exact inside
      · exact member
    · exact .inr
  rw [Finset.mem_filter, inAll, decide_eq_true_iff, all, resultOf, Finset.mem_filter]
  constructor
  · intro every
    have every := fun other (member : other ∈ key :: keys) =>
      every (some other) (same.mem_iff.mpr (List.mem_map_of_mem member))
    exact ⟨every key mem_cons_self, fun other member => every other (mem_cons_of_mem key member)⟩
  · rintro ⟨here, others⟩ set member
    obtain ⟨other, listed, rfl⟩ := List.mem_map.mp (same.mem_iff.mp member)
    rcases mem_cons.mp listed with rfl | listed
    · exact here
    · exact others other listed

theorem sinter_spec (permutes : ∀ cmp sets, (server.qsort cmp sets).Perm sets) (holds : DbHolds server.dictGenHashFunction db S)
    (sets : ∀ other ∈ key :: keys, db other ≠ some .other) (dstkey : Option (List UInt8))
    (fit : CommandFits server db S key keys dstkey .sinter) :
    ∃ db' reply, sinterGenericCommand server db (key :: keys) dstkey = some (db', reply) ∧
      Answers server.dictGenHashFunction db db' S (resultOf S key keys .sinter) reply dstkey := by
  rcases sinterLookup_spec (key :: keys) sets with ⟨lookup, other, member, absent⟩ | ⟨lookup, live⟩
  · rw [inter_missing holds member absent]
    cases dstkey with
    | none =>
      refine ⟨db, .multibulk 0 [], by simp only [sinterGenericCommand, lookup], ?_⟩
      exact ⟨[], rfl, nodup_nil, rfl, rfl, holds, .refl db⟩
    | some dstkey =>
      refine ⟨update db dstkey none, .integer 0, by simp only [sinterGenericCommand, lookup], ?_⟩
      exact answers_deleted holds (.refl db)
  · have permuted := permutes (qsortCompareSetsByCardinality db) ((key :: keys).map some)
    rw [CommandFits, addedElements] at fit
    cases sorted : server.qsort (qsortCompareSetsByCardinality db) ((key :: keys).map some) with
    | nil =>
      rw [sorted] at permuted
      exact absurd permuted.length_eq (by simp)
    | cons first sets =>
      rw [sorted] at permuted
      simp only [sorted] at fit
      have live : ∀ set ∈ first :: sets, Live db set := fun set member => live set (permuted.mem_iff.mp member)
      obtain ⟨obj, object, read, lists⟩ := elementsAt_spec holds (live first mem_cons_self)
      have chosen := lists.filter (inAll S first sets)
      rw [inter_first permuted] at chosen
      have others := fun set member => live set (mem_cons_of_mem first member)
      cases dstkey with
      | none =>
        obtain ⟨db', run, holds', looked⟩ := sinterLoop_spec first sets _ lists.fits holds others
          (emitReply_spec _ chosen.fits [])
        refine ⟨db', _, ?_, answers_reply holds' looked chosen⟩
        simp only [sinterGenericCommand, lookup, sorted, object, read, run, bind_eq_bind, bind_some, nil_append, length_map]
        rfl
      | some dstkey =>
        have new : Represents server.dictGenHashFunction (.intset intsetNew) ∅ := ⟨[], holds_new, rfl⟩
        obtain ⟨dst, stored, rep⟩ := emitStore_spec _ new (fit rfl)
        rw [chosen.added, Finset.empty_union] at rep
        obtain ⟨db', run, holds', looked⟩ := sinterLoop_spec first sets _ lists.fits holds others stored
        refine ⟨_, _, ?_, answers_store holds' looked rep⟩
        simp only [sinterGenericCommand, lookup, sorted, object, read, run, bind_eq_bind, bind_some]
        rfl

theorem sunionDiffLookup_spec (keys : List (List UInt8)) (sets : ∀ key ∈ keys, db key ≠ some .other) :
    sunionDiffLookup db keys = some (keys.map (pointer db)) := by
  induction keys with
  | nil => rfl
  | cons key keys ih =>
    have rest := ih fun other member => sets other (mem_cons_of_mem key member)
    cases here : db key with
    | none => simp [sunionDiffLookup, here, rest, pointer]
    | some value =>
      cases value with
      | other => exact absurd here (sets key mem_cons_self)
      | set obj => simp [sunionDiffLookup, here, rest, pointer]

theorem pointer_live (present : db key ≠ some .other) (set : pointer db key ≠ none) : Live db (pointer db key) := by
  cases here : db key with
  | none => exact absurd (by simp [pointer, here]) set
  | some value =>
    cases value with
    | other => exact absurd here present
    | set obj => exact ⟨key, obj, by simp [pointer, here], here⟩

theorem setAt_pointer (holds : DbHolds hash db S) (key : List UInt8) : setAt S (pointer db key) = S key := by
  have stored := holds key
  cases here : db key with
  | none =>
    rw [here] at stored
    simp [pointer, here, setAt, stored]
  | some value => simp [pointer, here, setAt]

theorem unionOf_pointers (holds : DbHolds hash db S) (keys : List (List UInt8)) :
    unionOf S ∅ (keys.map (pointer db)) = keys.toFinset.biUnion S := by
  ext text
  simp only [unionOf, Finset.empty_union, Finset.mem_biUnion, List.mem_toFinset, List.mem_map, exists_exists_and_eq_and, setAt_pointer holds]

theorem inNone_perm {sets sets' : List SetPointer} (same : sets.Perm sets') (text : List UInt8) : inNone S sets text = inNone S sets' text := by
  rw [inNone, inNone]
  congr 1
  rw [eq_iff_iff]
  exact forall_congr' fun set => imp_congr_left same.mem_iff

theorem filter_inNone (s : Finset (List UInt8)) (sets : List SetPointer) :
    (s.filter fun text => inNone S sets text) = s \ unionOf S ∅ sets := by
  ext text
  rw [Finset.mem_filter, inNone, decide_eq_true_iff, Finset.mem_sdiff]
  simp [unionOf]

theorem elementsAt_mem (holds : DbHolds server.dictGenHashFunction db S) {set : SetPointer} (live : set ≠ none → Live db set)
    (text : List UInt8) : text ∈ (elementsAt db set).map elementText ↔ text ∈ setAt S set := by
  cases set with
  | none => simp [elementsAt, SetDb.object, setAt]
  | some key =>
    obtain ⟨_, _, _, lists⟩ := elementsAt_spec holds (live (some_ne_none _))
    exact lists.mem text

theorem added_union (holds : DbHolds server.dictGenHashFunction db S) (sets : List SetPointer)
    (live : ∀ set ∈ sets, set ≠ none → Live db set) : added ∅ (sets.flatMap (elementsAt db)) = unionOf S ∅ sets := by
  ext text
  simp only [added, unionOf, Finset.empty_union, List.mem_toFinset, Finset.mem_biUnion, map_flatMap, mem_flatMap]
  apply exists_congr
  intro set
  apply and_congr_right
  intro member
  exact elementsAt_mem holds (live set member) text

section
variable (permutes : ∀ cmp sets, (server.qsort cmp sets).Perm sets)
include permutes

theorem diff_spec
    (holds : DbHolds server.dictGenHashFunction db S) (sets : List SetPointer)
    (live : ∀ set ∈ pointer db key :: sets, set ≠ none → Live db set)
    (fit : AddsFit server (.intset intsetNew) ((if diffAlgo db (pointer db key :: sets) (pointer db key) = 1 then
        (elementsAt db (pointer db key)).filter fun ele => inNone S sets (elementText ele)
      else elementsAt db (pointer db key)).map SetElement.object))
    (few : (added ∅ (if diffAlgo db (pointer db key :: sets) (pointer db key) = 1 then
        (elementsAt db (pointer db key)).filter fun ele => inNone S sets (elementText ele)
      else elementsAt db (pointer db key))).card < 2 ^ 31) :
    ∃ db' dst, sunionDiffCompute server db .diff (pointer db key :: sets) =
        some (db', dst, ((setAt S (pointer db key) \ unionOf S ∅ sets).card : Int)) ∧
      DbHolds server.dictGenHashFunction db' S ∧ Looked db db' ∧
      Represents server.dictGenHashFunction dst (setAt S (pointer db key) \ unionOf S ∅ sets) := by
  have new : Represents server.dictGenHashFunction (.intset intsetNew) ∅ := ⟨[], holds_new, rfl⟩
  have others := fun set member => live set (mem_cons_of_mem _ member)
  cases first : pointer db key with
  | none =>
    refine ⟨db, .intset intsetNew, ?_, holds, .refl db, ?_⟩
    · simp [sunionDiffCompute, setAt]
    · simpa [setAt] using new
  | some other =>
    rw [first] at live fit few
    obtain ⟨obj, object, read, lists⟩ := elementsAt_spec holds (live (some other) mem_cons_self (some_ne_none _))
    by_cases one : diffAlgo db (some other :: sets) (some other) = 1
    · rw [if_pos one] at fit few
      have permuted := permutes (qsortCompareSetsByRevCardinality db) sets
      have same := fun text => inNone_perm (S := S) permuted text
      simp only [← same] at fit few
      have chosen := lists.filter (inNone S (server.qsort (qsortCompareSetsByRevCardinality db) sets))
      have remaining := chosen.added ∅
      simp only [same, filter_inNone, Finset.empty_union] at remaining
      obtain ⟨db', dst, run, holds', looked, rep⟩ := diffLoopOne_spec (some other) _ (elementsAt db (some other)) holds
        (fun set member => others set (permuted.mem_iff.mp member))
        (fun ele member => (lists.mem _).mp (List.mem_map_of_mem member)) lists.distinct (fun _ _ => Finset.notMem_empty _)
        new fit few
      simp only [same, remaining] at run rep
      refine ⟨db', dst, ?_, holds', looked, rep⟩
      simp only [sunionDiffCompute, object, read, one, if_true, bind_eq_bind, bind_some]
      exact run
    · rw [if_neg one] at fit few
      obtain ⟨dst₁, run, rep₁, _⟩ := addElements_spec _ [] new (by rwa [append_nil]) few
      rw [lists.added, Finset.empty_union] at run rep₁
      by_cases empty : (setAt S (some other)).card = 0
      · have none_left := Finset.card_eq_zero.mp empty
        rw [none_left] at rep₁ run ⊢
        refine ⟨db, dst₁, ?_, holds, .refl db, by simpa using rep₁⟩
        rw [Finset.card_empty] at run
        simp [sunionDiffCompute, object, read, one, show addElements server _ _ 0 = _ from run]
      · obtain ⟨dst, rest, rep⟩ := diffLoopTwo_spec sets holds others rep₁
        refine ⟨db, dst, ?_, holds, .refl db, rep⟩
        have nonzero : ¬ (((setAt S (some other)).card : Int) = 0) := by omega
        rw [Finset.card_empty] at run
        simp only [sunionDiffCompute, object, read, one, show addElements server _ _ 0 = _ from run, nonzero, rest, if_false,
          bind_eq_bind, bind_some]
        rfl

theorem sunionDiffCompute_spec (holds : DbHolds server.dictGenHashFunction db S) (sets : ∀ other ∈ key :: keys, db other ≠ some .other)
    (op : SetOp) (command : SetCommand) (same : (op = .union ∧ command = .sunion) ∨ op = .diff ∧ command = .sdiff)
    (fit : AddsFit server (.intset intsetNew) ((addedElements server db S key keys command).map SetElement.object))
    (few : (added ∅ (addedElements server db S key keys command)).card < 2 ^ 31) :
    ∃ db' dst, sunionDiffCompute server db op ((key :: keys).map (pointer db)) = some (db', dst, ((resultOf S key keys command).card : Int)) ∧
      DbHolds server.dictGenHashFunction db' S ∧ Looked db db' ∧
      Represents server.dictGenHashFunction dst (resultOf S key keys command) := by
  have live : ∀ set ∈ (key :: keys).map (pointer db), set ≠ none → Live db set := by
    intro set member present
    obtain ⟨other, listed, rfl⟩ := List.mem_map.mp member
    exact pointer_live (sets other listed) present
  rcases same with ⟨rfl, rfl⟩ | ⟨rfl, rfl⟩
  · have new : Represents server.dictGenHashFunction (.intset intsetNew) ∅ := ⟨[], holds_new, rfl⟩
    rw [addedElements, added_union holds _ live] at few
    obtain ⟨dst, run, rep⟩ := unionLoop_spec ((key :: keys).map (pointer db)) holds live new fit few
    rw [unionOf_pointers holds] at run rep
    rw [Finset.card_empty] at run
    refine ⟨db, dst, ?_, holds, .refl db, rep⟩
    rw [map_cons] at run
    simp only [sunionDiffCompute, map_cons, show unionLoop server db _ _ 0 = _ from run, bind_eq_bind, bind_some]
    rfl
  · have done := diff_spec permutes holds (keys.map (pointer db)) live fit few
    rw [unionOf_pointers holds, setAt_pointer holds] at done
    exact done

theorem sunionDiff_spec (holds : DbHolds server.dictGenHashFunction db S)
    (sets : ∀ other ∈ key :: keys, db other ≠ some .other) (dstkey : Option (List UInt8)) (op : SetOp) (command : SetCommand)
    (same : (op = .union ∧ command = .sunion) ∨ op = .diff ∧ command = .sdiff)
    (fit : AddsFit server (.intset intsetNew) ((addedElements server db S key keys command).map SetElement.object))
    (few : (added ∅ (addedElements server db S key keys command)).card < 2 ^ 31) :
    ∃ db' reply, sunionDiffGenericCommand server db (key :: keys) dstkey op = some (db', reply) ∧
      Answers server.dictGenHashFunction db db' S (resultOf S key keys command) reply dstkey := by
  obtain ⟨db', dst, run, holds', looked, rep⟩ := sunionDiffCompute_spec permutes holds sets op command same fit few
  cases dstkey with
  | none =>
    obtain ⟨elements, read, lists⟩ := setTypeElements_spec rep
    refine ⟨db', _, ?_, answers_reply holds' looked lists⟩
    simp only [sunionDiffGenericCommand, sunionDiffLookup_spec _ sets, run, read, bind_eq_bind, bind_some, lists.length]
    rfl
  | some dstkey =>
    refine ⟨_, _, ?_, answers_store holds' looked rep⟩
    simp only [sunionDiffGenericCommand, sunionDiffLookup_spec _ sets, run, bind_eq_bind, bind_some]
    rfl

end

/-- Any list of keys, missing ones among them, in any encodings and with repetitions. -/
theorem set_algebra (server : SetServer) (permutes : ∀ cmp sets, (server.qsort cmp sets).Perm sets) (db : SetDb)
    (S : List UInt8 → Finset (List UInt8)) (holds : DbHolds server.dictGenHashFunction db S) (key : List UInt8)
    (keys : List (List UInt8)) (sets : ∀ other ∈ key :: keys, db other ≠ some .other) (dstkey : Option (List UInt8))
    (command : SetCommand) (fit : CommandFits server db S key keys dstkey command) :
    ∃ db' reply, setCommand server db (key :: keys) dstkey command = some (db', reply) ∧
      Answers server.dictGenHashFunction db db' S (resultOf S key keys command) reply dstkey := by
  cases command with
  | sinter => exact sinter_spec permutes holds sets dstkey fit
  | sunion => exact sunionDiff_spec permutes holds sets dstkey .union .sunion (.inl ⟨rfl, rfl⟩) fit.1 fit.2
  | sdiff => exact sunionDiff_spec permutes holds sets dstkey .diff .sdiff (.inr ⟨rfl, rfl⟩) fit.1 fit.2

/-- "a" holds 1 and 2, "b" is missing: SUNIONSTORE "c" "b" "a" "a". -/
theorem set_algebra_small :
    let server : SetServer :=
      { dictGenHashFunction := fun text => BitVec.ofNat 32 text.length
        junk := fun _ _ => 0
        setMaxIntsetEntries := 512
        canResize := true
        addr := fun _ => id
        qsort := fun cmp sets => sets.insertionSort fun s1 s2 => cmp s1 s2 ≤ 0 }
    let db : SetDb := fun key => if key = [97] then some (.set (.intset ⟨.int16, 2, [1, 0, 2, 0]⟩)) else none
    let S : List UInt8 → Finset (List UInt8) := fun key => if key = [97] then texts [1, 2] else ∅
    ∃ db' reply, setCommand server db [[98], [97], [97]] (some [99]) .sunion = some (db', reply) ∧
      Answers server.dictGenHashFunction db db' S (resultOf S [98] [[97], [97]] .sunion) reply (some [99]) := by
  apply set_algebra
  · exact fun cmp sets => perm_insertionSort _ sets
  · intro key
    by_cases same : key = [97]
    · simp only [same, if_true]
      refine ⟨[1, 2], ⟨by decide, ?_, rfl, by decide, by decide⟩, rfl⟩
      intro v member
      fin_cases member <;> exact ⟨by decide, by decide⟩
    · simp [same]
  · intro other _
    split <;> simp
  · exact ⟨by decide +kernel, by decide +kernel⟩

theorem addElements_exec {elements : List SetElement} {cardinality count : Int} {dst' : SetObject}
    (run : addElements server elements dst cardinality = some (dst', count)) :
    ∃ flags, Run.exec (addToSet server) dst (elements.map SetElement.object) = some (dst', flags) := by
  induction elements generalizing dst cardinality with
  | nil =>
    cases run
    exact ⟨[], rfl⟩
  | cons ele elements ih =>
    simp only [addElements, bind_eq_bind, bind_eq_some_iff] at run
    obtain ⟨⟨dst₁, added⟩, add, run⟩ := run
    have rest : ∃ c, addElements server elements dst₁ c = some (dst', count) := by
      split at run
      · obtain ⟨c, _, run⟩ := bind_eq_some_iff.mp run
        exact ⟨c, run⟩
      · exact ⟨_, run⟩
    obtain ⟨c, rest⟩ := rest
    obtain ⟨flags, exec⟩ := ih rest
    exact ⟨added :: flags, by simp [Run.exec, add, exec]⟩

theorem unionLoop_exec {sets : List SetPointer} {cardinality count : Int} {dst' : SetObject}
    (run : unionLoop server db sets dst cardinality = some (dst', count)) :
    ∃ flags, Run.exec (addToSet server) dst ((sets.flatMap (elementsAt db)).map SetElement.object) = some (dst', flags) := by
  induction sets generalizing dst cardinality with
  | nil =>
    cases run
    exact ⟨[], rfl⟩
  | cons set sets ih =>
    cases set with
    | none => exact ih run
    | some key =>
      simp only [unionLoop, bind_eq_bind, bind_eq_some_iff] at run
      obtain ⟨obj, object, elements, read, ⟨dst₁, c⟩, add, run⟩ := run
      have same : elementsAt db (some key) = elements := by simp [elementsAt, object, read]
      obtain ⟨first, begun⟩ := addElements_exec add
      obtain ⟨second, rest⟩ := ih run
      refine ⟨first ++ second, ?_⟩
      rw [flatMap_cons, map_append, Run.exec_append, same, begun, bind_some, rest, map_some]

def largeIntset (start count : Nat) : Intset where
  encoding := .int64
  length := count
  contents := ((List.range' start count).map fun k => ((2 ^ 40 + k : Nat) : Int)).flatMap (intBytes 8)

theorem largeIntset_holds (start count : Nat) (bound : start + count ≤ 2 ^ 29) (small : count < 2 ^ 29) :
    Holds (largeIntset start count) ((List.range' start count).map fun k => ((2 ^ 40 + k : Nat) : Int)) where
  sorted := by
    rw [pairwise_map]
    exact (pairwise_lt_range' 1).imp fun less => by omega
  fits := by
    intro v member
    obtain ⟨k, inside, rfl⟩ := List.mem_map.mp member
    rw [mem_range'_1] at inside
    have fits : Fits .int64 ((2 ^ 40 + k : Nat) : Int) := by
      rw [fits_int64]
      omega
    exact fits
  length := by simp [largeIntset]
  contents := rfl
  room := by
    simp only [length_map, length_range', largeIntset, IntsetEnc.size]
    omega

theorem elementsAt_intset {is : Intset} {values : List Int} (holds : Holds is values) {set : SetPointer}
    (object : db.object set = some (.intset is)) : elementsAt db set = values.map .intset := by
  have elements := intsetElements_spec holds (is.length + 1) 0 (Nat.zero_le _) (by rw [holds.length]; omega)
  simp only [elementsAt, object, bind_some, setTypeElements, elements, drop_zero, getD_some]

/-- SUNION of 2^29 - 1 integers of 64 bits and one more, where set-max-intset-entries is 2^32. -/
theorem sunion_outgrows : ¬ ∀ (server : SetServer) (_ : ∀ cmp sets, (server.qsort cmp sets).Perm sets) (db : SetDb)
    (S : List UInt8 → Finset (List UInt8)) (_ : DbHolds server.dictGenHashFunction db S) (key : List UInt8)
    (keys : List (List UInt8)) (_ : ∀ other ∈ key :: keys, db other ≠ some .other) (dstkey : Option (List UInt8))
    (command : SetCommand), ∃ db' reply, setCommand server db (key :: keys) dstkey command = some (db', reply) ∧
      Answers server.dictGenHashFunction db db' S (resultOf S key keys command) reply dstkey := by
  intro all
  obtain ⟨count, size⟩ : ∃ count, count + 1 = 2 ^ 29 := ⟨2 ^ 29 - 1, by decide⟩
  let server : SetServer :=
    { dictGenHashFunction := fun _ => 0, junk := fun _ _ => 0, setMaxIntsetEntries := 2 ^ 32, canResize := true
      addr := fun _ => id, qsort := fun cmp sets => sets.insertionSort fun s1 s2 => cmp s1 s2 ≤ 0 }
  let db : SetDb := fun key =>
    if key = [97] then some (.set (.intset (largeIntset 0 count)))
    else if key = [98] then some (.set (.intset (largeIntset count 1)))
    else none
  have first := largeIntset_holds 0 count (by omega) (by omega)
  have second := largeIntset_holds count 1 (by omega) (by decide)
  obtain ⟨S, holds⟩ : ∃ S, DbHolds server.dictGenHashFunction db S := by
    refine ⟨fun key => if key = [97] then texts ((List.range' 0 count).map fun k => ((2 ^ 40 + k : Nat) : Int))
      else if key = [98] then texts ((List.range' count 1).map fun k => ((2 ^ 40 + k : Nat) : Int)) else ∅, fun key => ?_⟩
    by_cases a : key = [97]
    · simp only [db, a, if_true]
      exact ⟨_, first, rfl⟩
    · by_cases b : key = [98]
      · simp only [db, b, if_true, if_neg (show ¬ ([98] : List UInt8) = [97] by decide)]
        exact ⟨_, second, rfl⟩
      · simp [db, a, b]
  have sets : ∀ other ∈ [[97], [98]], db other ≠ some .other := by
    intro other _
    simp only [db]
    split
    · simp
    · split <;> simp
  obtain ⟨db', reply, run, _⟩ := all server (fun cmp sets => perm_insertionSort _ sets) db S holds [97] [[98]] sets none .sunion
  have pointers : [[97], [98]].map (pointer db) = [some [97], some [98]] := rfl
  simp only [setCommand, sunionDiffGenericCommand, sunionDiffLookup_spec _ sets, pointers, sunionDiffCompute,
    bind_eq_bind, bind_eq_some_iff] at run
  obtain ⟨_, ⟨⟨dst, cardinality⟩, union, _⟩, _⟩ := run
  obtain ⟨flags, exec⟩ := unionLoop_exec union
  have elements : ([some [97], some [98]].flatMap (elementsAt db)).map SetElement.object =
      (List.range' 0 (count + 1)).map fun k => .int (largeValue k) := by
    rw [flatMap_cons, flatMap_cons, flatMap_nil, append_nil, elementsAt_intset first rfl,
      elementsAt_intset second rfl, ← map_append, ← map_append, ← range'_append]
    simp only [List.map_map, Nat.one_mul, Nat.zero_add]
    apply map_congr_left
    intro k _
    simp only [comp_apply, SetElement.object, createStringObjectFromLongLong, BitVec.ofInt_natCast, largeValue]
  have fails := exec_outgrows (fun _ _ => 0) count intsetNew [] 0 holds_new rfl (by simp) (by omega)
  have adds := exec_adds (fun _ _ => 0) (fun _ => 0) true id ((List.range' 0 (count + 1)).map largeValue)
    (show intsetNew.length < 2 ^ 32 by decide)
  have calls : ((List.range' 0 (count + 1)).map largeValue).map IntsetOp.add =
      (List.range' 0 (count + 1)).map fun k => .add (largeValue k) := List.map_map
  rw [calls, fails, Run.exec_map, Run.exec_map] at adds
  rw [elements, Run.exec_map] at exec
  cases adds.symm.trans exec

end Cplusplus.Redis.SetType
