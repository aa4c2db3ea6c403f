import Cplusplus.RewriteSnapshot

/-! What is written for an object: the items of its value, whatever its encoding is. -/

namespace Cplusplus.Redis.Rewrite
open List Option
open Function (update)

section
open CheckAof (Argv)
open AofFeed (Value)

variable {D : Type} {doubles : Doubles D} {hash : Bytes → BitVec 32}

theorem writeObject_text (o : StringObject) : rioWriteBulkObject o = rioWriteBulkString (getDecodedObject o) := by
  cases o <;> rfl

theorem writeEntry_text (entry : ZiplistValue) : writeEntry entry = rioWriteBulkString (entryText entry) := by
  cases entry <;> rfl

theorem entryText_entryOf (text : Bytes) : entryText (entryOf text) = text := by
  unfold entryOf
  split
  next value encoding encoded =>
    obtain ⟨same, ⟨low, high⟩, -⟩ := Ziplist.zipTryEncoding_spec encoded
    rw [entryText, ll2string_roomy (by omega) (by decide), same]
  next => rfl

theorem bulks_singleton (text : Bytes) : bulks [text] = rioWriteBulkString text := by
  rw [bulks, flatMap_cons, flatMap_nil, append_nil]

theorem bulks_pair (first second : Bytes) : bulks [first, second] = rioWriteBulkString first ++ rioWriteBulkString second := by
  rw [bulks, flatMap_cons, flatMap_cons, flatMap_nil, append_nil]

inductive Items (D : Type) where
  | list (texts : List Bytes)
  | set (texts : List Bytes)
  | zset (pairs : List (Bytes × D))
  | hash (pairs : List (Bytes × Bytes))

namespace Items

def name : Items D → Bytes
  | .list _ => rpushName
  | .set _ => saddName
  | .zset _ => zaddName
  | .hash _ => hmsetName

def width : Items D → Nat
  | .list _ | .set _ => 1
  | .zset _ | .hash _ => 2

def args (doubles : Doubles D) : Items D → List (List Bytes)
  | .list texts => texts.map fun text => [text]
  | .set texts => texts.map fun text => [text]
  | .zset pairs => pairs.map fun pair => [doubles.print pair.2, pair.1]
  | .hash pairs => pairs.map fun pair => [pair.1, pair.2]

def Of : Items D → Collection D → Prop
  | .list texts, .list elements => texts = elements
  | .set texts, .set members => texts.Nodup ∧ texts.toFinset = members
  | .zset pairs, .zset scores => Pairs pairs scores
  | .hash pairs, .hash fields => Pairs pairs fields
  | _, _ => False

theorem args_width (items : Items D) : ∀ item ∈ items.args doubles, item.length = items.width := by
  cases items
  all_goals
    intro item member
    obtain ⟨_, _, rfl⟩ := List.mem_map.mp member
    rfl

end Items

theorem dictEntries_contents {K V : Type} {hash : K → BitVec 32} {d : Dict K V} (valid : Valid hash d) :
    (dictEntries d : Multiset (DictEntry K V)) = d.contents := by
  rw [dictEntries, Dict.contents, Dictht.contents_flatten, Dictht.contents_flatten, ← Multiset.coe_add]
  congr 2
  cases moving : d.rehashidx with
  | some idx => simp [Dict.isRehashing, moving, List.flatMap]
  | none => simp [Dict.isRehashing, moving, valid.idle moving, dictReset]

theorem dictEntries_length {V : Type} {d : Dict Bytes V} {m : Bytes → Option V} (rep : MapRep hash d m) :
    (dictEntries d).length = d.dictSize := by
  have first := rep.1.first.count
  have second := rep.1.second.count
  rw [← Multiset.coe_card, dictEntries_contents rep.1, Dict.contents, Multiset.card_add, Dict.dictSize, first, second]

theorem dictEntries_pairs {V W : Type} {d : Dict Bytes V} {objects : Bytes → Option V} (rep : MapRep hash d objects) (f : V → W)
    {m : Finmap fun _ : Bytes => W} (same : ∀ text, m.lookup text = (objects text).map f) :
    Pairs ((dictEntries d).map fun de => (de.key, f de.val)) m := by
  have contents := dictEntries_contents rep.1
  refine ⟨?_, fun text value => ?_⟩
  · rw [List.map_map, ← Multiset.coe_nodup, ← Multiset.map_coe, contents]
    exact rep.1.distinct
  · rw [same, map_eq_some_iff, List.mem_map]
    constructor
    · rintro ⟨object, found, rfl⟩
      obtain ⟨e, member, rfl, rfl⟩ := (rep.2 text object).mp found
      rw [← contents, Multiset.mem_coe] at member
      exact ⟨e, member, rfl⟩
    · rintro ⟨e, member, pair⟩
      obtain ⟨rfl, rfl⟩ := Prod.mk.inj pair
      rw [← Multiset.mem_coe, contents] at member
      exact ⟨e.val, (rep.2 e.key e.val).mpr ⟨e, member, rfl, rfl⟩, rfl⟩

theorem zzlItems_pairs {zl : Entries} {pairs : List (Bytes × D)} (read : zzlPairs doubles zl = some pairs) :
    zzlItems doubles zl = some (((Items.zset pairs).args doubles).map bulks) ∧ zl.length = 2 * pairs.length := by
  induction zl using zzlPairs.induct generalizing pairs with
  | case1 =>
    cases read
    exact ⟨rfl, rfl⟩
  | case2 => exact absurd read (some_ne_none _).symm
  | case3 eptr sptr zl ih =>
    obtain ⟨rest, found, rfl⟩ := map_eq_some_iff.mp read
    obtain ⟨written, length⟩ := ih found
    refine ⟨?_, by rw [length_cons, length_cons, length_cons, length, Nat.mul_succ]⟩
    rw [zzlItems, written, bind_eq_bind, bind_some, Items.args, Items.args, map_cons, map_cons, bulks_pair, ← writeEntry_text]
    rfl

theorem hashZiplistItems_pairs (doubles : Doubles D) (pairs : List (Bytes × Bytes)) :
    hashZiplistItems (HashType.flatten pairs) = some (((Items.hash pairs : Items D).args doubles).map bulks) := by
  induction pairs with
  | nil => rfl
  | cons pair pairs ih =>
    rw [HashType.flatten, hashZiplistItems, ih, bind_eq_bind, bind_some, Items.args, Items.args, map_cons,
      map_cons, bulks_pair, writeEntry_text, writeEntry_text, entryText_entryOf, entryText_entryOf]

structure Writes (doubles : Doubles D) (key : Bytes) (o : Object D) (coll : Collection D) (items : Items D) (count : Nat) : Prop where
  of : items.Of coll
  some_ : items.args doubles ≠ []
  written : rewriteObject doubles key o =
    some (emitItems items.name key items.width 0 count ((items.args doubles).map bulks))
  counted : o.Counted → count = (items.args doubles).length
  uncounted : ¬ o.Counted → count < (items.args doubles).length

theorem list_writes (key : Bytes) {o : ListEncoding} {elements : List Bytes} (some_ : elements ≠ []) (texts : listTexts o = elements) :
    Writes doubles key (.list o) (.list elements) (.list elements) (listTypeLength o) := by
  have items : listItems o = ((Items.list elements : Items D).args doubles).map bulks := by
    subst texts
    cases o with
    | ziplist zl => simp [listItems, listTexts, Items.args, bulks_singleton, writeEntry_text]
    | linkedlist l => simp [listItems, listTexts, Items.args, bulks_singleton, writeObject_text]
  have length : listTypeLength o = elements.length := by
    subst texts
    cases o <;> simp [listTypeLength, listTexts]
  refine ⟨rfl, by simpa [Items.args] using some_, ?_, fun _ => ?_, fun uncounted => absurd trivial uncounted⟩
  · rw [rewriteObject, rewriteListObject, items]
    rfl
  · rw [length, Items.args, length_map]

theorem set_writes (doubles : Doubles D) (key : Bytes) {o : SetObject} {members : Finset Bytes} (some_ : members ≠ ∅)
    (rep : SetType.Represents hash o members) : ∃ items, Writes doubles key (.set o) (.set members) items (setTypeSize o) := by
  obtain ⟨elements, found, lists⟩ := SetType.setTypeElements_spec rep
  have size : setTypeSize o = elements.length := rep.size.trans lists.length.symm
  have items : elements.map writeSetElement = ((Items.set (elements.map SetType.elementText) : Items D).args doubles).map bulks := by
    rw [Items.args, List.map_map, List.map_map]
    apply map_congr_left
    intro element member
    rw [Function.comp_apply, Function.comp_apply, bulks_singleton]
    cases element with
    | intset v =>
      obtain ⟨low, high⟩ := Intsets.fits_int64.mp (lists.fits v member)
      have same : (BitVec.ofInt 64 v).toInt = v := BitVec.toInt_ofInt_eq_self (by decide) (by omega) (by omega)
      rw [SetType.elementText, SetElement.object, createStringObjectFromLongLong, getDecodedObject, same]
      rfl
    | ht object => exact writeObject_text object
  refine ⟨.set (elements.map SetType.elementText), ⟨lists.distinct, lists.toFinset⟩, ?_, ?_, fun _ => ?_,
    fun uncounted => absurd trivial uncounted⟩
  · rintro empty
    rw [Items.args, map_eq_nil_iff] at empty
    have same := lists.toFinset
    rw [empty] at same
    exact some_ same.symm
  · rw [rewriteObject, rewriteSetObject, found, map_some, items]
    rfl
  · rw [size, Items.args, length_map, length_map]

theorem Pairs.some_ {V : Type} {pairs : List (Bytes × V)} {m : Finmap fun _ : Bytes => V} (listed : Pairs pairs m) (some_ : m ≠ ∅) :
    pairs ≠ [] := by
  rintro rfl
  apply some_
  apply Finmap.ext_lookup
  intro text
  rw [Finmap.lookup_empty, eq_none_iff_forall_ne_some]
  intro value found
  exact absurd ((listed.graph text value).mp found) not_mem_nil

theorem zset_writes (key : Bytes) {o : ZsetEncoding D} {scores : Finmap fun _ : Bytes => D} (some_ : scores ≠ ∅)
    (stands : o.StandsFor doubles hash scores) : ∃ items, Writes doubles key (.zset o) (.zset scores) items (zsetLength o) := by
  cases o with
  | ziplist zl =>
    obtain ⟨pairs, read, listed⟩ := stands
    obtain ⟨written, length⟩ := zzlItems_pairs read
    have more := listed.some_ some_
    have positive := length_pos_iff.mpr more
    have nonempty : ¬ zl.isEmpty = true := by
      rw [isEmpty_iff_length_eq_zero]
      omega
    refine ⟨.zset pairs, listed, by simpa [Items.args] using more, ?_, fun _ => ?_, fun uncounted => absurd trivial uncounted⟩
    · rw [rewriteObject, rewriteSortedSetObject, zsetItems, if_neg nonempty, written, map_some]
      rfl
    · rw [zsetLength, length, Items.args, length_map]
      omega
  | skiplist length dict =>
    obtain ⟨rfl, rep⟩ := stands
    have listed := @dictEntries_pairs hash _ _ _ _ rep id scores fun text => by simp
    have more := listed.some_ some_
    have size := dictEntries_length rep
    have items : (dictEntries dict).map (fun de => rioWriteBulkDouble doubles de.val ++ rioWriteBulkString de.key) =
        ((Items.zset ((dictEntries dict).map fun de => (de.key, id de.val))).args doubles).map bulks := by
      rw [Items.args, List.map_map, List.map_map]
      apply map_congr_left
      intro de _
      exact (bulks_pair _ _).symm
    refine ⟨.zset ((dictEntries dict).map fun de : DictEntry Bytes D => (de.key, id de.val)), listed, by simpa [Items.args] using more, ?_,
      fun counted => ?_, fun uncounted => ?_⟩
    · rw [rewriteObject, rewriteSortedSetObject, zsetItems, items, map_some]
      rfl
    · rw [zsetLength, Nat.mod_eq_of_lt counted, Items.args, length_map, length_map, size]
    · rw [zsetLength, Items.args, length_map, length_map, size]
      have large : 2 ^ 32 ≤ dict.dictSize := Nat.le_of_not_lt uncounted
      omega

theorem hash_writes (doubles : Doubles D) (key : Bytes) {o : HashObject} {fields : Finmap fun _ : Bytes => Bytes} (some_ : fields ≠ ∅)
    (rep : HashType.Represents hash o fields) : ∃ items, Writes doubles key (.hash o) (.hash fields) items (hashTypeLength o) := by
  cases o with
  | ziplist zl =>
    obtain ⟨pairs, rfl, lists⟩ := rep
    have listed : Pairs pairs fields := ⟨lists.distinct, lists.graph⟩
    have more := listed.some_ some_
    refine ⟨.hash pairs, listed, by simpa [Items.args] using more, ?_, fun _ => ?_, fun uncounted => absurd trivial uncounted⟩
    · rw [rewriteObject, rewriteHashObject, hashItems, hashZiplistItems_pairs doubles, map_some]
      rfl
    · rw [hashTypeLength, HashType.flatten_length, Items.args, length_map]
      omega
  | ht ptr =>
    obtain ⟨objects, table, same⟩ := rep
    have listed := dictEntries_pairs table getDecodedObject same
    have more := listed.some_ some_
    have items : (dictEntries ptr).map (fun de => rioWriteBulkString de.key ++ rioWriteBulkObject de.val) =
        ((Items.hash ((dictEntries ptr).map fun de => (de.key, getDecodedObject de.val)) : Items D).args doubles).map bulks := by
      rw [Items.args, List.map_map, List.map_map]
      apply map_congr_left
      intro de _
      rw [writeObject_text]
      exact (bulks_pair _ _).symm
    refine ⟨.hash ((dictEntries ptr).map fun de : DictEntry Bytes StringObject => (de.key, getDecodedObject de.val)), listed, by simpa [Items.args] using more, ?_,
      fun _ => ?_, fun uncounted => absurd trivial uncounted⟩
    · rw [rewriteObject, rewriteHashObject, hashItems, items, map_some]
      rfl
    · rw [hashTypeLength, Items.args, length_map, length_map, dictEntries_length table]

theorem object_writes (key : Bytes) {o : Object D} {coll : Collection D} (stands : o.StandsFor doubles hash (.object coll)) :
    ∃ items count, Writes doubles key o coll items count := by
  cases o with
  | string => exact stands.elim
  | list o =>
    cases coll with
    | list elements => exact ⟨_, _, list_writes key stands.2 stands.1⟩
    | set | zset | hash => exact stands.elim
  | set o =>
    cases coll with
    | set members =>
      obtain ⟨items, writes⟩ := set_writes doubles key stands.2 stands.1
      exact ⟨items, _, writes⟩
    | list | zset | hash => exact stands.elim
  | zset o =>
    cases coll with
    | zset scores =>
      obtain ⟨items, writes⟩ := zset_writes key stands.2 stands.1
      exact ⟨items, _, writes⟩
    | list | set | hash => exact stands.elim
  | hash o =>
    cases coll with
    | hash fields =>
      obtain ⟨items, writes⟩ := hash_writes doubles key stands.2 stands.1
      exact ⟨items, _, writes⟩
    | list | set | zset => exact stands.elim

end

/-! The commands of a rewrite, loaded one after the other: each adds the items of its arguments to
the value of the key. -/

section
open AofFeed (Value Dbs Others Config Redoes)
open CheckAof (Argv)
open ReadOnlySlave (argument)

variable {D : Type} {doubles : Doubles D}

def put (db : Db (Value (Collection D))) (key : Key) (coll : Collection D) : Db (Value (Collection D)) :=
  { db with dict := db.dict.insert key (.object coll) }

theorem put_lookup (db : Db (Value (Collection D))) (key : Key) (coll : Collection D) :
    (put db key coll).lookupKey key = some (.object coll) := by
  rw [Db.lookupKey, put, Finmap.lookup_insert]

theorem put_put (db : Db (Value (Collection D))) (key : Key) (first second : Collection D) :
    put (put db key first) key second = put db key second := by
  simp only [put, Finmap.insert_insert]

theorem add_absent {db : Db (Value (Collection D))} {key : Key} (absent : db.lookupKey key = none) (coll : Collection D) :
    db.add key (.object coll) = some (put db key coll) := by
  rw [Db.add, if_neg, put]
  rw [Db.mem_iff_lookupKey, absent]
  exact Bool.false_ne_true

theorem overwrite_present {db : Db (Value (Collection D))} {key : Key} {value : Value (Collection D)}
    (present : db.lookupKey key = some value) (coll : Collection D) : db.overwrite key (.object coll) = some (put db key coll) := by
  rw [Db.overwrite, if_pos, put]
  rw [Db.mem_iff_lookupKey, present]
  rfl

/-- How a command of one type takes its items: the first command makes the value, and later ones add
to it. `ok` says that the items are those of one value. -/
structure Pushes {α : Type} (run : Argv → Db (Value (Collection D)) → Option (Db (Value (Collection D)))) (name : Bytes)
    (args : α → List Bytes) (coll : List α → Collection D) (ok : List α → Prop) : Prop where
  first : ∀ key db chunk, db.lookupKey key = none → chunk ≠ [] → ok chunk →
    run (itemsCommand name key (chunk.map args)) db = some (put db key (coll chunk))
  next : ∀ key db front chunk, db.lookupKey key = some (.object (coll front)) → chunk ≠ [] → ok (front ++ chunk) →
    run (itemsCommand name key (chunk.map args)) db = some (put db key (coll (front ++ chunk)))
  mono : ∀ front back, ok (front ++ back) → ok front

theorem command_key (name key : Bytes) (items : List (List Bytes)) : argument (itemsCommand name key items) 1 = key := rfl

theorem command_drop (name key : Bytes) (items : List (List Bytes)) : (itemsCommand name key items).drop 2 = items.flatten := rfl

theorem flatten_singletons (texts : List Bytes) : (texts.map fun text => [text]).flatten = texts := by
  induction texts with
  | nil => rfl
  | cons text texts ih => rw [map_cons, flatten_cons, ih, singleton_append]

theorem rpush_pushes : Pushes (D := D) rpushCommand rpushName (fun text : Bytes => [text]) .list fun _ => True where
  first key db chunk absent some_ _ := by
    simp only [rpushCommand, command_drop, flatten_singletons, command_key, absent]
    rw [if_neg (by simpa using some_)]
    exact add_absent absent _
  next key db front chunk present some_ _ := by
    simp only [rpushCommand, command_drop, flatten_singletons, command_key, present]
    rw [if_neg (by simpa using some_)]
    exact overwrite_present present _
  mono _ _ _ := trivial

theorem sadd_pushes : Pushes (D := D) saddCommand saddName (fun text : Bytes => [text]) (fun texts => .set texts.toFinset)
    List.Nodup where
  first key db chunk absent some_ _ := by
    simp only [saddCommand, command_drop, flatten_singletons, command_key, absent]
    rw [if_neg (by simpa using some_)]
    exact add_absent absent _
  next key db front chunk present some_ distinct := by
    obtain ⟨text, rest, rfl⟩ := exists_cons_of_ne_nil some_
    have fresh : text ∉ front := fun member => (nodup_append.mp distinct).2.2 text member text mem_cons_self rfl
    simp only [saddCommand, command_drop, flatten_singletons, command_key, present]
    rw [if_neg (by simp [fresh]), toFinset_append]
    exact overwrite_present present _
  mono _ _ distinct := (nodup_append.mp distinct).1

def insertPairs {V : Type} : List (Bytes × V) → (Finmap fun _ : Bytes => V) → Finmap fun _ : Bytes => V
  | [], m => m
  | (text, value) :: pairs, m => insertPairs pairs (m.insert text value)

theorem insertPairs_append {V : Type} (front back : List (Bytes × V)) (m : Finmap fun _ : Bytes => V) :
    insertPairs (front ++ back) m = insertPairs back (insertPairs front m) := by
  induction front generalizing m with
  | nil => rfl
  | cons pair front ih => exact ih _

theorem insertPairs_absent {V : Type} {pairs : List (Bytes × V)} {text : Bytes} (absent : text ∉ pairs.map Prod.fst)
    (m : Finmap fun _ : Bytes => V) : (insertPairs pairs m).lookup text = m.lookup text := by
  induction pairs generalizing m with
  | nil => rfl
  | cons pair pairs ih =>
    rw [map_cons, mem_cons, not_or] at absent
    rw [insertPairs, ih absent.2, Finmap.lookup_insert_of_ne _ absent.1]

theorem insertPairs_graph {V : Type} {pairs : List (Bytes × V)} (distinct : (pairs.map Prod.fst).Nodup) : Pairs pairs (insertPairs pairs ∅) := by
  refine ⟨distinct, fun text value => ?_⟩
  have general : ∀ m : Finmap fun _ : Bytes => V, (∀ pair ∈ pairs, m.lookup pair.1 = none) →
      ((insertPairs pairs m).lookup text = some value ↔ m.lookup text = some value ∨ (text, value) ∈ pairs) := by
    induction pairs with
    | nil => simp [insertPairs]
    | cons pair pairs ih =>
      intro m fresh
      rw [map_cons, nodup_cons] at distinct
      rw [forall_mem_cons] at fresh
      have later : ∀ other ∈ pairs, (m.insert pair.1 pair.2).lookup other.1 = none := by
        intro other member
        have differ : other.1 ≠ pair.1 := fun same => distinct.1 (same ▸ List.mem_map_of_mem member)
        rw [Finmap.lookup_insert_of_ne _ differ]
        exact fresh.2 other member
      rw [insertPairs, ih distinct.2 _ later, mem_cons]
      by_cases here : text = pair.1
      · subst here
        rw [Finmap.lookup_insert, fresh.1]
        have outside : (pair.1, value) ∉ pairs := fun member => distinct.1 (List.mem_map.mpr ⟨_, member, rfl⟩)
        simp [outside, Prod.ext_iff, eq_comm]
      · rw [Finmap.lookup_insert_of_ne _ here]
        simp [here, Prod.ext_iff]
  rw [general ∅ fun _ _ => Finmap.lookup_empty _]
  simp

theorem Pairs.insertPairs {V : Type} {pairs : List (Bytes × V)} {m : Finmap fun _ : Bytes => V} (listed : Pairs pairs m) :
    insertPairs pairs ∅ = m := by
  apply Finmap.ext_lookup
  intro text
  apply Option.ext
  intro value
  rw [listed.graph, (insertPairs_graph listed.distinct).graph]

theorem hmsetPairs_pairs (pairs : List (Bytes × Bytes)) (m : Finmap fun _ : Bytes => Bytes) :
    hmsetPairs (pairs.map fun pair => [pair.1, pair.2]).flatten m = insertPairs pairs m := by
  induction pairs generalizing m with
  | nil => rfl
  | cons pair pairs ih => exact ih _

theorem hmset_even (key : Bytes) (pairs : List (Bytes × Bytes)) :
    ¬ (itemsCommand hmsetName key (pairs.map fun pair => [pair.1, pair.2])).length % 2 = 1 := by
  have length := @flatten_length 2 (pairs.map fun pair => [pair.1, pair.2]) fun item member => by
    obtain ⟨pair, _, rfl⟩ := List.mem_map.mp member
    rfl
  rw [itemsCommand, length_cons, length_cons, length]
  omega

theorem hmset_pushes : Pushes (D := D) hmsetCommand hmsetName (fun pair : Bytes × Bytes => [pair.1, pair.2])
    (fun pairs => .hash (insertPairs pairs ∅)) fun _ => True where
  first key db chunk absent some_ _ := by
    simp only [hmsetCommand, if_neg (hmset_even key chunk), command_key, absent, command_drop, hmsetPairs_pairs]
    exact add_absent absent _
  next key db front chunk present some_ _ := by
    simp only [hmsetCommand, if_neg (hmset_even key chunk), command_key, present, command_drop, hmsetPairs_pairs, insertPairs_append]
    exact overwrite_present present _
  mono _ _ _ := trivial

theorem zaddOptions_score (doubles : Doubles D) (d : D) (args : List Bytes) :
    zaddOptions {} (doubles.print d :: args) = ({}, doubles.print d :: args) := by
  have plain : isOption (doubles.print d) = false := by
    rw [Bool.eq_false_iff]
    intro named
    have parsed := doubles.option _ named
    rw [doubles.exact] at parsed
    exact absurd parsed (some_ne_none _)
  simp only [isOption, Bool.or_eq_false_iff] at plain
  simp only [zaddOptions, plain, Bool.false_eq_true, if_false]

theorem zaddScores_pairs (pairs : List (Bytes × D)) : zaddScores doubles (pairs.map fun pair => [doubles.print pair.2, pair.1]).flatten =
      some (pairs.map fun pair => (pair.2, pair.1)) := by
  induction pairs with
  | nil => rfl
  | cons pair pairs ih =>
    rw [map_cons, flatten_cons, cons_append, singleton_append, zaddScores, doubles.exact, ih]
    rfl

theorem zaddElements_pairs (doubles : Doubles D) {pairs : List (Bytes × D)} (distinct : (pairs.map Prod.fst).Nodup) (z : Finmap fun _ : Bytes => D)
    (fresh : ∀ pair ∈ pairs, z.lookup pair.1 = none) (changed : Bool) :
    zaddElements doubles {} (pairs.map fun pair => (pair.2, pair.1)) (z, changed) = (insertPairs pairs z, changed || !pairs.isEmpty) := by
  induction pairs generalizing z changed with
  | nil => simp [zaddElements, insertPairs]
  | cons pair pairs ih =>
    rw [map_cons, nodup_cons] at distinct
    rw [forall_mem_cons] at fresh
    have added : zaddElement doubles {} z pair.2 pair.1 = (z.insert pair.1 pair.2, true) := by
      simp only [zaddElement, fresh.1, Bool.false_eq_true, if_false]
    have later : ∀ other ∈ pairs, (z.insert pair.1 pair.2).lookup other.1 = none := by
      intro other member
      have differ : other.1 ≠ pair.1 := fun same => distinct.1 (same ▸ List.mem_map_of_mem member)
      rw [Finmap.lookup_insert_of_ne _ differ]
      exact fresh.2 other member
    simp only [map_cons, zaddElements, added, ih distinct.2 _ later, insertPairs, Bool.or_true, Bool.true_or, isEmpty_cons, Bool.not_false]

theorem zadd_elements (key : Bytes) {chunk : List (Bytes × D)} (some_ : chunk ≠ []) :
    zaddOptions {} ((itemsCommand zaddName key (chunk.map fun pair => [doubles.print pair.2, pair.1])).drop 2) =
      ({}, (chunk.map fun pair => [doubles.print pair.2, pair.1]).flatten) := by
  obtain ⟨pair, rest, rfl⟩ := exists_cons_of_ne_nil some_
  exact zaddOptions_score doubles pair.2 _

theorem zadd_pushes : Pushes (zaddCommand doubles) zaddName (fun pair : Bytes × D => [doubles.print pair.2, pair.1])
    (fun pairs => .zset (insertPairs pairs ∅)) fun pairs => (pairs.map Prod.fst).Nodup where
  first key db chunk absent some_ distinct := by
    have elements := zaddElements_pairs doubles distinct ∅ (fun _ _ => Finmap.lookup_empty _) false
    simp only [zaddCommand, zadd_elements key some_, zaddScores_pairs, command_key, absent, elements, Bool.false_and, Bool.or_false,
      isEmpty_map]
    rw [if_neg (by simpa using some_)]
    exact add_absent absent _
  next key db front chunk present some_ distinct := by
    rw [map_append] at distinct
    obtain ⟨_, inner, apart⟩ := nodup_append.mp distinct
    have fresh : ∀ pair ∈ chunk, (insertPairs front (∅ : Finmap fun _ : Bytes => D)).lookup pair.1 = none := by
      intro pair member
      have absent : pair.1 ∉ front.map Prod.fst := fun before => apart _ before _ (List.mem_map_of_mem member) rfl
      rw [insertPairs_absent absent, Finmap.lookup_empty]
    have elements := zaddElements_pairs doubles inner _ fresh false
    have more : chunk.isEmpty = false := by simpa using some_
    simp only [zaddCommand, zadd_elements key some_, zaddScores_pairs, command_key, present, elements, Bool.false_and, Bool.or_false,
      isEmpty_map, more, Bool.false_eq_true, if_false, Bool.not_false, Bool.false_or, if_true, insertPairs_append]
    exact overwrite_present present _
  mono front back distinct := by
    rw [map_append] at distinct
    exact (nodup_append.mp distinct).1

variable {config : Config} {rest : Others (Collection D)} {j : Nat}

theorem load_collection {argv : Argv} {cmd : Command} (known : config.commands (argv.headD []) = some cmd)
    {run : Argv → Db (Value (Collection D)) → Option (Db (Value (Collection D)))} (found : collectionCommand doubles cmd = some run)
    {dbs : Dbs (Collection D)} {db' : Db (Value (Collection D))} (ran : run argv (dbs j) = some db') (now : Int) (masterhost : Bool) :
    AofFeed.loadCommand config (withCollections doubles rest) now masterhost (dbs, j) argv = some (update dbs j db', j) := by
  have effect : (withCollections doubles rest).effect cmd argv dbs j = some (update dbs j db') := by
    simp only [withCollections, collectionEffect, found, ran, map_some]
  have other : AofFeed.proc config (withCollections doubles rest) ⟨now, true, masterhost⟩ cmd argv j ⟨dbs, -1, []⟩ =
      some (AofFeed.otherCommand config (withCollections doubles rest) ⟨now, true, masterhost⟩ cmd argv j ⟨dbs, -1, []⟩) := by
    unfold collectionCommand at found
    split at found
    case h_5 => exact absurd found (some_ne_none _).symm
    all_goals rfl
  have loading : (⟨now, true, masterhost⟩ : AofFeed.Env).loading = true := rfl
  simp only [AofFeed.otherCommand, AofFeed.touch_loading loading, effect] at other
  exact AofFeed.loadCommand_of_proc known other rfl

theorem redoes_nil {others : Others (Collection D)} (dbs : Dbs (Collection D)) : Redoes config others [] j dbs dbs := fun _ _ => rfl

theorem redoes_append {others : Others (Collection D)} {front back : List Argv} {dbs between dbs' : Dbs (Collection D)}
    (one : Redoes config others front j dbs between) (two : Redoes config others back j between dbs') :
    Redoes config others (front ++ back) j dbs dbs' := by
  intro clock masterhost
  rw [AofFeed.replay_append, one, bind_some, two]

section Batches

variable {α : Type} {run : Argv → Db (Value (Collection D)) → Option (Db (Value (Collection D)))} {name : Bytes}
variable {args : α → List Bytes} {coll : List α → Collection D} {ok : List α → Prop} {cmd : Command}

theorem Pushes.later (pushes : Pushes run name args coll ok) (known : config.commands name = some cmd)
    (found : collectionCommand doubles cmd = some run) (key : Key) (chunks : List (List α)) (some_ : ∀ chunk ∈ chunks, chunk ≠ [])
    (front : List α) (whole : ok (front ++ chunks.flatten)) (dbs : Dbs (Collection D)) (db : Db (Value (Collection D)))
    (started : dbs j = put db key (coll front)) :
    Redoes config (withCollections doubles rest) (chunks.map fun chunk => itemsCommand name key (chunk.map args)) j dbs
      (update dbs j (put db key (coll (front ++ chunks.flatten)))) := by
  induction chunks generalizing front dbs with
  | nil =>
    rw [flatten_nil, append_nil, ← started, Function.update_eq_self]
    exact redoes_nil dbs
  | cons chunk chunks ih =>
    rw [forall_mem_cons] at some_
    rw [flatten_cons, ← append_assoc] at whole ⊢
    have present : (dbs j).lookupKey key = some (.object (coll front)) := started ▸ put_lookup db key _
    have ran := pushes.next key (dbs j) front chunk present some_.1 (pushes.mono _ _ whole)
    rw [started, put_put] at ran
    have one : Redoes config (withCollections doubles rest) [itemsCommand name key (chunk.map args)] j dbs
        (update dbs j (put db key (coll (front ++ chunk)))) :=
      AofFeed.redoes_single (load_collection known found (started ▸ ran))
    have two := ih some_.2 (front ++ chunk) whole (update dbs j (put db key (coll (front ++ chunk))))
      (Function.update_self ..)
    rw [Function.update_idem] at two
    exact redoes_append one two

theorem Pushes.redoes (pushes : Pushes run name args coll ok) (known : config.commands name = some cmd)
    (found : collectionCommand doubles cmd = some run) (key : Key) {chunks : List (List α)} (some_ : ∀ chunk ∈ chunks, chunk ≠ [])
    (more : chunks ≠ []) (whole : ok chunks.flatten) (dbs : Dbs (Collection D)) (absent : (dbs j).lookupKey key = none) :
    Redoes config (withCollections doubles rest) (chunks.map fun chunk => itemsCommand name key (chunk.map args)) j dbs
      (update dbs j (put (dbs j) key (coll chunks.flatten))) := by
  obtain ⟨chunk, chunks, rfl⟩ := exists_cons_of_ne_nil more
  rw [forall_mem_cons] at some_
  rw [flatten_cons] at whole ⊢
  have ran := pushes.first key (dbs j) chunk absent some_.1 (pushes.mono _ _ whole)
  have one : Redoes config (withCollections doubles rest) [itemsCommand name key (chunk.map args)] j dbs
      (update dbs j (put (dbs j) key (coll chunk))) :=
    AofFeed.redoes_single (load_collection known found ran)
  have two := @Pushes.later D doubles config rest j _ _ _ _ _ _ _ pushes known found key chunks some_.2 chunk whole
    (update dbs j (put (dbs j) key (coll chunk))) (dbs j) (Function.update_self ..)
  rw [Function.update_idem] at two
  exact redoes_append one two

end Batches

end

end Cplusplus.Redis.Rewrite
