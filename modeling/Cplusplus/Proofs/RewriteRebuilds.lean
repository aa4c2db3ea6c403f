import Cplusplus.Proofs.RewriteReplay

/-! What is written for a key: commands that store its value and its expire, or bytes at which the
loader stops. -/

namespace Cplusplus.Redis.Rewrite
open List Option
open Function (update)

section
open AofFeed (Value Dbs Others Config Redoes setName pexpireatName selectName Named)
open CheckAof (Argv)
open Decimal (decimal)

variable {D : Type}
variable {chunks : List (List (List Bytes))} {items : Items D} {coll : Collection D} {key : Key}

theorem Batches.of_map {α : Type} {f : α → List Bytes} {xs : List α} (batches : Batches (xs.map f) chunks) :
    ∃ parts : List (List α), chunks = parts.map (List.map f) ∧ parts.flatten = xs ∧ ∀ part ∈ parts, part ≠ [] := by
  obtain ⟨all, some_, few⟩ := batches
  induction chunks generalizing xs with
  | nil =>
    rw [flatten_nil, eq_comm, map_eq_nil_iff] at all
    subst all
    exact ⟨[], rfl, rfl, fun _ member => absurd member not_mem_nil⟩
  | cons chunk chunks ih =>
    rw [forall_mem_cons] at some_ few
    rw [flatten_cons, eq_comm, map_eq_append_iff] at all
    obtain ⟨front, back, rfl, rfl, later⟩ := all
    obtain ⟨parts, rfl, rfl, nonempty⟩ := ih later.symm some_.2 few.2
    refine ⟨front :: parts, rfl, rfl, ?_⟩
    rw [forall_mem_cons]
    exact ⟨fun empty => some_.1 (by rw [empty]; rfl), nonempty⟩

variable (s : Snapshot D)

theorem items_redoes (of : items.Of coll) (some_ : items.args s.doubles ≠ []) (batches : Batches (items.args s.doubles) chunks)
    (key : Key) (j : Nat) (dbs : Dbs (Collection D)) (absent : (dbs j).lookupKey key = none) :
    Redoes s.config (withCollections s.doubles s.others) (chunks.map (itemsCommand items.name key)) j dbs
      (update dbs j (put (dbs j) key coll)) := by
  have more : chunks ≠ [] := by
    rintro rfl
    exact some_ batches.all.symm
  cases items with
  | list texts =>
    cases coll with
    | list elements =>
      obtain rfl : texts = elements := of
      obtain ⟨parts, rfl, rfl, nonempty⟩ := batches.of_map
      rw [List.map_map]
      exact rpush_pushes.redoes s.rpush rfl key nonempty (by simpa using more) trivial dbs absent
    | set | zset | hash => exact of.elim
  | set texts =>
    cases coll with
    | set members =>
      obtain ⟨distinct, rfl⟩ := of
      obtain ⟨parts, rfl, rfl, nonempty⟩ := batches.of_map
      rw [List.map_map]
      exact sadd_pushes.redoes s.sadd rfl key nonempty (by simpa using more) distinct dbs absent
    | list | zset | hash => exact of.elim
  | zset pairs =>
    cases coll with
    | zset scores =>
      have listed : Pairs pairs scores := of
      have whole := listed.insertPairs
      obtain ⟨parts, rfl, rfl, nonempty⟩ := batches.of_map
      rw [List.map_map, ← whole]
      exact zadd_pushes.redoes s.zadd rfl key nonempty (by simpa using more) listed.distinct dbs absent
    | list | set | hash => exact of.elim
  | hash pairs =>
    cases coll with
    | hash fields =>
      have listed : Pairs pairs fields := of
      have whole := listed.insertPairs
      obtain ⟨parts, rfl, rfl, nonempty⟩ := batches.of_map
      rw [List.map_map, ← whole]
      exact hmset_pushes.redoes s.hmset rfl key nonempty (by simpa using more) trivial dbs absent
    | list | set | zset => exact of.elim

theorem items_texts {doubles : Doubles D} (of : items.Of coll) (p : Bytes → Prop) (prints : ∀ d, p (doubles.print d)) :
    (∀ item ∈ items.args doubles, ∀ arg ∈ item, p arg) ↔ Texts p (.object coll : Value (Collection D)) := by
  cases items with
  | list texts =>
    cases coll with
    | list elements =>
      obtain rfl : texts = elements := of
      simp [Items.args, Texts]
    | set | zset | hash => exact of.elim
  | set texts =>
    cases coll with
    | set members =>
      obtain ⟨_, rfl⟩ := of
      simp [Items.args, Texts]
    | list | zset | hash => exact of.elim
  | zset pairs =>
    cases coll with
    | zset scores =>
      have listed : Pairs pairs scores := of
      rw [Items.args, List.forall_mem_map]
      constructor
      · intro all text member
        rw [← Finmap.lookup_isSome, isSome_iff_exists] at member
        obtain ⟨value, found⟩ := member
        exact all _ ((listed.graph text value).mp found) text (mem_pair.mpr (.inr rfl))
      · intro each pair inside arg found
        obtain rfl | rfl := mem_pair.mp found
        · exact prints pair.2
        · apply each
          rw [← Finmap.lookup_isSome, (listed.graph pair.1 pair.2).mpr inside]
          rfl
    | list | set | hash => exact of.elim
  | hash pairs =>
    cases coll with
    | hash fields =>
      have listed : Pairs pairs fields := of
      rw [Items.args, List.forall_mem_map]
      constructor
      · intro all field value found
        have inside := all _ ((listed.graph field value).mp found)
        exact ⟨inside field (mem_pair.mpr (.inl rfl)), inside value (mem_pair.mpr (.inr rfl))⟩
      · intro each pair inside arg found
        have both := each pair.1 pair.2 ((listed.graph pair.1 pair.2).mpr inside)
        obtain rfl | rfl := mem_pair.mp found
        · exact both.1
        · exact both.2
    | list | set | zset => exact of.elim

theorem commands_texts {name key : Bytes} {items : List (List Bytes)} (some_ : items ≠ [])
    (batches : Batches items chunks) (p : Bytes → Prop) :
    (∀ argv ∈ chunks.map (itemsCommand name key), ∀ arg ∈ argv, p arg) ↔ p name ∧ p key ∧ ∀ item ∈ items, ∀ arg ∈ item, p arg := by
  have more : chunks ≠ [] := by
    rintro rfl
    exact some_ batches.all.symm
  obtain ⟨chunk, member⟩ := exists_mem_of_ne_nil chunks more
  have inside : ∀ item, item ∈ items ↔ ∃ part ∈ chunks, item ∈ part := by
    intro item
    rw [← batches.all, mem_flatten]
  constructor
  · intro all
    refine ⟨?_, ?_, fun item listed arg found => ?_⟩
    · exact all _ (List.mem_map_of_mem member) name mem_cons_self
    · exact all _ (List.mem_map_of_mem member) key (mem_cons_of_mem _ mem_cons_self)
    · obtain ⟨part, at_, within⟩ := (inside item).mp listed
      apply all _ (List.mem_map_of_mem at_) arg
      exact mem_cons_of_mem _ (mem_cons_of_mem _ (mem_flatten.mpr ⟨item, within, found⟩))
  · rintro ⟨named, keyed, each⟩ argv listed arg found
    obtain ⟨part, at_, rfl⟩ := List.mem_map.mp listed
    rw [itemsCommand, mem_cons, mem_cons] at found
    obtain rfl | rfl | found := found
    · exact named
    · exact keyed
    · obtain ⟨item, within, found⟩ := mem_flatten.mp found
      exact each item ((inside item).mpr ⟨part, at_, within⟩) arg found

def Stores (s : Snapshot D) (j : Nat) (key : Key) (value : Value (Collection D)) (expire : Option Int) (argvs : List Argv) : Prop :=
  ∀ dbs : Dbs (Collection D), (dbs j).Sound → (dbs j).lookupKey key = none →
    Redoes s.config (withCollections s.doubles s.others) argvs j dbs (update dbs j (AofFeed.stored (dbs j) key value expire))

theorem named (s : Snapshot D) : Named s.config := ⟨s.select, s.set, s.del, s.pexpireat⟩

theorem put_stored {db : Db (Value (Collection D))} (sound : db.Sound) (absent : db.lookupKey key = none) (coll : Collection D) :
    put db key coll = AofFeed.stored db key (.object coll) none := by
  have outside : key ∉ db.expires := fun member => by
    have present := sound key member
    rw [Db.mem_iff_lookupKey, absent] at present
    exact Bool.false_ne_true present
  rw [put, AofFeed.stored, Db.erase_absent outside]

theorem string_outcome (key text : Bytes) {o : StringObject} (same : getDecodedObject o = text) (sds : Sds key ∧ Sds text) (j : Nat) :
    Outcome (setHeader ++ rioWriteBulkString key ++ rioWriteBulkObject o) (Short key ∧ Short text)
      (Stores s j key (.string text) none) := by
  have command : setHeader ++ rioWriteBulkString key ++ rioWriteBulkObject o = rioCommand [setName, key, text] := by
    have header : setHeader = rioWriteBulkCount 42 3 ++ rioWriteBulkString setName := by decide
    rw [header, writeObject_text, same]
    simp [rioCommand]
  have known : Sds setName := by decide
  have outcome := @Outcome.command [setName, key, text] (cons_ne_nil _ _) (show 3 < 2 ^ 31 by decide) (by simp [sds, known])
  have short : Short setName := by decide
  rw [command]
  refine outcome.imp (by simp [short]) ?_
  rintro argvs rfl dbs _ _
  exact AofFeed.redoes_single fun now masterhost => AofFeed.load_plain (named s) now masterhost

theorem Items.name_length (items : Items D) : items.name.length ≤ 5 := by
  cases items <;> exact Nat.le_of_ble_eq_true rfl

theorem Items.width_bounds (items : Items D) : 0 < items.width ∧ items.width ≤ 2 := by
  cases items <;> exact ⟨Nat.zero_lt_succ _, Nat.le_of_ble_eq_true rfl⟩

theorem items_sized (of : items.Of coll) (sds : Sds key ∧ Texts Sds (.object coll : Value (Collection D))) :
    Sized items.name key items.width (items.args s.doubles) := by
  have bounds := items.width_bounds
  have length := items.name_length
  have prints : ∀ d, Sds (s.doubles.print d) := fun d => Nat.lt_trans (s.doubles.short d) (by decide)
  refine ⟨bounds.1, by omega, items.args_width, ?_, sds.1, (items_texts of Sds prints).mpr sds.2⟩
  unfold Sds
  omega

theorem Sized.commands {name key : Bytes} {width : Nat} {items : List (List Bytes)}
    (sized : Sized name key width items) (batches : Batches items chunks) :
    ∀ argv ∈ chunks.map (itemsCommand name key), argv ≠ [] ∧ argv.length < 2 ^ 31 ∧ ∀ arg ∈ argv, Sds arg := by
  rw [List.forall_mem_map]
  intro chunk member
  have inside : chunk ⊆ items := fun item found => batches.all ▸ mem_flatten.mpr ⟨chunk, member, found⟩
  exact (sized.subset inside).command (batches.few chunk member)

theorem items_outcome (key : Key) {o : Object D} {count : Nat} (writes : Writes s.doubles key o coll items count)
    (sds : Sds key ∧ Texts Sds (.object coll : Value (Collection D))) (j : Nat) :
    Outcome (emitItems items.name key items.width 0 count ((items.args s.doubles).map bulks))
      (Short key ∧ Texts Short (.object coll : Value (Collection D)) ∧ o.Counted) (Stores s j key (.object coll) none) := by
  have prints : ∀ d, Short (s.doubles.print d) := fun d => Nat.lt_trans (s.doubles.short d) (by decide)
  have sized := items_sized s writes.of sds
  by_cases counted : o.Counted
  · obtain ⟨chunks, batches, written⟩ := @emitItems_batches items.name key _ (items.args s.doubles) sized.each
    have length := items.name_length
    have short : Short items.name := by
      unfold Short
      omega
    rw [writes.counted counted, written]
    refine (Outcome.commands (sized.commands batches)).imp ?_ ?_
    · rw [commands_texts writes.some_ batches, items_texts writes.of Short prints]
      simp [short, counted]
    · rintro argvs rfl dbs sound absent
      rw [← put_stored sound absent]
      exact items_redoes s writes.of writes.some_ batches key j dbs absent
  · exact ⟨fun good => absurd good.2.2 counted, fun _ => emitItems_breaks sized (writes.uncounted counted)⟩

theorem object_outcome (e : StoredKey s.doubles s.hash) (j : Nat) : ∃ bytes, rewriteObject s.doubles e.key e.object = some bytes ∧
      Outcome bytes (Short e.key ∧ Texts Short e.value ∧ e.object.Counted) (Stores s j e.key e.value none) := by
  obtain ⟨key, object, value, stands, sds⟩ := e
  cases value with
  | string text =>
    cases object with
    | string o =>
      have outcome := string_outcome s key text stands sds j
      exact ⟨_, rfl, outcome.imp (by simp [Texts, Object.Counted]) fun _ stores => stores⟩
    | list | set | zset | hash => exact stands.elim
  | object coll =>
    obtain ⟨items, count, writes⟩ := object_writes key stands
    exact ⟨_, writes.written, items_outcome s key writes sds j⟩

def expireOf (db : Db (Value (Collection D))) (key : Key) : Option Int := if db.getExpire key = -1 then none else some (db.getExpire key)

theorem expire_outcome (key : Key) (value : Value (Collection D)) (sds : Sds key) {when : Int} (bounds : -2 ^ 63 ≤ when ∧ when < 2 ^ 63) (j : Nat) :
    Outcome (pexpireatHeader ++ rioWriteBulkString key ++ rioWriteBulkLongLong when) (Short key) fun argvs =>
      ∀ dbs : Dbs (Collection D), Redoes s.config (withCollections s.doubles s.others) argvs j
        (update dbs j (AofFeed.stored (dbs j) key value none))
        (update dbs j (AofFeed.stored (dbs j) key value (some when))) := by
  have command : pexpireatHeader ++ rioWriteBulkString key ++ rioWriteBulkLongLong when =
      rioCommand [pexpireatName, key, ll2string 32 when] := by
    have header : pexpireatHeader = rioWriteBulkCount 42 3 ++ rioWriteBulkString pexpireatName := by decide
    rw [header]
    simp [rioCommand, rioWriteBulkLongLong]
  have number := integer_short bounds.1 bounds.2
  have sized : ∀ arg ∈ [pexpireatName, key, ll2string 32 when], Sds arg := by
    have name : Sds pexpireatName := by decide
    have digits : Sds (ll2string 32 when) := Nat.lt_trans number (by decide)
    simp [name, sds, digits]
  have outcome := @Outcome.command [pexpireatName, key, ll2string 32 when] (cons_ne_nil _ _) (show 3 < 2 ^ 31 by decide) sized
  have name : Short pexpireatName := by decide
  rw [command]
  refine outcome.imp (by simp [name, number]) ?_
  rintro argvs rfl dbs
  apply AofFeed.redoes_single
  intro now masterhost
  have present : ((update dbs j (AofFeed.stored (dbs j) key value none) j).lookupKey key).isSome = true := by
    rw [Function.update_self]
    exact AofFeed.stored_present _ key value none
  rw [AofFeed.load_appended (named s) bounds present, Function.update_self, Function.update_idem, AofFeed.stored_expireAt]

namespace Snapshot

def storeKey (s : Snapshot D) (j : Nat) (e : StoredKey s.doubles s.hash) (db : Db (Value (Collection D))) : Db (Value (Collection D)) :=
  if s.Rewritten j e.key then AofFeed.stored db e.key e.value (expireOf (s.dbs j).db e.key) else db

def Good (s : Snapshot D) (j : Nat) (e : StoredKey s.doubles s.hash) : Prop :=
  s.Rewritten j e.key → Short e.key ∧ Texts Short e.value ∧ e.object.Counted

end Snapshot

def StoresKey (s : Snapshot D) (j : Nat) (e : StoredKey s.doubles s.hash) (argvs : List Argv) : Prop :=
  ∀ dbs : Dbs (Collection D), (dbs j).Sound → (dbs j).lookupKey e.key = none →
    Redoes s.config (withCollections s.doubles s.others) argvs j dbs (update dbs j (s.storeKey j e (dbs j)))

theorem getExpire_bounds {j : Nat} (timed : (s.dbs j).db.getExpire key ≠ -1) :
    -2 ^ 63 ≤ (s.dbs j).db.getExpire key ∧ (s.dbs j).db.getExpire key < 2 ^ 63 := by
  unfold Db.getExpire at timed ⊢
  cases found : (s.dbs j).db.expires.lookup key with
  | none =>
    rw [found] at timed
    exact absurd rfl timed
  | some when => exact (s.dbs j).times key when found

theorem key_outcome (j : Nat) (e : StoredKey s.doubles s.hash) :
    ∃ bytes, rewriteKey s.doubles s.now ((s.dbs j).db.getExpire e.key) e.key e.object = some bytes ∧
      Outcome bytes (s.Good j e) (StoresKey s j e) := by
  by_cases rewritten : s.Rewritten j e.key
  · obtain ⟨bytes, written, outcome⟩ := object_outcome s e j
    have kept : ¬ ((s.dbs j).db.getExpire e.key ≠ -1 ∧ (s.dbs j).db.getExpire e.key < s.now) := by
      unfold Snapshot.Rewritten at rewritten
      omega
    have good : s.Good j e ↔ Short e.key ∧ Texts Short e.value ∧ e.object.Counted :=
      ⟨fun implies => implies rewritten, fun holds _ => holds⟩
    rw [rewriteKey, if_neg kept, written, bind_eq_bind, bind_some]
    refine ⟨_, rfl, ?_⟩
    by_cases never : (s.dbs j).db.getExpire e.key = -1
    · rw [if_neg (not_not.mpr never), append_nil]
      refine outcome.imp good.symm fun argvs stores dbs sound absent => ?_
      have store := stores dbs sound absent
      rw [Snapshot.storeKey, if_pos rewritten, expireOf, if_pos never]
      exact store
    · have bounds := getExpire_bounds s never
      rw [if_pos never]
      have expire := expire_outcome s e.key e.value e.sds.1 bounds j
      have both := outcome.append expire (r := StoresKey s j e) fun x y stores expires dbs sound absent => by
        rw [Snapshot.storeKey, if_pos rewritten, expireOf, if_neg never]
        exact redoes_append (stores dbs sound absent) (expires dbs)
      refine both.imp ?_ fun _ stores => stores
      rw [good]
      tauto
  · have skipped : (s.dbs j).db.getExpire e.key ≠ -1 ∧ (s.dbs j).db.getExpire e.key < s.now := by
      unfold Snapshot.Rewritten at rewritten
      omega
    rw [rewriteKey, if_pos skipped]
    refine ⟨[], rfl, (Outcome.nil (p := StoresKey s j e) ?_).imp ?_ fun _ stores => stores⟩
    · intro dbs _ _
      rw [Snapshot.storeKey, if_neg rewritten, Function.update_eq_self]
      exact redoes_nil dbs
    · exact ⟨fun _ holds => absurd holds rewritten, fun _ => trivial⟩

end

/-! The file of a rewrite gives the dataset exactly when every length that it announces is one of
its type. Databases and the whole file are put together from what is written for each key. -/

section
open AofFeed (Value Dbs Others Config Redoes selectName)
open CheckAof (Argv)
open Decimal (decimal)

variable {D : Type} (s : Snapshot D)

namespace Snapshot

def storeKeys (s : Snapshot D) (j : Nat) : List (StoredKey s.doubles s.hash) → Db (Value (Collection D)) → Db (Value (Collection D))
  | [], db => db
  | e :: entries, db => s.storeKeys j entries (s.storeKey j e db)

end Snapshot

theorem storeKey_sound (j : Nat) (e : StoredKey s.doubles s.hash) {db : Db (Value (Collection D))} (sound : db.Sound) :
    (s.storeKey j e db).Sound := by
  unfold Snapshot.storeKey
  split
  next => exact AofFeed.stored_sound sound _ _ _
  next => exact sound

theorem storeKey_other (j : Nat) {e : StoredKey s.doubles s.hash} (other : s.Rewritten j e.key → key ≠ e.key)
    (db : Db (Value (Collection D))) :
    (s.storeKey j e db).dict.lookup key = db.dict.lookup key ∧ (s.storeKey j e db).expires.lookup key = db.expires.lookup key := by
  unfold Snapshot.storeKey
  split
  next rewritten =>
    have distinct := other rewritten
    refine ⟨Finmap.lookup_insert_of_ne _ distinct, ?_⟩
    cases expireOf (s.dbs j).db e.key with
    | none => exact Finmap.lookup_erase_ne distinct
    | some when => exact Finmap.lookup_insert_of_ne _ distinct
  next => exact ⟨rfl, rfl⟩

theorem storeKeys_other (j : Nat) {entries : List (StoredKey s.doubles s.hash)}
    (other : ∀ e ∈ entries, s.Rewritten j e.key → key ≠ e.key) (db : Db (Value (Collection D))) :
    (s.storeKeys j entries db).dict.lookup key = db.dict.lookup key ∧
      (s.storeKeys j entries db).expires.lookup key = db.expires.lookup key := by
  induction entries generalizing db with
  | nil => exact ⟨rfl, rfl⟩
  | cons e entries ih =>
    rw [forall_mem_cons] at other
    obtain ⟨dict, expires⟩ := ih other.2 (s.storeKey j e db)
    obtain ⟨dict', expires'⟩ := storeKey_other s j other.1 db
    exact ⟨dict.trans dict', expires.trans expires'⟩

theorem storeKeys_lookup (j : Nat) {entries : List (StoredKey s.doubles s.hash)} (distinct : (entries.map StoredKey.key).Nodup)
    {e : StoredKey s.doubles s.hash} (member : e ∈ entries) (rewritten : s.Rewritten j e.key) (db : Db (Value (Collection D))) :
    (s.storeKeys j entries db).dict.lookup e.key = some e.value ∧
      (s.storeKeys j entries db).expires.lookup e.key = expireOf (s.dbs j).db e.key := by
  induction entries generalizing db with
  | nil => exact absurd member not_mem_nil
  | cons first entries ih =>
    rw [map_cons, nodup_cons] at distinct
    obtain rfl | member := mem_cons.mp member
    · have later : ∀ other ∈ entries, s.Rewritten j other.key → e.key ≠ other.key :=
        fun other inside _ same => distinct.1 (same ▸ List.mem_map_of_mem inside)
      obtain ⟨dict, expires⟩ := storeKeys_other s j later (s.storeKey j e db)
      rw [Snapshot.storeKeys, dict, expires, Snapshot.storeKey, if_pos rewritten]
      refine ⟨Finmap.lookup_insert _, ?_⟩
      cases expireOf (s.dbs j).db e.key with
      | none => exact Finmap.lookup_erase _ _
      | some when => exact Finmap.lookup_insert _
    · exact ih distinct.2 member (s.storeKey j first db)

def StoresKeys (s : Snapshot D) (j : Nat) (entries : List (StoredKey s.doubles s.hash)) (argvs : List Argv) : Prop :=
  ∀ dbs : Dbs (Collection D), (dbs j).Sound → (∀ e ∈ entries, (dbs j).lookupKey e.key = none) →
    Redoes s.config (withCollections s.doubles s.others) argvs j dbs (update dbs j (s.storeKeys j entries (dbs j)))

theorem entries_outcome (j : Nat) (entries : List (StoredKey s.doubles s.hash)) (distinct : (entries.map StoredKey.key).Nodup) :
    ∃ bytes, rewriteEntries s.doubles s.now (s.dbs j).db.getExpire (entries.map fun e => (e.key, e.object)) = some bytes ∧
      Outcome bytes (∀ e ∈ entries, s.Good j e) (StoresKeys s j entries) := by
  induction entries with
  | nil =>
    refine ⟨[], rfl, (Outcome.nil (p := StoresKeys s j []) ?_).imp (by simp) fun _ stores => stores⟩
    intro dbs _ _
    rw [Snapshot.storeKeys, Function.update_eq_self]
    exact redoes_nil dbs
  | cons e entries ih =>
    rw [map_cons, nodup_cons] at distinct
    obtain ⟨front, written, one⟩ := key_outcome s j e
    obtain ⟨back, later, two⟩ := ih distinct.2
    refine ⟨front ++ back, ?_, ?_⟩
    · rw [map_cons, rewriteEntries, written, later]
      rfl
    · have both := one.append two (r := StoresKeys s j (e :: entries)) fun x y stores rest dbs sound absent => by
        rw [forall_mem_cons] at absent
        have first := stores dbs sound absent.1
        have fresh : ∀ other ∈ entries, (update dbs j (s.storeKey j e (dbs j)) j).lookupKey other.key = none := by
          intro other member
          have differ : other.key ≠ e.key := fun same => distinct.1 (same ▸ List.mem_map_of_mem member)
          rw [Function.update_self, Db.lookupKey, (storeKey_other s j (fun _ => differ) (dbs j)).1]
          exact absent.2 other member
        have second := rest (update dbs j (s.storeKey j e (dbs j)))
          (by rw [Function.update_self]; exact storeKey_sound s j e sound) fresh
        rw [Function.update_self, Function.update_idem] at second
        exact redoes_append first second
      exact both.imp (by rw [forall_mem_cons]) fun _ stores => stores

def Loads (s : Snapshot D) (argvs : List Argv) (dbs dbs' : Dbs (Collection D)) : Prop :=
  ∀ before, ∃ selected, ∀ clock masterhost,
    AofFeed.replay s.config (withCollections s.doubles s.others) clock masterhost argvs (dbs, before) = some (dbs', selected)

theorem loads_append {front back : List Argv} {dbs between dbs' : Dbs (Collection D)} (one : Loads s front dbs between)
    (two : Loads s back between dbs') : Loads s (front ++ back) dbs dbs' := by
  intro before
  obtain ⟨middle, first⟩ := one before
  obtain ⟨selected, second⟩ := two middle
  refine ⟨selected, fun clock masterhost => ?_⟩
  rw [AofFeed.replay_append, first, bind_some, second]

def Fills (s : Snapshot D) (j : Nat) (argvs : List Argv) : Prop :=
  ∀ dbs : Dbs (Collection D), dbs j = Db.empty →
    Loads s argvs dbs (update dbs j (s.storeKeys j (s.dbs j).entries Db.empty))

theorem select_outcome {j : Nat} (selectable : s.config.hasDb j = true) :
    Outcome (selectHeader ++ rioWriteBulkLongLong j) True (· = [[selectName, decimal j]]) := by
  have small : j < 2 ^ 31 := by
    have fits := s.config.fits
    simp only [Config.hasDb, Bool.and_eq_true, decide_eq_true_eq] at selectable
    omega
  have number : ll2string 32 (j : Int) = decimal j := by
    rw [ll2string_roomy (by omega) (by decide), numeral, if_neg (by omega), nil_append, Int.natAbs_natCast]
  have short : Short (decimal j) := number ▸ integer_short (by omega) (by omega)
  have name : Short selectName := by decide
  have command : selectHeader ++ rioWriteBulkLongLong j = rioCommand [selectName, decimal j] := by
    have header : selectHeader = rioWriteBulkCount 42 2 ++ rioWriteBulkString selectName := by decide
    rw [header, rioWriteBulkLongLong, number]
    simp [rioCommand]
  have sds : ∀ arg ∈ [selectName, decimal j], Sds arg := by
    have digits : Sds (decimal j) := Nat.lt_trans short (by decide)
    have known : Sds selectName := by decide
    simp [digits, known]
  rw [command]
  have outcome := @Outcome.command [selectName, decimal j] (cons_ne_nil _ _) (show 2 < 2 ^ 31 by decide) sds
  exact outcome.imp (by simp [short, name]) fun _ same => same

theorem db_outcome (j : Nat) :
    ∃ bytes, rewriteDb s.doubles s.now j (s.dbs j).db.getExpire ((s.dbs j).entries.map fun e => (e.key, e.object)) = some bytes ∧
      Outcome bytes (∀ e ∈ (s.dbs j).entries, s.Good j e) (Fills s j) := by
  by_cases empty : (s.dbs j).entries = []
  · rw [rewriteDb, empty, map_nil, if_pos isEmpty_nil]
    refine ⟨[], rfl, (Outcome.nil (p := Fills s j) fun dbs start before => ⟨before, fun clock masterhost => ?_⟩).imp
      (by simp) fun _ fills => fills⟩
    rw [empty, Snapshot.storeKeys, ← start, Function.update_eq_self]
    rfl
  · obtain ⟨bytes, written, outcome⟩ := entries_outcome s j (s.dbs j).entries (s.dbs j).distinct
    have selectable := s.inside j empty
    rw [rewriteDb, if_neg (by simpa using empty), written, map_some]
    refine ⟨_, rfl, ?_⟩
    have both := (select_outcome s selectable).append outcome (r := Fills s j) fun x y select stores dbs start before => by
      subst select
      refine ⟨j, fun clock masterhost => ?_⟩
      have filled := stores dbs (start ▸ Db.sound_empty) fun e _ => start ▸ Finmap.lookup_empty _
      rw [start] at filled
      rw [AofFeed.replay_append]
      simp only [AofFeed.replay, AofFeed.load_select (named s) selectable, bind_some]
      exact filled _ _
    exact both.imp (by simp) fun _ fills => fills

def filled (s : Snapshot D) (js : List Nat) (dbs : Dbs (Collection D)) : Dbs (Collection D) :=
  fun i => if i ∈ js then s.storeKeys i (s.dbs i).entries Db.empty else dbs i

theorem dbs_outcome (js : List Nat) (distinct : js.Nodup) : ∃ bytes, s.rewriteDbs js = some bytes ∧
      Outcome bytes (∀ j ∈ js, ∀ e ∈ (s.dbs j).entries, s.Good j e) fun argvs =>
        ∀ dbs, (∀ j ∈ js, dbs j = Db.empty) → Loads s argvs dbs (filled s js dbs) := by
  induction js with
  | nil =>
    refine ⟨[], rfl, (Outcome.nil fun dbs _ before => ⟨before, fun _ _ => ?_⟩).imp (by simp) fun _ fills => fills⟩
    have same : filled s [] dbs = dbs := by
      funext i
      rw [filled, if_neg not_mem_nil]
    rw [same]
    rfl
  | cons j js ih =>
    rw [nodup_cons] at distinct
    obtain ⟨front, written, one⟩ := db_outcome s j
    obtain ⟨back, later, two⟩ := ih distinct.2
    refine ⟨front ++ back, ?_, ?_⟩
    · rw [Snapshot.rewriteDbs, written, later]
      rfl
    · refine (one.append two fun x y fills rest dbs start => ?_).imp (by rw [forall_mem_cons]) fun _ fills => fills
      rw [forall_mem_cons] at start
      have first := fills dbs start.1
      have second := rest (update dbs j (s.storeKeys j (s.dbs j).entries Db.empty)) fun i member => by
        have other : i ≠ j := fun same => distinct.1 (same ▸ member)
        rw [Function.update_of_ne other]
        exact start.2 i member
      have same : filled s js (update dbs j (s.storeKeys j (s.dbs j).entries Db.empty)) = filled s (j :: js) dbs := by
        funext i
        by_cases here : i = j
        · subst here
          rw [filled, filled, if_neg distinct.1, if_pos mem_cons_self, Function.update_self]
        · simp only [filled, mem_cons, here, false_or, Function.update_of_ne here]
      rw [same] at second
      exact loads_append s first second

def rebuilt (s : Snapshot D) : Dbs (Collection D) := filled s (List.range s.config.dbnum) fun _ => Db.empty

theorem rebuilt_eq (j : Nat) : rebuilt s j = s.storeKeys j (s.dbs j).entries Db.empty := by
  unfold rebuilt filled
  split
  next => rfl
  next outside =>
    have none : (s.dbs j).entries = [] := by
      by_contra more
      have selectable := s.inside j more
      simp only [Config.hasDb, Bool.and_eq_true, decide_eq_true_eq] at selectable
      exact outside (mem_range.mpr selectable.1)
    rw [none]
    rfl

theorem stored_entry {j : Nat} {value : Value (Collection D)} (found : (s.dbs j).db.dict.lookup key = some value) :
    ∃ e ∈ (s.dbs j).entries, e.key = key ∧ e.value = value := ((s.dbs j).stored key value).mp found

theorem rebuilt_same : s.Same (rebuilt s) where
  agree j key alive := by
    rw [rebuilt_eq]
    cases found : (s.dbs j).db.dict.lookup key with
    | some value =>
      obtain ⟨e, member, rfl, rfl⟩ := stored_entry s found
      have rewritten : s.Rewritten j e.key ∧ expireOf (s.dbs j).db e.key = (s.dbs j).db.expires.lookup e.key := by
        unfold Snapshot.Rewritten expireOf Db.getExpire
        cases timed : (s.dbs j).db.expires.lookup e.key with
        | none => exact ⟨.inl rfl, rfl⟩
        | some when =>
          have later : (s.now : Int) ≤ when := alive when timed
          refine ⟨.inr later, if_neg ?_⟩
          rw [getD_some]
          omega
      obtain ⟨dict, expires⟩ := storeKeys_lookup s j (s.dbs j).distinct member rewritten.1 Db.empty
      exact ⟨dict.trans found.symm, expires.trans rewritten.2⟩
    | none =>
      have other : ∀ e ∈ (s.dbs j).entries, s.Rewritten j e.key → key ≠ e.key := by
        rintro e member _ rfl
        rw [((s.dbs j).stored e.key e.value).mpr ⟨e, member, rfl, rfl⟩] at found
        exact absurd found (some_ne_none _)
      obtain ⟨dict, expires⟩ := storeKeys_other s j other Db.empty
      have untimed : (s.dbs j).db.expires.lookup key = none := by
        rw [Finmap.lookup_eq_none]
        intro member
        have present := (s.dbs j).sound key member
        rw [← Finmap.lookup_isSome, found] at present
        exact Bool.false_ne_true present
      refine ⟨dict.trans ((Finmap.lookup_empty _).trans found.symm), expires.trans ((Finmap.lookup_empty _).trans untimed.symm)⟩
  only j key value found := by
    rw [rebuilt_eq] at found
    by_cases other : ∀ e ∈ (s.dbs j).entries, s.Rewritten j e.key → key ≠ e.key
    · rw [(storeKeys_other s j other Db.empty).1] at found
      exact absurd (found.symm.trans (Finmap.lookup_empty _)) (some_ne_none _)
    · obtain ⟨e, failed⟩ := not_forall.mp other
      obtain ⟨member, failed⟩ := Classical.not_imp.mp failed
      obtain ⟨rewritten, same⟩ := Classical.not_imp.mp failed
      rw [not_not] at same
      subst same
      rw [(storeKeys_lookup s j (s.dbs j).distinct member rewritten Db.empty).1] at found
      exact ((s.dbs j).stored e.key value).mpr ⟨e, member, rfl, some.inj found⟩

/-- For every dataset, whatever its types, encodings and sizes are: the file rebuilds it exactly when
the length of every string that is written is an int and that of every sorted set an unsigned int. -/
theorem rewrite_rebuilds : s.Rebuilds ↔ s.Countable := by
  obtain ⟨bytes, written, outcome⟩ := dbs_outcome s (List.range s.config.dbnum) nodup_range
  constructor
  · rintro ⟨file, argvs, -, -, file_, -, loaded, -⟩
    obtain rfl : file = bytes := some.inj (file_.symm.trans written)
    intro j e member
    by_contra fails
    have broken := outcome.breaks fun good => by
      have inside : j ∈ List.range s.config.dbnum := by
        have selectable := s.inside j (ne_nil_of_mem member)
        simp only [Config.hasDb, Bool.and_eq_true, decide_eq_true_eq] at selectable
        exact mem_range.mpr selectable.1
      exact fails (good j inside e member)
    have stopped := broken file.length [] argvs
    rw [append_nil] at stopped
    exact stopped (Nat.le_refl _) loaded
  · intro countable
    obtain ⟨argvs, rfl, fine, loads⟩ := outcome.reads fun j _ e member => countable j e member
    obtain ⟨selected, replayed⟩ := loads (fun _ => Db.empty) (fun _ _ => rfl) 0
    refine ⟨_, argvs, rebuilt s, selected, written, ?_, ?_, rebuilt_same s, replayed⟩
    · rw [AofLoad.written, flatMap_def, flatMap_def,
        map_congr_left fun argv member => rioCommand_eq (fine argv member).few (fine argv member).short]
    · obtain ⟨left, _, loaded⟩ := parses_commands fine (argvs.flatMap rioCommand).length [] (by rw [append_nil])
      rw [append_nil] at loaded
      rw [CheckAof.loadAppendOnlyFile, loaded]
      have none : CheckAof.loadLoop left [] = .ok [] := by cases left <;> rfl
      rw [none]
      simp [Except.map]

private def unitDoubles : Doubles Unit where
  print _ := [48]
  parse text := if isOption text then none else some ()
  zzlGetScore _ := ()
  add _ _ := none
  differ _ _ := false
  exact _ := rfl
  short _ := by decide
  option _ named := if_pos named

private def rewriteCommands (name : Bytes) : Option Command :=
  if name = selectName then some .select else if name = AofFeed.setName then some .set
  else if name = AofFeed.delName then some .del else if name = AofFeed.pexpireatName then some .pexpireat
  else if name = rpushName then some .rpush else if name = saddName then some .sadd
  else if name = zaddName then some .zadd else if name = hmsetName then some .hmset else none

private def noOthers : Others (Collection Unit) where
  incrByFloat _ _ := none
  payload _ := none
  touched _ _ _ _ := []
  effect _ _ _ _ := none
  rewritten _ _ _ _ _ := none
  script _ _ _ _ := none
  effect_sound _ _ _ _ _ _ none := by cases none
  script_sound _ _ _ _ _ _ none := by cases none

private def longText : Bytes := List.replicate (2 ^ 31) 0

private theorem longText_length : longText.length = 2 ^ 31 := length_replicate

private def longKey : StoredKey unitDoubles fun _ => 0 where
  key := [107]
  object := .string (.sds longText)
  value := .string longText
  standsFor := rfl
  sds := ⟨by decide, Nat.lt_of_le_of_lt (Nat.le_of_eq longText_length) (by decide)⟩

private def longDb : StoredDb unitDoubles fun _ => 0 where
  db := ⟨Finmap.singleton [107] (.string longText), ∅⟩
  entries := [longKey]
  distinct := nodup_singleton _
  stored key value := by
    by_cases here : key = [107]
    · subst here
      rw [Finmap.lookup_singleton_eq]
      constructor
      · intro found
        exact ⟨longKey, mem_cons_self, rfl, some.inj found⟩
      · rintro ⟨e, member, -, rfl⟩
        rw [mem_singleton.mp member]
        rfl
    · have absent : (Finmap.singleton [107] (.string longText) : Finmap fun _ : Key => Value (Collection Unit)).lookup key = none := by
        rw [Finmap.lookup_eq_none, Finmap.mem_singleton]
        exact here
      rw [absent]
      constructor
      · intro found
        exact absurd found.symm (some_ne_none _)
      · rintro ⟨e, member, rfl, -⟩
        rw [mem_singleton.mp member] at here
        exact absurd rfl here
  sound _ member := absurd member Finmap.notMem_empty
  times _ _ found := absurd (found.symm.trans (Finmap.lookup_empty _)) (some_ne_none _)

private def noDb : StoredDb unitDoubles fun _ => 0 where
  db := Db.empty
  entries := []
  distinct := nodup_nil
  stored _ _ := by simp [Db.empty]
  sound := Db.sound_empty
  times _ _ found := absurd (found.symm.trans (Finmap.lookup_empty _)) (some_ne_none _)

private theorem rewriteDbnum_pos : 0 < 16 := by decide

private theorem rewriteDbnum_fits : 16 < 2 ^ 31 := by decide

private def longSnapshot : Snapshot Unit where
  doubles := unitDoubles
  hash _ := 0
  config := ⟨rewriteCommands, 16, false, rewriteDbnum_pos, rewriteDbnum_fits⟩
  select := rfl
  set := rfl
  del := rfl
  pexpireat := rfl
  rpush := rfl
  sadd := rfl
  zadd := rfl
  hmset := rfl
  dbs j := if j = 0 then longDb else noDb
  inside j more := by
    by_cases first : j = 0
    · subst first
      rfl
    · rw [if_neg first] at more
      exact absurd rfl more
  others := noOthers
  now := 0

/-- The length of the string is written as -2147483648. -/
theorem long_string_breaks : ¬ ∀ s : Snapshot Unit, s.Rebuilds := by
  intro always
  have countable := (rewrite_rebuilds longSnapshot).mp (always longSnapshot) 0 longKey mem_cons_self (.inl rfl)
  have short : longText.length < 2 ^ 31 := countable.2.1
  rw [longText_length] at short
  exact Nat.lt_irrefl _ short

end

end Cplusplus.Redis.Rewrite
