import Cplusplus.Proofs.ScoreRanges
import Cplusplus.SlotIndex

/-! The keys of a slot in the skiplist of the slots. They stand side by side, in the range of the slot. -/

namespace Cplusplus.Redis.SlotIndex

open List Option

section
open Zsl SkipLinks SortedCut

variable {V : Type} {zsl : Zskiplist} {entries : List Entry}

theorem slotScore_number (slot : UInt32) : (slotScore slot).isNaN = false := Binary64.ofNat_number (Nat.lt_trans slot.toNat_lt (by decide))

theorem slotScore_inj {a b : UInt32} (same : (slotScore a).key = (slotScore b).key) : a = b :=
  UInt32.toNat_inj.mp (Binary64.ofNat_inj (Nat.lt_trans a.toNat_lt (by decide)) (Nat.lt_trans b.toNat_lt (by decide)) same)

def inSlot (slot : UInt32) (e : Entry) : Bool := keyHashSlot e.obj == slot

def Scored (entries : List Entry) : Prop := ∀ e ∈ entries, e.score = slotScore (keyHashSlot e.obj)

theorem score_eq {e : Entry} (score : e.score = slotScore (keyHashSlot e.obj)) (slot : UInt32) :
    e.score.eq (slotScore slot) = inSlot slot e := by
  rw [Bool.eq_iff_iff, score, Binary64.eq_iff (slotScore_number _) (slotScore_number _), inSlot, beq_iff_eq]
  exact ⟨slotScore_inj, fun same => congrArg (fun slot => (slotScore slot).key) same⟩

theorem slot_bounds (slot : UInt32) : NumberBounds (slotRange slot) := ⟨slotScore_number slot, slotScore_number slot⟩

theorem slot_entries (scored : Scored entries) (slot : UInt32) : scoreEntries (slotRange slot) entries = entries.filter (inSlot slot) := by
  apply filter_congr
  intro e member
  have number : e.score.isNaN = false := scored e member ▸ slotScore_number _
  rw [← score_eq (scored e member) slot, Bool.eq_iff_iff, Binary64.eq_iff number (slotScore_number slot), inScoreRange, Bool.and_eq_true]
  change (slotScore slot).le e.score = true ∧ e.score.le (slotScore slot) = true ↔ _
  rw [Binary64.le_iff (slotScore_number slot) number, Binary64.le_iff number (slotScore_number slot)]
  omega

theorem slot_split (ordered : Ordered entries) (scored : Scored entries) (slot : UInt32) :
    ∃ front back, entries = front ++ (entries.filter (inSlot slot)) ++ back ∧ ∀ e ∈ back, inSlot slot e = false := by
  have range : scoreEntries (slotRange slot) entries = entries.filter (inSlot slot) := slot_entries scored slot
  obtain ⟨front, back, split, above⟩ := ((gteMin_down ordered (slot_bounds slot)).toSuffix ordered.order).range_split
    ((lteMax_down ordered (slotRange slot)).toPrefix ordered.order)
  refine ⟨front, back, ?_, fun e member => ?_⟩
  · rw [← range]
    exact split
  · have inside : e ∈ entries := split ▸ mem_append_right _ member
    rw [← Bool.not_eq_true]
    intro holds
    have both : e ∈ scoreEntries (slotRange slot) entries := range ▸ mem_filter.mpr ⟨inside, holds⟩
    have high := (Bool.and_eq_true_iff.mp (mem_filter.mp both).2).2
    rw [above e member] at high
    cases high

section
variable (scored : Scored entries)
include scored

theorem getKeysFrom_spec (linked : Linked zsl entries) (slot : UInt32) {front here back : List Entry}
    (split : entries = front ++ here ++ back) (inside : ∀ e ∈ here, inSlot slot e = true) (ends : ∀ e ∈ back, inSlot slot e = false)
    (count : Nat) : getKeysFrom zsl slot count ((here ++ back).head?.map Entry.addr) = some ((here.take count).map Entry.obj) := by
  induction here generalizing front count with
  | nil =>
    cases count with
    | zero => rfl
    | succ count =>
      cases back with
      | nil => rfl
      | cons e back =>
        obtain ⟨node, found, -, number⟩ := linked.node (e := e) (by simp [split])
        have other : node.score.eq (slotScore slot) = false := by
          rw [number, score_eq (scored e (by simp [split])) slot]
          exact ends e mem_cons_self
        rw [nil_append, head?_cons, map_some, getKeysFrom]
        simp only [found, other, bind_eq_bind, bind_some, Bool.false_eq_true, if_false]
        rfl
  | cons e here ih =>
    cases count with
    | zero => rfl
    | succ count =>
      obtain ⟨node, found, element, number⟩ := linked.node (e := e) (by simp [split])
      have same : node.score.eq (slotScore slot) = true := by
        rw [number, score_eq (scored e (by simp [split])) slot]
        exact inside e mem_cons_self
      have whole : entries = front ++ e :: (here ++ back) := by rw [split, append_assoc, cons_append]
      have split' : entries = (front ++ [e]) ++ here ++ back := by simp [split]
      obtain ⟨l, read, next⟩ := (whole ▸ linked).next
      have rest := ih split' (fun f member => inside f (mem_cons_of_mem e member)) count
      rw [cons_append, head?_cons, map_some, getKeysFrom]
      simp only [found, same, element, read, next, rest, bind_eq_bind, bind_some, if_true]
      rfl

theorem getKeysInSlot_spec {s : Server V} (rep : Zsl.Represents s.slotsToKeys entries) (slot count : UInt32) :
    getKeysInSlot s slot count = some (((entries.filter (inSlot slot)).take count.toNat).map Entry.obj) := by
  obtain ⟨front, back, split, ends⟩ := slot_split rep.ordered scored slot
  have inside : ∀ e ∈ entries.filter (inSlot slot), inSlot slot e = true := fun e member => (mem_filter.mp member).2
  rw [getKeysInSlot, zslFirstInRange_spec rep.linked rep.ordered (slot_bounds slot), slot_entries scored, bind_some]
  have loop := getKeysFrom_spec scored rep.linked slot split inside ends count.toNat
  cases here : entries.filter (inSlot slot) with
  | nil =>
    cases count.toNat <;> rfl
  | cons e rest =>
    rw [here] at loop
    exact loop

/-- The first one and the last one have the ranks that the number of the keys tells, modulo 2^32. -/
theorem countKeysInSlot_spec {s : Server V} (rep : Zsl.Represents s.slotsToKeys entries) (slot : UInt32) :
    countKeysInSlot s slot = some ((entries.filter (inSlot slot)).length % 2 ^ 32) := by
  obtain ⟨front, back, split, -⟩ := slot_split rep.ordered scored slot
  obtain ⟨linked, ordered⟩ := rep
  have first := zslFirstInRange_spec linked ordered (slot_bounds slot)
  have last := zslLastInRange_spec linked ordered (slot_bounds slot)
  rw [slot_entries scored] at first last
  unfold countKeysInSlot
  rw [first, last]
  generalize entries.filter (inSlot slot) = here at split
  cases here with
  | nil => rfl
  | cons e rest =>
    obtain ⟨init, f, concat⟩ : ∃ init f, e :: rest = init ++ [f] := by
      cases (e :: rest).eq_nil_or_concat with
      | inl empty => cases empty
      | inr more =>
        obtain ⟨init, f, same⟩ := more
        exact ⟨init, f, by rw [same, concat_eq_append]⟩
    have fromFirst : entries = front ++ e :: (rest ++ back) := by rw [split, append_assoc, cons_append]
    have fromLast : entries = (front ++ init) ++ f :: back := by rw [split, concat]; simp
    obtain ⟨node, found, element, number⟩ := linked.node (e := e) (by simp [fromFirst])
    obtain ⟨node', found', element', number'⟩ := linked.node (e := f) (by simp [fromLast])
    obtain ⟨rank, ranked, counted, -⟩ := zslGetRank_counted (fromFirst ▸ linked) (fromFirst ▸ ordered)
    obtain ⟨rank', ranked', counted', -⟩ := zslGetRank_counted (fromLast ▸ linked) (fromLast ▸ ordered)
    have length := congrArg List.length concat
    rw [concat, getLast?_concat, ← concat]
    simp only [head?_cons, map_some, bind_eq_bind, bind_some, found, element, number, ranked, found', element', number', ranked']
    simp only [length_append, length_cons, length_nil] at length counted counted' ⊢
    refine congrArg some ?_
    unfold uint
    omega

end

end

/-! The indexes of the keys follow the dictionaries through every run. -/

section
open Zsl

variable {V : Type} {settings : Settings} {zsl : Zskiplist} {entries : List Entry}
  {dict : Finmap fun _ : Key => V} {key : Key}

structure Mirrors (zsl : Zskiplist) (dict : Finmap fun _ : Key => V) (entries : List Entry) : Prop where
  rep : Zsl.Represents zsl entries
  scored : Scored entries
  keys : ∀ key, key ∈ entries.map Entry.obj ↔ key ∈ dict
  addresses : ∀ a ∈ zsl.header :: entries.map Entry.addr, a < 2 ^ 64

theorem Mirrors.create (header : UInt64) : Mirrors (zslCreate header.toNat) (∅ : Finmap fun _ : Key => V) [] where
  rep := represents_create header.toNat
  scored _ member := absurd member not_mem_nil
  keys key := iff_of_false not_mem_nil Finmap.notMem_empty
  addresses a member := by
    obtain rfl := mem_singleton.mp member
    exact header.toNat_lt

theorem Mirrors.same {other : Finmap fun _ : Key => V} (mirrors : Mirrors zsl dict entries) (keys : ∀ key, key ∈ other ↔ key ∈ dict) :
    Mirrors zsl other entries := ⟨mirrors.rep, mirrors.scored, fun key => (mirrors.keys key).trans (keys key).symm, mirrors.addresses⟩

section
variable (mirrors : Mirrors zsl dict entries)
include mirrors

theorem Mirrors.fits {x : UInt64} (free : zsl.heap x.toNat = none) : entries.length + 1 < 2 ^ 64 := by
  have distinct : (x.toNat :: zsl.header :: entries.map Entry.addr).Nodup := nodup_cons.mpr ⟨mirrors.rep.linked.apart free, mirrors.rep.linked.distinct⟩
  have inside : ∀ a ∈ x.toNat :: zsl.header :: entries.map Entry.addr, a ∈ List.range (2 ^ 64) := by
    intro a member
    rcases mem_cons.mp member with rfl | member
    · exact mem_range.mpr x.toNat_lt
    · exact mem_range.mpr (mirrors.addresses a member)
  have few := (subperm_of_subset distinct inside).length_le
  rw [length_cons, length_cons, length_map, length_range] at few
  omega

theorem Mirrors.add (alloc : Allocation) (val : V) (free : zsl.heap alloc.addr.toNat = none) (absent : key ∉ dict) :
    ∃ zsl' entries', zslInsert zsl alloc.addr.toNat alloc.level (slotScore (keyHashSlot key)) key = some zsl' ∧
      Mirrors zsl' (dict.insert key val) entries' ∧ ∀ a ≠ alloc.addr.toNat, zsl.heap a = none → zsl'.heap a = none := by
  have fresh : key ∉ elements zsl := by
    rw [elements_eq mirrors.rep.linked, mirrors.keys]
    exact absent
  have proper : ZslOp.Proper zsl (.insert alloc.addr.toNat alloc.level (slotScore (keyHashSlot key)) key) :=
    ⟨alloc.bounds, slotScore_number (keyHashSlot key), isNone_iff_eq_none.mpr free, fresh⟩
  obtain ⟨zsl', run, header, rep⟩ := mirrors.rep.insert proper (mirrors.fits free)
  refine ⟨zsl', _, run, ⟨rep, ?_, fun other => ?_, fun a member => ?_⟩, fun a distinct unused => ?_⟩
  · intro e member
    rcases mem_insertSorted.mp member with rfl | member
    · rfl
    · exact mirrors.scored e member
  · rw [Finmap.mem_insert, ← mirrors.keys]
    simp only [List.mem_map, mem_insertSorted]
    constructor
    · rintro ⟨e, rfl | member, rfl⟩
      · exact .inl rfl
      · exact .inr ⟨e, member, rfl⟩
    · rintro (rfl | ⟨e, member, rfl⟩)
      · exact ⟨_, .inl rfl, rfl⟩
      · exact ⟨e, .inr member, rfl⟩
  · rw [header] at member
    rcases mem_cons.mp member with rfl | member
    · exact mirrors.addresses _ mem_cons_self
    · obtain ⟨e, inside, rfl⟩ := List.mem_map.mp member
      rcases mem_insertSorted.mp inside with rfl | inside
      · exact alloc.addr.toNat_lt
      · exact mirrors.addresses _ (mem_cons_of_mem _ (List.mem_map_of_mem inside))
  · refine rep.linked.live a fun member => mirrors.rep.linked.apart unused ?_
    rw [header] at member
    rcases mem_cons.mp member with rfl | member
    · exact mem_cons_self
    · obtain ⟨e, inside, rfl⟩ := List.mem_map.mp member
      rcases mem_insertSorted.mp inside with rfl | inside
      · exact absurd rfl distinct
      · exact mem_cons_of_mem _ (List.mem_map_of_mem inside)

theorem Mirrors.delete (key : Key) : ∃ zsl' found, zslDelete zsl (slotScore (keyHashSlot key)) key = some (zsl', found) ∧
      Mirrors zsl' (dict.erase key) (entries.filter fun e => e.obj ≠ key) ∧ ∀ a, zsl.heap a = none → zsl'.heap a = none := by
  have sub : List.Sublist (entries.filter fun e => e.obj ≠ key) entries := filter_sublist
  obtain ⟨zsl', deleted, header, linked⟩ := zslDelete_spec mirrors.rep.linked mirrors.rep.ordered (slotScore (keyHashSlot key)) key
  have same : (entries.filter fun e => !isElement (slotScore (keyHashSlot key)) key e) = entries.filter fun e => e.obj ≠ key := by
    apply filter_congr
    intro e member
    rw [Bool.eq_iff_iff, Bool.not_eq_true', ← Bool.not_eq_true, isElement_iff (mirrors.rep.ordered.numbers e member), decide_eq_true_iff, not_iff_not]
    refine ⟨fun holds => holds.2.2, fun equal => ⟨slotScore_number _, ?_, equal⟩⟩
    rw [mirrors.scored e member, equal]
  rw [same] at linked
  have addresses : ∀ a ∈ zsl'.header :: (entries.filter fun e => e.obj ≠ key).map Entry.addr, a ∈ zsl.header :: entries.map Entry.addr := by
    rw [header]
    exact (List.Sublist.cons_cons _ (sub.map _)).subset
  refine ⟨zsl', _, deleted, ⟨⟨linked, mirrors.rep.ordered.sublist sub⟩, fun e member => mirrors.scored e (sub.subset member), fun other => ?_,
    fun a member => mirrors.addresses a (addresses a member)⟩, fun a free => ?_⟩
  · rw [Finmap.mem_erase, ← mirrors.keys]
    simp only [List.mem_map, mem_filter, decide_eq_true_eq]
    constructor
    · rintro ⟨e, ⟨member, differs⟩, rfl⟩
      exact ⟨differs, e, member, rfl⟩
    · rintro ⟨differs, e, member, rfl⟩
      exact ⟨e, ⟨member, differs⟩, rfl⟩
  · exact linked.live a fun member => mirrors.rep.linked.apart free (addresses a member)

end

structure Agree (settings : Settings) (s : Server V) : Prop where
  sound : ∀ dbid, (s.dbs dbid).Sound
  only : settings.clusterEnabled = true → ∀ dbid, dbid ≠ 0 → s.dbs dbid = Db.empty
  selected : settings.clusterEnabled = true → ∀ c, s.selected c = 0
  mirrors : settings.clusterEnabled = true → ∃ entries, Mirrors s.slotsToKeys (s.dbs 0).dict entries

variable {s : Server V} {dbid : Nat}

theorem agree_create (settings : Settings) (header : UInt64) : Agree settings (create V header) where
  sound _ := Db.sound_empty
  only _ _ _ := rfl
  selected _ _ := rfl
  mirrors _ := ⟨[], .create header⟩

theorem Agree.first (agree : Agree settings s) (cluster : settings.clusterEnabled = true) (present : key ∈ (s.dbs dbid).dict) : dbid = 0 := by
  by_contra other
  rw [agree.only cluster dbid other] at present
  exact absurd present Finmap.notMem_empty

theorem setDb_dbs (s : Server V) (dbid : Nat) (db : Db V) (other : Nat) :
    (s.setDb dbid db).dbs other = if other = dbid then db else s.dbs other := by
  rw [Server.setDb]
  exact Function.update_apply ..

theorem sound_setDb (sound : ∀ dbid, (s.dbs dbid).Sound) {db : Db V} (sound' : db.Sound) (other : Nat) : ((s.setDb dbid db).dbs other).Sound := by
  rw [setDb_dbs]
  split
  · exact sound'
  · exact sound other

theorem Agree.replace (agree : Agree settings s) {db : Db V} (sound : db.Sound) (same : ∀ key, key ∈ db.dict ↔ key ∈ (s.dbs dbid).dict) :
    Agree settings (s.setDb dbid db) where
  sound := sound_setDb agree.sound sound
  only cluster other distinct := by
    rw [setDb_dbs]
    split
    next equal =>
      subst equal
      have none_ : ∀ key, key ∉ db.dict := by
        intro key member
        exact distinct (agree.first cluster ((same key).mp member))
      have dict : db.dict = ∅ := Finmap.ext_lookup fun key => by
        rw [Finmap.lookup_empty, Finmap.lookup_eq_none.mpr (none_ key)]
      have expires : db.expires = ∅ := Finmap.ext_lookup fun key => by
        rw [Finmap.lookup_empty, Finmap.lookup_eq_none.mpr fun member => none_ key (sound key member)]
      exact Db.ext dict expires
    next => exact agree.only cluster other distinct
  selected := agree.selected
  mirrors cluster := by
    obtain ⟨entries, mirrors⟩ := agree.mirrors cluster
    refine ⟨entries, mirrors.same fun key => ?_⟩
    rw [setDb_dbs]
    split
    next equal =>
      subst equal
      exact same key
    next => rfl

structure Follows (settings : Settings) (s after : Server V) : Prop where
  agree : Agree settings after
  selected : after.selected = s.selected
  free : ∀ a, s.slotsToKeys.heap a = none → after.slotsToKeys.heap a = none

theorem Agree.follows (agree : Agree settings s) : Follows settings s s := ⟨agree, rfl, fun _ free => free⟩

theorem Follows.trans {middle after : Server V} (first : Follows settings s middle) (second : Follows settings middle after) :
    Follows settings s after :=
  ⟨second.agree, second.selected.trans first.selected, fun a free => second.free a (first.free a free)⟩

theorem Mirrors.dbDelete (mirrors : Mirrors s.slotsToKeys (s.dbs 0).dict entries) (cluster : settings.clusterEnabled = true)
    (present : key ∈ (s.dbs 0).dict) :
    ∃ zsl', dbDelete settings s 0 key = some { s.setDb 0 ((s.dbs 0).delete key) with slotsToKeys := zsl' } ∧
      Mirrors zsl' ((s.dbs 0).dict.erase key) (entries.filter fun e => e.obj ≠ key) ∧
      ∀ a, s.slotsToKeys.heap a = none → zsl'.heap a = none := by
  obtain ⟨zsl', found, deleted, mirrors', free⟩ := mirrors.delete key
  refine ⟨zsl', ?_, mirrors', free⟩
  have here : zslDelete (s.setDb 0 ((s.dbs 0).delete key)).slotsToKeys (slotScore (keyHashSlot key)) key = some (zsl', found) := deleted
  rw [SlotIndex.dbDelete]
  simp only [Db.mem_iff_lookupKey.mp present, cluster, Bool.and_self, if_true, slotToKeyDel, here, map_some]

theorem Agree.dbDelete (agree : Agree settings s) (dbid : Nat) (key : Key) :
    ∃ after, dbDelete settings s dbid key = some after ∧ Follows settings s after ∧
      after.dbs = (s.setDb dbid ((s.dbs dbid).delete key)).dbs := by
  by_cases indexed : settings.clusterEnabled = true ∧ key ∈ (s.dbs dbid).dict
  · obtain ⟨cluster, present⟩ := indexed
    obtain rfl := agree.first cluster present
    obtain ⟨entries, mirrors⟩ := agree.mirrors cluster
    obtain ⟨zsl', deleted, mirrors', free⟩ := mirrors.dbDelete cluster present
    refine ⟨_, deleted, ⟨⟨?_, ?_, agree.selected, ?_⟩, rfl, free⟩, rfl⟩
    · exact sound_setDb agree.sound ((agree.sound 0).delete key)
    · intro _ other distinct
      exact (setDb_dbs s 0 _ other).trans ((if_neg distinct).trans (agree.only cluster other distinct))
    · intro _
      refine ⟨_, mirrors'.same fun other => ?_⟩
      change other ∈ ((s.setDb 0 ((s.dbs 0).delete key)).dbs 0).dict ↔ _
      rw [setDb_dbs, if_pos rfl, Db.delete_eq]
  · have plain : SlotIndex.dbDelete settings s dbid key = some (s.setDb dbid ((s.dbs dbid).delete key)) := by
      rw [SlotIndex.dbDelete]
      refine if_neg fun both => indexed ?_
      obtain ⟨present, cluster⟩ := Bool.and_eq_true_iff.mp both
      exact ⟨cluster, Db.mem_iff_lookupKey.mpr present⟩
    refine ⟨_, plain, ⟨?_, rfl, fun _ free => free⟩, rfl⟩
    by_cases cluster : settings.clusterEnabled = true
    · have absent : ((s.dbs dbid).lookupKey key).isSome = false := by
        rw [← Bool.not_eq_true, ← Db.mem_iff_lookupKey]
        exact fun present => indexed ⟨cluster, present⟩
      rw [Db.delete_absent (agree.sound dbid) absent]
      exact agree.replace (agree.sound dbid) fun _ => Iff.rfl
    · exact ⟨sound_setDb agree.sound ((agree.sound dbid).delete key), fun enabled => absurd enabled cluster, fun enabled => absurd enabled cluster,
        fun enabled => absurd enabled cluster⟩

def Free (settings : Settings) (s : Server V) (alloc : Allocation) : Prop :=
  settings.clusterEnabled = true → s.slotsToKeys.heap alloc.addr.toNat = none

theorem Agree.dbAdd (agree : Agree settings s) (alloc : Allocation) (first : settings.clusterEnabled = true → dbid = 0) (val : V)
    (absent : key ∉ (s.dbs dbid).dict) :
    (SlotIndex.dbAdd settings alloc s dbid key val = none ∧ ¬ Free settings s alloc) ∨
      ∃ after, SlotIndex.dbAdd settings alloc s dbid key val = some after ∧ Agree settings after ∧
        after.dbs = (s.setDb dbid { s.dbs dbid with dict := (s.dbs dbid).dict.insert key val }).dbs ∧ after.selected = s.selected ∧
        ∀ a ≠ alloc.addr.toNat, s.slotsToKeys.heap a = none → after.slotsToKeys.heap a = none := by
  have sound : Db.Sound { s.dbs dbid with dict := (s.dbs dbid).dict.insert key val } := (agree.sound dbid).insert key val
  unfold SlotIndex.dbAdd
  rw [Db.add, if_neg absent, bind_eq_bind, bind_some]
  cases cluster : settings.clusterEnabled with
  | false =>
    refine .inr ⟨_, rfl, ⟨sound_setDb agree.sound sound, ?_, ?_, ?_⟩, rfl, rfl, fun _ _ free => free⟩
    all_goals
      intro enabled
      rw [cluster] at enabled
      cases enabled
  | true =>
    obtain rfl := first cluster
    rw [if_pos rfl, slotToKeyAdd]
    cases free : s.slotsToKeys.heap alloc.addr.toNat with
    | some node =>
      refine .inl ⟨?_, fun none_ => ?_⟩
      · rw [if_pos]
        change (s.slotsToKeys.heap alloc.addr.toNat).isSome = true
        rw [free, isSome_some]
      · rw [none_ cluster] at free
        cases free
    | none =>
      obtain ⟨entries, mirrors⟩ := agree.mirrors cluster
      obtain ⟨zsl', entries', added, mirrors', unused⟩ := mirrors.add alloc val free absent
      refine .inr ⟨{ s.setDb 0 { s.dbs 0 with dict := (s.dbs 0).dict.insert key val } with slotsToKeys := zsl' }, ?_, ⟨?_, ?_, agree.selected, ?_⟩,
        rfl, rfl, unused⟩
      · rw [if_neg]
        · exact congrArg (Option.map _) added
        · change ¬ (s.slotsToKeys.heap alloc.addr.toNat).isSome = true
          rw [free]
          exact Bool.false_ne_true
      · exact sound_setDb agree.sound sound
      · intro _ other distinct
        exact (setDb_dbs s 0 _ other).trans ((if_neg distinct).trans (agree.only cluster other distinct))
      · intro _
        refine ⟨entries', mirrors'.same fun other => ?_⟩
        change other ∈ ((s.setDb 0 { s.dbs 0 with dict := (s.dbs 0).dict.insert key val }).dbs 0).dict ↔ _
        rw [setDb_dbs, if_pos rfl]

structure Outcome (settings : Settings) (may : Prop) (r : Option (Server V)) : Prop where
  agree : ∀ after, r = some after → Agree settings after
  runs : may → r.isSome = true

theorem Agree.outcome (agree : Agree settings s) (may : Prop) : Outcome settings may (some s) where
  agree _ same := some.inj same ▸ agree
  runs _ := rfl

theorem outcome_none {may : Prop} (never : ¬ may) : Outcome settings may (none : Option (Server V)) where
  agree _ impossible := by cases impossible
  runs holds := absurd holds never

section
variable (agree : Agree settings s)
include agree

theorem Agree.dbAdd_outcome (alloc : Allocation) (first : settings.clusterEnabled = true → dbid = 0) (key : Key) (val : V) :
    Outcome settings (key ∉ (s.dbs dbid).dict ∧ Free settings s alloc) (SlotIndex.dbAdd settings alloc s dbid key val) := by
  by_cases present : key ∈ (s.dbs dbid).dict
  · have refused : SlotIndex.dbAdd settings alloc s dbid key val = none := by
      rw [SlotIndex.dbAdd, Db.add, if_pos present]
      rfl
    rw [refused]
    exact outcome_none fun may => may.1 present
  · obtain ⟨refused, used⟩ | ⟨after, added, agree', -⟩ := agree.dbAdd alloc first val present
    · rw [refused]
      exact outcome_none fun may => used may.2
    · rw [added]
      exact agree'.outcome _

section
variable (dbid)

theorem Agree.change (key : Key) {change : Option (Db V)} (refuses : key ∉ (s.dbs dbid).dict → change = none)
    (changes : key ∈ (s.dbs dbid).dict → ∃ db, change = some db ∧ db.Sound ∧ ∀ key, key ∈ db.dict ↔ key ∈ (s.dbs dbid).dict) :
    Outcome settings (key ∈ (s.dbs dbid).dict) (change.map (s.setDb dbid)) := by
  by_cases present : key ∈ (s.dbs dbid).dict
  · obtain ⟨db, rfl, sound, same⟩ := changes present
    exact (agree.replace sound same).outcome _
  · rw [refuses present]
    exact outcome_none present

theorem Agree.dbOverwrite (key : Key) (val : V) : Outcome settings (key ∈ (s.dbs dbid).dict) (SlotIndex.dbOverwrite s dbid key val) := by
  refine agree.change dbid key (fun absent => if_neg absent) fun present => ⟨_, if_pos present, (agree.sound dbid).insert key val, fun other => ?_⟩
  rw [Finmap.mem_insert]
  exact ⟨fun either => either.elim (fun same => same ▸ present) id, .inr⟩

theorem Agree.setExpire (key : Key) (when : Int) : Outcome settings (key ∈ (s.dbs dbid).dict) (SlotIndex.setExpire s dbid key when) :=
  agree.change dbid key (fun absent => if_neg absent) fun present =>
    ⟨_, if_pos present, (agree.sound dbid).expire present when, fun _ => Iff.rfl⟩

theorem Agree.removeExpire (key : Key) : Outcome settings (key ∈ (s.dbs dbid).dict) (SlotIndex.removeExpire s dbid key) :=
  agree.change dbid key (fun absent => if_neg absent) fun present => ⟨_, if_pos present, (agree.sound dbid).erase key, fun _ => Iff.rfl⟩

end

theorem Agree.expireIfNeeded (now : Int) (dbid : Nat) (key : Key) :
    ∃ after, expireIfNeeded settings now s dbid key = some after ∧ Follows settings s after := by
  obtain ⟨after, deleted, follows, -⟩ := agree.dbDelete dbid key
  unfold SlotIndex.expireIfNeeded
  simp only
  split
  · exact ⟨s, rfl, agree.follows⟩
  · split
    · exact ⟨s, rfl, agree.follows⟩
    · split
      · exact ⟨s, rfl, agree.follows⟩
      · split
        · exact ⟨s, rfl, agree.follows⟩
        · exact ⟨after, deleted, follows⟩

theorem Agree.activeExpire (now : Int) (dbid : Nat) (key : Key) :
    ∃ after, activeExpireCycleTryExpire settings now s dbid key = some after ∧ Agree settings after := by
  obtain ⟨after, deleted, follows, -⟩ := agree.dbDelete dbid key
  unfold activeExpireCycleTryExpire
  split
  · exact ⟨s, rfl, agree⟩
  · split
    · exact ⟨after, deleted, follows.agree⟩
    · exact ⟨s, rfl, agree⟩

theorem Agree.lookupKeyWrite (now : Int) (dbid : Nat) (key : Key) :
    ∃ after, lookupKeyWrite settings now s dbid key = some (after, (after.dbs dbid).lookupKey key) ∧ Follows settings s after := by
  obtain ⟨after, expired, follows⟩ := agree.expireIfNeeded now dbid key
  exact ⟨after, by rw [SlotIndex.lookupKeyWrite, expired, map_some], follows⟩

theorem Agree.deleteOld (dbid : Nat) (key : Key) :
    ∃ after, deleteOld settings s dbid key ((s.dbs dbid).lookupKey key) = some after ∧ Follows settings s after ∧
      key ∉ (after.dbs dbid).dict := by
  unfold SlotIndex.deleteOld
  split
  next =>
    obtain ⟨after, deleted, follows, dbs⟩ := agree.dbDelete dbid key
    refine ⟨after, deleted, follows, ?_⟩
    rw [dbs, setDb_dbs, if_pos rfl, Db.delete_eq]
    exact Finmap.notMem_erase_self
  next absent => exact ⟨s, rfl, agree.follows, fun present => absent (Db.mem_iff_lookupKey.mp present)⟩

theorem Agree.carryExpire (present : key ∈ (s.dbs dbid).dict) (expire : Int) :
    ∃ after, carryExpire s dbid key expire = some after ∧ Agree settings after := by
  unfold SlotIndex.carryExpire
  split
  · obtain ⟨agree', runs⟩ := agree.setExpire dbid key expire
    obtain ⟨after, set⟩ := isSome_iff_exists.mp (runs present)
    exact ⟨after, set, agree' after set⟩
  · exact ⟨s, rfl, agree⟩

theorem Agree.rename (clock : Keyspace.Clock) (alloc : Allocation) (nx : Bool) (src dst : Key)
    (first : settings.clusterEnabled = true → dbid = 0) :
    Outcome settings (Free settings s alloc) (renameGenericCommand settings clock alloc nx src dst dbid s) := by
  unfold renameGenericCommand
  split
  · exact agree.outcome _
  obtain ⟨s₁, looked, follows₁⟩ := agree.lookupKeyWrite clock.source dbid src
  rw [looked, bind_some]
  cases (s₁.dbs dbid).lookupKey src with
  | none => exact follows₁.agree.outcome _
  | some o =>
    obtain ⟨s₂, looked', follows₂⟩ := follows₁.agree.lookupKeyWrite clock.target dbid dst
    simp only [looked', bind_some]
    split
    · exact follows₂.agree.outcome _
    obtain ⟨s₃, deleted, follows₃, absent⟩ := follows₂.agree.deleteOld dbid dst
    simp only [deleted, bind_eq_bind, bind_some]
    have free : Free settings s alloc → Free settings s₃ alloc := fun free cluster =>
      ((follows₁.trans follows₂).trans follows₃).free _ (free cluster)
    obtain ⟨refused, used⟩ | ⟨s₄, added, agree₄, dbs, -⟩ := follows₃.agree.dbAdd alloc first o absent
    · rw [refused]
      exact outcome_none fun may => used (free may)
    · rw [added, bind_some]
      have present : dst ∈ (s₄.dbs dbid).dict := by
        rw [dbs, setDb_dbs, if_pos rfl]
        exact Finmap.mem_insert.mpr (.inl rfl)
      obtain ⟨s₅, carried, agree₅⟩ := agree₄.carryExpire present ((s₁.dbs dbid).getExpire src)
      obtain ⟨s₆, gone, follows₆, -⟩ := agree₅.dbDelete dbid src
      rw [carried, bind_some, gone]
      exact follows₆.agree.outcome _

theorem Agree.move (clock : Keyspace.Clock) (alloc : Allocation) (key : Key) (text : List UInt8) (srcid : Nat) :
    Outcome settings (Free settings s alloc) (moveCommand settings clock alloc key text srcid s) := by
  unfold moveCommand
  split
  · exact agree.outcome _
  next alone =>
    cases Keyspace.selectDb settings text with
    | none => exact agree.outcome _
    | some dst =>
      simp only
      split
      · exact agree.outcome _
      obtain ⟨s₁, looked, follows₁⟩ := agree.lookupKeyWrite clock.source srcid key
      rw [looked, bind_some]
      cases (s₁.dbs srcid).lookupKey key with
      | none => exact follows₁.agree.outcome _
      | some o =>
        obtain ⟨s₂, looked', follows₂⟩ := follows₁.agree.lookupKeyWrite clock.target dst key
        simp only [looked', bind_some]
        split
        · exact follows₂.agree.outcome _
        next none_ =>
          have absent : key ∉ (s₂.dbs dst).dict := fun present => none_ (Db.mem_iff_lookupKey.mp present)
          obtain ⟨refused, used⟩ | ⟨s₃, added, agree₃, -⟩ := follows₂.agree.dbAdd alloc (fun cluster => absurd cluster alone) o absent
          · exact absurd (fun cluster => absurd cluster alone) used
          · obtain ⟨s₄, gone, follows₄, -⟩ := agree₃.dbDelete srcid key
            simp only [added, bind_eq_bind, bind_some, gone]
            exact follows₄.agree.outcome _

theorem Agree.flush (header : UInt64) (dbs : Nat → Db V) (sound : ∀ dbid, (dbs dbid).Sound)
    (empty : settings.clusterEnabled = true → ∀ dbid, dbs dbid = Db.empty) :
    Agree settings (if settings.clusterEnabled then slotToKeyFlush header { s with dbs } else { s with dbs }) := by
  split
  next cluster =>
    refine ⟨sound, fun _ dbid _ => empty cluster dbid, agree.selected, fun _ => ⟨[], ?_⟩⟩
    change Mirrors (zslCreate header.toNat) (dbs 0).dict []
    rw [empty cluster 0]
    exact .create header
  next alone => exact ⟨sound, fun cluster => absurd cluster alone, fun cluster => absurd cluster alone, fun cluster => absurd cluster alone⟩

theorem Agree.flushdb (header : UInt64) (first : settings.clusterEnabled = true → dbid = 0) :
    Agree settings (flushdbCommand settings header dbid s) := by
  refine agree.flush header (s.setDb dbid Db.empty).dbs (sound_setDb agree.sound Db.sound_empty) fun cluster other => ?_
  obtain rfl := first cluster
  rw [setDb_dbs]
  split
  · rfl
  next distinct => exact agree.only cluster other distinct

theorem Agree.emptyDb (header : UInt64) (databases : 0 < settings.dbnum) : Agree settings (emptyDb settings header s) := by
  refine agree.flush header (fun dbid => if dbid < settings.dbnum then Db.empty else s.dbs dbid) (fun dbid => ?_) fun cluster dbid => ?_
  · split
    · exact Db.sound_empty
    · exact agree.sound dbid
  · split
    · rfl
    next beyond => exact agree.only cluster dbid fun first => beyond (first ▸ databases)

theorem Agree.select (c : Nat) (text : List UInt8) : Agree settings (selectCommand settings s c text) := by
  unfold selectCommand
  split
  · exact agree
  · split
    · exact agree
    next allowed =>
      split
      · exact agree
      · refine ⟨agree.sound, agree.only, fun cluster other => ?_, agree.mirrors⟩
        obtain rfl := Decidable.not_not.mp fun other => allowed ⟨cluster, other⟩
        change Function.update s.selected c _ other = 0
        rw [Function.update_apply]
        split
        · rfl
        · exact agree.selected cluster other

theorem Agree.delKeysFrom (cluster : settings.clusterEnabled = true) (slot : UInt32)
    (mirrors : Mirrors s.slotsToKeys (s.dbs 0).dict entries) {front here back : List Entry} (split : entries = front ++ here ++ back)
    (inside : ∀ e ∈ here, inSlot slot e = true) (ends : ∀ e ∈ back, inSlot slot e = false) {fuel : Nat} (enough : here.length < fuel) :
    ∃ after, delKeysFrom settings slot fuel s ((here ++ back).head?.map Entry.addr) = some (after, here.length) ∧ Agree settings after ∧
      (∀ key ∈ here.map Entry.obj, (after.dbs 0).lookupKey key = none) ∧
      ∀ key, key ∉ here.map Entry.obj → (after.dbs 0).lookupKey key = (s.dbs 0).lookupKey key := by
  induction here generalizing s entries front fuel with
  | nil =>
    refine ⟨s, ?_, agree, fun key member => absurd member not_mem_nil, fun _ _ => rfl⟩
    cases back with
    | nil => cases fuel <;> rfl
    | cons e back =>
      cases fuel with
      | zero => cases enough
      | succ fuel =>
        obtain ⟨node, found, -, number⟩ := mirrors.rep.linked.node (e := e) (by simp [split])
        have other : node.score.eq (slotScore slot) = false := by
          rw [number, score_eq (mirrors.scored e (by simp [split])) slot]
          exact ends e mem_cons_self
        rw [nil_append, head?_cons, map_some, SlotIndex.delKeysFrom]
        simp only [found, other, bind_eq_bind, bind_some, Bool.false_eq_true, if_false]
        rfl
  | cons e here ih =>
    cases fuel with
    | zero => cases enough
    | succ fuel =>
      obtain ⟨node, found, element, number⟩ := mirrors.rep.linked.node (e := e) (by simp [split])
      have same : node.score.eq (slotScore slot) = true := by
        rw [number, score_eq (mirrors.scored e (by simp [split])) slot]
        exact inside e mem_cons_self
      have whole : entries = front ++ e :: (here ++ back) := by rw [split, append_assoc, cons_append]
      obtain ⟨l, read, next⟩ := (whole ▸ mirrors.rep.linked).next
      have present : e.obj ∈ (s.dbs 0).dict := (mirrors.keys e.obj).mp (List.mem_map_of_mem (by simp [split]))
      obtain ⟨zsl', deleted, mirrors', -⟩ := mirrors.dbDelete cluster present
      obtain ⟨middle, deleted', follows, dbs⟩ := agree.dbDelete 0 e.obj
      obtain rfl := some.inj (deleted.symm.trans deleted')
      -- Only the node of the key is gone.
      have left : (entries.filter fun f => f.obj ≠ e.obj) = front ++ here ++ back := by
        have objs := mirrors.rep.ordered.objs
        rw [whole, map_append, map_cons, nodup_middle, nodup_cons, mem_append] at objs
        have differs : ∀ f ∈ front ++ (here ++ back), f.obj ≠ e.obj := by
          intro f member equal
          refine objs.1 ?_
          rw [← equal]
          exact (mem_append.mp member).imp List.mem_map_of_mem List.mem_map_of_mem
        rw [whole, filter_append, filter_cons_of_neg (by simp), ← filter_append, append_assoc]
        exact filter_eq_self.mpr fun f member => decide_eq_true (differs f member)
      have dict : ((s.setDb 0 ((s.dbs 0).delete e.obj)).dbs 0).dict = (s.dbs 0).dict.erase e.obj := by
        rw [setDb_dbs, if_pos rfl, Db.delete_eq]
      rw [left, ← dict] at mirrors'
      obtain ⟨after, rest, agree', gone, others⟩ := ih follows.agree mirrors' rfl
        (fun f member => inside f (mem_cons_of_mem e member)) (Nat.lt_of_succ_lt_succ enough)
      refine ⟨after, ?_, agree', fun key member => ?_, fun key outside => ?_⟩
      · rw [cons_append, head?_cons, map_some, SlotIndex.delKeysFrom]
        simp only [found, same, element, read, next, deleted, rest, bind_eq_bind, bind_some, if_true, length_cons]
        rfl
      · by_cases later : key ∈ here.map Entry.obj
        · exact gone key later
        · obtain rfl : key = e.obj := (mem_cons.mp member).resolve_right later
          rw [others e.obj later, setDb_dbs, if_pos rfl, Db.lookupKey_delete]
      · obtain ⟨distinct, outside⟩ := not_or.mp (mt mem_cons.mpr outside)
        rw [others key outside, setDb_dbs, if_pos rfl, Db.delete_eq]
        exact Finmap.lookup_erase_ne distinct

theorem Agree.delKeysInSlot (cluster : settings.clusterEnabled = true) (slot : UInt32)
    (mirrors : Mirrors s.slotsToKeys (s.dbs 0).dict entries) :
    ∃ after, delKeysInSlot settings s slot = some (after, (entries.filter (inSlot slot)).length % 2 ^ 32) ∧ Agree settings after ∧
      ∀ key, (after.dbs 0).lookupKey key = if keyHashSlot key = slot then none else (s.dbs 0).lookupKey key := by
  obtain ⟨front, back, split, ends⟩ := slot_split mirrors.rep.ordered mirrors.scored slot
  have inside : ∀ e ∈ entries.filter (inSlot slot), inSlot slot e = true := fun e member => (mem_filter.mp member).2
  have enough : (entries.filter (inSlot slot)).length < s.slotsToKeys.length + 1 := by
    rw [mirrors.rep.linked.length]
    exact Nat.lt_succ_of_le (length_filter_le _ _)
  have first : zslFirstInRange s.slotsToKeys (slotRange slot) = some ((entries.filter (inSlot slot)).head?.map Entry.addr) := by
    rw [zslFirstInRange_spec mirrors.rep.linked mirrors.rep.ordered (slot_bounds slot), slot_entries mirrors.scored]
  have loop := agree.delKeysFrom cluster slot mirrors split inside ends enough
  have listed : ∀ key, key ∈ (entries.filter (inSlot slot)).map Entry.obj ↔ keyHashSlot key = slot ∧ key ∈ (s.dbs 0).dict := by
    intro key
    rw [← mirrors.keys]
    simp only [List.mem_map, mem_filter, inSlot, beq_iff_eq]
    constructor
    · rintro ⟨e, ⟨member, same⟩, rfl⟩
      exact ⟨same, e, member, rfl⟩
    · rintro ⟨same, e, member, rfl⟩
      exact ⟨e, ⟨member, same⟩, rfl⟩
  have absent : ∀ key, key ∉ (s.dbs 0).dict → (s.dbs 0).lookupKey key = none := fun key outside => Finmap.lookup_eq_none.mpr outside
  unfold SlotIndex.delKeysInSlot
  rw [first]
  cases here : entries.filter (inSlot slot) with
  | nil =>
    refine ⟨s, rfl, agree, fun key => ?_⟩
    split
    next same =>
      refine absent key fun present => ?_
      have member := (listed key).mpr ⟨same, present⟩
      rw [here] at member
      cases member
    next => rfl
  | cons e rest =>
    rw [here] at loop listed
    obtain ⟨after, ran, agree', gone, others⟩ := loop
    refine ⟨after, ?_, agree', fun key => ?_⟩
    · rw [cons_append, head?_cons] at ran
      simp only [head?_cons, ran, bind_eq_bind, bind_some]
      refine congrArg (fun count => some (after, count)) ?_
      unfold uint
      omega
    · by_cases member : key ∈ (e :: rest).map Entry.obj
      · rw [if_pos ((listed key).mp member).1, gone key member]
      · rw [others key member]
        split
        next same => exact absent key fun present => member ((listed key).mpr ⟨same, present⟩)
        next => rfl

end

end

end Cplusplus.Redis.SlotIndex
