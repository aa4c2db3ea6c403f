import Cplusplus.MoveRename

/-! What MOVE and RENAME do to the keys. Each operation changes one key, so that the command is a
few updates of what the keys hold. -/

namespace Cplusplus.Redis.Keyspace

open Option Function

variable {s : Keyspace} {held : Option Nat} {dbid : Nat} {key : Key}

theorem view_setDb (s : Keyspace) (dbid : Nat) (db : Db Nat) (place : Place) : (s.setDb dbid db).view place =
      if place.1 = dbid then (db.dict.lookup place.2, db.expires.lookup place.2) else s.view place := by
  unfold view setDb
  by_cases same : place.1 = dbid
  · rw [if_pos same, same]
    simp only [update_self]
  · rw [if_neg same]
    simp only [update_of_ne same]

theorem view_update {db : Db Nat} {entry : Option Nat × Option Int} (here : (db.dict.lookup key, db.expires.lookup key) = entry)
    (others : ∀ other, other ≠ key → db.dict.lookup other = (s.dbs dbid).dict.lookup other ∧
      db.expires.lookup other = (s.dbs dbid).expires.lookup other) :
    (s.setDb dbid db).view = update s.view (dbid, key) entry := by
  funext place
  obtain ⟨i, other⟩ := place
  rw [view_setDb]
  by_cases same : i = dbid
  · subst same
    by_cases equal : other = key
    · subst equal
      rw [if_pos rfl, update_self, here]
    · obtain ⟨dict, expires⟩ := others other equal
      rw [if_pos rfl, update_of_ne (fun pair => equal (Prod.mk.inj pair).2), dict, expires]
      rfl
  · rw [if_neg same, update_of_ne (fun pair => same (Prod.mk.inj pair).1)]

theorem lookup_none_iff (s : Keyspace) (dbid : Nat) (key : Key) : key ∈ (s.dbs dbid).dict ↔ (s.view (dbid, key)).1 ≠ none := by
  unfold view
  rw [← Finmap.lookup_isSome, isSome_iff_ne_none]

@[simp] theorem ownReference_none (o : Nat) : ownReference none o = 0 := rfl

@[simp] theorem ownReference_self (o : Nat) : ownReference (some o) o = 1 := if_pos rfl

theorem ownReference_other {o other : Nat} (distinct : other ≠ o) : ownReference (some o) other = 0 :=
  if_neg fun same => distinct (some.inj same).symm

variable {after : Keyspace}

theorem Valid.of_view {view : Place → Option Nat × Option Int} (same : after.view = view)
    (sound : ∀ place, (view place).1 = none → (view place).2 = none)
    (counted : ∀ o (places : Finset Place), (∀ place ∈ places, (view place).1 = some o) → places.card + ownReference held o ≤ after.refcount o) :
    Valid held after := by
  subst same
  exact ⟨sound, counted⟩

theorem Valid.incr (valid : Valid none s) (o : Nat) : Valid (some o) (s.incrRefCount o) := by
  refine ⟨valid.sound, fun other places each => ?_⟩
  have bound := valid.counted other places each
  simp only [incrRefCount, update_apply]
  by_cases same : other = o
  · subst same
    simp only [ownReference_none, ownReference_self, if_true] at bound ⊢
    omega
  · simp only [ownReference_none, ownReference_other same, if_neg same] at bound ⊢
    exact bound

variable {o : Nat}

theorem Valid.decr (valid : Valid (some o) s) : ∃ after, s.decrRefCount o = some after ∧ after.view = s.view ∧ Valid none after := by
  have own := valid.counted o ∅ fun _ member => absurd member (Finset.notMem_empty _)
  rw [ownReference_self, Finset.card_empty] at own
  refine ⟨_, if_neg (by omega), rfl, valid.sound, fun other places each => ?_⟩
  have bound := valid.counted other places each
  simp only [update_apply]
  by_cases same : other = o
  · subst same
    simp only [ownReference_none, ownReference_self, if_true] at bound ⊢
    omega
  · simp only [ownReference_none, ownReference_other same, if_neg same] at bound ⊢
    exact bound

theorem erased_sound (valid : Valid held s) (here place : Place) (none : (update s.view here (none, none) place).1 = none) :
    (update s.view here (Option.none, Option.none) place).2 = Option.none := by
  by_cases same : place = here
  · subst same
    rw [update_self]
  · rw [update_of_ne same] at none ⊢
    exact valid.sound place none

theorem erased_places {here : Place} {places : Finset Place} (each : ∀ place ∈ places, (update s.view here (none, none) place).1 = some o) :
    here ∉ places ∧ ∀ place ∈ places, (s.view place).1 = some o := by
  have outside : here ∉ places := by
    intro member
    have none := each here member
    rw [update_self] at none
    exact absurd none (some_ne_none _).symm
  refine ⟨outside, fun place member => ?_⟩
  have holds := each place member
  have distinct : place ≠ here := fun same => outside (same ▸ member)
  rwa [update_of_ne distinct] at holds

theorem Valid.delete (valid : Valid held s) (dbid : Nat) (key : Key) :
    ∃ after, s.dbDelete dbid key = some after ∧ after.view = update s.view (dbid, key) (none, none) ∧ Valid held after := by
  have erased : (s.setDb dbid ((s.dbs dbid).delete key)).view = update s.view (dbid, key) (none, none) := by
    rw [Db.delete_eq]
    apply view_update
    · simp only [Finmap.lookup_erase]
    · intro other distinct
      simp only [Finmap.lookup_erase_ne distinct, and_self]
  unfold dbDelete
  cases found : (s.dbs dbid).lookupKey key with
  | none => exact ⟨_, rfl, erased, .of_view erased (erased_sound valid _) fun o places each => valid.counted o places (erased_places each).2⟩
  | some v =>
    have here : (s.view (dbid, key)).1 = some v := found
    have least := valid.counted v {(dbid, key)} fun place member => Finset.mem_singleton.1 member ▸ here
    rw [Finset.card_singleton] at least
    refine ⟨_, if_neg (by simp only [setDb]; omega), erased, .of_view erased (erased_sound valid _) fun o places each => ?_⟩
    obtain ⟨outside, holds⟩ := erased_places each
    simp only [setDb, update_apply]
    split
    next same =>
      subst same
      have more := valid.counted o (insert (dbid, key) places) fun place member =>
        (Finset.mem_insert.1 member).elim (fun same => same ▸ here) (holds place)
      rw [Finset.card_insert_of_notMem outside] at more
      omega
    next => exact valid.counted o places holds

theorem Valid.add (valid : Valid (some o) s) (absent : (s.view (dbid, key)).1 = none) :
    ∃ after, s.dbAdd dbid key o = some after ∧ after.view = update s.view (dbid, key) (some o, none) ∧ Valid none after := by
  have outside : key ∉ (s.dbs dbid).dict := fun member => (lookup_none_iff s dbid key).1 member absent
  have volatile : (s.dbs dbid).expires.lookup key = none := valid.sound (dbid, key) absent
  have added : (s.setDb dbid ⟨(s.dbs dbid).dict.insert key o, (s.dbs dbid).expires⟩).view = update s.view (dbid, key) (some o, none) := by
    apply view_update
    · simp only [Finmap.lookup_insert, volatile]
    · intro other distinct
      simp only [Finmap.lookup_insert_of_ne _ distinct, and_self]
  refine ⟨_, by unfold dbAdd Db.add; rw [if_neg outside]; rfl, added, .of_view added ?_ ?_⟩
  · intro place none
    by_cases same : place = (dbid, key)
    · subst same
      rw [update_self]
    · rw [update_of_ne same] at none ⊢
      exact valid.sound place none
  · intro other places each
    have others : ∀ place ∈ places.erase (dbid, key), (s.view place).1 = some other := by
      intro place member
      obtain ⟨distinct, inside⟩ := Finset.mem_erase.1 member
      have holds := each place inside
      rwa [update_of_ne distinct] at holds
    have bound := valid.counted other (places.erase (dbid, key)) others
    by_cases inside : (dbid, key) ∈ places
    · have holds := each (dbid, key) inside
      rw [update_self] at holds
      cases holds
      have size := Finset.card_erase_add_one inside
      rw [ownReference_self] at bound
      simp only [ownReference_none, setDb]
      omega
    · rw [Finset.erase_eq_of_notMem inside] at bound
      simp only [ownReference_none, setDb]
      omega

theorem Valid.expire (valid : Valid held s) {v : Nat} {old : Option Int} (here : s.view (dbid, key) = (some v, old)) (when : Int) :
    ∃ after, s.setExpire dbid key when = some after ∧ after.view = update s.view (dbid, key) (some v, some when) ∧ Valid held after := by
  have present : key ∈ (s.dbs dbid).dict := by
    rw [lookup_none_iff, here]
    exact some_ne_none _
  have expires : (s.setDb dbid ⟨(s.dbs dbid).dict, (s.dbs dbid).expires.insert key when⟩).view =
      update s.view (dbid, key) (some v, some when) := by
    apply view_update
    · have value := congrArg Prod.fst here
      simp only [view] at value
      simp only [Finmap.lookup_insert, value]
    · intro other distinct
      simp only [Finmap.lookup_insert_of_ne _ distinct, and_self]
  refine ⟨_, by unfold setExpire Db.setExpire; rw [if_pos present]; rfl, expires, .of_view expires ?_ ?_⟩
  · intro place none
    by_cases same : place = (dbid, key)
    · subst same
      rw [update_self] at none
      exact absurd none (some_ne_none _)
    · rw [update_of_ne same] at none ⊢
      exact valid.sound place none
  · intro o places each
    apply valid.counted
    intro place member
    have holds := each place member
    by_cases same : place = (dbid, key)
    · subst same
      rw [update_self] at holds
      rw [here]
      exact holds
    · rwa [update_of_ne same] at holds

theorem Valid.lookup (valid : Valid held s) (settings : Settings) (now : Int) (dbid : Nat) (key : Key) :
    ∃ after found, s.lookupKeyWrite settings now dbid key = some (after, found) ∧ found = (after.view (dbid, key)).1 ∧ Valid held after ∧
      (after = s ∨ after.view = update s.view (dbid, key) (none, none)) := by
  have step : ∃ after, s.expireIfNeeded settings now dbid key = some after ∧ Valid held after ∧
      (after = s ∨ after.view = update s.view (dbid, key) (none, none)) := by
    unfold expireIfNeeded
    simp only
    split
    · exact ⟨s, rfl, valid, .inl rfl⟩
    split
    · exact ⟨s, rfl, valid, .inl rfl⟩
    split
    · exact ⟨s, rfl, valid, .inl rfl⟩
    split
    · exact ⟨s, rfl, valid, .inl rfl⟩
    · obtain ⟨after, done, erased, kept⟩ := valid.delete dbid key
      exact ⟨after, done, kept, .inr erased⟩
  obtain ⟨after, done, kept, change⟩ := step
  refine ⟨after, _, ?_, rfl, kept, change⟩
  unfold lookupKeyWrite
  rw [done, map_some]
  rfl

structure Moved (before after : Keyspace) (source target : Place) (expire : Option Int) : Prop where
  held : (before.view source).1.isSome = true
  value : after.view target = ((before.view source).1, expire)
  gone : after.view source = (none, none)
  others : ∀ place, place ≠ source → place ≠ target → after.view place = before.view place

theorem Moved.carried_iff {source target : Place} {expire : Option Int} (moved : Moved s after source target expire) :
    Carried s after source target ↔ (s.view source).2 = expire := by
  constructor
  · intro carried
    exact congrArg Prod.snd (carried.same.symm.trans moved.value)
  · intro same
    exact ⟨moved.held, moved.value.trans (Prod.ext rfl same.symm), moved.gone, moved.others⟩

theorem Valid.lookup_found (valid : Valid held s) {settings : Settings} {now : Int}
    (done : s.lookupKeyWrite settings now dbid key = some (after, some o)) : after = s ∧ (s.view (dbid, key)).1 = some o := by
  obtain ⟨other, found, again, value, _, change⟩ := valid.lookup settings now dbid key
  obtain ⟨rfl, rfl⟩ := Prod.mk.inj (some.inj (done.symm.trans again))
  obtain same | erased := change
  · rw [same] at value
    exact ⟨same, value.symm⟩
  · rw [erased, update_self] at value
    exact absurd value (some_ne_none _)

theorem Valid.clear (valid : Valid held s) (settings : Settings) (now : Int) (dbid : Nat) (key : Key) :
    ∃ middle old, s.lookupKeyWrite settings now dbid key = some (middle, old) ∧ Valid held middle ∧
      ∃ after, middle.deleteOld dbid key old = some after ∧ Valid held after ∧ (after.view (dbid, key)).1 = none ∧
        ∀ place, place ≠ (dbid, key) → after.view place = s.view place := by
  obtain ⟨middle, old, done, value, kept, change⟩ := valid.lookup settings now dbid key
  have others : ∀ place, place ≠ (dbid, key) → middle.view place = s.view place := by
    intro place distinct
    obtain rfl | erased := change
    · rfl
    · rw [erased, update_of_ne distinct]
  refine ⟨middle, old, done, kept, ?_⟩
  unfold deleteOld
  cases old with
  | none => exact ⟨middle, rfl, kept, value.symm, others⟩
  | some o =>
    obtain ⟨after, deleted, erased, last⟩ := kept.delete dbid key
    refine ⟨after, deleted, last, ?_, fun place distinct => ?_⟩
    · rw [erased, update_self]
    · rw [erased, update_of_ne distinct, others place distinct]

/-- The expire that RENAME gives to the target. -/
def renamedExpire (expire : Int) : Option Int := if expire ≠ -1 then some expire else none

theorem Valid.carry (valid : Valid none s) (here : s.view (dbid, key) = (some o, none)) (expire : Int) :
    ∃ after, s.carryExpire dbid key expire = some after ∧ Valid none after ∧
      after.view = update s.view (dbid, key) (some o, renamedExpire expire) := by
  unfold carryExpire renamedExpire
  split
  · obtain ⟨after, done, set, kept⟩ := valid.expire here expire
    exact ⟨after, done, kept, set⟩
  · refine ⟨s, rfl, valid, ?_⟩
    rw [← here, update_eq_self]

theorem rename_moved (valid : Valid none s) (settings : Settings) (clock : Clock) (nx : Bool) (src dst : Key) (dbid : Nat) :
    ∃ after succeeded, s.renameGenericCommand settings clock nx src dst dbid = some (after, succeeded) ∧ Valid none after ∧
      (succeeded = true → Moved s after (dbid, src) (dbid, dst) (renamedExpire ((s.view (dbid, src)).2.getD (-1)))) := by
  unfold renameGenericCommand
  split
  · exact ⟨s, false, rfl, valid, fun no => absurd no Bool.false_ne_true⟩
  next distinct =>
    obtain ⟨first, found, looked, _, kept, _⟩ := valid.lookup settings clock.source dbid src
    rw [looked, bind_some]
    cases found with
    | none => exact ⟨first, false, rfl, kept, fun no => absurd no Bool.false_ne_true⟩
    | some o =>
      obtain ⟨rfl, value⟩ := valid.lookup_found looked
      obtain ⟨middle, old, target, holding, cleared, deleted, ready, free, others⟩ := (valid.incr o).clear settings clock.target dbid dst
      simp only [target, bind_some]
      split
      · obtain ⟨after, dropped, _, last⟩ := holding.decr
        exact ⟨after, false, by rw [dropped, map_some], last, fun no => absurd no Bool.false_ne_true⟩
      · have apart : ((dbid, src) : Place) ≠ (dbid, dst) := fun same => distinct (Prod.mk.inj same).2
        obtain ⟨added, adds, put, owned⟩ := ready.add free
        obtain ⟨timed, sets, still, set⟩ := owned.carry (by rw [put, update_self]) ((first.dbs dbid).getExpire src)
        obtain ⟨after, removes, erased, last⟩ := still.delete dbid src
        refine ⟨after, true, ?_, last, fun _ => ⟨?_, ?_, ?_, ?_⟩⟩
        · simp only [deleted, adds, sets, removes, bind_eq_bind, bind_some]
        · rw [value, isSome_some]
        · rw [erased, update_of_ne (Ne.symm apart), set, update_self, value]
          rfl
        · rw [erased, update_self]
        · intro place source other
          rw [erased, update_of_ne source, set, update_of_ne other, put, update_of_ne other, others place other]
          rfl

theorem incr_add (s : Keyspace) (dbid : Nat) (key : Key) (o : Nat) :
    (s.dbAdd dbid key o).map (fun after => after.incrRefCount o) = (s.incrRefCount o).dbAdd dbid key o := by
  unfold dbAdd
  rw [Option.map_map]
  rfl

theorem move_moved (valid : Valid none s) (settings : Settings) (clock : Clock) (key : Key) (text : List UInt8) (srcid : Nat) :
    ∃ after succeeded, s.moveCommand settings clock key text srcid = some (after, succeeded) ∧ Valid none after ∧
      (succeeded = true → Moved s after (srcid, key) ((selectDb settings text).getD 0, key) none) := by
  unfold moveCommand
  split
  · exact ⟨s, false, rfl, valid, fun no => absurd no Bool.false_ne_true⟩
  cases selected : selectDb settings text with
  | none => exact ⟨s, false, rfl, valid, fun no => absurd no Bool.false_ne_true⟩
  | some dst =>
    simp only
    split
    · exact ⟨s, false, rfl, valid, fun no => absurd no Bool.false_ne_true⟩
    next distinct =>
      obtain ⟨first, found, looked, _, kept, _⟩ := valid.lookup settings clock.source srcid key
      rw [looked, bind_some]
      cases found with
      | none => exact ⟨first, false, rfl, kept, fun no => absurd no Bool.false_ne_true⟩
      | some o =>
        obtain ⟨rfl, value⟩ := valid.lookup_found looked
        obtain ⟨middle, old, target, free, holding, change⟩ := valid.lookup settings clock.target dst key
        simp only [target, bind_some]
        cases old with
        | some _ => exact ⟨middle, false, rfl, holding, fun no => absurd no Bool.false_ne_true⟩
        | none =>
          have apart : ((srcid, key) : Place) ≠ (dst, key) := fun same => distinct (Prod.mk.inj same).1
          have others : ∀ place, place ≠ (dst, key) → middle.view place = first.view place := by
            intro place other
            obtain rfl | erased := change
            · rfl
            · rw [erased, update_of_ne other]
          obtain ⟨owned, adds, put, still⟩ := (holding.incr o).add free.symm
          rw [← incr_add] at adds
          obtain ⟨added, plain, rfl⟩ := map_eq_some_iff.1 adds
          obtain ⟨after, removes, erased, last⟩ := still.delete srcid key
          refine ⟨after, true, ?_, last, fun _ => ⟨?_, ?_, ?_, ?_⟩⟩
          · simp only [isSome_none, Bool.false_eq_true, if_false, plain, removes, bind_eq_bind, bind_some]
          · rw [value, isSome_some]
          · rw [getD_some, erased, update_of_ne (Ne.symm apart), put, update_self, value]
          · rw [erased, update_self]
          · intro place source other
            rw [getD_some] at other
            rw [erased, update_of_ne source, put, update_of_ne other]
            exact others place other

/-- The commands never fail, and leave the counts of the values right. When one succeeds, the key is
carried over as it was exactly when MOVE finds no expire, and RENAME none that is stored as -1. -/
theorem transfer_carries (settings : Settings) (clock : Clock) (command : Transfer) (s : { s : Keyspace // Valid none s }) :
    ∃ after succeeded, s.1.transfer settings clock command = some (after, succeeded) ∧ Valid none after ∧
      (succeeded = true → (Carried s.1 after command.source (command.target settings) ↔ command.Keeps s.1)) := by
  obtain ⟨s, valid⟩ := s
  cases command with
  | rename nx dbid src dst =>
    obtain ⟨after, succeeded, done, kept, moved⟩ := rename_moved valid settings clock nx src dst dbid
    refine ⟨after, succeeded, done, kept, fun yes => (moved yes).carried_iff.trans ?_⟩
    change _ ↔ (s.view (dbid, src)).2 ≠ some (-1)
    unfold renamedExpire
    cases (s.view (dbid, src)).2 with
    | none => simp
    | some when => simp
  | move srcid key text =>
    obtain ⟨after, succeeded, done, kept, moved⟩ := move_moved valid settings clock key text srcid
    exact ⟨after, succeeded, done, kept, fun yes => (moved yes).carried_iff⟩

/-- Database 0 holds the key "k" with an expire. -/
def oneKey : Keyspace where
  dbs := update (fun _ => Db.empty) 0 ⟨Finmap.singleton [107] 0, Finmap.singleton [107] 100⟩
  refcount := fun _ => 1

theorem oneKey_view {place : Place} (other : place ≠ (0, [107])) : oneKey.view place = (none, none) := by
  obtain ⟨i, key⟩ := place
  unfold view oneKey
  by_cases zero : i = 0
  · subst zero
    have distinct : key ≠ [107] := fun same => other (by rw [same])
    simp only [update_self]
    rw [Finmap.lookup_eq_none.2 (mt (Finmap.mem_singleton _ _ _).1 distinct), Finmap.lookup_eq_none.2 (mt (Finmap.mem_singleton _ _ _).1 distinct)]
  · simp only [update_of_ne zero]
    rfl

theorem oneKey_valid : Valid none oneKey := by
  refine ⟨fun place none => ?_, fun o places each => ?_⟩
  · by_cases same : place = (0, [107])
    · subst same
      exact absurd none (some_ne_none 0)
    · rw [oneKey_view same]
  · have few : places ⊆ {(0, [107])} := by
      intro place member
      by_contra other
      have empty := each place member
      rw [oneKey_view (mt Finset.mem_singleton.2 other)] at empty
      exact absurd empty (some_ne_none _).symm
    exact Finset.card_le_card few

/-- "MOVE k 1": the key has no expire any more. -/
theorem move_drops_expire : ¬ ∀ (settings : Settings) (clock : Clock) (command : Transfer) (s : { s : Keyspace // Valid none s }) (after : Keyspace),
    s.1.transfer settings clock command = some (after, true) → Carried s.1 after command.source (command.target settings) := by
  intro always
  obtain ⟨after, succeeded, done, _, moved⟩ := move_moved oneKey_valid ⟨16, false, false, false⟩ ⟨0, 0⟩ [107] [49] 0
  have yes : (oneKey.moveCommand ⟨16, false, false, false⟩ ⟨0, 0⟩ [107] [49] 0).map Prod.snd = some true := by rfl
  rw [done, map_some] at yes
  cases yes
  have carried := always ⟨16, false, false, false⟩ ⟨0, 0⟩ (.move 0 [107] [49]) ⟨oneKey, oneKey_valid⟩ after done
  have expire := (moved rfl).carried_iff.1 carried
  exact absurd expire (some_ne_none 100)

end Cplusplus.Redis.Keyspace
