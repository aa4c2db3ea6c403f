import Cplusplus.Db
import Mathlib.Data.Nat.Pairing

/-! When the loop of `dbRandomKey` ends. A master deletes the keys that it rejects, and a slave
keeps them. -/

namespace Cplusplus.Redis.Db
open List Option

variable {V : Type} {role : ServerRole} {clock : RoundClock} {keys : RandomKeys V} {db : Db V} {key : Key} {now : Int}

theorem randomRound_loading (loading : role.loading = true) : db.randomRound role now key = (some key, db) := by
  have kept : db.expireIfNeeded role now key = (false, db) := by
    unfold expireIfNeeded
    simp only [loading]
    split <;> rfl
  unfold randomRound
  split
  · rw [kept]
    rfl
  · rfl

theorem randomRound_slave (loading : role.loading = false) (slave : role.masterhost = true) :
    db.randomRound role now key = (if expired now db key then none else some key, db) := by
  unfold randomRound expireIfNeeded expired getExpire
  cases found : db.expires.lookup key with
  | none =>
    rw [if_neg (Finmap.lookup_eq_none.1 found)]
    rfl
  | some when =>
    rw [if_pos (Finmap.lookup_isSome.1 (by rw [found]; rfl))]
    simp only [getD_some, loading, slave, any_some, Bool.false_eq_true, if_false, if_true]
    by_cases negative : when < 0
    · have past : decide (0 ≤ when) = false := decide_eq_false (Int.not_le.2 negative)
      simp only [if_pos negative, past, Bool.false_and, Bool.false_eq_true, if_false]
    · have past : decide (0 ≤ when) = true := decide_eq_true (Int.not_lt.1 negative)
      simp only [if_neg negative, past, Bool.true_and]
      split <;> rfl

theorem expireIfNeeded_master (master : role.masterhost = false) (gone : (db.expireIfNeeded role now key).1 = true) :
    (db.expireIfNeeded role now key).2 = db.delete key := by
  unfold expireIfNeeded at gone ⊢
  simp only [master, Bool.false_eq_true, if_false] at gone ⊢
  by_cases negative : db.getExpire key < 0
  · rw [if_pos negative] at gone
    exact absurd gone Bool.false_ne_true
  cases loading : role.loading with
  | true =>
    rw [loading, if_neg negative, if_pos rfl] at gone
    exact absurd gone Bool.false_ne_true
  | false =>
    by_cases early : now ≤ db.getExpire key
    · rw [loading, if_neg negative, if_neg Bool.false_ne_true, if_pos early] at gone
      exact absurd gone Bool.false_ne_true
    · rw [if_neg negative, if_neg Bool.false_ne_true, if_neg early]

theorem randomRound_master {after : Db V} (master : role.masterhost = false) (rejected : db.randomRound role now key = (none, after)) :
    after = db.delete key := by
  unfold randomRound at rejected
  split at rejected
  · cases result : db.expireIfNeeded role now key with
    | mk expired left =>
      simp only [result] at rejected
      cases expired with
      | true =>
        have deleted := expireIfNeeded_master master (show (db.expireIfNeeded role now key).1 = true by rw [result])
        rw [result] at deleted
        exact (Prod.mk.inj rejected).2.symm.trans deleted
      | false => exact absurd (Prod.mk.inj rejected).1 (some_ne_none key)
  · exact absurd (Prod.mk.inj rejected).1 (some_ne_none key)

variable {i : Nat}

theorem loop_returns (found : keys.pick i db = some key) (accepted : db.randomRound role (clock.now i) key = (some key, db)) :
    ∃ fuel result, db.dbRandomKey role clock keys fuel i = some result := by
  refine ⟨1, (some key, db), ?_⟩
  simp only [dbRandomKey, found, accepted]

theorem loop_empty (none : keys.pick i db = none) : ∃ fuel result, db.dbRandomKey role clock keys fuel i = some result := by
  refine ⟨1, (Option.none, db), ?_⟩
  simp only [dbRandomKey, none]

theorem terminates_master (master : role.masterhost = false) (i : Nat) (db : Db V) :
    ∃ fuel result, db.dbRandomKey role clock keys fuel i = some result := by
  induction size : db.dict.keys.card using Nat.strongRecOn generalizing i db with
  | _ n ih =>
    cases found : keys.pick i db with
    | none => exact loop_empty found
    | some key =>
      cases round : db.randomRound role (clock.now i) key with
      | mk answer after =>
        cases answer with
        | some other => exact ⟨1, (some other, after), by simp only [dbRandomKey, found, round]⟩
        | none =>
          have deleted := randomRound_master master round
          have inside : key ∈ db.dict.keys := Finmap.mem_keys.2 (keys.member i db key found)
          have smaller : after.dict.keys.card < n := by
            rw [deleted, delete_eq, ← size]
            apply Finset.card_lt_card
            rw [Finmap.keys_erase]
            exact Finset.erase_ssubset inside
          obtain ⟨fuel, result, done⟩ := ih after.dict.keys.card smaller (i + 1) after rfl
          exact ⟨fuel + 1, result, by simp only [dbRandomKey, found, round, done]⟩

def Stays (clock : RoundClock) (keys : RandomKeys V) (db : Db V) (i : Nat) : Prop :=
  ∃ key, keys.pick i db = some key ∧ expired (clock.now i) db key = true

section
variable (loading : role.loading = false) (slave : role.masterhost = true)
include loading slave

theorem loop_stays (stays : Stays clock keys db i) (fuel : Nat) :
    db.dbRandomKey role clock keys (fuel + 1) i = db.dbRandomKey role clock keys fuel (i + 1) := by
  obtain ⟨key, found, past⟩ := stays
  have round := @randomRound_slave _ role db key (clock.now i) loading slave
  rw [past, if_pos rfl] at round
  simp only [dbRandomKey, found, round]

theorem loop_forever (stays : ∀ i, Stays clock keys db i) (fuel i : Nat) : db.dbRandomKey role clock keys fuel i = none := by
  induction fuel generalizing i with
  | zero => rfl
  | succ fuel ih => rw [loop_stays loading slave (stays i), ih]

theorem loop_stops (goes : ¬ Stays clock keys db i) : ∃ fuel result, db.dbRandomKey role clock keys fuel i = some result := by
  cases found : keys.pick i db with
  | none => exact loop_empty found
  | some key =>
    have kept : expired (clock.now i) db key = false := Bool.eq_false_iff.2 fun past => goes ⟨key, found, past⟩
    have round := @randomRound_slave _ role db key (clock.now i) loading slave
    rw [kept, if_neg Bool.false_ne_true] at round
    exact loop_returns found round

theorem loop_ends (goes : ¬ Stays clock keys db i) : ∃ fuel result, db.dbRandomKey role clock keys fuel 0 = some result := by
  have back : ∀ steps start, start + steps = i → ∃ fuel result, db.dbRandomKey role clock keys fuel start = some result := by
    intro steps
    induction steps with
    | zero =>
      rintro start rfl
      exact loop_stops loading slave goes
    | succ steps ih =>
      intro start here
      by_cases stays : Stays clock keys db start
      · obtain ⟨fuel, result, done⟩ := ih (start + 1) (by omega)
        exact ⟨fuel + 1, result, by rw [loop_stays loading slave stays, done]⟩
      · exact loop_stops loading slave stays
  exact back i 0 (Nat.zero_add i)

end

theorem expired_iff {t : Int} : expired t db key = true ↔ ∃ when, db.expires.lookup key = some when ∧ 0 ≤ when ∧ when < t := by
  unfold expired
  cases db.expires.lookup key with
  | none => simp
  | some when => simp

theorem expired_mono {first later : Int} (order : first ≤ later) (past : expired first db key = true) : expired later db key = true := by
  obtain ⟨when, found, positive, behind⟩ := expired_iff.1 past
  exact expired_iff.2 ⟨when, found, positive, by omega⟩

noncomputable def inTurn : RandomKeys V where
  pick i db := db.dict.keys.toList[(Nat.unpair i).1 % db.dict.keys.card]?
  empty := by
    intro i db none key member
    have inside := Finset.card_pos.2 ⟨key, Finmap.mem_keys.2 member⟩
    have bound := getElem?_eq_none_iff.1 none
    rw [Finset.length_toList] at bound
    exact absurd (Nat.mod_lt _ inside) (Nat.not_lt.2 bound)
  member := by
    intro i db key found
    exact Finmap.mem_keys.1 (Finset.mem_toList.1 (mem_of_getElem? found))
  fair := by
    intro db key member n
    obtain ⟨number, inside, found⟩ := getElem_of_mem (Finset.mem_toList.2 (Finmap.mem_keys.2 member))
    rw [Finset.length_toList] at inside
    refine ⟨Nat.pair number n, Nat.right_le_pair number n, ?_⟩
    rw [Nat.unpair_pair, Nat.mod_eq_of_lt inside]
    exact List.getElem?_eq_some_iff.2 ⟨_, found⟩

noncomputable def atFirst (key : Key) (rounds : Nat) : RandomKeys V where
  pick i db := if i < rounds ∧ key ∈ db.dict then some key else inTurn.pick i db
  empty := by
    intro i db none
    split at none
    · exact absurd none (some_ne_none _)
    · exact inTurn.empty i db none
  member := by
    intro i db other found
    split at found
    next first => exact some.inj found ▸ first.2
    · exact inTurn.member i db other found
  fair := by
    intro db other member n
    obtain ⟨i, later, found⟩ := inTurn.fair db other member (n + rounds)
    exact ⟨i, by omega, by rw [if_neg (by omega), found]⟩

/-- Where every key expires in the end, there is a time at which all of them have expired. -/
theorem all_expired (each : ∀ key ∈ db.dict, ∃ i, expired (clock.now i) db key = true) :
    ∃ last, ∀ i, last ≤ i → ∀ key ∈ db.dict, expired (clock.now i) db key = true := by
  have subset : ∀ part : Finset Key, part ⊆ db.dict.keys → ∃ last, ∀ i, last ≤ i → ∀ key ∈ part, expired (clock.now i) db key = true := by
    intro part
    induction part using Finset.induction_on with
    | empty => exact fun _ => ⟨0, fun _ _ _ member => absurd member (Finset.notMem_empty _)⟩
    | insert key part _ ih =>
      intro inside
      obtain ⟨last, rest⟩ := ih ((Finset.subset_insert _ _).trans inside)
      obtain ⟨i, past⟩ := each key (Finmap.mem_keys.1 (inside (Finset.mem_insert_self _ _)))
      refine ⟨max i last, fun later bound other member => ?_⟩
      obtain rfl | member := Finset.mem_insert.1 member
      · exact expired_mono (clock.mono (by omega)) past
      · exact rest later (by omega) other member
  obtain ⟨last, past⟩ := subset db.dict.keys (Finset.Subset.refl _)
  exact ⟨last, fun i later key member => past i later key (Finmap.mem_keys.2 member)⟩

/-- For every role, clock and database: the loop ends for all fair choices exactly on a master, while
loading, when no key has expired at the first round, or when some key never expires. -/
theorem randomKey_terminates (role : ServerRole) (clock : RoundClock) (db : Db V) : Terminates role clock db ↔ Answers role clock db := by
  constructor
  · intro terminates
    by_contra stuck
    obtain ⟨slave, stuck⟩ := not_or.1 stuck
    obtain ⟨loading, stuck⟩ := not_or.1 stuck
    obtain ⟨first, never⟩ := not_or.1 stuck
    rw [Bool.not_eq_false] at slave
    rw [Bool.not_eq_true] at loading
    obtain ⟨key, first⟩ := not_forall.1 first
    obtain ⟨member, start⟩ := Classical.not_imp.1 first
    rw [Bool.not_eq_false] at start
    obtain ⟨last, all⟩ := all_expired fun other inside => by
      obtain ⟨i, past⟩ := not_forall.1 fun always => never ⟨other, inside, always⟩
      exact ⟨i, Bool.not_eq_false _ ▸ past⟩
    -- The expired key comes until all the others have expired too.
    obtain ⟨fuel, result, done⟩ := terminates (atFirst key last)
    have stays : ∀ i, Stays clock (atFirst key last) db i := by
      intro i
      by_cases early : i < last
      · exact ⟨key, if_pos ⟨early, member⟩, expired_mono (clock.mono (Nat.zero_le i)) start⟩
      · cases found : (atFirst key last).pick i db with
        | none => exact absurd member ((atFirst key last).empty i db found key)
        | some other => exact ⟨other, found, all i (by omega) other ((atFirst key last).member i db other found)⟩
    rw [loop_forever loading slave stays] at done
    exact absurd done (some_ne_none _).symm
  · intro answers keys
    by_cases master : role.masterhost = false
    · exact terminates_master master 0 db
    rw [Bool.not_eq_false] at master
    cases loading : role.loading with
    | true =>
      cases found : keys.pick 0 db with
      | none => exact loop_empty found
      | some key => exact loop_returns found (randomRound_loading loading)
    | false =>
      obtain slave | load | first | ⟨key, member, always⟩ := answers
      · exact Bool.noConfusion (master.symm.trans slave)
      · exact Bool.noConfusion (load.symm.trans loading)
      · apply loop_ends (i := 0) loading master
        rintro ⟨key, found, past⟩
        rw [first key (keys.member 0 db key found)] at past
        exact absurd past Bool.false_ne_true
      · obtain ⟨i, _, found⟩ := keys.fair db key member 0
        apply loop_ends (i := i) loading master
        rintro ⟨other, again, past⟩
        rw [← some.inj (found.symm.trans again), always i] at past
        exact absurd past Bool.false_ne_true

/-- A slave whose only key has expired. -/
theorem slave_never_answers : ¬ ∀ (role : ServerRole) (clock : RoundClock) (db : Db Unit), Terminates role clock db := by
  intro always
  obtain ⟨fuel, result, done⟩ := always ⟨false, true⟩ ⟨fun _ => 200, fun _ => Int.le_refl _⟩
    ⟨Finmap.singleton [107] (), Finmap.singleton [107] 100⟩ inTurn
  have stays : ∀ i, Stays ⟨fun _ => 200, fun _ => Int.le_refl _⟩ inTurn
      (⟨Finmap.singleton [107] (), Finmap.singleton [107] 100⟩ : Db Unit) i := by
    intro i
    cases found : inTurn.pick i (⟨Finmap.singleton [107] (), Finmap.singleton [107] 100⟩ : Db Unit) with
    | none => exact absurd ((Finmap.mem_singleton _ _ _).2 rfl) (inTurn.empty i _ found [107])
    | some key =>
      obtain rfl := (Finmap.mem_singleton _ _ _).1 (inTurn.member i _ key found)
      exact ⟨[107], found, rfl⟩
  rw [loop_forever rfl rfl stays] at done
  exact absurd done (some_ne_none _).symm

end Cplusplus.Redis.Db
