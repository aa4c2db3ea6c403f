import Cplusplus.Proofs.AofCommands
import Cplusplus.Proofs.HashTypeMap
import Cplusplus.StringCommands

/-! The counters are exact. The guard of the addition says whether the sum is a long long; only
DECRBY has an operation in front of it. -/

namespace Cplusplus.Redis.Strings
open AofFeed (strtol_of_getLongFromObject strtol_bounds)

variable {db : Keyspace} {key : Key} {argument field : Bytes} {value incr : Int}

def IsLongLong (n : Int) : Prop := longLongMin ≤ n ∧ n ≤ longLongMax

theorem signed_eq (fits : IsLongLong value) : signed value = .ok value := if_pos fits

variable {o : Option StringObject}

theorem getLongLongFromObject_bounds (read : getLongLongFromObject o = some value) : IsLongLong value := by
  unfold IsLongLong longLongMin longLongMax
  match o, read with
  | none, read =>
    rw [← Option.some.inj read]
    decide
  | some (.sds text), read =>
    have bounds := strtol_bounds text
    rw [strtol_of_getLongFromObject read] at bounds
    omega
  | some (.int stored), read =>
    rw [← Option.some.inj read]
    have low := BitVec.le_toInt stored
    have high := BitVec.toInt_lt (x := stored)
    omega

theorem wouldOverflow_eq (stored : IsLongLong value) (added : IsLongLong incr) :
    ∃ overflow, wouldOverflow value incr = .ok overflow ∧ (overflow = false ↔ IsLongLong (value + incr)) := by
  unfold IsLongLong longLongMin longLongMax at *
  by_cases below : incr < 0 ∧ value < 0
  · have bound : signed (longLongMin - value) = .ok (longLongMin - value) := by
      apply signed_eq
      unfold IsLongLong longLongMin longLongMax
      omega
    have apart : ¬ (0 < incr ∧ 0 < value) := by omega
    by_cases under : incr < longLongMin - value
    · refine ⟨true, by simp [wouldOverflow, below, bound, under, pure, Except.pure, bind, Except.bind], ?_⟩
      unfold longLongMin at under
      simp only [Bool.true_eq_false, false_iff]
      omega
    · refine ⟨false, by simp [wouldOverflow, below, bound, under, apart, pure, Except.pure, bind, Except.bind], ?_⟩
      unfold longLongMin at under
      simp only [true_iff]
      omega
  · by_cases above : 0 < incr ∧ 0 < value
    · have bound : signed (longLongMax - value) = .ok (longLongMax - value) := by
        apply signed_eq
        unfold IsLongLong longLongMin longLongMax
        omega
      by_cases beyond : longLongMax - value < incr
      · refine ⟨true, by simp [wouldOverflow, below, above, bound, beyond, pure, Except.pure, bind, Except.bind], ?_⟩
        unfold longLongMax at beyond
        simp only [Bool.true_eq_false, false_iff]
        omega
      · refine ⟨false, by simp [wouldOverflow, below, above, bound, beyond, pure, Except.pure, bind, Except.bind], ?_⟩
        unfold longLongMax at beyond
        simp only [true_iff]
        omega
    · refine ⟨false, by simp [wouldOverflow, below, above, pure, Except.pure], ?_⟩
      simp only [true_iff]
      omega

theorem incrDecr_eq (db : Keyspace) (key : Key) (read : getLongLongFromObject o = some value) (added : IsLongLong incr) :
    (IsLongLong (value + incr) ∧ incrDecr db key o incr =
        .ok (Function.update db key (some (.string (createStringObjectFromLongLong (value + incr)))), .integer (value + incr))) ∨
      (¬ IsLongLong (value + incr) ∧ incrDecr db key o incr = .ok (db, .wouldOverflow)) := by
  obtain ⟨overflow, guard, exact⟩ := wouldOverflow_eq (getLongLongFromObject_bounds read) added
  cases overflow with
  | false =>
    have fits := exact.mp rfl
    exact .inl ⟨fits, by simp [incrDecr, read, guard, signed_eq fits, bind, Except.bind, pure, Except.pure]⟩
  | true =>
    have outside : ¬ IsLongLong (value + incr) := fun fits => Bool.noConfusion (exact.mpr fits)
    exact .inr ⟨outside, by simp [incrDecr, read, guard, bind, Except.bind, pure, Except.pure]⟩

theorem incrDecrCommand_answers (db : Keyspace) (key : Key) (added : IsLongLong incr) : ∃ answer, incrDecrCommand db key incr = .ok answer := by
  have answers : ∀ o, ∃ answer, incrDecr db key o incr = .ok answer := by
    intro o
    cases read : getLongLongFromObject o with
    | none => exact ⟨_, by simp only [incrDecr, read]; rfl⟩
    | some value =>
      obtain ⟨-, sum⟩ | ⟨-, error⟩ := incrDecr_eq db key read added
      · exact ⟨_, sum⟩
      · exact ⟨_, error⟩
  unfold incrDecrCommand
  split
  · exact answers none
  · exact answers _
  · exact ⟨_, rfl⟩

inductive Counter where
  | incrby
  | decrby
  | hincrby (server : HashServer) (field : Bytes)

namespace Counter

def run (db : Keyspace) (key : Key) (argument : Bytes) : Counter → Outcome
  | .incrby => incrbyCommand db key argument
  | .decrby => decrbyCommand db key argument
  | .hincrby server field => hincrbyCommand server db key field argument

def result (value incr : Int) : Counter → Int
  | .decrby => value - incr
  | _ => value + incr

def string (db : Keyspace) (key : Key) : Option (Option StringObject) :=
  match db key with
  | none => some none
  | some (.string o) => some (some o)
  | some _ => none

def lookup (server : HashServer) (field : Bytes) (db : Keyspace) (key : Key) : Option (HashObject × Option StringObject) :=
  match db key with
  | none => hashTypeGetObject server.hash createHashObject (.sds field)
  | some (.hash o) => hashTypeGetObject server.hash o (.sds field)
  | some _ => none

def stored (db : Keyspace) (key : Key) : Counter → Option Int
  | .hincrby server field => (lookup server field db key).bind fun found => getLongLongFromObject found.2
  | _ => (string db key).bind getLongLongFromObject

def Stores (db : Keyspace) (key : Key) (value : Int) (after : Keyspace) : Counter → Prop
  | .hincrby server field => ∃ found o update, lookup server field db key = some found ∧
      server.set found.1 field (createStringObjectFromLongLong value) = some (o, update) ∧
      after = Function.update db key (some (.hash o))
  | _ => after = Function.update db key (some (.string (createStringObjectFromLongLong value)))

def Keeps (db : Keyspace) (key : Key) (after : Keyspace) : Counter → Prop
  | .hincrby server field => ∃ found, lookup server field db key = some found ∧
      after = Function.update db key (some (.hash found.1))
  | _ => after = db

/-- No operation overflows, and the answer is the exact result or the error for a result that is no
long long. A fault of the hash table is the only one that is left. -/
structure Exact (db : Keyspace) (key : Key) (argument : Bytes) (c : Counter) : Prop where
  answers : ∀ fault, c.run db key argument = .error fault → fault = .hashType ∧ ∃ server field, c = .hincrby server field
  exact : ∀ value incr after reply, c.stored db key = some value → getLongLongFromObject (some (.sds argument)) = some incr →
    c.run db key argument = .ok (after, reply) →
    (c.Stores db key (c.result value incr) after ∧ reply = .integer (c.result value incr)) ∨
      (¬ IsLongLong (c.result value incr) ∧ c.Keeps db key after ∧ reply = .wouldOverflow)

theorem incrDecrCommand_exact (added : IsLongLong incr) {after : Keyspace} {reply : Reply} (found : string db key = some o)
    (read : getLongLongFromObject o = some value) (ran : incrDecrCommand db key incr = .ok (after, reply)) :
    (after = Function.update db key (some (.string (createStringObjectFromLongLong (value + incr)))) ∧ reply = .integer (value + incr)) ∨
      (¬ IsLongLong (value + incr) ∧ after = db ∧ reply = .wouldOverflow) := by
  have same : incrDecrCommand db key incr = incrDecr db key o incr := by
    unfold string at found
    unfold incrDecrCommand
    split at found
    next missing => simp only [missing, Option.some.inj found]
    next object present => simp only [present, Option.some.inj found]
    next => cases found
  rw [same] at ran
  obtain ⟨-, sum⟩ | ⟨outside, error⟩ := incrDecr_eq db key read added
  · obtain ⟨rfl, rfl⟩ := Prod.mk.inj (Except.ok.inj (sum.symm.trans ran))
    exact .inl ⟨rfl, rfl⟩
  · obtain ⟨rfl, rfl⟩ := Prod.mk.inj (Except.ok.inj (error.symm.trans ran))
    exact .inr ⟨outside, rfl, rfl⟩

theorem incrby_exact : Exact db key argument .incrby where
  answers fault ran := by
    simp only [run, incrbyCommand] at ran
    split at ran
    next => cases ran
    next incr given =>
      obtain ⟨answer, answered⟩ := incrDecrCommand_answers db key (getLongLongFromObject_bounds given)
      rw [answered] at ran
      cases ran
  exact value incr after reply stored given ran := by
    obtain ⟨o, found, read⟩ := Option.bind_eq_some_iff.mp stored
    simp only [run, incrbyCommand, given] at ran
    exact incrDecrCommand_exact (getLongLongFromObject_bounds given) found read ran

/-- The negation of an argument that is not the least long long does not overflow. -/
theorem signed_neg (fits : IsLongLong incr) (other : incr ≠ longLongMin) : signed (-incr) = .ok (-incr) ∧ IsLongLong (-incr) := by
  have negated : IsLongLong (-incr) := by
    unfold IsLongLong longLongMin longLongMax at *
    omega
  exact ⟨signed_eq negated, negated⟩

theorem decrby_exact (other : getLongLongFromObject (some (.sds argument)) ≠ some longLongMin) : Exact db key argument .decrby where
  answers fault ran := by
    simp only [run, decrbyCommand] at ran
    split at ran
    next => cases ran
    next incr given =>
      obtain ⟨negation, negated⟩ := signed_neg (getLongLongFromObject_bounds given) fun least => other (least ▸ given)
      obtain ⟨answer, answered⟩ := incrDecrCommand_answers db key negated
      simp only [negation, bind, Except.bind, answered] at ran
      cases ran
  exact value incr after reply stored given ran := by
    obtain ⟨o, found, read⟩ := Option.bind_eq_some_iff.mp stored
    obtain ⟨negation, negated⟩ := signed_neg (getLongLongFromObject_bounds given) fun least => other (least ▸ given)
    simp only [run, decrbyCommand, given, negation, bind, Except.bind] at ran
    exact incrDecrCommand_exact negated found read ran

theorem decrby_min (least : getLongLongFromObject (some (.sds argument)) = some longLongMin) :
    run db key argument .decrby = .error .signedOverflow := by
  simp only [run, decrbyCommand, least]
  rfl

theorem hincrbyObject_fault {server : HashServer} {o : HashObject} {fault : Fault} (added : IsLongLong incr)
    (failed : hincrbyObject server o field incr = .error fault) : fault = .hashType := by
  unfold hincrbyObject at failed
  cases found : hashTypeGetObject server.hash o (.sds field) with
  | none =>
    rw [found] at failed
    exact (Except.error.inj failed).symm
  | some pair =>
    obtain ⟨object, current⟩ := pair
    simp only [found, hashResult, bind, Except.bind] at failed
    split at failed
    next => cases failed
    next value read =>
      obtain ⟨overflow, guard, exact⟩ := wouldOverflow_eq (getLongLongFromObject_bounds read) added
      cases overflow with
      | true =>
        simp only [guard, reduceIte] at failed
        cases failed
      | false =>
        simp only [guard, Bool.false_eq_true, if_false, signed_eq (exact.mp rfl)] at failed
        cases stored : server.set object field (createStringObjectFromLongLong (value + incr)) with
        | none => simpa only [stored, Except.error.injEq, eq_comm] using failed
        | some _ =>
          simp only [stored] at failed
          cases failed

theorem hincrbyObject_answer {server : HashServer} {o o' : HashObject} {found : HashObject × Option StringObject} {reply : Reply}
    (added : IsLongLong incr) (lookup : hashTypeGetObject server.hash o (.sds field) = some found)
    (read : getLongLongFromObject found.2 = some value) (ran : hincrbyObject server o field incr = .ok (o', reply)) :
    ((∃ update, server.set found.1 field (createStringObjectFromLongLong (value + incr)) = some (o', update)) ∧
        reply = .integer (value + incr)) ∨
      (¬ IsLongLong (value + incr) ∧ o' = found.1 ∧ reply = .wouldOverflow) := by
  obtain ⟨overflow, guard, exact⟩ := wouldOverflow_eq (getLongLongFromObject_bounds read) added
  simp only [hincrbyObject, lookup, hashResult, bind, Except.bind, read, guard] at ran
  cases overflow with
  | true =>
    have outside : ¬ IsLongLong (value + incr) := fun fits => Bool.noConfusion (exact.mpr fits)
    simp only [reduceIte, pure, Except.pure] at ran
    obtain ⟨rfl, rfl⟩ := Prod.mk.inj (Except.ok.inj ran)
    exact .inr ⟨outside, rfl, rfl⟩
  | false =>
    simp only [Bool.false_eq_true, if_false, signed_eq (exact.mp rfl)] at ran
    cases stored : server.set found.1 field (createStringObjectFromLongLong (value + incr)) with
    | none =>
      simp only [stored] at ran
      cases ran
    | some pair =>
      simp only [stored, pure, Except.pure] at ran
      obtain ⟨rfl, rfl⟩ := Prod.mk.inj (Except.ok.inj ran)
      exact .inl ⟨⟨_, rfl⟩, rfl⟩

theorem hincrby_exact (server : HashServer) (field : Bytes) : Exact db key argument (.hincrby server field) where
  answers fault ran := by
    refine ⟨?_, server, field, rfl⟩
    simp only [run, hincrbyCommand] at ran
    split at ran
    next => cases ran
    next incr given =>
      have added := getLongLongFromObject_bounds given
      have object : ∀ o, (hincrbyObject server o field incr).bind (fun r => .ok (Function.update db key (some (.hash r.1)), r.2)) =
          (.error fault : Outcome) → fault = .hashType := by
        intro o failed
        cases result : hincrbyObject server o field incr with
        | error other =>
          obtain rfl := hincrbyObject_fault added result
          simpa only [result, bind, Except.bind, Except.error.injEq, eq_comm] using failed
        | ok pair =>
          simp only [result, Except.bind] at failed
          cases failed
      split at ran
      next => exact object _ ran
      next o _ => exact object o ran
      next => cases ran
  exact value incr after reply stored given ran := by
    obtain ⟨found, looked, read⟩ := Option.bind_eq_some_iff.mp stored
    have added := getLongLongFromObject_bounds given
    have object : ∀ o, hashTypeGetObject server.hash o (.sds field) = some found →
        (hincrbyObject server o field incr).bind (fun r => .ok (Function.update db key (some (.hash r.1)), r.2)) =
          (.ok (after, reply) : Outcome) →
        (Stores db key (value + incr) after (.hincrby server field) ∧ reply = .integer (value + incr)) ∨
          (¬ IsLongLong (value + incr) ∧ Keeps db key after (.hincrby server field) ∧ reply = .wouldOverflow) := by
      intro o got ran
      cases result : hincrbyObject server o field incr with
      | error =>
        simp only [result, Except.bind] at ran
        cases ran
      | ok pair =>
        simp only [result, Except.bind] at ran
        obtain ⟨rfl, rfl⟩ := Prod.mk.inj (Except.ok.inj ran)
        obtain ⟨⟨update, set⟩, replied⟩ | ⟨outside, same, replied⟩ := hincrbyObject_answer added got read result
        · exact .inl ⟨⟨found, pair.1, update, looked, set, rfl⟩, replied⟩
        · exact .inr ⟨outside, ⟨found, looked, by rw [same]⟩, replied⟩
    unfold lookup at looked
    simp only [run, hincrbyCommand, given] at ran
    cases present : db key with
    | none =>
      rw [present] at looked ran
      exact object _ looked ran
    | some held =>
      rw [present] at looked ran
      cases held with
      | hash o => exact object o looked ran
      | string | other => cases looked

/-- A counter is exact but where DECRBY negates the least long long. -/
theorem counter_exact (db : Keyspace) (key : Key) (argument : Bytes) (c : Counter) :
    Exact db key argument c ↔ (c = .decrby → getLongLongFromObject (some (.sds argument)) ≠ some longLongMin) := by
  constructor
  · rintro exact rfl least
    obtain ⟨other, -⟩ := exact.answers _ (decrby_min least)
    cases other
  · intro other
    cases c with
    | incrby => exact incrby_exact
    | decrby => exact decrby_exact (other rfl)
    | hincrby server field => exact hincrby_exact server field

/-- DECRBY with -9223372036854775808. -/
theorem decrby_overflows : ¬ ∀ (db : Keyspace) (key : Key) (argument : Bytes) (c : Counter), Exact db key argument c := by
  intro always
  have exact := always (fun _ => none) [107]
    [45, 57, 50, 50, 51, 51, 55, 50, 48, 51, 54, 56, 53, 52, 55, 55, 53, 56, 48, 56] .decrby
  obtain ⟨other, -⟩ := exact.answers _ (decrby_min (by decide))
  cases other

end Counter

end Cplusplus.Redis.Strings
