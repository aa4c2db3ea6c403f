import Cplusplus.Proofs.AofCommands

/-! The time that is stored is the one that was asked for exactly when it is a `long long`. -/

namespace Cplusplus.Redis.AofFeed
open CheckAof (Argv)
open ReadOnlySlave (argument getLongFromObject)

variable {O : Type}

theorem wrap_add_wrap (a b : Int) : wrap (a + wrap b) = wrap (a + b) := by
  simp only [wrap, Int.add_bmod_bmod]

theorem wrap_fixed_iff {x : Int} : wrap x = x ↔ -2 ^ 63 ≤ x ∧ x < 2 ^ 63 := by
  constructor
  · intro fixed
    exact fixed ▸ wrap_bounds x
  · rintro ⟨low, high⟩
    exact wrap_eq low high

theorem wrap_scaled (origin : Int) (seconds : Bool) (amount : Int) :
    wrap (origin + if seconds then wrap (amount * 1000) else amount) = wrap (timeFrom origin seconds amount) := by
  cases seconds with
  | true => exact wrap_add_wrap origin (amount * 1000)
  | false => rfl

theorem expireTime_eq (origin : Int) (seconds : Bool) (amount : Int) :
    expireTime origin seconds amount = wrap (timeFrom origin seconds amount) := by
  rw [expireTime, Int.add_comm, wrap_scaled]

structure Leaves (db : Db (Value O)) (key : Key) (deleted : Bool) (time : Int) : Prop where
  gone : deleted = true → db.lookupKey key = none
  kept : deleted = false → (db.lookupKey key).isSome = true ∧ db.expires.lookup key = some time

theorem setGenericCommand_leaves {env : Env} (options : SetOptions) {cmd : Command} {argv : Argv} {key val text : List UInt8} {dbid : Nat}
    {s : Aof O} {done : Done O} {amount : Int} (timed : options.expire = some text) (read : getLongFromObject text = some amount)
    (answered : setGenericCommand env options cmd argv key val dbid s = some done) (changed : done.dirty = true) :
    Leaves (done.s.dbs dbid) key false (wrap (timeFrom env.now options.seconds amount)) := by
  cases valid : timeToLive options.expire options.seconds with
  | none =>
    rw [setGenericCommand_error valid] at answered
    cases answered
    exact absurd changed Bool.false_ne_true
  | some milliseconds =>
    have live : milliseconds = some (if options.seconds then wrap (amount * 1000) else amount) := by
      simp only [timeToLive, timed, read] at valid
      split at valid
      next => exact absurd valid (Option.some_ne_none _).symm
      next => exact (Option.some.inj valid).symm
    rw [setGenericCommand_valid valid] at answered
    split at answered
    next =>
      cases answered
      refine ⟨fun deleted => absurd deleted Bool.false_ne_true, fun _ => ?_⟩
      simp only [setDb_dbs, Function.update_self]
      refine ⟨stored_present _ key _ _, ?_⟩
      simp only [stored, live, Option.map_some, Finmap.lookup_insert, wrap_scaled]
    next =>
      cases answered
      exact absurd changed Bool.false_ne_true

theorem expireGenericCommand_leaves {env : Env} {basetime : Int} {seconds : Bool} {cmd : Command} {argv : Argv} {dbid : Nat}
    {s : Aof O} {done : Done O} {amount : Int} (read : getLongFromObject (argument argv 2) = some amount)
    (answered : expireGenericCommand env basetime seconds cmd argv dbid s = some done) (changed : done.dirty = true) :
    Leaves (done.s.dbs dbid) (argument argv 1)
      (wrap (timeFrom basetime seconds amount) ≤ env.now && !env.loading && !env.masterhost)
      (wrap (timeFrom basetime seconds amount)) := by
  rw [expireGenericCommand_valid read, expireTime_eq] at answered
  split at answered
  next =>
    cases answered
    exact absurd changed Bool.false_ne_true
  next found =>
    split at answered
    next past =>
      cases answered
      refine ⟨fun _ => ?_, fun kept => absurd (past.symm.trans kept) Bool.true_eq_false.mp⟩
      simp only [setDb_dbs, Function.update_self, Db.lookupKey_delete]
    next future =>
      cases answered
      refine ⟨fun deleted => absurd deleted future, fun _ => ?_⟩
      simp only [setDb_dbs, Function.update_self]
      have present : (((expireIfNeeded env dbid (argument argv 1) s).dbs dbid).lookupKey (argument argv 1)).isSome = true := by
        simpa [Option.isNone_iff_eq_none, Option.ne_none_iff_isSome] using found
      exact ⟨present, Finmap.lookup_insert _⟩

namespace AcceptedExpire

theorem set_leaves (a : AcceptedExpire O) (isSet : a.command = .set) :
    Leaves a.database a.key false (wrap (timeFrom a.env.now a.seconds a.amount)) := by
  have timed := a.timed
  have answered := a.answered
  simp only [ExpireRequest.timeArgument, isSet] at timed
  simp only [ExpireRequest.run, isSet, setCommand] at answered
  cases parsed : setOptions (a.argv.drop 3) {} with
  | none =>
    rw [parsed] at timed
    exact absurd timed.symm (Option.some_ne_none _)
  | some options =>
    rw [parsed] at timed answered
    obtain ⟨text, given, pair⟩ := Option.map_eq_some_iff.mp timed
    have texts := congrArg Prod.fst pair
    have units := congrArg Prod.snd pair
    simp only at texts units
    rw [← units]
    exact setGenericCommand_leaves options given (texts ▸ a.read) answered a.changed

theorem leaves (a : AcceptedExpire O) : Leaves a.database a.key (wrap a.exactTime ≤ a.env.now && a.deletes) (wrap a.exactTime) := by
  have timed := a.timed
  have answered := a.answered
  have read := a.read
  unfold exactTime ExpireRequest.origin ExpireRequest.deletes
  cases kind : a.command with
  | set =>
    rw [Bool.and_false]
    exact set_leaves a kind
  | setex =>
    simp only [ExpireRequest.timeArgument, kind, Option.some.injEq, Prod.mk.injEq] at timed
    simp only [ExpireRequest.run, kind, setexCommand] at answered
    rw [← timed.1] at read
    rw [← timed.2, Bool.and_false]
    exact setGenericCommand_leaves { expire := some (argument a.argv 2) } rfl read answered a.changed
  | psetex =>
    simp only [ExpireRequest.timeArgument, kind, Option.some.injEq, Prod.mk.injEq] at timed
    simp only [ExpireRequest.run, kind, psetexCommand] at answered
    rw [← timed.1] at read
    rw [← timed.2, Bool.and_false]
    exact setGenericCommand_leaves { expire := some (argument a.argv 2), seconds := false } rfl read answered a.changed
  | expire | pexpire | expireat | pexpireat =>
    simp only [ExpireRequest.timeArgument, kind, Option.some.injEq, Prod.mk.injEq] at timed
    simp only [ExpireRequest.run, kind] at answered
    rw [← timed.1] at read
    rw [← timed.2, ← Bool.and_assoc]
    exact expireGenericCommand_leaves read answered a.changed

/-- For every accepted command, argument, clock and dataset: the stored time is exact, and a positive
time to live is not over, exactly when the time that was asked for is a `long long` (or is over in any
case), and the clock does not reach it while the command runs. -/
theorem expire_time_exact (a : AcceptedExpire O) : a.Exact ↔ a.Representable := by
  have after := leaves a
  have fits := wrap_fixed_iff (x := a.exactTime)
  unfold Exact Representable
  cases deleted : decide (wrap a.exactTime ≤ a.env.now) && a.deletes with
  | true =>
    obtain ⟨past, deletes⟩ := (Bool.and_eq_true _ _).mp deleted
    have past := of_decide_eq_true past
    have gone := after.gone deleted
    constructor
    · rintro (⟨_, present, _⟩ | ⟨_, elapsed, behind⟩)
      · rw [gone] at present
        exact absurd present Bool.false_ne_true
      · exact ⟨.inr ⟨deletes, elapsed, past⟩, fun ahead => absurd (ahead.symm.trans behind) Bool.true_eq_false.mp⟩
    · rintro ⟨representable, future⟩
      have elapsed : a.exactTime ≤ a.env.now := by
        obtain bounds | ⟨_, elapsed, _⟩ := representable
        · rwa [fits.mpr bounds] at past
        · exact elapsed
      refine .inr ⟨gone, elapsed, ?_⟩
      rw [Bool.eq_false_iff]
      intro ahead
      have := future ahead
      omega
  | false =>
    obtain ⟨present, time⟩ := after.kept deleted
    rw [time]
    constructor
    · rintro (⟨same, _, future⟩ | ⟨gone, _, _⟩)
      · exact ⟨.inl (fits.mp (Option.some.inj same)), future⟩
      · rw [gone] at present
        exact absurd present Bool.false_ne_true
    · rintro ⟨bounds | ⟨deletes, _, past⟩, future⟩
      · exact .inl ⟨congrArg Option.some (fits.mpr bounds), present, future⟩
      · rw [deletes, Bool.and_true] at deleted
        exact absurd past (of_decide_eq_false deleted)

/-- SETEX k 9223372036854776 v, at time 0. -/
def farSetex : AcceptedExpire Unit where
  command := .setex
  start := 0
  env := ⟨0, false, false⟩
  argv := [[83, 69, 84, 69, 88], [107], [57, 50, 50, 51, 51, 55, 50, 48, 51, 54, 56, 53, 52, 55, 55, 54], [118]]
  dbid := 0
  s := ⟨fun _ => Db.empty, -1, []⟩
  text := [57, 50, 50, 51, 51, 55, 50, 48, 51, 54, 56, 53, 52, 55, 55, 54]
  seconds := true
  amount := 9223372036854776
  done := ⟨setDb ⟨fun _ => Db.empty, -1, []⟩ 0 (stored Db.empty [107] (.string [118]) (some (-9223372036854775616))), 0, true, .setex,
    [[83, 69, 84, 69, 88], [107], [57, 50, 50, 51, 51, 55, 50, 48, 51, 54, 56, 53, 52, 55, 55, 54], [118]]⟩
  timed := rfl
  read := by decide
  answered := by
    have live : timeToLive (some [57, 50, 50, 51, 51, 55, 50, 48, 51, 54, 56, 53, 52, 55, 55, 54]) true =
        some (some (-9223372036854775616)) := by decide
    exact (@setGenericCommand_valid _ ⟨0, false, false⟩ ⟨false, false, some _, true⟩ _ live _ _ _ _ _ _).trans rfl
  changed := rfl

/-- The time of a SETEX wraps around to one that is over. -/
theorem setex_in_the_past : ¬ ∀ a : AcceptedExpire Unit, a.Exact := by
  intro always
  have exact := (expire_time_exact farSetex).mp (always farSetex)
  exact absurd exact (by decide)

end AcceptedExpire

end Cplusplus.Redis.AofFeed
