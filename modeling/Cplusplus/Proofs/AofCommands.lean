import Cplusplus.AofFeed
import Cplusplus.Proofs.CheckAofWritten

/-! The commands that are appended, replayed at a later time, give the dataset. The invariant of
a run is that the file so far gives it; a key that expires keeps it, since its DEL is appended. -/

namespace Cplusplus.Redis.AofFeed

open List Option Function

section
open CheckAof (Argv strtol strtolSign decimal_digits digitsValue_decimal strtolSign_digits strtol_digits isspace)
open ReadOnlySlave (argument getLongFromObject)
open Decimal (decimal decimal_ne_nil)

variable {env : Env} {done : Done O}

theorem getLongFromObject_decimal {n : Nat} (bound : n < 2 ^ 63) : getLongFromObject (decimal n) = some (n : Int) := by
  have sign := @strtolSign_digits _ [] (decimal_digits n) (decimal_ne_nil n)
  have read := @strtol_digits _ [] (decimal_digits n) (decimal_ne_nil n) (by rintro c ⟨⟩)
    (Nat.lt_of_le_of_lt (Nat.le_of_eq (digitsValue_decimal n)) bound)
  have whole : (decimal n).takeWhile isDigit = decimal n := takeWhile_eq_self_iff.mpr (decimal_digits n)
  rw [append_nil] at sign read
  simp only [getLongFromObject, sign, read, whole, digitsValue_decimal, headD_nil]
  rw [if_neg]
  simp only [Bool.false_eq_true, if_false, ne_eq, not_true_eq_false, false_or, not_le]
  exact bound

theorem getLongFromObject_negative {n : Nat} (bound : n ≤ 2 ^ 63) : getLongFromObject (45 :: decimal n) = some (-(n : Int)) := by
  have whole : (decimal n).takeWhile isDigit = decimal n := takeWhile_eq_self_iff.mpr (decimal_digits n)
  have rest : (decimal n).dropWhile isDigit = [] := dropWhile_eq_nil_iff.mpr (decimal_digits n)
  have solid : isspace 45 = false := rfl
  have sign : strtolSign ((45 :: decimal n).dropWhile isspace) = (true, decimal n) := by
    rw [dropWhile_cons, solid]
    rfl
  have read : strtol (45 :: decimal n) = (-(n : Int), []) := by
    simp only [strtol, sign, whole, rest, digitsValue_decimal, if_true]
    rw [if_neg (by simp [decimal_ne_nil])]
    simp only [Prod.mk.injEq, and_true]
    omega
  simp only [getLongFromObject, sign, read, whole, digitsValue_decimal, headD_cons, headD_nil, solid]
  rw [if_neg]
  simp only [Bool.false_eq_true, if_true, ne_eq, not_true_eq_false, false_or, not_lt]
  exact bound

theorem getLongFromObject_ll2string {v : Int} (low : -2 ^ 63 ≤ v) (high : v < 2 ^ 63) : getLongFromObject (ll2string 32 v) = some v := by
  rw [ll2string_roomy (by omega) (by omega), numeral]
  split
  next negative =>
    rw [singleton_append, getLongFromObject_negative (by omega)]
    congr 1
    omega
  next =>
    rw [nil_append, getLongFromObject_decimal (by omega)]
    congr 1
    omega

theorem strtol_of_getLongFromObject {s : List UInt8} {v : Int} (read : getLongFromObject s = some v) : (strtol s).1 = v := by
  simp only [getLongFromObject, ite_none_left_eq_some, some.injEq] at read
  exact read.2

theorem strtol_bounds (s : List UInt8) : -2 ^ 63 ≤ (strtol s).1 ∧ (strtol s).1 < 2 ^ 63 := by
  unfold strtol
  simp only
  repeat' split
  all_goals simp only
  all_goals omega

theorem wrap_bounds (x : Int) : -2 ^ 63 ≤ wrap x ∧ wrap x < 2 ^ 63 := by
  have low := Int.le_bmod (x := x) (m := 2 ^ 64) (by decide)
  have high := Int.bmod_lt (x := x) (m := 2 ^ 64) (by decide)
  unfold wrap
  omega

theorem wrap_eq {x : Int} (low : -2 ^ 63 ≤ x) (high : x < 2 ^ 63) : wrap x = x := by
  unfold wrap
  apply Int.bmod_eq_of_le <;> omega

variable {O : Type} {config : Config} {others : Others O} {clock : Nat → Int} {masterhost : Bool}

theorem replay_append (xs ys : List Argv) (state : Dbs O × Nat) : replay config others clock masterhost (xs ++ ys) state =
      (replay config others clock masterhost xs state).bind
        (replay config others (fun i => clock (xs.length + i)) masterhost ys) := by
  induction xs generalizing clock state with
  | nil => simp [replay]
  | cons argv xs ih =>
    simp only [cons_append, replay, length_cons]
    cases loadCommand config others (clock 0) masterhost state argv with
    | none => rfl
    | some next =>
      simp only [bind_some]
      rw [ih]
      simp only [Nat.add_right_comm]

structure Named (config : Config) : Prop where
  select : config.commands selectName = some .select
  set : config.commands setName = some .set
  del : config.commands delName = some .del
  pexpireat : config.commands pexpireatName = some .pexpireat

def Redoes (config : Config) (others : Others O) (argvs : List Argv) (dbid : Nat) (dbs dbs' : Dbs O) : Prop :=
  ∀ clock masterhost, replay config others clock masterhost argvs (dbs, dbid) = some (dbs', dbid)

theorem redoes_single {argv : Argv} {dbid : Nat} {dbs dbs' : Dbs O}
    (load : ∀ now masterhost, loadCommand config others now masterhost (dbs, dbid) argv = some (dbs', dbid)) :
    Redoes config others [argv] dbid dbs dbs' := by
  intro clock masterhost
  simp only [replay, load, bind_some]

theorem redoes_pair {first second : Argv} {dbid : Nat} {dbs between dbs' : Dbs O}
    (one : ∀ now masterhost, loadCommand config others now masterhost (dbs, dbid) first = some (between, dbid))
    (two : ∀ now masterhost, loadCommand config others now masterhost (between, dbid) second = some (dbs', dbid)) :
    Redoes config others [first, second] dbid dbs dbs' := by
  intro clock masterhost
  simp only [replay, one, two, bind_some]

theorem loadCommand_of_proc {argv : Argv} {cmd : Command} {dbid dbid' : Nat} {dbs dbs' : Dbs O} {now : Int}
    (known : config.commands (argv.headD []) = some cmd) {s : Aof O} {dirty : Bool} {cmd' : Command} {argv' : Argv}
    (done : proc config others ⟨now, true, masterhost⟩ cmd argv dbid ⟨dbs, -1, []⟩ = some ⟨s, dbid', dirty, cmd', argv'⟩)
    (result : s.dbs = dbs') : loadCommand config others now masterhost (dbs, dbid) argv = some (dbs', dbid') := by
  simp only [loadCommand, known, bind_eq_bind, bind_some, done, result]

theorem load_select (named : Named config) {dbid : Nat} (selectable : config.hasDb dbid = true) (before : Nat) (dbs : Dbs O) (now : Int)
    (masterhost : Bool) : loadCommand config others now masterhost (dbs, before) [selectName, decimal dbid] = some (dbs, dbid) := by
  have small := config.fits
  simp only [Config.hasDb, Bool.and_eq_true, decide_eq_true_eq, Bool.or_eq_true, Bool.not_eq_true'] at selectable
  have same : (dbid : Int).bmod (2 ^ 32) = dbid := by apply Int.bmod_eq_of_le <;> omega
  have read : getLongFromObject (argument [selectName, decimal dbid] 1) = some (dbid : Int) := getLongFromObject_decimal (by omega)
  have done : proc config others ⟨now, true, masterhost⟩ .select [selectName, decimal dbid] before ⟨dbs, -1, []⟩ =
      some ⟨⟨dbs, -1, []⟩, dbid, false, .select, [selectName, decimal dbid]⟩ := by
    simp only [proc, selectCommand, read, same]
    rw [if_neg, if_neg, Int.toNat_natCast]
    · omega
    · rintro ⟨cluster, other⟩
      rcases selectable.2 with off | zero
      · simp [cluster] at off
      · exact other (by omega)
  exact loadCommand_of_proc named.select done rfl

/-- The file so far, replayed, gives the dataset, and the database of the fake client is the one
that was selected last. -/
def Synced (config : Config) (others : Others O) (clock : Nat → Int) (masterhost : Bool) (s : Aof O) (dbs : Dbs O) : Prop :=
  ∃ sel, replay config others clock masterhost s.appended (fun _ => Db.empty, 0) = some (dbs, sel) ∧
    (s.selectedDb = -1 ∨ s.selectedDb = sel)

/-- What `feedAppendOnlyFile` appends, with its SELECT, redoes what the translated command does. -/
theorem feed_synced (named : Named config) {cmd : Command} {dbid : Nat} {argv : Argv} {s : Aof O} {dbs dbs' : Dbs O}
    (synced : Synced config others clock masterhost s dbs) (selectable : config.hasDb dbid = true)
    (redoes : Redoes config others (translate env cmd argv) dbid dbs dbs') :
    Synced config others clock masterhost (feedAppendOnlyFile env cmd dbid argv s) dbs' := by
  obtain ⟨sel, file, current⟩ := synced
  refine ⟨dbid, ?_, .inr rfl⟩
  simp only [feedAppendOnlyFile]
  rw [replay_append, file, bind_some]
  split
  next => simp only [cons_append, nil_append, replay, load_select named selectable, bind_some, redoes _ _]
  next same =>
    have last : sel = dbid := by
      rcases current with none | some_
      · omega
      · omega
    simp only [nil_append, last, redoes _ _]

theorem expireIfNeeded_loading (loading : env.loading = true) (dbid : Nat) (key : Key) (s : Aof O) : expireIfNeeded env dbid key s = s := by
  simp [expireIfNeeded, loading]

theorem expireIfNeeded_cases (env : Env) (dbid : Nat) (key : Key) (s : Aof O) : expireIfNeeded env dbid key s = s ∨
      expireIfNeeded env dbid key s = setDb (propagateExpire env dbid key s) dbid ((s.dbs dbid).delete key) := by
  unfold expireIfNeeded
  simp only
  repeat' split
  all_goals simp

@[simp] theorem setDb_dbs (s : Aof O) (dbid : Nat) (db : Db (Value O)) : (setDb s dbid db).dbs = update s.dbs dbid db := rfl

theorem expireIfNeeded_idem (env : Env) (dbid : Nat) (key : Key) (s : Aof O) :
    expireIfNeeded env dbid key (expireIfNeeded env dbid key s) = expireIfNeeded env dbid key s := by
  rcases expireIfNeeded_cases env dbid key s with same | deleted
  · rw [same, same]
  · rw [deleted]
    have gone : ((setDb (propagateExpire env dbid key s) dbid ((s.dbs dbid).delete key)).dbs dbid).getExpire key = -1 := by
      simp [Db.getExpire, Db.delete_eq]
    unfold expireIfNeeded
    rw [gone]
    simp

theorem delKeys_loading (loading : env.loading = true) (dbid : Nat) (keys : List Key) (s : Aof O) (deleted : Bool) :
    (delKeys env dbid keys s deleted).1.dbs = update s.dbs dbid (keys.foldl Db.delete (s.dbs dbid)) := by
  induction keys generalizing s deleted with
  | nil => simp [delKeys]
  | cons key keys ih =>
    rw [delKeys, expireIfNeeded_loading loading, ih]
    simp

theorem load_del {argv : Argv} {dbid : Nat} (known : config.commands (argv.headD []) = some .del) (dbs : Dbs O) (now : Int)
    (masterhost : Bool) : loadCommand config others now masterhost (dbs, dbid) argv =
      some (update dbs dbid (argv.tail.foldl Db.delete (dbs dbid)), dbid) := by
  refine loadCommand_of_proc known (s := (delKeys ⟨now, true, masterhost⟩ dbid argv.tail ⟨dbs, -1, []⟩ false).1) rfl ?_
  exact delKeys_loading (rfl : (⟨now, true, masterhost⟩ : Env).loading = true) dbid argv.tail ⟨dbs, -1, []⟩ false

theorem deleted_synced (named : Named config) {dbid : Nat} {s : Aof O} {dbs : Dbs O} (key : Key)
    (synced : Synced config others clock masterhost s dbs) (selectable : config.hasDb dbid = true) :
    Synced config others clock masterhost (propagateExpire env dbid key s)
      (update dbs dbid ((dbs dbid).delete key)) := by
  apply feed_synced named synced selectable
  apply redoes_single
  intro now masterhost
  exact load_del named.del dbs now masterhost

structure Consistent (config : Config) (others : Others O) (clock : Nat → Int) (masterhost : Bool) (s : Aof O) : Prop where
  sound : ∀ i, (s.dbs i).Sound
  synced : Synced config others clock masterhost s s.dbs

theorem sound_setDb {s : Aof O} (sound : ∀ i, (s.dbs i).Sound) {dbid : Nat} {db : Db (Value O)} (good : db.Sound) :
    ∀ i, ((setDb s dbid db).dbs i).Sound := by
  intro i
  rcases eq_or_ne i dbid with rfl | distinct
  · simpa using good
  · simpa [update_of_ne distinct] using sound i

theorem Consistent.delete (named : Named config) {dbid : Nat} {s : Aof O}
    (kept : Consistent config others clock masterhost s) (selectable : config.hasDb dbid = true) (key : Key) :
    Consistent config others clock masterhost (setDb (propagateExpire env dbid key s) dbid ((s.dbs dbid).delete key)) where
  sound := sound_setDb (s := propagateExpire env dbid key s) kept.sound ((kept.sound dbid).delete key)
  synced := deleted_synced named key kept.synced selectable

theorem Consistent.expireIfNeeded (named : Named config) {dbid : Nat} {s : Aof O}
    (kept : Consistent config others clock masterhost s) (selectable : config.hasDb dbid = true) (env : Env) (key : Key) :
    Consistent config others clock masterhost (expireIfNeeded env dbid key s) := by
  rcases expireIfNeeded_cases env dbid key s with same | deleted
  · rw [same]
    exact kept
  · rw [deleted]
    exact kept.delete named selectable key

theorem Consistent.touch (named : Named config) {s : Aof O} (kept : Consistent config others clock masterhost s) (env : Env)
    (keys : List (Nat × Key)) : Consistent config others clock masterhost (touch config env keys s) := by
  induction keys generalizing s with
  | nil => exact kept
  | cons pair keys ih =>
    obtain ⟨dbid, key⟩ := pair
    rw [AofFeed.touch, foldl_cons]
    apply ih
    simp only
    split
    next selectable => exact kept.expireIfNeeded named selectable env key
    next => exact kept

theorem touch_loading (loading : env.loading = true) (keys : List (Nat × Key)) (s : Aof O) : touch config env keys s = s := by
  unfold touch
  apply foldl_fixed'
  intro pair
  simp only [expireIfNeeded_loading loading, ite_self]

end

/-! Every command that keeps its effect is redone by what is appended for it. -/

section
open CheckAof (Argv strtol)
open ReadOnlySlave (argument getLongFromObject)

variable {O : Type} {config : Config} {others : Others O} {clock : Nat → Int} {masterhost : Bool}

structure Answers (config : Config) (others : Others O) (clock : Nat → Int) (masterhost : Bool) (env : Env) (done : Done O) :
    Prop where
  sound : ∀ i, (done.s.dbs i).Sound
  selectable : config.hasDb done.dbid = true
  synced : ∃ dbs, Synced config others clock masterhost done.s dbs ∧
    if done.dirty = true then Redoes config others (translate env done.cmd done.argv) done.dbid dbs done.s.dbs
    else dbs = done.s.dbs

theorem Answers.propagate (named : Named config) (answers : Answers config others clock masterhost env done) :
    Consistent config others clock masterhost (done.propagate env) := by
  obtain ⟨dbs, synced, outcome⟩ := answers.synced
  unfold Done.propagate
  split
  next dirty =>
    rw [if_pos dirty] at outcome
    exact ⟨answers.sound, feed_synced named synced answers.selectable outcome⟩
  next clean =>
    rw [if_neg clean] at outcome
    subst outcome
    exact ⟨answers.sound, synced⟩

theorem answers_unchanged {s : Aof O} (kept : Consistent config others clock masterhost s) {dbid : Nat}
    (selectable : config.hasDb dbid = true) (cmd : Command) (argv : Argv) :
    Answers config others clock masterhost env ⟨s, dbid, false, cmd, argv⟩ :=
  ⟨kept.sound, selectable, s.dbs, kept.synced, rfl⟩

theorem answers_changed {s : Aof O} (kept : Consistent config others clock masterhost s) {dbid : Nat}
    (selectable : config.hasDb dbid = true) {cmd : Command} {argv : Argv} {dbs : Dbs O} (sound : ∀ i, (dbs i).Sound)
    (redoes : Redoes config others (translate env cmd argv) dbid s.dbs dbs) :
    Answers config others clock masterhost env ⟨{ s with dbs := dbs }, dbid, true, cmd, argv⟩ :=
  ⟨sound, selectable, s.dbs, kept.synced, redoes⟩

/-- The database after a SET. -/
def stored (db : Db (Value O)) (key : Key) (val : Value O) (expire : Option Int) : Db (Value O) where
  dict := db.dict.insert key val
  expires :=
    match expire with
    | none => db.expires.erase key
    | some when => db.expires.insert key when

theorem stored_sound {db : Db (Value O)} (sound : db.Sound) (key : Key) (val : Value O) (expire : Option Int) :
    (stored db key val expire).Sound := by
  have inserted := sound.insert key val
  cases expire with
  | none => exact inserted.erase key
  | some when => exact inserted.expire (Finmap.mem_insert.mpr (.inl rfl)) when

theorem stored_expireAt (db : Db (Value O)) (key : Key) (val : Value O) (when : Int) :
    (stored db key val none).expireAt key when = stored db key val (some when) := by
  simp only [stored, Db.expireAt, Db.insert_erase]

theorem stored_present (db : Db (Value O)) (key : Key) (val : Value O) (expire : Option Int) :
    ((stored db key val expire).lookupKey key).isSome = true := by
  simp [stored, Db.lookupKey]

theorem setAndExpire_eq (env : Env) (key : Key) (val : Value O) (milliseconds : Option Int) (dbid : Nat) (s : Aof O) :
    let after := expireIfNeeded env dbid key s
    setAndExpire env key val milliseconds dbid s =
      some (setDb after dbid (stored (after.dbs dbid) key val (milliseconds.map fun ms => wrap (env.now + ms)))) := by
  intro after
  have keySet : setKey env dbid key val s = some (setDb after dbid (stored (after.dbs dbid) key val none)) := by
    simp only [setKey, Db.set_eq, bind_eq_bind, bind_some]
    rfl
  simp only [setAndExpire, keySet, bind_eq_bind, bind_some]
  cases milliseconds with
  | none => rfl
  | some milliseconds =>
    simp only [setDb_dbs, update_self, Db.setExpire_eq (stored_present _ key val none), bind_some, stored_expireAt]
    simp only [setDb, update_idem, map_some]

theorem setGenericCommand_error {options : SetOptions} (error : timeToLive options.expire options.seconds = none)
    (cmd : Command) (argv : Argv) (key val : List UInt8) (dbid : Nat) (s : Aof O) :
    setGenericCommand env options cmd argv key val dbid s = some ⟨s, dbid, false, cmd, argv⟩ := by
  simp only [setGenericCommand, error]

theorem setGenericCommand_valid {options : SetOptions} {milliseconds : Option Int}
    (valid : timeToLive options.expire options.seconds = some milliseconds) (cmd : Command) (argv : Argv)
    (key val : List UInt8) (dbid : Nat) (s : Aof O) :
    let after := expireIfNeeded env dbid key s
    setGenericCommand env options cmd argv key val dbid s = if options.applies ((after.dbs dbid).lookupKey key) then
        some ⟨setDb after dbid (stored (after.dbs dbid) key (.string val) (milliseconds.map fun ms => wrap (env.now + ms))),
          dbid, true, cmd, argv⟩
      else some ⟨after, dbid, false, cmd, argv⟩ := by
  intro after
  unfold setGenericCommand
  simp only [valid, setAndExpire_eq, bind_eq_bind, bind_some]
  by_cases looks : (options.nx || options.xx) = true
  · simp only [looks, if_true, lookupKeyWrite, expireIfNeeded_idem]
    rfl
  · obtain ⟨nx, xx⟩ : options.nx = false ∧ options.xx = false := by simpa using looks
    simp only [SetOptions.applies, nx, xx, Bool.or_self, Bool.false_eq_true, if_false, Bool.false_and, Bool.not_false, if_true]
    rfl

theorem load_set {argv : Argv} {cmd : Command} {options : SetOptions} {key val : List UInt8} {dbid : Nat} {dbs : Dbs O}
    (known : config.commands (argv.headD []) = some cmd)
    (generic : ∀ env s, proc config others env cmd argv dbid s = setGenericCommand env options cmd argv key val dbid s)
    (untimed : timeToLive options.expire options.seconds = some none)
    (applies : options.applies ((dbs dbid).lookupKey key) = true) (now : Int) (masterhost : Bool) :
    loadCommand config others now masterhost (dbs, dbid) argv = some (update dbs dbid (stored (dbs dbid) key (.string val) none), dbid) := by
  have done := @setGenericCommand_valid _ ⟨now, true, masterhost⟩ _ _ untimed cmd argv key val dbid ⟨dbs, -1, []⟩
  simp only [expireIfNeeded_loading, applies, if_true] at done
  exact loadCommand_of_proc known ((generic _ _).trans done) rfl

theorem load_plain (named : Named config) {key val : List UInt8} {dbid : Nat} {dbs : Dbs O} (now : Int) (masterhost : Bool) :
    loadCommand config others now masterhost (dbs, dbid) [setName, key, val] =
      some (update dbs dbid (stored (dbs dbid) key (.string val) none), dbid) :=
  @load_set _ _ _ [setName, key, val] .set {} key val _ _ named.set (fun _ _ => rfl) rfl rfl now masterhost

theorem expireGenericCommand_valid {argv : Argv} {when : Int} (read : getLongFromObject (argument argv 2) = some when)
    (basetime : Int) (seconds : Bool) (cmd : Command) (dbid : Nat) (s : Aof O) :
    let time := expireTime basetime seconds when
    let after := expireIfNeeded env dbid (argument argv 1) s
    expireGenericCommand env basetime seconds cmd argv dbid s =
      if ((after.dbs dbid).lookupKey (argument argv 1)).isNone then some ⟨after, dbid, false, cmd, argv⟩
      else if time ≤ env.now && !env.loading && !env.masterhost then
        some ⟨setDb after dbid ((after.dbs dbid).delete (argument argv 1)), dbid, true, .del, [delName, argument argv 1]⟩
      else
        some ⟨setDb after dbid ((after.dbs dbid).expireAt (argument argv 1) time), dbid, true, cmd, argv⟩ := by
  intro time after
  simp only [expireGenericCommand, read, lookupKeyWrite]
  by_cases found : ((after.dbs dbid).lookupKey (argument argv 1)).isNone = true
  · simp only [after, found, if_true]
  · have found : ((after.dbs dbid).lookupKey (argument argv 1)).isNone = false := Bool.eq_false_iff.mpr found
    have present : ((after.dbs dbid).lookupKey (argument argv 1)).isSome = true := isNone_eq_false_iff.mp found
    simp only [after, time, found, Db.setExpire_eq present, Bool.false_eq_true, if_false, bind_eq_bind, bind_some]

theorem load_pexpireat {argv : Argv} {dbid : Nat} {dbs : Dbs O} {when : Int}
    (known : config.commands (argv.headD []) = some .pexpireat) (read : getLongFromObject (argument argv 2) = some when)
    (present : ((dbs dbid).lookupKey (argument argv 1)).isSome = true) (now : Int) (masterhost : Bool) :
    loadCommand config others now masterhost (dbs, dbid) argv = some (update dbs dbid ((dbs dbid).expireAt (argument argv 1) when), dbid) := by
  have bounds := strtol_bounds (argument argv 2)
  rw [strtol_of_getLongFromObject read] at bounds
  have done := @expireGenericCommand_valid _ ⟨now, true, masterhost⟩ _ _ read 0 false .pexpireat dbid ⟨dbs, -1, []⟩
  have found : ((dbs dbid).lookupKey (argument argv 1)).isNone = false := by
    rw [isNone_eq_false_iff]
    exact present
  simp only [expireIfNeeded_loading, found, Bool.false_eq_true, if_false, Bool.not_true, Bool.and_false, Bool.false_and,
    expireTime, Int.add_zero, wrap_eq bounds.1 bounds.2] at done
  exact loadCommand_of_proc known done rfl

theorem load_appended (named : Named config) {dbid : Nat} {dbs : Dbs O} {key : Key} {when : Int}
    (bounds : -2 ^ 63 ≤ when ∧ when < 2 ^ 63) (present : ((dbs dbid).lookupKey key).isSome = true) (now : Int) (masterhost : Bool) :
    loadCommand config others now masterhost (dbs, dbid) [pexpireatName, key, ll2string 32 when] =
      some (update dbs dbid ((dbs dbid).expireAt key when), dbid) :=
  @load_pexpireat _ _ _ [pexpireatName, key, ll2string 32 when] _ _ _ named.pexpireat
    (getLongFromObject_ll2string bounds.1 bounds.2) present now masterhost

theorem persist_answers {s : Aof O} {dbid : Nat} {argv : Argv} (kept : Consistent config others clock masterhost s)
    (selectable : config.hasDb dbid = true) (known : config.commands (argv.headD []) = some .persist)
    (run : persistCommand .persist argv dbid s = some done) : Answers config others clock masterhost env done := by
  unfold persistCommand at run
  simp only at run
  split at run
  next =>
    cases run
    exact answers_unchanged kept selectable .persist argv
  next found =>
    have present : ((s.dbs dbid).lookupKey (argument argv 1)).isSome = true := by
      rw [← isNone_eq_false_iff]
      exact Bool.eq_false_iff.mpr found
    have removed : (s.dbs dbid).removeExpire (argument argv 1) =
        some { s.dbs dbid with expires := (s.dbs dbid).expires.erase (argument argv 1) } := by
      rw [Db.removeExpire, if_pos (Db.mem_iff_lookupKey.mpr present)]
    rw [removed, bind_eq_bind, bind_some] at run
    cases run
    cases timed : ((s.dbs dbid).expires.lookup (argument argv 1)).isSome with
    | true =>
      apply answers_changed kept selectable (sound_setDb kept.sound ((kept.sound dbid).erase _))
      apply redoes_single
      intro now masterhost
      have again : proc config others ⟨now, true, masterhost⟩ .persist argv dbid ⟨s.dbs, -1, []⟩ =
          some ⟨setDb ⟨s.dbs, -1, []⟩ dbid { s.dbs dbid with expires := (s.dbs dbid).expires.erase (argument argv 1) }, dbid,
            true, .persist, argv⟩ := by
        simp only [proc, persistCommand, found, removed, timed, Bool.false_eq_true, if_false, bind_eq_bind, bind_some]
      exact loadCommand_of_proc known again rfl
    | false =>
      have absent : argument argv 1 ∉ (s.dbs dbid).expires := by
        rw [← Finmap.lookup_isSome, timed]
        exact Bool.false_ne_true
      rw [Db.erase_absent absent]
      have same : setDb s dbid { s.dbs dbid with expires := (s.dbs dbid).expires } = s := by
        simp [setDb]
      rw [same]
      exact answers_unchanged kept selectable .persist argv

section Answers
variable {s : Aof O} {dbid : Nat} (named : Named config) (kept : Consistent config others clock masterhost s)
  (selectable : config.hasDb dbid = true)
include named kept selectable

theorem untimed_answers {argv : Argv} {cmd : Command} {options : SetOptions}
    {key val : List UInt8} (known : config.commands (argv.headD []) = some cmd)
    (generic : ∀ env s, proc config others env cmd argv dbid s = setGenericCommand env options cmd argv key val dbid s)
    (untimed : timeToLive options.expire options.seconds = some none) (plain : translate env cmd argv = [argv])
    (run : proc config others env cmd argv dbid s = some done) : Answers config others clock masterhost env done := by
  have checked := kept.expireIfNeeded named selectable env key
  rw [generic, setGenericCommand_valid untimed] at run
  split at run
  next applies =>
    cases run
    apply answers_changed checked selectable (sound_setDb checked.sound (stored_sound (checked.sound dbid) key _ _))
    rw [plain]
    apply redoes_single
    exact load_set known generic untimed applies
  next =>
    cases run
    exact answers_unchanged checked selectable cmd argv

theorem expire_answers {argv : Argv} {cmd : Command} {basetime : Int} {seconds : Bool}
    (appended : ∀ when, getLongFromObject (argument argv 2) = some when → ∀ dbs : Dbs O,
      ((dbs dbid).lookupKey (argument argv 1)).isSome = true → Redoes config others (translate env cmd argv) dbid dbs
        (update dbs dbid
          ((dbs dbid).expireAt (argument argv 1) (expireTime basetime seconds when))))
    (run : expireGenericCommand env basetime seconds cmd argv dbid s = some done) :
    Answers config others clock masterhost env done := by
  cases read : getLongFromObject (argument argv 2) with
  | none =>
    simp only [expireGenericCommand, read] at run
    cases run
    exact answers_unchanged kept selectable cmd argv
  | some when =>
    have checked := kept.expireIfNeeded named selectable env (argument argv 1)
    rw [expireGenericCommand_valid read] at run
    split at run
    next =>
      cases run
      exact answers_unchanged checked selectable cmd argv
    next found =>
      split at run
      next past =>
        cases run
        apply answers_changed checked selectable (sound_setDb checked.sound ((checked.sound dbid).delete _))
        apply redoes_single
        exact @load_del _ _ _ [delName, argument argv 1] _ named.del _
      next =>
        cases run
        have present : (((expireIfNeeded env dbid (argument argv 1) s).dbs dbid).lookupKey (argument argv 1)).isSome = true := by
          simpa [isNone_iff_eq_none, ne_none_iff_isSome] using found
        apply answers_changed checked selectable _ (appended when read _ present)
        exact sound_setDb checked.sound ((checked.sound dbid).expire (Db.mem_iff_lookupKey.mpr present) _)

theorem pexpireat_answers {argv : Argv} (known : config.commands (argv.headD []) = some .pexpireat)
    (run : expireGenericCommand env 0 false .pexpireat argv dbid s = some done) : Answers config others clock masterhost env done := by
  apply expire_answers named kept selectable _ run
  intro when read dbs present
  have bounds := strtol_bounds (argument argv 2)
  rw [strtol_of_getLongFromObject read] at bounds
  have time : expireTime 0 false when = when := by
    simp only [expireTime, Bool.false_eq_true, if_false, Int.add_zero, wrap_eq bounds.1 bounds.2]
  rw [time]
  exact redoes_single (load_pexpireat known read present)

theorem relative_answers {argv : Argv} {cmd : Command} {basetime : Int} {seconds : Bool}
    (appended : ∀ when, (strtol (argument argv 2)).1 = when →
      translate env cmd argv = [[pexpireatName, argument argv 1, ll2string 32 (expireTime basetime seconds when)]])
    (run : expireGenericCommand env basetime seconds cmd argv dbid s = some done) :
    Answers config others clock masterhost env done := by
  apply expire_answers named kept selectable _ run
  intro when read dbs present
  rw [appended when (strtol_of_getLongFromObject read)]
  exact redoes_single (load_appended named (wrap_bounds _) present)

theorem setex_answers {argv : Argv} {cmd : Command} {seconds : Bool}
    (appended : ∀ ms, timeToLive (some (argument argv 2)) seconds = some (some ms) →
      translate env cmd argv = [[setName, argument argv 1, argument argv 3],
        [pexpireatName, argument argv 1, ll2string 32 (wrap (env.now + ms))]])
    (run : setGenericCommand env { expire := some (argument argv 2), seconds := seconds } cmd argv (argument argv 1)
      (argument argv 3) dbid s = some done) :
    Answers config others clock masterhost env done := by
  cases valid : timeToLive (some (argument argv 2)) seconds with
  | none =>
    rw [setGenericCommand_error valid] at run
    cases run
    exact answers_unchanged kept selectable cmd argv
  | some milliseconds =>
    obtain ⟨ms, rfl⟩ : ∃ ms, milliseconds = some ms := by
      unfold timeToLive at valid
      simp only at valid
      split at valid
      next => cases valid
      next =>
        rw [ite_none_left_eq_some, some.injEq] at valid
        exact ⟨_, valid.2.symm⟩
    have checked := kept.expireIfNeeded named selectable env (argument argv 1)
    rw [setGenericCommand_valid valid] at run
    simp only [SetOptions.applies, Bool.false_and, Bool.or_self, Bool.not_false, if_true, map_some] at run
    cases run
    apply answers_changed checked selectable (sound_setDb checked.sound (stored_sound (checked.sound dbid) _ _ _))
    rw [appended ms valid]
    apply redoes_pair
    · exact load_plain named
    · intro now masterhost
      rw [load_appended named (wrap_bounds _) (by rw [update_self]; exact stored_present _ _ _ none)]
      simp only [update_self, update_idem, stored_expireAt]
      rfl

end Answers

end

end Cplusplus.Redis.AofFeed
