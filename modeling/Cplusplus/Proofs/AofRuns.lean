import Cplusplus.Proofs.AofCommands

/-! In a run whose commands keep their effect, the file always gives the dataset. -/

namespace Cplusplus.Redis.AofFeed

open Option (any_some bind_eq_bind bind_eq_some_iff bind_some isSome_none isSome_some)
open Function (update_idem update_self)
open CheckAof (Argv strtol)
open ReadOnlySlave (argument getLongFromObject)

variable {O : Type} {config : Config} {others : Others O} {clock : Nat → Int} {masterhost : Bool}
variable {argv : Argv} {done : Done O} {cmd : Command}

/-- While the keys of a DEL are deleted, the file gives the dataset in which those so far are
still there, but for the expired ones. -/
theorem delKeys_synced (named : Named config) {env : Env} {dbid : Nat} (selectable : config.hasDb dbid = true) (keys gone : List Key)
    {s : Aof O} {dbs : Dbs O} {deleted : Bool} (sound : ∀ i, (s.dbs i).Sound) (synced : Synced config others clock masterhost s dbs)
    (removed : s.dbs = Function.update dbs dbid (gone.foldl Db.delete (dbs dbid))) (clean : deleted = false → dbs = s.dbs) :
    (∀ i, ((delKeys env dbid keys s deleted).1.dbs i).Sound) ∧ ∃ dbs',
      Synced config others clock masterhost (delKeys env dbid keys s deleted).1 dbs' ∧
      (delKeys env dbid keys s deleted).1.dbs = Function.update dbs' dbid ((gone ++ keys).foldl Db.delete (dbs' dbid)) ∧
      ((delKeys env dbid keys s deleted).2 = false → dbs' = (delKeys env dbid keys s deleted).1.dbs) := by
  induction keys generalizing gone s dbs deleted with
  | nil =>
    rw [List.append_nil]
    exact ⟨sound, dbs, synced, removed, clean⟩
  | cons key keys ih =>
    rw [delKeys, List.append_cons]
    rcases expireIfNeeded_cases env dbid key s with same | expired
    · rw [same]
      apply ih (gone ++ [key]) (sound_setDb sound ((sound dbid).delete key)) synced
      · simp only [setDb_dbs, removed, update_self, update_idem, List.foldl_append, List.foldl_cons,
          List.foldl_nil]
      · intro kept
        obtain ⟨before, absent⟩ : deleted = false ∧ ((s.dbs dbid).lookupKey key).isSome = false := by simpa using kept
        rw [clean before, setDb_dbs, Db.delete_absent (sound dbid) absent, Function.update_eq_self]
    · rw [expired]
      have cleared : (setDb (propagateExpire env dbid key s) dbid ((s.dbs dbid).delete key)).dbs =
          Function.update s.dbs dbid ((s.dbs dbid).delete key) := rfl
      have soundNow : ((s.dbs dbid).delete key).Sound := (sound dbid).delete key
      have synced : Synced config others clock masterhost (propagateExpire env dbid key s)
          (Function.update dbs dbid ((dbs dbid).delete key)) := deleted_synced named key synced selectable
      refine ih (gone ++ [key]) ?_ synced ?_ ?_
      · apply sound_setDb (sound_setDb (s := propagateExpire env dbid key s) sound soundNow)
        rw [cleared, update_self]
        exact soundNow.delete key
      · rw [setDb_dbs, cleared, update_self, update_idem, Db.delete_delete, removed]
        simp only [update_self, update_idem, List.foldl_append, List.foldl_cons, List.foldl_nil, Db.foldl_delete, Db.delete_delete]
      · intro kept
        obtain ⟨before, -⟩ : deleted = false ∧ _ := by simpa using kept
        rw [setDb_dbs, cleared, update_self, update_idem, Db.delete_delete, clean before]

theorem select_answers {env : Env} {s : Aof O} {dbid : Nat} (kept : Consistent config others clock masterhost s)
    (selectable : config.hasDb dbid = true) (run : selectCommand config .select argv dbid s = some done) :
    Answers config others clock masterhost env done := by
  unfold selectCommand at run
  split at run
  next =>
    cases run
    exact answers_unchanged kept selectable .select argv
  next id _ =>
    split at run
    next =>
      cases run
      exact answers_unchanged kept selectable .select argv
    next cluster =>
      split at run
      next =>
        cases run
        exact answers_unchanged kept selectable .select argv
      next range =>
        cases run
        apply answers_unchanged kept
        simp only [Config.hasDb, Bool.and_eq_true, decide_eq_true_eq, Bool.or_eq_true, Bool.not_eq_true']
        constructor
        · omega
        · rcases Bool.eq_false_or_eq_true config.clusterEnabled with on | off
          · have zero : id = 0 := by
              by_contra other
              exact cluster ⟨on, other⟩
            rw [zero]
            exact .inr rfl
          · exact .inl off

theorem restoreObject_answers {env : Env} {s : Aof O} {dbid : Nat} {replace : Bool}
    (kept : Consistent config others clock masterhost s) (selectable : config.hasDb dbid = true)
    (known : config.commands (argv.headD []) = some cmd) (plain : translate env cmd argv = [argv])
    (again : ∀ now masterhost, proc config others ⟨now, true, masterhost⟩ cmd argv dbid ⟨s.dbs, -1, []⟩ =
      restoreObject others ⟨now, true, masterhost⟩ cmd argv replace dbid ⟨s.dbs, -1, []⟩)
    (untimed : ((others.payload (argument argv 3)).isSome && (getLongFromObject (argument argv 2)).any (0 < ·)) = false)
    (run : restoreObject others env cmd argv replace dbid s = some done) :
    Answers config others clock masterhost env done := by
  unfold restoreObject at run
  simp only at run
  split at run
  next ttl obj read payload =>
    split at run
    next =>
      cases run
      exact answers_unchanged kept selectable cmd argv
    next positive =>
      have zero : ttl = 0 := by
        simp only [read, payload, isSome_some, Bool.true_and, any_some, decide_eq_false_iff_not] at untimed
        omega
      obtain ⟨db, added, run⟩ := bind_eq_some_iff.mp run
      rw [if_pos zero, bind_eq_bind, bind_some] at run
      cases run
      have sound : db.Sound := by
        have before : (if replace = true then (s.dbs dbid).delete (argument argv 1) else s.dbs dbid).Sound := by
          split
          · exact (kept.sound dbid).delete _
          · exact kept.sound dbid
        rw [Db.add, Option.ite_none_left_eq_some] at added
        obtain ⟨-, stored⟩ := added
        cases stored
        exact before.insert _ obj
      apply answers_changed kept selectable (sound_setDb kept.sound sound)
      rw [plain]
      apply redoes_single
      intro now masterhost
      have same : restoreObject others ⟨now, true, masterhost⟩ cmd argv replace dbid ⟨s.dbs, -1, []⟩ =
          some ⟨setDb ⟨s.dbs, -1, []⟩ dbid db, dbid, true, cmd, argv⟩ := by
        simp only [restoreObject, read, payload, zero, added, Int.lt_irrefl, if_false, if_true, bind_eq_bind, bind_some]
      exact loadCommand_of_proc known ((again now masterhost).trans same) rfl
  next =>
    cases run
    exact answers_unchanged kept selectable cmd argv

theorem accepts_spec (accepted : config.accepts argv = some cmd) : config.commands (argv.headD []) = some cmd ∧
      (0 < (redisCommandTable cmd).arity → (redisCommandTable cmd).arity = (argv.length : Int)) := by
  unfold Config.accepts at accepted
  split at accepted
  next => cases accepted
  next found =>
    rw [Option.ite_none_left_eq_some] at accepted
    obtain rfl := Option.some.inj accepted.2
    refine ⟨found, fun positive => ?_⟩
    by_contra other
    exact accepted.1 (by simp [positive, other])

theorem timeToLive_value {text : List UInt8} {seconds : Bool} {ms : Int} (valid : timeToLive (some text) seconds = some (some ms)) :
    ms = if seconds then wrap ((strtol text).1 * 1000) else (strtol text).1 := by
  unfold timeToLive at valid
  simp only at valid
  split at valid
  next => cases valid
  next milliseconds read =>
    rw [Option.ite_none_left_eq_some, Option.some.injEq, Option.some.injEq] at valid
    rw [strtol_of_getLongFromObject read]
    exact valid.2.symm

section Answers
variable {env : Env} {s : Aof O} {dbid : Nat} (named : Named config) (kept : Consistent config others clock masterhost s)
  (selectable : config.hasDb dbid = true)
include named kept selectable

theorem del_answers (known : config.commands (argv.headD []) = some .del) (run : delCommand env .del argv dbid s = some done) :
    Answers config others clock masterhost env done := by
  cases run
  have none : s.dbs = Function.update s.dbs dbid (([] : List Key).foldl Db.delete (s.dbs dbid)) := by simp
  obtain ⟨sound, dbs, synced, removed, clean⟩ :=
    @delKeys_synced _ _ _ _ _ named env _ selectable argv.tail [] _ _ false kept.sound kept.synced none fun _ => rfl
  refine ⟨sound, selectable, dbs, synced, ?_⟩
  split
  next =>
    simp only
    rw [removed]
    exact redoes_single (load_del known dbs)
  next kept => exact clean (by simpa using kept)

theorem incrbyfloat_answers (three : argv.length = 3) (untimed : incrementsTimed others env argv dbid s = false)
    (run : incrbyfloatCommand others env .incrbyfloat argv dbid s = some done) : Answers config others clock masterhost env done := by
  obtain ⟨name, key, increment, rfl⟩ := List.length_eq_three.mp three
  have checked := kept.expireIfNeeded named selectable env key
  have answers : ∀ new, key ∉ ((expireIfNeeded env dbid key s).dbs dbid).expires → Answers config others clock masterhost env
      ⟨setDb (expireIfNeeded env dbid key s) dbid { (expireIfNeeded env dbid key s).dbs dbid with
        dict := ((expireIfNeeded env dbid key s).dbs dbid).dict.insert key (.string new) }, dbid, true, .set,
        [setName, key, new]⟩ := by
    intro new persistent
    apply answers_changed checked selectable (sound_setDb checked.sound ((checked.sound dbid).insert key _))
    apply redoes_single
    intro now masterhost
    rw [load_plain named]
    simp only [stored, Db.erase_absent persistent, setDb_dbs]
  have first : argument [name, key, increment] 1 = key := rfl
  have second : argument [name, key, increment] 2 = increment := rfl
  simp only [incrbyfloatCommand, lookupKeyWrite, first, second, List.set_cons_zero, List.set_cons_succ] at run
  simp only [incrementsTimed, lookupKeyWrite, first, second] at untimed
  cases found : ((expireIfNeeded env dbid key s).dbs dbid).lookupKey key with
  | none =>
    have absent : key ∉ ((expireIfNeeded env dbid key s).dbs dbid).dict := fun present => by
      simp [Db.mem_iff_lookupKey, found] at present
    simp only [found] at run
    split at run
    next =>
      cases run
      exact answers_unchanged checked selectable _ _
    next new _ =>
      simp only [isSome_none, Bool.false_eq_true, if_false, Db.add, absent, bind_eq_bind, bind_some] at run
      cases run
      exact answers new fun member => absent (checked.sound dbid key member)
  | some value =>
    have present : key ∈ ((expireIfNeeded env dbid key s).dbs dbid).dict := Db.mem_iff_lookupKey.mpr (by rw [found]; rfl)
    cases value with
    | object o =>
      simp only [found] at run
      cases run
      exact answers_unchanged checked selectable _ _
    | string text =>
      simp only [found] at run untimed
      split at run
      next =>
        cases run
        exact answers_unchanged checked selectable _ _
      next new sum =>
        simp only [isSome_some, if_true, Db.overwrite, present, bind_eq_bind, bind_some] at run
        cases run
        apply answers new
        intro member
        rcases Bool.and_eq_false_iff.mp untimed with persistent | error
        · exact Bool.false_ne_true (persistent.symm.trans (Finmap.lookup_isSome.mpr member))
        · rw [sum] at error
          cases error

section
variable (known : config.commands (argv.headD []) = some cmd) (plain : translate env cmd argv = [argv])
include known plain

theorem other_answers (generic : ∀ env s, proc config others env cmd argv dbid s = some (otherCommand config others env cmd argv dbid s)) :
    Answers config others clock masterhost env (otherCommand config others env cmd argv dbid s) := by
  have touched := kept.touch named env (others.touched cmd argv s.dbs dbid)
  unfold otherCommand
  simp only
  split
  next => exact answers_unchanged touched selectable cmd argv
  next dbs effect =>
    apply answers_changed touched selectable (others.effect_sound _ _ _ _ _ touched.sound effect)
    rw [plain]
    apply redoes_single
    intro now masterhost
    have again : proc config others ⟨now, true, masterhost⟩ cmd argv dbid
        ⟨(touch config env (others.touched cmd argv s.dbs dbid) s).dbs, -1, []⟩ = some ⟨⟨dbs, -1, []⟩, dbid, true, cmd, argv⟩ := by
      simp only [generic, otherCommand, touch_loading, effect]
    exact loadCommand_of_proc known again rfl

theorem restore_answers (generic : ∀ env s, proc config others env cmd argv dbid s = restoreCommand others env cmd argv dbid s)
    (untimed : timedRestore others env argv dbid s = false) (run : restoreCommand others env cmd argv dbid s = some done) :
    Answers config others clock masterhost env done := by
  unfold timedRestore at untimed
  unfold restoreCommand at run
  split at run
  next =>
    cases run
    exact answers_unchanged kept selectable cmd argv
  next options =>
    have all : (argv.drop 4).all (CheckAof.strcasecmp · replaceName) = true := by simpa using options
    by_cases replace : (!(argv.drop 4).isEmpty) = true
    · simp only [replace, if_true, isSome_none, Bool.false_eq_true, if_false] at run
      apply restoreObject_answers kept selectable known plain _ _ run
      · intro now masterhost
        simp only [generic, restoreCommand, all, replace, Bool.not_true, Bool.false_eq_true, if_false, if_true, isSome_none]
      · simpa only [all, replace, Bool.true_and, Bool.true_or, Bool.and_true] using untimed
    · have checked := kept.expireIfNeeded named selectable env (argument argv 1)
      simp only [replace, Bool.false_eq_true, if_false, lookupKeyWrite] at run
      split at run
      next =>
        cases run
        exact answers_unchanged checked selectable cmd argv
      next found =>
        apply restoreObject_answers checked selectable known plain _ _ run
        · intro now masterhost
          simp only [generic, restoreCommand, all, replace, Bool.not_true, Bool.false_eq_true, if_false, lookupKeyWrite,
            expireIfNeeded_loading, found]
        · have none : ((expireIfNeeded env dbid (argument argv 1) s).dbs dbid).lookupKey (argument argv 1) = none := by
            simpa using found
          simpa only [all, lookupKeyWrite, none, Bool.true_and, Option.isNone_none, Bool.or_true, Bool.and_true] using untimed

theorem script_answers
    (generic : ∀ env s, proc config others env cmd argv dbid s = some (scriptCommand config others env cmd argv dbid s))
    (timeless : ∀ later : Env, others.script later argv (touch config env (others.touched cmd argv s.dbs dbid) s).dbs dbid =
      others.script env argv (touch config env (others.touched cmd argv s.dbs dbid) s).dbs dbid) :
    Answers config others clock masterhost env (scriptCommand config others env cmd argv dbid s) := by
  have touched := kept.touch named env (others.touched cmd argv s.dbs dbid)
  unfold scriptCommand
  simp only
  split
  next => exact answers_unchanged touched selectable cmd argv
  next dbs effect =>
    apply answers_changed touched selectable (others.script_sound _ _ _ _ _ touched.sound effect)
    rw [plain]
    apply redoes_single
    intro now masterhost
    have again : proc config others ⟨now, true, masterhost⟩ cmd argv dbid
        ⟨(touch config env (others.touched cmd argv s.dbs dbid) s).dbs, -1, []⟩ = some ⟨⟨dbs, -1, []⟩, dbid, true, cmd, argv⟩ := by
      simp only [generic, scriptCommand, touch_loading, timeless, effect]
    exact loadCommand_of_proc known again rfl

end

theorem rewritten_answers (run : rewrittenCommand config others env cmd argv dbid s = some done) :
    Answers config others clock masterhost env done := by
  have touched := kept.touch named env (others.touched cmd argv s.dbs dbid)
  unfold rewrittenCommand at run
  simp only at run
  split at run
  next =>
    cases run
    exact answers_unchanged touched selectable cmd argv
  next argv' _ =>
    split at run
    next known => exact del_answers named touched selectable known run
    next known =>
      cases run
      exact other_answers named touched selectable known rfl fun _ _ => rfl
    next known =>
      cases run
      exact other_answers named touched selectable known rfl fun _ _ => rfl
    next known =>
      cases run
      exact other_answers named touched selectable known rfl fun _ _ => rfl
    next known =>
      cases run
      exact other_answers named touched selectable known rfl fun _ _ => rfl
    next => cases run

theorem proc_answers (accepted : config.accepts argv = some cmd) (absolute : Absolute config others env cmd argv dbid s)
    (run : proc config others env cmd argv dbid s = some done) : Answers config others clock masterhost env done := by
  obtain ⟨known, arity⟩ := accepts_spec accepted
  cases cmd
  case set =>
    have run : setCommand env .set argv dbid s = some done := run
    unfold setCommand at run
    split at run
    next =>
      cases run
      exact answers_unchanged kept selectable .set argv
    next options parsed =>
      have generic : ∀ env s, proc config others env .set argv dbid s =
          setGenericCommand env options .set argv (argument argv 1) (argument argv 2) dbid s := by
        intro env s
        simp only [proc, setCommand, parsed]
      cases valid : timeToLive options.expire options.seconds with
      | none =>
        rw [setGenericCommand_error valid] at run
        cases run
        exact answers_unchanged kept selectable .set argv
      | some milliseconds =>
        cases milliseconds with
        | none => exact untimed_answers named kept selectable known generic valid rfl ((generic _ _).trans run)
        | some ms =>
          have refused : options.applies (((expireIfNeeded env dbid (argument argv 1) s).dbs dbid).lookupKey (argument argv 1)) = false := by
            simpa only [Absolute, timedSet, parsed, valid, lookupKeyWrite, any_some, isSome_some, Bool.true_and]
              using absolute
          rw [setGenericCommand_valid valid, if_neg (Bool.eq_false_iff.mp refused)] at run
          cases run
          exact answers_unchanged (kept.expireIfNeeded named selectable env (argument argv 1)) selectable .set argv
  case setnx =>
    have untimed : timeToLive ({ nx := true } : SetOptions).expire ({ nx := true } : SetOptions).seconds = some none := rfl
    exact untimed_answers named kept selectable known (fun _ _ => rfl) untimed rfl run
  case setex =>
    apply setex_answers named kept selectable _ run
    intro ms valid
    rw [timeToLive_value valid, Int.add_comm]
    rfl
  case psetex =>
    apply setex_answers named kept selectable _ run
    intro ms valid
    rw [timeToLive_value valid, Int.add_comm]
    rfl
  case expire =>
    apply relative_answers named kept selectable _ run
    rintro when rfl
    rfl
  case pexpire =>
    apply relative_answers named kept selectable _ run
    rintro when rfl
    rfl
  case expireat =>
    apply relative_answers named kept selectable _ run
    rintro when rfl
    have bounds := wrap_bounds ((strtol (argument argv 2)).1 * 1000)
    simp only [expireTime, if_true, Int.add_zero, wrap_eq bounds.1 bounds.2]
    rfl
  case pexpireat => exact pexpireat_answers named kept selectable known run
  case persist => exact persist_answers kept selectable known run
  case del => exact del_answers named kept selectable known run
  case select => exact select_answers kept selectable run
  case incrbyfloat =>
    have three : (3 : Int) = argv.length := arity (by decide)
    exact incrbyfloat_answers named kept selectable (by omega) absolute run
  case restore => exact restore_answers named kept selectable known rfl (fun _ _ => rfl) absolute run
  case restoreAsking => exact restore_answers named kept selectable known rfl (fun _ _ => rfl) absolute run
  case spop => exact rewritten_answers named kept selectable run
  case hincrbyfloat => exact rewritten_answers named kept selectable run
  case blpop => exact rewritten_answers named kept selectable run
  case brpop => exact rewritten_answers named kept selectable run
  case migrate => exact rewritten_answers named kept selectable run
  case eval =>
    cases run
    exact script_answers named kept selectable known rfl (fun _ _ => rfl) absolute
  case evalsha =>
    cases run
    exact script_answers named kept selectable known rfl (fun _ _ => rfl) absolute
  case multi =>
    cases run
    exact answers_unchanged kept selectable .multi argv
  case exec =>
    cases run
    exact answers_unchanged kept selectable .exec argv
  case discard =>
    cases run
    exact answers_unchanged kept selectable .discard argv
  all_goals
    cases run
    exact other_answers named kept selectable known rfl fun _ _ => rfl

end Answers

theorem Consistent.mark (named : Named config) {env : Env} {s : Aof O} {dbid : Nat}
    (kept : Consistent config others clock masterhost s) (selectable : config.hasDb dbid = true)
    (marks : cmd = .multi ∨ cmd = .exec) (known : config.commands (argv.headD []) = some cmd) :
    Consistent config others clock masterhost (feedAppendOnlyFile env cmd dbid argv s) where
  sound := kept.sound
  synced := by
    apply feed_synced named kept.synced selectable
    have plain : translate env cmd argv = [argv] := by rcases marks with rfl | rfl <;> rfl
    rw [plain]
    apply redoes_single
    intro now masterhost
    have nothing : proc config others ⟨now, true, masterhost⟩ cmd argv dbid ⟨s.dbs, -1, []⟩ =
        some ⟨⟨s.dbs, -1, []⟩, dbid, false, cmd, argv⟩ := by rcases marks with rfl | rfl <;> rfl
    exact loadCommand_of_proc known nothing rfl

structure Settled (config : Config) (others : Others O) (clock : Nat → Int) (masterhost : Bool) (s : Live O) : Prop where
  consistent : Consistent config others clock masterhost s.aof
  selectable : ∀ client, config.hasDb (s.selected client) = true

theorem settled_step (named : Named config) {s next : Live O} {event : Event} (settled : Settled config others clock masterhost s)
    (absolute : event.Absolute config others s) (step : liveStep config others s event = some next) :
    Settled config others clock masterhost next := by
  obtain ⟨consistent, selectable⟩ := settled
  cases event with
  | command client now role argv =>
    simp only [liveStep] at step
    split at step
    next =>
      cases step
      exact ⟨consistent, selectable⟩
    next cmd accepted =>
      obtain ⟨done, run, result⟩ := bind_eq_some_iff.mp step
      cases result
      have answers := proc_answers named consistent (selectable client) accepted (absolute cmd accepted) run
      refine ⟨answers.propagate named, fun other => ?_⟩
      rcases eq_or_ne other client with rfl | distinct
      · simpa using answers.selectable
      · simpa [Function.update_of_ne distinct] using selectable other
  | mark client argv =>
    simp only [liveStep] at step
    split at step
    next accepted =>
      cases step
      exact ⟨consistent.mark named (selectable client) (.inl rfl) (accepts_spec accepted).1, selectable⟩
    next accepted =>
      cases step
      exact ⟨consistent.mark named (selectable client) (.inr rfl) (accepts_spec accepted).1, selectable⟩
    next =>
      cases step
      exact ⟨consistent, selectable⟩
  | expired now dbid key =>
    simp only [liveStep] at step
    split at step
    next =>
      cases step
      exact ⟨consistent, selectable⟩
    next =>
      split at step
      next due =>
        cases step
        exact ⟨consistent.delete named (Bool.and_eq_true_iff.mp due).1 key, selectable⟩
      next =>
        cases step
        exact ⟨consistent, selectable⟩
  | evicted dbid key =>
    simp only [liveStep] at step
    split at step
    next due =>
      cases step
      exact ⟨consistent.delete named (Bool.and_eq_true_iff.mp due).1 key, selectable⟩
    next =>
      cases step
      exact ⟨consistent, selectable⟩

theorem settled_start : Settled config others clock masterhost Live.start where
  consistent := ⟨fun _ => Db.sound_empty, 0, rfl, .inl rfl⟩
  selectable _ := by
    have positive := config.positive
    simp [Config.hasDb, Live.start, positive]

theorem settled_run (named : Named config) {events : List Event} {s final : Live O}
    (settled : Settled config others clock masterhost s) (absolute : AbsoluteRun config others events s)
    (run : liveRun config others events s = some final) : Settled config others clock masterhost final := by
  induction events generalizing s with
  | nil =>
    cases run
    exact settled
  | cons event events ih =>
    obtain ⟨next, step, rest⟩ := bind_eq_some_iff.mp run
    exact ih (settled_step named settled absolute.1 step) (absolute.2 next step) rest

/-- The file of a run whose commands keep their effect, replayed at any times, gives the dataset
with all its expires, in every state of the run. -/
theorem replay_gives_dataset (named : Named config) {events : List Event} {s : Live O}
    (run : liveRun config others events Live.start = some s) (absolute : AbsoluteRun config others events Live.start)
    (clock : Nat → Int) (masterhost : Bool) :
    ∃ dbid, replay config others clock masterhost s.aof.appended (fun _ => Db.empty, 0) = some (s.aof.dbs, dbid) := by
  have settled : Settled config others clock masterhost s := settled_run named settled_start absolute run
  obtain ⟨dbid, file, -⟩ := settled.consistent.synced
  exact ⟨dbid, file⟩

private def nameTable (name : List UInt8) : Option Command :=
  if name = setName then some .set
  else if name = [83, 69, 84, 69, 88] then some .setex
  else if name = delName then some .del
  else if name = selectName then some .select
  else if name = pexpireatName then some .pexpireat
  else none

private def sampleConfig : Config := ⟨nameTable, 16, false, by decide, by decide⟩

private theorem sampleConfig_named : Named sampleConfig := ⟨by decide, by decide, by decide, by decide⟩

private def sampleOthers : Others Unit where
  incrByFloat _ _ := none
  payload _ := none
  touched _ _ _ _ := []
  effect _ _ _ _ := none
  rewritten _ _ _ _ _ := none
  script _ _ _ _ := none
  effect_sound _ _ _ _ _ _ none := by cases none
  script_sound _ _ _ _ _ _ none := by cases none

/-- SETEX k 10 v at the time 1000, loaded at the time 5000. -/
theorem replay_gives_dataset_setex :
    ∃ s, liveRun sampleConfig sampleOthers [.command 0 1000 false [[83, 69, 84, 69, 88], [107], [49, 48], [118]]] Live.start = some s ∧
      ∃ dbid, replay sampleConfig sampleOthers (fun _ => 5000) false s.aof.appended (fun _ => Db.empty, 0) = some (s.aof.dbs, dbid) := by
  obtain ⟨s, run⟩ := Option.isSome_iff_exists.mp (show (liveRun sampleConfig sampleOthers
    [.command 0 1000 false [[83, 69, 84, 69, 88], [107], [49, 48], [118]]] Live.start).isSome = true by decide)
  refine ⟨s, run, replay_gives_dataset sampleConfig_named run ⟨?_, fun _ _ => trivial⟩ _ _⟩
  intro cmd accepted
  have setex : sampleConfig.accepts [[83, 69, 84, 69, 88], [107], [49, 48], [118]] = some .setex := by decide
  rw [setex] at accepted
  cases accepted
  trivial

/-- SET k v EX 10 at the time 1000 expires at 11000. Loaded at 5000, it expires at 15000. -/
theorem set_with_ex_shifts : ¬ ∀ (config : Config) (others : Others Unit) (events : List Event) (s : Live Unit), Named config →
    liveRun config others events Live.start = some s → ∀ later, ∃ dbs dbid,
      replay config others (fun _ => later) false s.aof.appended (fun _ => Db.empty, 0) = some (dbs, dbid) ∧ Agree later s.aof.dbs dbs := by
  intro always
  have live : (liveRun sampleConfig sampleOthers
      [.command 0 1000 false [setName, [107], [118], [69, 88], [49, 48]]] Live.start).map
        (fun s => (s.aof.appended, (s.aof.dbs 0).expires.lookup [107])) =
      some ([[selectName, [48]], [setName, [107], [118], [69, 88], [49, 48]]], some 11000) := by decide
  have loaded : (replay sampleConfig sampleOthers (fun _ => 5000) false
      [[selectName, [48]], [setName, [107], [118], [69, 88], [49, 48]]] (fun _ => Db.empty, 0)).map
        (fun state => (state.1 0).expires.lookup [107]) = some (some 15000) := by decide
  obtain ⟨s, run, outcome⟩ := Option.map_eq_some_iff.mp live
  obtain ⟨appended, expires⟩ := Prod.mk.inj outcome
  obtain ⟨dbs, dbid, file, agree⟩ := always sampleConfig sampleOthers _ s sampleConfig_named run 5000
  rw [appended] at file
  rw [file] at loaded
  have shifted : (dbs 0).expires.lookup [107] = some 15000 := Option.some.inj loaded
  have same := (agree 0 [107] fun when present => by
    rw [expires] at present
    cases present
    decide).2
  rw [shifted, expires] at same
  exact absurd same (by decide)

end Cplusplus.Redis.AofFeed
