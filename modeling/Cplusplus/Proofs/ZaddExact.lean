import Cplusplus.Zadd
import Mathlib.Algebra.Order.Ring.Nat
import Mathlib.Data.List.TakeWhile

/-! The arguments of ZADD: words of options, then pairs of a score and an element. Without a pair the
command goes on as if there were one. -/

namespace Cplusplus.Redis.Zadd

open List Function

section
open CheckAof (strcasecmp)

variable {server : Server} {flags : Flags} {db : Keyspace} {key : Key}
variable {args argv : List Bytes} {j scoreidx : Nat}

def isOption (opt : Bytes) : Bool := strcasecmp opt nxName || strcasecmp opt xxName || strcasecmp opt chName || strcasecmp opt incrName

def optionFlags (flags : Flags) (words : List Bytes) : Flags where
  incr := flags.incr || words.any fun opt => strcasecmp opt incrName
  nx := flags.nx || words.any fun opt => strcasecmp opt nxName
  xx := flags.xx || words.any fun opt => strcasecmp opt xxName
  ch := flags.ch || words.any fun opt => strcasecmp opt chName

theorem strcasecmp_other {opt name other : Bytes} (same : strcasecmp opt name = true) (differ : strcasecmp name other = false) :
    strcasecmp opt other = false := by
  simp only [strcasecmp, decide_eq_true_eq, decide_eq_false_iff_not] at *
  rwa [same]

theorem zaddOption_eq (opt : Bytes) (flags : Flags) : zaddOption opt flags = if isOption opt then some (optionFlags flags [opt]) else none := by
  unfold zaddOption isOption optionFlags
  simp only [any_cons, any_nil, Bool.or_false]
  cases nx : strcasecmp opt nxName with
  | true =>
    simp [strcasecmp_other nx (show strcasecmp nxName xxName = false by decide), strcasecmp_other nx (show strcasecmp nxName chName = false by decide),
      strcasecmp_other nx (show strcasecmp nxName incrName = false by decide)]
  | false =>
    cases xx : strcasecmp opt xxName with
    | true =>
      simp [strcasecmp_other xx (show strcasecmp xxName chName = false by decide),
        strcasecmp_other xx (show strcasecmp xxName incrName = false by decide)]
    | false =>
      cases ch : strcasecmp opt chName with
      | true => simp [strcasecmp_other ch (show strcasecmp chName incrName = false by decide)]
      | false => cases incr : strcasecmp opt incrName <;> simp

theorem optionFlags_cons (flags : Flags) (opt : Bytes) (words : List Bytes) :
    optionFlags (optionFlags flags [opt]) words = optionFlags flags (opt :: words) := by
  simp only [optionFlags, any_cons, any_nil, Bool.or_false, Bool.or_assoc]

theorem zaddOptions_eq (argv : List Bytes) (flags : Flags) (scoreidx : Nat) : zaddOptions argv flags scoreidx =
      (optionFlags flags (argv.takeWhile isOption), scoreidx + (argv.takeWhile isOption).length) := by
  induction argv generalizing flags scoreidx with
  | nil => simp [zaddOptions, optionFlags]
  | cons opt argv ih =>
    rw [zaddOptions, zaddOption_eq]
    cases word : isOption opt with
    | true =>
      simp only [if_true, ih, optionFlags_cons, takeWhile_cons, word, length_cons]
      congr 1
      omega
    | false => simp [word, optionFlags]

def pairArguments (pairs : List (Bytes × Bytes)) : List Bytes := pairs.flatMap fun pair => [pair.1, pair.2]

theorem pairs_of_even {n : Nat} (even : args.length = 2 * n) : ∃ pairs, args = pairArguments pairs ∧ pairs.length = n := by
  induction n generalizing args with
  | zero => exact ⟨[], length_eq_zero_iff.mp even, rfl⟩
  | succ n ih =>
    match args, even with
    | score :: ele :: args, even =>
      obtain ⟨pairs, rfl, length⟩ := ih (show args.length = 2 * n by simp only [length_cons] at even; omega)
      exact ⟨(score, ele) :: pairs, rfl, by rw [length_cons, length]⟩

theorem argument_of_drop {rest : List Bytes} {o : Bytes} (at_ : argv.drop j = o :: rest) : argument argv j = .ok o := by
  have here : argv[j]? = some o := by
    have first := congrArg (fun l : List Bytes => l[0]?) at_
    simpa using first
  rw [argument, here]

theorem argument_behind {rest : List Bytes} {score ele : Bytes} (at_ : argv.drop j = score :: ele :: rest) :
    argument argv (j + 1) = .ok ele := by
  have after : argv.drop (j + 1) = ele :: rest := by
    rw [← drop_drop, at_]
    rfl
  exact argument_of_drop after

theorem drop_pair {pair : Bytes × Bytes} {pairs : List (Bytes × Bytes)}
    (at_ : argv.drop (scoreidx + j * 2) = pairArguments (pair :: pairs)) : argv.drop (scoreidx + (j + 1) * 2) = pairArguments pairs := by
  rw [show scoreidx + (j + 1) * 2 = scoreidx + j * 2 + 2 by omega, ← drop_drop, at_]
  rfl

theorem zaddScores_eq (pairs : List (Bytes × Bytes)) (j : Nat) (at_ : argv.drop (scoreidx + j * 2) = pairArguments pairs) :
    zaddScores server argv scoreidx pairs.length j = .ok (pairs.mapM fun pair => getDoubleFromObject server pair.1) := by
  induction pairs generalizing j with
  | nil => rfl
  | cons pair pairs ih =>
    rw [length_cons, zaddScores, argument_of_drop at_, mapM_cons]
    simp only [ih (j + 1) (drop_pair at_), bind, Except.bind, pure, Except.pure]
    cases getDoubleFromObject server pair.1 with
    | none => rfl
    | some score =>
      simp only [Option.bind_some]
      cases pairs.mapM fun pair => getDoubleFromObject server pair.1 <;> rfl

def applyPair (server : Server) (flags : Flags) (scores : Bytes → Option Binary64) (pair : Binary64 × Bytes) : Bytes → Option Binary64 :=
  match scores pair.2 with
  | some curscore =>
    let score := if flags.incr then server.add pair.1 curscore else pair.1
    if flags.nx ∨ score.eq curscore then scores else update scores pair.2 (some score)
  | none => if flags.xx then scores else update scores pair.2 (some pair.1)

theorem lookup_cons_ne {ele other : Bytes} (score : Binary64) (elements : List (Bytes × Binary64)) (differ : other ≠ ele) :
    ((ele, score) :: elements).lookup other = elements.lookup other := by
  rw [lookup_cons, beq_eq_false_iff_ne.mpr differ]

theorem zsetFind_insert (server : Server) (zobj : Zset) (ele : Bytes) (score : Binary64) :
    zsetFind (zsetInsert server zobj ele score) = update (zsetFind zobj) ele (some score) := by
  funext other
  by_cases same : other = ele
  · rw [same, update_self]
    exact lookup_cons_self
  · rw [update_of_ne same]
    exact lookup_cons_ne score zobj.elements same

theorem lookup_filter_ne (elements : List (Bytes × Binary64)) {ele other : Bytes} (differ : other ≠ ele) :
    (elements.filter fun e => e.1 ≠ ele).lookup other = elements.lookup other := by
  induction elements with
  | nil => rfl
  | cons e elements ih =>
    obtain ⟨first, score⟩ := e
    by_cases here : first = ele
    · rw [filter_cons_of_neg (by simp [here]), ih, lookup_cons_ne score elements (here ▸ differ)]
    · rw [filter_cons_of_pos (by simp [here]), lookup_cons, lookup_cons, ih]

theorem zsetFind_update (zobj : Zset) (ele : Bytes) (score : Binary64) :
    zsetFind (zsetUpdate zobj ele score) = update (zsetFind zobj) ele (some score) := by
  funext other
  by_cases same : other = ele
  · rw [same, update_self]
    exact lookup_cons_self
  · rw [update_of_ne same]
    exact (lookup_cons_ne score _ same).trans (lookup_filter_ne zobj.elements same)

/-- One round of the loop: the error is one of INCR, changes nothing and needs an element; otherwise the
pair is applied. -/
theorem zaddElement_spec (server : Server) (flags : Flags) (state : Progress) (score : Binary64) (ele : Bytes) :
    ((zaddElement server flags state score ele).2 = true ∧ flags.incr = true ∧
        (zaddElement server flags state score ele).1.zobj = state.zobj ∧ state.zobj.elements ≠ []) ∨
      (zaddElement server flags state score ele).2 = false ∧
        zsetFind (zaddElement server flags state score ele).1.zobj = applyPair server flags (zsetFind state.zobj) (score, ele) ∧
        (state.zobj.elements ≠ [] ∨ flags.xx = false → (zaddElement server flags state score ele).1.zobj.elements ≠ []) := by
  unfold zaddElement applyPair
  cases found : zsetFind state.zobj ele with
  | none =>
    refine .inr ?_
    cases xx : flags.xx with
    | true => exact ⟨rfl, rfl, fun some_ => some_.resolve_right (by simp)⟩
    | false => exact ⟨rfl, zsetFind_insert server state.zobj ele score, fun _ => cons_ne_nil _ _⟩
  | some curscore =>
    have some_ : state.zobj.elements ≠ [] := by
      intro empty
      rw [zsetFind, empty] at found
      cases found
    simp only
    cases nx : flags.nx with
    | true => exact .inr ⟨rfl, by simp, fun _ => some_⟩
    | false =>
      simp only [Bool.false_eq_true, if_false, false_or]
      generalize (if flags.incr = true then server.add score curscore else score) = sum
      by_cases nan : flags.incr = true ∧ sum.isNaN = true
      · rw [if_pos nan]
        exact .inl ⟨rfl, nan.1, rfl, some_⟩
      · rw [if_neg nan]
        refine .inr ?_
        by_cases same : sum.eq curscore = true
        · rw [if_pos same, if_pos same]
          exact ⟨rfl, rfl, fun _ => some_⟩
        · rw [if_neg same, if_neg same]
          exact ⟨rfl, zsetFind_update _ _ _, fun _ => cons_ne_nil _ _⟩

end

/-! What ZADD does with its arguments. A pair that NX or XX tells to leave alone has been processed. -/

section
variable {server : Server} {flags : Flags} {db : Keyspace} {key : Key}

def applyPairs (server : Server) (flags : Flags) (before : Bytes → Option Binary64) (scores : List Binary64) (pairs : List (Bytes × Bytes)) :
    Bytes → Option Binary64 :=
  (scores.zip (pairs.map Prod.snd)).foldl (applyPair server flags) before

variable {scores : List Binary64}

/-- The loop reads the elements of the pairs only. INCR, which has one pair, may end it with an error. -/
theorem zaddLoop_spec (server : Server) (flags : Flags) {pairs : List (Bytes × Bytes)}
    (length : scores.length = pairs.length) (at_ : argv.drop (scoreidx + j * 2) = pairArguments pairs) (state : Progress) :
    ∃ after nan, zaddLoop server flags argv scoreidx scores j state = .ok (after, nan) ∧
      ((nan = true ∧ flags.incr = true ∧ (pairs.length ≤ 1 → after.zobj = state.zobj ∧ state.zobj.elements ≠ [])) ∨
        nan = false ∧ zsetFind after.zobj = applyPairs server flags (zsetFind state.zobj) scores pairs ∧
          (state.zobj.elements ≠ [] ∨ flags.xx = false ∧ pairs ≠ [] → after.zobj.elements ≠ [])) := by
  induction pairs generalizing scores j state with
  | nil =>
    obtain rfl := length_eq_zero_iff.mp length
    exact ⟨state, false, rfl, .inr ⟨rfl, rfl, fun some_ => some_.resolve_right fun h => h.2 rfl⟩⟩
  | cons pair pairs ih =>
    match scores, length with
    | score :: scores, length =>
      have step := zaddElement_spec server flags state score pair.2
      rw [zaddLoop, Nat.add_right_comm, argument_behind at_]
      simp only [bind, Except.bind]
      obtain ⟨nan, incr, same, some_⟩ | ⟨fine, find, some_⟩ := step
      · rw [if_pos nan]
        exact ⟨_, true, rfl, .inl ⟨rfl, incr, fun _ => ⟨same, some_⟩⟩⟩
      · rw [if_neg (by simp [fine])]
        obtain ⟨after, nan, loop, error | ⟨fine, found, nonempty⟩⟩ :=
          ih (Nat.succ.inj length) (drop_pair at_) (zaddElement server flags state score pair.2).1
        · refine ⟨after, nan, loop, .inl ⟨error.1, error.2.1, fun single => ?_⟩⟩
          obtain rfl : pairs = [] := length_eq_zero_iff.mp (by simp only [length_cons] at single; omega)
          obtain rfl : scores = [] := length_eq_zero_iff.mp (Nat.succ.inj length)
          obtain ⟨rfl, -⟩ := Prod.mk.inj (Except.ok.inj loop)
          cases (Prod.mk.inj (Except.ok.inj loop)).2.trans error.1
        · refine ⟨after, nan, loop, .inr ⟨fine, ?_, fun h => nonempty (.inl (some_ (h.imp_right And.left)))⟩⟩
          rw [found, find]
          rfl

def Reply.IsError : Reply → Prop
  | .nullbulk | .integer _ | .double _ => False
  | _ => True

theorem zaddReply_fine (flags : Flags) (state : Progress) : ¬ (zaddReply flags state).IsError := by
  unfold zaddReply
  split
  · split <;> exact id
  · exact id

/-- The scores at a key; a missing one has none. -/
def scoresAt (db : Keyspace) (key : Key) : Bytes → Option Binary64 :=
  match db key with
  | some (.zset zobj) => zsetFind zobj
  | _ => fun _ => none

def Processes (server : Server) (flags : Flags) (db : Keyspace) (key : Key) (args : List Bytes) (after : Keyspace) : Prop :=
  ∃ pairs scores, args.dropWhile isOption = pairArguments pairs ∧ pairs ≠ [] ∧
    (pairs.mapM fun pair => getDoubleFromObject server pair.1) = some scores ∧
    scoresAt after key = applyPairs server (optionFlags flags (args.takeWhile isOption)) (scoresAt db key) scores pairs ∧
    ∀ other ≠ key, after other = db other

/-- No argument outside is read; the reply is an error and nothing has changed, or a pair is processed;
and no new key holds an empty sorted set. -/
def ZaddMeets (server : Server) (flags : Flags) (db : Keyspace) (key : Key) (args : List Bytes) (outcome : Outcome) : Prop :=
  ∃ after reply, outcome = .ok (after, reply) ∧
    ((reply.IsError ∧ after = db) ∨ Processes server flags db key args after) ∧
    ∀ other, db other = none → ∀ zobj, after other = some (.zset zobj) → zobj.elements ≠ []

theorem meets_error {reply : Reply} (error : reply.IsError) : ZaddMeets server flags db key args (.ok (db, reply)) := by
  refine ⟨db, reply, rfl, .inl ⟨error, rfl⟩, fun other missing zobj here => ?_⟩
  cases missing.symm.trans here

theorem not_meets (none_ : args.dropWhile isOption = []) {after : Keyspace} {reply : Reply} (fine : ¬ reply.IsError) :
    ¬ ZaddMeets server flags db key args (.ok (after, reply)) := by
  rintro ⟨_, _, same, error | ⟨pairs, -, is, some_, -⟩, -⟩
  · obtain ⟨-, rfl⟩ := Prod.mk.inj (Except.ok.inj same)
    exact fine error.1
  · cases pairs with
    | nil => exact some_ rfl
    | cons pair pairs => cases none_.symm.trans is

theorem length_of_mapM {pairs : List (Bytes × Bytes)} {parse : Bytes × Bytes → Option Binary64}
    (parsed : pairs.mapM parse = some scores) : scores.length = pairs.length := by
  induction pairs generalizing scores with
  | nil =>
    cases parsed
    rfl
  | cons pair pairs ih =>
    rw [mapM_cons] at parsed
    cases first : parse pair with
    | none =>
      rw [first] at parsed
      cases parsed
    | some score =>
      cases rest : pairs.mapM parse with
      | none =>
        rw [first, rest] at parsed
        cases parsed
      | some others =>
        rw [first, rest] at parsed
        cases parsed
        rw [length_cons, length_cons, ih rest]

theorem zaddCreate_spec (server : Server) {pairs : List (Bytes × Bytes)} (at_ : argv.drop scoreidx = pairArguments pairs)
    (some_ : pairs ≠ []) : ∃ zobj, zaddCreate server argv scoreidx = .ok zobj ∧ zobj.elements = [] := by
  obtain ⟨pair, pairs, rfl⟩ := exists_cons_of_ne_nil some_
  unfold zaddCreate
  split
  · exact ⟨_, rfl, rfl⟩
  · rw [argument_behind at_]
    exact ⟨_, rfl, rfl⟩

theorem scoresAt_update (db : Keyspace) (key : Key) (zobj : Zset) : scoresAt (update db key (some (.zset zobj))) key = zsetFind zobj := by
  rw [scoresAt, update_self]

/-- The loop over a sorted set that is at the key, or that has just been created. -/
theorem zaddRun_meets {pairs : List (Bytes × Bytes)} {zobj : Zset}
    (at_ : argv.drop scoreidx = pairArguments pairs) (is : args.dropWhile isOption = pairArguments pairs) (some_ : pairs ≠ [])
    (parsed : (pairs.mapM fun pair => getDoubleFromObject server pair.1) = some scores)
    (single : (optionFlags flags (args.takeWhile isOption)).incr = true → pairs.length ≤ 1)
    (here : db key = some (.zset zobj) ∨ db key = none ∧ zobj.elements = [] ∧ (optionFlags flags (args.takeWhile isOption)).xx = false) :
    ZaddMeets server flags db key args (zaddRun server (optionFlags flags (args.takeWhile isOption)) db key argv scoreidx scores zobj) := by
  have before : scoresAt db key = zsetFind zobj := by
    obtain here | ⟨missing, empty, -⟩ := here
    · rw [scoresAt, here]
    · rw [scoresAt, missing]
      funext ele
      rw [zsetFind, empty, lookup_nil]
  obtain ⟨after, nan, loop, ⟨rfl, incr, stays⟩ | ⟨rfl, found, nonempty⟩⟩ :=
    zaddLoop_spec server (optionFlags flags (args.takeWhile isOption)) (length_of_mapM parsed) (j := 0) (by simpa using at_) (zaddStart zobj)
  · obtain ⟨same, some_⟩ := stays (single incr)
    -- A sorted set that has just been created has no element to add to.
    have here : db key = some (.zset zobj) := here.resolve_right fun created => some_ created.2.1
    rw [zaddRun, loop]
    simp only [bind, Except.bind, pure, Except.pure, if_true, same, zaddStart]
    rw [← here, update_eq_self]
    exact meets_error trivial
  · rw [zaddRun, loop]
    refine ⟨_, _, rfl, .inr ⟨pairs, scores, is, some_, parsed, ?_, fun other differ => update_of_ne differ _ _⟩, ?_⟩
    · rw [scoresAt_update, found, before]
      rfl
    · intro other missing stored at_other
      by_cases same : other = key
      · rw [same, update_self] at at_other
        obtain rfl := Value.zset.inj (Option.some.inj at_other)
        obtain present | ⟨-, -, fine⟩ := here
        · cases (same ▸ missing).symm.trans present
        · exact nonempty (.inr ⟨fine, some_⟩)
      · rw [update_of_ne same, missing] at at_other
        cases at_other

section
variable (server)

section
variable (flags)

section
variable (db)

theorem zaddGenericCommand_eq (cmd key : Bytes) (args : List Bytes) :
    zaddGenericCommand server flags db (cmd :: key :: args) = (let words := args.takeWhile isOption
       let pairs := args.dropWhile isOption
       let flags := optionFlags flags words
       let argv := cmd :: key :: args
       let scoreidx := 2 + words.length
       if pairs.length % 2 ≠ 0 then .ok (db, .syntaxerr)
       else if flags.nx ∧ flags.xx then .ok (db, .notCompatible)
       else if flags.incr ∧ 1 < pairs.length / 2 then .ok (db, .singlePair)
       else
        (zaddScores server argv scoreidx (pairs.length / 2) 0).bind fun
          | none => .ok (db, .notFloat)
          | some scores =>
            match db key with
            | none =>
              if flags.xx then .ok (db, zaddReply flags (zaddStart { skiplist := false, elements := [] }))
              else (zaddCreate server argv scoreidx).bind (zaddRun server flags db key argv scoreidx scores)
            | some (.zset zobj) => zaddRun server flags db key argv scoreidx scores zobj
            | some .other => .ok (db, .wrongtype)) := by
  have length : (cmd :: key :: args).length - (2 + (args.takeWhile isOption).length) = (args.dropWhile isOption).length := by
    have whole := congrArg List.length (takeWhile_append_dropWhile (p := isOption) (l := args))
    rw [length_append] at whole
    simp only [length_cons]
    omega
  unfold zaddGenericCommand
  simp only [drop_succ_cons, drop_zero, zaddOptions_eq, length]
  rfl

theorem zadd_pairs (cmd key : Bytes) (some_ : args.dropWhile isOption ≠ []) :
    ZaddMeets server flags db key args (zaddGenericCommand server flags db (cmd :: key :: args)) := by
  rw [zaddGenericCommand_eq]
  by_cases odd : (args.dropWhile isOption).length % 2 ≠ 0
  · rw [if_pos odd]
    exact meets_error trivial
  have even : (args.dropWhile isOption).length = 2 * ((args.dropWhile isOption).length / 2) := by omega
  obtain ⟨pairs, is, length⟩ := pairs_of_even even
  have nonempty : pairs ≠ [] := by
    rintro rfl
    exact some_ is
  have at_ : (cmd :: key :: args).drop (2 + (args.takeWhile isOption).length) = pairArguments pairs := by
    have behind : (args.takeWhile isOption ++ args.dropWhile isOption).drop (args.takeWhile isOption).length = args.dropWhile isOption :=
      drop_left
    rw [takeWhile_append_dropWhile] at behind
    rw [Nat.add_comm, drop_succ_cons, drop_succ_cons, behind, is]
  rw [if_neg odd]
  simp only [← length]
  by_cases both : (optionFlags flags (args.takeWhile isOption)).nx = true ∧ (optionFlags flags (args.takeWhile isOption)).xx = true
  · rw [if_pos both]
    exact meets_error trivial
  rw [if_neg both]
  by_cases many : (optionFlags flags (args.takeWhile isOption)).incr = true ∧ 1 < pairs.length
  · rw [if_pos many]
    exact meets_error trivial
  have single : (optionFlags flags (args.takeWhile isOption)).incr = true → pairs.length ≤ 1 := fun incr =>
    Nat.le_of_not_lt fun two => many ⟨incr, two⟩
  rw [if_neg many, zaddScores_eq pairs 0 (by simpa using at_)]
  simp only [Except.bind]
  cases parsed : pairs.mapM fun pair => getDoubleFromObject server pair.1 with
  | none => exact meets_error trivial
  | some scores =>
    cases here : db key with
    | none =>
      cases xx : (optionFlags flags (args.takeWhile isOption)).xx with
      | true =>
        -- Every pair is one that XX leaves alone.
        have skips : applyPairs server (optionFlags flags (args.takeWhile isOption)) (fun _ => none) scores pairs = fun _ => none := by
          unfold applyPairs
          induction scores.zip (pairs.map Prod.snd) with
          | nil => rfl
          | cons pair rest ih =>
            rw [foldl_cons, applyPair, if_pos xx]
            exact ih
        refine ⟨db, _, rfl, .inr ⟨pairs, scores, is, nonempty, parsed, ?_, fun _ _ => rfl⟩, fun other missing zobj stored => ?_⟩
        · rw [scoresAt, here, skips]
        · cases missing.symm.trans stored
      | false =>
        obtain ⟨zobj, created, empty⟩ := zaddCreate_spec server at_ nonempty
        simp only [created, Bool.false_eq_true, if_false]
        exact zaddRun_meets at_ is nonempty parsed single (.inr ⟨here, empty, xx⟩)
    | some value =>
      cases value with
      | zset zobj => exact zaddRun_meets at_ is nonempty parsed single (.inl here)
      | other => exact meets_error trivial

theorem zadd_options (cmd key : Bytes) (none_ : args.dropWhile isOption = []) :
    ZaddMeets server flags db key args (zaddGenericCommand server flags db (cmd :: key :: args)) ↔
      ((optionFlags flags (args.takeWhile isOption)).nx = true ∧ (optionFlags flags (args.takeWhile isOption)).xx = true) ∨
        db key = some .other := by
  rw [zaddGenericCommand_eq]
  simp only [none_, length_nil, Nat.zero_mod, Nat.zero_div, ne_eq, not_true_eq_false, if_false, Nat.not_lt_zero, and_false, zaddScores,
    Except.bind]
  by_cases both : (optionFlags flags (args.takeWhile isOption)).nx = true ∧ (optionFlags flags (args.takeWhile isOption)).xx = true
  · rw [if_pos both]
    exact iff_of_true (meets_error trivial) (.inl both)
  rw [if_neg both]
  cases here : db key with
  | none =>
    refine iff_of_false ?_ (by simp [both])
    cases xx : (optionFlags flags (args.takeWhile isOption)).xx with
    | true => exact not_meets none_ (zaddReply_fine _ _)
    | false =>
      simp only [Bool.false_eq_true, if_false]
      cases created : zaddCreate server (cmd :: key :: args) (2 + (args.takeWhile isOption).length) with
      | error fault =>
        rintro ⟨_, _, same, -⟩
        cases same
      | ok zobj => exact not_meets none_ (zaddReply_fine _ _)
  | some value =>
    cases value with
    | zset zobj => exact iff_of_false (not_meets none_ (zaddReply_fine _ _)) (by simp [both])
    | other => exact iff_of_true (meets_error trivial) (.inr rfl)

end

end

end

/-- Exactly when the command does what is asked: an argument behind the key is no option, or both NX and
XX are there, or the value at the key is of another type. -/
theorem zadd_exact (server : Server) (flags : Flags) (db : Keyspace) (cmd key : Bytes) (args : List Bytes) :
    ZaddMeets server flags db key args (zaddGenericCommand server flags db (cmd :: key :: args)) ↔
      (∃ arg ∈ args, isOption arg = false) ∨ ((optionFlags flags args).nx = true ∧ (optionFlags flags args).xx = true) ∨
        db key = some .other := by
  by_cases words : ∃ arg ∈ args, isOption arg = false
  · refine iff_of_true (zadd_pairs server flags db cmd key fun none_ => ?_) (.inl words)
    obtain ⟨arg, mem, word⟩ := words
    rw [dropWhile_eq_nil_iff.mp none_ arg mem] at word
    cases word
  · have all : ∀ arg ∈ args, isOption arg = true := by simpa using words
    rw [zadd_options server flags db cmd key (dropWhile_eq_nil_iff.mpr all), takeWhile_eq_self_iff.mpr all, or_iff_right words]

def idleServer (zsetMaxZiplistEntries : Nat) : Server where
  zsetMaxZiplistEntries := zsetMaxZiplistEntries
  zsetMaxZiplistValue := 64
  strtod _ := { value := Binary64.zero, eptr := 0, erange := false, einval := false }
  add _ increment := increment

/-- ZADD k NX CH without the key: an argument outside is read, or with a limit of 0 an empty sorted set
is created. -/
theorem zadd_without_pairs :
    zaddCommand (idleServer 128) (fun _ => none) [[122, 97, 100, 100], [107], [78, 88], [67, 72]] = .error .outside ∧
      zaddCommand (idleServer 0) (fun _ => none) [[122, 97, 100, 100], [107], [78, 88], [67, 72]] =
        .ok (update (fun _ => none) [107] (some (.zset { skiplist := true, elements := [] })), .integer 0) ∧
      ∀ entries, ¬ ZaddMeets (idleServer entries) { incr := false, nx := false, xx := false, ch := false } (fun _ => none) [107]
        [[78, 88], [67, 72]] (zaddCommand (idleServer entries) (fun _ => none) [[122, 97, 100, 100], [107], [78, 88], [67, 72]]) := by
  refine ⟨rfl, rfl, fun entries meets => ?_⟩
  obtain both | other := (zadd_options _ _ _ _ _ (by decide)).mp meets
  · revert both
    decide
  · cases other

end

end Cplusplus.Redis.Zadd
