import Cplusplus.CommandKeys
import Cplusplus.Sort

/-! The keys that `sortGetKeys` finds in a SORT command, and the key that the command itself stores to. -/

namespace Cplusplus.Redis.CommandKeys
open List Option
open CheckAof (strcasecmp)
open Redis.Sort (parseOptions parseArgument parseLimit initialOptions Options ascName descName alphaName)

variable {argv args : Argv} {word arg a b : List UInt8} {clusterEnabled : Bool} {o o' : Options} {i q : Nat} {found : Option Nat}

def isFlag (word : List UInt8) : Bool := strcasecmp word ascName || strcasecmp word descName || strcasecmp word alphaName

def storePlace : Nat → Option Nat → List (List UInt8) → Option Nat
  | i, found, word :: arg :: args =>
    if isFlag word then storePlace (i + 1) found (arg :: args)
    else if strcasecmp word limitName then
      match args with
      | [] => found
      | _ :: args => storePlace (i + 3) found args
    else storePlace (i + 2) (if strcasecmp word storeName then some (i + 1) else found) args
  | _, found, _ => found

def PositionsAgree (argv : Argv) (place : Option Nat) : Prop :=
  ∃ keys n, sortGetKeys argv = some (keys, n) ∧ keys.take n.toNat = some 1 :: (place.map fun p => some (p : Int)).toList

/-- The arguments that are skipped after a text that looks like the name of an option. -/
def skipped (arg : List UInt8) : Nat :=
  if strcasecmp arg limitName then 2 else if strcasecmp arg getName || strcasecmp arg byName then 1 else 0

def StoreAt (argv : Argv) (i : Nat) : Prop := strcasecmp (argv.getD i []) storeName = true ∧ i + 1 < argv.length

/-- Argument by argument, without a regard for what STORE is followed by. -/
inductive Steps (argv : Argv) : Nat → Nat → Prop
  | here (i : Nat) : Steps argv i i
  | on {i q : Nat} : i < argv.length → Steps argv (i + 1 + skipped (argv.getD i [])) q → Steps argv i q

/-- The steps from the first option on come to the last STORE, and to no text like it behind that. -/
def Reaches (argv : Argv) (place : Option Nat) : Prop :=
  ∀ p, place = some p → Steps argv 2 (p - 1) ∧ ∀ q, p - 1 < q → Steps argv 2 q → ¬ StoreAt argv q

theorem Steps.le (steps : Steps argv i q) : i ≤ q := by
  induction steps with
  | here => exact Nat.le_refl _
  | on _ _ ih => omega

/-- A text is the name of one option only. -/
theorem strcasecmp_other (is : strcasecmp word a = true) : strcasecmp word b = strcasecmp a b := by
  simp only [strcasecmp, decide_eq_true_eq] at is ⊢
  rw [is]

theorem sortOption_eq (arg : List UInt8) (more : Bool) : sortOption arg more skiplist =
    if strcasecmp arg storeName && more then .store else if skipped arg = 0 then .other else .skip (skipped arg) := by
  unfold skiplist skipped
  cases store : strcasecmp arg storeName with
  | true =>
    have others := fun name : List UInt8 => @strcasecmp_other arg storeName name store
    simp only [sortOption, others limitName, others getName, others byName, store]
    cases more <;> rfl
  | false =>
    simp only [sortOption, store, Bool.false_and]
    cases strcasecmp arg limitName <;> cases strcasecmp arg getName <;> cases strcasecmp arg byName <;> rfl

/-- The place of the last STORE that the steps come to is kept. -/
theorem sortLoop_last (argv : Argv) (fuel i : Nat) (foundStore : Bool) (second : Option Int) (behind : argv.length < i + fuel)
    (positive : 0 < fuel) : ∃ second' foundStore', sortLoop argv fuel i foundStore [some 1, second] = some ([some 1, second'], foundStore') ∧
      ((foundStore' = foundStore ∧ second' = second ∧ ∀ q, Steps argv i q → ¬ StoreAt argv q) ∨
        foundStore' = true ∧ ∃ q : Nat, second' = some ((q : Int) + 1) ∧ Steps argv i q ∧ StoreAt argv q ∧
          ∀ r, q < r → Steps argv i r → ¬ StoreAt argv r) := by
  induction fuel generalizing i foundStore second with
  | zero => exact absurd positive (Nat.lt_irrefl 0)
  | succ fuel ih =>
    rw [sortLoop]
    split
    next inside =>
      have onward := fun found second => ih (i + 1 + skipped (argv.getD i [])) found second (by omega) (by omega)
      have split : ∀ {q}, Steps argv i q → q = i ∨ Steps argv (i + 1 + skipped (argv.getD i [])) q := by
        intro q steps
        cases steps with
        | here => exact .inl rfl
        | on _ rest => exact .inr rest
      rw [sortOption_eq]
      by_cases store : StoreAt argv i
      · have none_ : skipped (argv.getD i []) = 0 := by
          have others := fun name : List UInt8 => @strcasecmp_other _ storeName name store.1
          simp only [skipped, others]
          rfl
        have written : Keys.write [some 1, second] 1 (i + 1) = some [some 1, some ((i : Int) + 1)] := rfl
        rw [if_pos (by simpa [StoreAt] using store)]
        simp only [written, bind_some]
        rw [none_] at onward split
        obtain ⟨second', found', result, last⟩ := onward true (some ((i : Int) + 1))
        refine ⟨second', found', result, .inr ?_⟩
        obtain ⟨same, rfl, never⟩ | ⟨same, q, stored, steps, here, never⟩ := last
        · refine ⟨same, i, rfl, .here i, store, fun r later steps => ?_⟩
          obtain rfl | rest := split steps
          · omega
          · exact never r rest
        · refine ⟨same, q, stored, .on inside (by rwa [none_]), here, fun r later more => ?_⟩
          obtain rfl | rest := split more
          · have := steps.le
            omega
          · exact never r later rest
      · obtain ⟨second', found', result, last⟩ := onward foundStore second
        refine ⟨second', found', Eq.trans ?_ result, ?_⟩
        · rw [if_neg (by simpa [StoreAt] using store)]
          by_cases zero : skipped (argv.getD i []) = 0
          · rw [if_pos zero, zero]
          · rw [if_neg zero, Nat.add_right_comm]
        obtain ⟨same, kept, never⟩ | ⟨same, q, stored, steps, here, never⟩ := last
        · refine .inl ⟨same, kept, fun q steps => ?_⟩
          obtain rfl | rest := split steps
          · exact store
          · exact never q rest
        · refine .inr ⟨same, q, stored, .on inside steps, here, fun r later more => ?_⟩
          obtain rfl | rest := split more
          · exact store
          · exact never r later rest
    next outside =>
      exact ⟨second, foundStore, rfl, .inl ⟨rfl, rfl, fun q steps store => by have := steps.le; have := store.2; omega⟩⟩

theorem argument_store {next : Options} (parsed : parseArgument clusterEnabled o word arg = .ok next) :
    strcasecmp word storeName = true ∧ next.storekey = some arg ∨
      strcasecmp word storeName = false ∧ strcasecmp word limitName = false ∧ skipped word = 1 ∧ next.storekey = o.storekey ∨
      strcasecmp word limitName = true := by
  unfold parseArgument at parsed
  split at parsed
  next store =>
    cases parsed
    exact .inl ⟨store, rfl⟩
  next notStore =>
    have notStore : strcasecmp word storeName = false := eq_false_of_ne_true notStore
    cases limit : strcasecmp word limitName with
    | true => exact .inr (.inr rfl)
    | false =>
      refine .inr (.inl ⟨notStore, rfl, ?_⟩)
      split at parsed
      next by_ =>
        have one : skipped word = 1 := by
          rw [skipped, limit, show strcasecmp word byName = true from by_, Bool.or_true]
          rfl
        refine ⟨one, ?_⟩
        split at parsed
        · split at parsed <;> cases parsed
          rfl
        · cases parsed
          rfl
      next =>
        split at parsed
        next get =>
          have one : skipped word = 1 := by
            rw [skipped, limit, show strcasecmp word getName = true from get, Bool.true_or]
            rfl
          refine ⟨one, ?_⟩
          split at parsed <;> cases parsed
          rfl
        next => cases parsed

theorem parse_cons (accepted : parseOptions clusterEnabled o (word :: arg :: args) = .ok o') :
    isFlag word = true ∧ (∃ next : Options, next.storekey = o.storekey ∧ parseOptions clusterEnabled next (arg :: args) = .ok o') ∨
    isFlag word = false ∧ strcasecmp word limitName = true ∧ (∃ count rest, ∃ next : Options, args = count :: rest ∧
      next.storekey = o.storekey ∧ parseOptions clusterEnabled next rest = .ok o') ∨
    isFlag word = false ∧ strcasecmp word limitName = false ∧ ∃ next : Options, parseOptions clusterEnabled next args = .ok o' ∧
      (strcasecmp word storeName = true ∧ next.storekey = some arg ∨
        strcasecmp word storeName = false ∧ skipped word = 1 ∧ next.storekey = o.storekey) := by
  unfold parseOptions at accepted
  unfold isFlag
  split at accepted
  next asc => exact .inl ⟨by simp [asc], { o with desc := false }, rfl, accepted⟩
  next notAsc =>
    split at accepted
    next desc => exact .inl ⟨by simp [desc], { o with desc := true }, rfl, accepted⟩
    next notDesc =>
      split at accepted
      next alpha => exact .inl ⟨by simp [alpha], { o with alpha := true }, rfl, accepted⟩
      next notAlpha =>
        have noFlag : (strcasecmp word ascName || strcasecmp word descName || strcasecmp word alphaName) = false := by
          simp [notAsc, notDesc, notAlpha]
        split at accepted
        next limit =>
          refine .inr (.inl ⟨noFlag, limit, ?_⟩)
          cases args with
          | nil => cases accepted
          | cons count rest =>
            cases parsed : parseLimit o arg count with
            | error reply =>
              simp only [parsed] at accepted
              cases accepted
            | ok next =>
              simp only [parsed] at accepted
              refine ⟨count, rest, next, rfl, ?_, accepted⟩
              unfold parseLimit at parsed
              split at parsed <;> cases parsed
              rfl
        next notLimit =>
          have notLimit : strcasecmp word limitName = false := eq_false_of_ne_true notLimit
          refine .inr (.inr ⟨noFlag, notLimit, ?_⟩)
          cases parsed : parseArgument clusterEnabled o word arg with
          | error reply =>
            rw [parsed] at accepted
            cases accepted
          | ok next =>
            rw [parsed] at accepted
            refine ⟨next, accepted, ?_⟩
            obtain store | ⟨notStore, -, one, same⟩ | limit := argument_store parsed
            · exact .inl store
            · exact .inr ⟨notStore, one, same⟩
            · rw [notLimit] at limit
              cases limit

theorem parse_one (accepted : parseOptions clusterEnabled o [word] = .ok o') : o'.storekey = o.storekey := by
  unfold parseOptions at accepted
  split at accepted
  · cases accepted
    rfl
  · split at accepted
    · cases accepted
      rfl
    · split at accepted <;> cases accepted
      rfl

theorem flag_other (flag : isFlag word = true) : strcasecmp word storeName = false ∧ skipped word = 0 := by
  simp only [isFlag, Bool.or_eq_true] at flag
  obtain (is | is) | is := flag <;>
  · have others := fun name : List UInt8 => @strcasecmp_other word _ name is
    simp only [skipped, others]
    exact ⟨rfl, rfl⟩

theorem limit_other (limit : strcasecmp word limitName = true) : strcasecmp word storeName = false ∧ skipped word = 2 :=
  ⟨strcasecmp_other limit, by rw [skipped, limit]; rfl⟩

/-- An option that is not STORE takes as many arguments as are skipped. -/
theorem never_on (notStore : ¬ StoreAt argv i) (rest : ∀ q, Steps argv (i + 1 + skipped (argv.getD i [])) q → ¬ StoreAt argv q)
    (q : Nat) (steps : Steps argv i q) : ¬ StoreAt argv q := by
  cases steps with
  | here => exact notStore
  | on _ later => exact rest q later

theorem storePlace_flag (i : Nat) (found : Option Nat) (arg : List UInt8) (args : Argv) (flag : isFlag word = true) :
    storePlace i found (word :: arg :: args) = storePlace (i + 1) found (arg :: args) := by
  rw [storePlace.eq_def]
  exact if_pos flag

theorem storePlace_limit (i : Nat) (found : Option Nat) (arg count : List UInt8) (args : Argv) (notFlag : ¬ isFlag word = true)
    (limit : strcasecmp word limitName = true) : storePlace i found (word :: arg :: count :: args) = storePlace (i + 3) found args := by
  rw [storePlace.eq_def]
  exact (if_neg notFlag).trans (if_pos limit)

theorem storePlace_other (i : Nat) (found : Option Nat) (arg : List UInt8) (args : Argv) (notFlag : ¬ isFlag word = true)
    (notLimit : ¬ strcasecmp word limitName = true) : storePlace i found (word :: arg :: args) =
      storePlace (i + 2) (if strcasecmp word storeName then some (i + 1) else found) args := by
  rw [storePlace.eq_def]
  exact (if_neg notFlag).trans (if_neg notLimit)

theorem drop_cons (here : argv.drop i = word :: args) :
    i < argv.length ∧ argv.getD i [] = word ∧ argv.length = i + 1 + args.length ∧ argv.drop (i + 1) = args := by
  have inside : i < argv.length := by
    by_contra outside
    rw [drop_eq_nil_of_le (Nat.le_of_not_lt outside)] at here
    cases here
  have long := congrArg List.length here
  rw [drop_eq_getElem_cons inside] at here
  rw [length_drop, length_cons] at long
  refine ⟨inside, ?_, by omega, (cons.inj here).2⟩
  rw [getD_eq_getElem _ _ inside]
  exact (cons.inj here).1

/-- The place is that of the key that the command stores to. With no place the steps come to no STORE. -/
theorem storePlace_spec (argv : Argv) (i : Nat) (found : Option Nat) (words : List (List UInt8)) (o : Options)
    (accepted : parseOptions clusterEnabled o words = .ok o') (same : o.storekey = found.map fun p => argv.getD p [])
    (here : argv.drop i = words) :
    (o'.storekey = (storePlace i found words).map fun p => argv.getD p []) ∧
      (storePlace i found words = none → found = none ∧ ∀ q, Steps argv i q → ¬ StoreAt argv q) ∧
      ∀ p, storePlace i found words = some p → found = some p ∨ 1 ≤ p ∧ StoreAt argv (p - 1) := by
  induction i, found, words using storePlace.induct generalizing o with
  | case1 i found word arg args flag ih =>
    obtain ⟨word_, at_, -, behind⟩ := drop_cons here
    obtain ⟨-, next, kept, accepted⟩ | ⟨noFlag, -⟩ | ⟨noFlag, -⟩ := parse_cons accepted
    · rw [storePlace_flag i found arg args flag]
      obtain ⟨key, never, placed⟩ := ih next accepted (kept.trans same) behind
      refine ⟨key, fun no => ⟨(never no).1, never_on (fun store => ?_) ?_⟩, placed⟩
      · rw [StoreAt, at_, (flag_other flag).1] at store
        cases store.1
      · rw [at_, (flag_other flag).2]
        exact (never no).2
    all_goals
      rw [flag] at noFlag
      cases noFlag
  | case2 i found word arg notFlag limit =>
    obtain ⟨flag, -⟩ | ⟨-, -, count, rest, next, cons, -⟩ | ⟨-, noLimit, -⟩ := parse_cons accepted
    · exact absurd flag notFlag
    · cases cons
    · rw [limit] at noLimit
      cases noLimit
  | case3 i found word arg notFlag limit count args ih =>
    obtain ⟨word_, at_, long, behind⟩ := drop_cons here
    obtain ⟨flag, -⟩ | ⟨-, -, count', rest, next, cons, kept, accepted⟩ | ⟨-, noLimit, -⟩ := parse_cons accepted
    · exact absurd flag notFlag
    · obtain ⟨rfl, rfl⟩ := List.cons.inj cons
      rw [storePlace_limit i found arg count args notFlag limit]
      obtain ⟨key, never, placed⟩ := ih next accepted (kept.trans same) (drop_cons (drop_cons behind).2.2.2).2.2.2
      refine ⟨key, fun no => ⟨(never no).1, never_on (fun store => ?_) ?_⟩, placed⟩
      · rw [StoreAt, at_, (limit_other limit).1] at store
        cases store.1
      · rw [at_, (limit_other limit).2]
        exact (never no).2
    · rw [limit] at noLimit
      cases noLimit
  | case4 i found word arg args notFlag notLimit ih =>
    obtain ⟨word_, at_, long, behind⟩ := drop_cons here
    obtain ⟨-, argument, -, rest⟩ := drop_cons behind
    obtain ⟨flag, -⟩ | ⟨-, limit, -⟩ | ⟨-, -, next, accepted, taken⟩ := parse_cons accepted
    · exact absurd flag notFlag
    · exact absurd limit notLimit
    · rw [storePlace_other i found arg args notFlag notLimit]
      obtain ⟨store, key⟩ | ⟨notStore, one, kept⟩ := taken
      · simp only [if_pos store] at ih ⊢
        obtain ⟨key, never, placed⟩ := ih next accepted (by rw [key, map_some, argument]) rest
        refine ⟨key, fun no => absurd (never no).1 (by simp), fun p place => .inr ?_⟩
        obtain last | placed := placed p place
        · cases last
          exact ⟨Nat.le_add_left 1 i, by rwa [Nat.add_sub_cancel, at_], by simp only [length_cons] at long; omega⟩
        · exact placed
      · simp only [notStore] at ih ⊢
        obtain ⟨key, never, placed⟩ := ih next accepted (kept.trans same) rest
        refine ⟨key, fun no => ⟨(never no).1, never_on (fun store => ?_) ?_⟩, placed⟩
        · rw [StoreAt, at_, notStore] at store
          cases store.1
        · rw [at_, one]
          exact (never no).2
  | case5 words i found short =>
    have ends : storePlace i found words = found := by
      match words, short with
      | [], _ => rfl
      | [_], _ => rfl
      | word :: arg :: args, short => exact absurd rfl (short word arg args)
    rw [ends]
    have kept : o'.storekey = o.storekey := by
      match words, short with
      | [], _ => cases accepted; rfl
      | [word], _ => exact parse_one accepted
      | word :: arg :: args, short => exact absurd rfl (short word arg args)
    have last : argv.length ≤ i + 1 := by
      match words, short with
      | [], _ => exact Nat.le_succ_of_le (drop_eq_nil_iff.1 here)
      | [word], _ => exact Nat.le_of_eq (drop_cons here).2.2.1
      | word :: arg :: args, short => exact absurd rfl (short word arg args)
    refine ⟨kept.trans same, fun no => ⟨no, fun q steps store => ?_⟩, fun p place => .inl place⟩
    have := steps.le
    have := store.2
    omega

theorem sortGetKeys_last (name key : List UInt8) (words : List (List UInt8)) : let argv := name :: key :: words
    sortGetKeys argv = some ([some 1, none], 1) ∧ (∀ q, Steps argv 2 q → ¬ StoreAt argv q) ∨
      ∃ q : Nat, sortGetKeys argv = some ([some 1, some ((q : Int) + 1)], 2) ∧ Steps argv 2 q ∧ StoreAt argv q ∧
        ∀ r, q < r → Steps argv 2 r → ¬ StoreAt argv r := by
  intro argv
  obtain ⟨second, found, result, last⟩ := sortLoop_last argv argv.length 2 false none (by omega) (Nat.zero_lt_succ _)
  have keys : sortGetKeys argv = some ([some 1, second], if found then 2 else 1) := by
    have space : zmallocInts 2 = some [none, none] := rfl
    have first : Keys.write [none, none] 0 1 = some [some 1, none] := rfl
    simp only [sortGetKeys, space, first, result, bind_eq_bind, bind_some]
    rfl
  obtain ⟨rfl, rfl, never⟩ | ⟨rfl, q, rfl, steps, store, never⟩ := last
  · exact .inl ⟨keys, never⟩
  · exact .inr ⟨q, keys, steps, store, never⟩

/-- With options that are accepted, the keys are those of the command exactly when the steps come to its last STORE
and to no other behind it. -/
theorem sortGetKeys_agrees_iff (erange : Bool) (name key : List UInt8) (words : List (List UInt8))
    (accepted : parseOptions clusterEnabled (initialOptions erange) words = .ok o) :
    let argv := name :: key :: words
    let place := storePlace 2 none words
    (o.storekey = place.map fun p => argv.getD p []) ∧ (PositionsAgree argv place ↔ Reaches argv place) := by
  intro argv place
  obtain ⟨stored, never, placed⟩ := storePlace_spec argv 2 none words (initialOptions erange) accepted rfl rfl
  refine ⟨stored, ?_⟩
  obtain ⟨keys, none_⟩ | ⟨q, keys, steps, store, last⟩ := sortGetKeys_last name key words
  · cases found : place with
    | none =>
      constructor
      · rintro - p is
        cases is
      · rintro -
        exact ⟨_, _, keys, rfl⟩
    | some p =>
      obtain no | ⟨-, store⟩ := placed p found
      · cases no
      · refine ⟨fun ⟨keys', n, result, agree⟩ => ?_, fun reaches => absurd store (none_ _ (reaches p rfl).1)⟩
        cases keys.symm.trans result
        cases agree
  · cases found : place with
    | none => exact absurd store ((never found).2 q steps)
    | some p =>
      obtain no | ⟨positive, store'⟩ := placed p found
      · cases no
      constructor
      · rintro ⟨keys', n, result, agree⟩ p' is
        cases is
        cases keys.symm.trans result
        obtain rfl : q + 1 = p := by
          have agree : [some (1 : Int), some ((q : Int) + 1)] = [some 1, some (p : Int)] := agree
          simp only [cons.injEq, some.injEq, and_true, true_and] at agree
          exact_mod_cast agree
        exact ⟨steps, last⟩
      · intro reaches
        obtain ⟨comes, later⟩ := reaches p rfl
        have same : q = p - 1 := by
          obtain before | same | behind := Nat.lt_trichotomy q (p - 1)
          · exact absurd store' (last _ before comes)
          · exact same
          · exact absurd store (later q behind steps)
        refine ⟨_, _, keys, ?_⟩
        have place : (q : Int) + 1 = p := by omega
        rw [place]
        rfl

theorem sortGetKeys_agrees_plain : PositionsAgree [[115], [107], descName, storeName, [100]] (some 4) := by
  have accepted : parseOptions false (initialOptions false) [descName, storeName, [100]] =
      .ok { initialOptions false with desc := true, storekey := some [100] } := rfl
  refine (sortGetKeys_agrees_iff false [115] [107] [descName, storeName, [100]] accepted).2.2 ?_
  intro p is
  cases is
  refine ⟨.on (by decide) (.here 3), fun q behind steps store => ?_⟩
  have : q + 1 < 5 := store.2
  omega

/-- SORT k STORE store DESC: the destination is taken for the option. -/
theorem sortGetKeys_store_store :
    let words : Argv := [storeName, storeName, descName]
    (∃ o, parseOptions false (initialOptions false) words = .ok o ∧ o.storekey = some storeName) ∧
      storePlace 2 none words = some 3 ∧ sortGetKeys ([115] :: [107] :: words) = some ([some 1, some 4], 2) ∧
      ¬ PositionsAgree ([115] :: [107] :: words) (some 3) := by
  have keys : sortGetKeys [[115], [107], storeName, storeName, descName] = some ([some 1, some 4], 2) := by decide
  refine ⟨⟨{ initialOptions false with desc := true, storekey := some storeName }, rfl, rfl⟩, by decide, keys, ?_⟩
  rintro ⟨keys', n, result, agree⟩
  cases keys.symm.trans result
  revert agree
  decide

end Cplusplus.Redis.CommandKeys
