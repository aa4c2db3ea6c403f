import Cplusplus.ClusterRouting

/-! Where `getNodeByQuery` sends a request: what it has found out about the keys when the loop ends decides. -/

namespace Cplusplus.Redis.ClusterRouting

open List
open Cluster (ClusterState Slot)
open CommandKeys (Argv getKeysFromCommand)

variable {Addr Name : Type} [DecidableEq Addr] {c : ClusterState Addr Name} {present : Key → Bool}
variable {α : Type} {after : Scan Addr} {keys : List Key} {first key : Key}

def commandKeys (command : Command × Argv) : Except Stop (List Key) :=
  match getKeysFromCommand command.1 command.2 with
  | none => .error .fault
  | some found => (List.range found.2.toNat).mapM (keyAt command.2 found.1)

def requestKeys (commands : List (Command × Argv)) : Except Stop (List Key) := (commands.mapM commandKeys).map List.flatten

/-- An EXEC without MULTI executes nothing. -/
def executed (client : Client) (cmd : Command) (argv : Argv) : List (Command × Argv) :=
  if cmd = .exec ∧ !client.multi then [] else requestCommands client cmd argv

theorem bind_ok {β : Type} {x : Except Stop α} {next : α → Except Stop β} {last : β} (taken : x.bind next = .ok last) :
    ∃ value, x = .ok value ∧ next value = .ok last := by
  cases x with
  | error stop => cases taken
  | ok value => exact ⟨value, rfl, taken⟩

variable {items : List α}

/-- A loop that reads an item before each round has read all of them at its end. -/
theorem foldlM_reads {β σ : Type} {read : α → Except Stop β} {round : σ → β → Except Stop σ}
    {start last : σ} (taken : items.foldlM (fun state item => (read item).bind (round state)) start = .ok last) :
    ∃ values, items.mapM read = .ok values ∧ values.foldlM round start = .ok last := by
  induction items generalizing start with
  | nil => exact ⟨[], rfl, taken⟩
  | cons item items ih =>
    rw [foldlM_cons] at taken
    obtain ⟨middle, first, rest⟩ := bind_ok taken
    obtain ⟨value, there, once⟩ := bind_ok first
    obtain ⟨values, mapped, folded⟩ := ih rest
    refine ⟨value :: values, ?_, ?_⟩
    · rw [mapM_cons, there, mapped]
      rfl
    · rw [foldlM_cons, once]
      exact folded

theorem foldlM_of_reads {β σ : Type} {read : α → Except Stop β} {round : σ → β → Except Stop σ}
    {values : List β} (mapped : items.mapM read = .ok values) (start : σ) :
    items.foldlM (fun state item => (read item).bind (round state)) start = values.foldlM round start := by
  induction items generalizing values start with
  | nil =>
    cases mapped
    rfl
  | cons item items ih =>
    rw [mapM_cons] at mapped
    obtain ⟨value, there, rest⟩ := bind_ok mapped
    obtain ⟨others, more, last⟩ := bind_ok rest
    cases last
    rw [foldlM_cons, foldlM_cons, there]
    exact congrArg _ (funext fun middle => ih more middle)

theorem scanCommand_keys {scan : Scan Addr} {command : Command × Argv} (taken : scanCommand c present scan command = .ok after) :
    ∃ keys, commandKeys command = .ok keys ∧ keys.foldlM (scanKey c present) scan = .ok after := by
  cases same : getKeysFromCommand command.1 command.2 with
  | none =>
    simp only [scanCommand, same] at taken
    cases taken
  | some found =>
    simp only [scanCommand, same] at taken
    simp only [commandKeys, same]
    exact foldlM_reads taken

theorem scanCommands_of_keys {commands : List (Command × Argv)} (found : requestKeys commands = .ok keys) (scan : Scan Addr) :
    commands.foldlM (scanCommand c present) scan = keys.foldlM (scanKey c present) scan := by
  induction commands generalizing keys scan with
  | nil =>
    cases found
    rfl
  | cons command commands ih =>
    unfold requestKeys at found ih
    rw [mapM_cons] at found
    cases first : commandKeys command with
    | error stop =>
      rw [first] at found
      cases found
    | ok here =>
      cases rest : commands.mapM commandKeys with
      | error stop =>
        rw [first, rest] at found
        cases found
      | ok others =>
        rw [first, rest] at found
        cases found
        rw [rest] at ih
        have scanned : scanCommand c present scan command = here.foldlM (scanKey c present) scan := by
          cases same : getKeysFromCommand command.1 command.2 with
          | none =>
            simp only [commandKeys, same] at first
            cases first
          | some found =>
            simp only [commandKeys, same] at first
            simp only [scanCommand, same]
            exact foldlM_of_reads first scan
        rw [foldlM_cons, scanned, flatten_cons, foldlM_append]
        exact congrArg _ (funext fun middle => ih rfl middle)

theorem scanCommands_keys {commands : List (Command × Argv)} {scan : Scan Addr}
    (taken : commands.foldlM (scanCommand c present) scan = .ok after) :
    ∃ keys, requestKeys commands = .ok keys ∧ keys.foldlM (scanKey c present) scan = .ok after := by
  induction commands generalizing scan with
  | nil => exact ⟨[], rfl, taken⟩
  | cons command commands ih =>
    rw [foldlM_cons] at taken
    obtain ⟨middle, first, rest⟩ := bind_ok taken
    obtain ⟨keys, found, scanned⟩ := scanCommand_keys first
    obtain ⟨others, more, last⟩ := ih rest
    refine ⟨keys ++ others, ?_, ?_⟩
    · unfold requestKeys at more ⊢
      rw [mapM_cons, found]
      cases mapped : commands.mapM commandKeys with
      | error stop =>
        rw [mapped] at more
        cases more
      | ok lists =>
        rw [mapped] at more
        cases more
        rfl
    · rw [foldlM_append, scanned]
      exact last

def missing (present : Key → Bool) (keys : List Key) : Nat := keys.countP fun key => !present key

structure Found (c : ClusterState Addr Name) (present : Key → Bool) (first : Key) (keys : List Key) (scan : Scan Addr) : Prop where
  firstkey : scan.firstkey = some first
  bound : ∃ n, scan.n = some n ∧ c.slots scan.slot = some n
  slot : ∀ key ∈ keys, hashSlot key = scan.slot
  head : hashSlot first = scan.slot
  migrating : scan.migratingSlot = (decide (scan.n = some c.myself) && (c.migrating scan.slot).isSome)
  missingKeys : scan.missingKeys = if scan.migratingSlot || scan.importingSlot then BitVec.ofNat 32 (missing present keys) else 0

theorem Found.count {scan : Scan Addr} (found : Found c present first keys scan) (same : hashSlot key = scan.slot) :
    Found c present first (keys ++ [key]) (Scan.countMissing present scan key) := by
  have slots : ∀ other ∈ keys ++ [key], hashSlot other = scan.slot := by
    intro other member
    obtain before | here := mem_append.1 member
    · exact found.slot other before
    · rw [mem_singleton.1 here]
      exact same
  have counted : missing present (keys ++ [key]) = missing present keys + if present key then 0 else 1 := by
    cases there : present key <;> simp [missing, countP_append, there]
  unfold Scan.countMissing
  split
  next absent =>
    simp only [Bool.and_eq_true, Bool.not_eq_true'] at absent
    refine ⟨found.firstkey, found.bound, slots, found.head, found.migrating, ?_⟩
    simp only [found.missingKeys, absent.1, if_true, counted, absent.2, Bool.false_eq_true, if_false]
    exact (BitVec.ofNat_add _ _).symm
  next other =>
    refine ⟨found.firstkey, found.bound, slots, found.head, found.migrating, ?_⟩
    cases unstable : scan.migratingSlot || scan.importingSlot with
    | false => rw [found.missingKeys, unstable]; rfl
    | true =>
      have there : present key = true := by
        rw [unstable] at other
        simpa using other
      rw [found.missingKeys, unstable, counted, there]
      rfl

theorem firstKey_found {scan : Scan Addr} (taken : firstKey c (Scan.initial Addr) key = .ok scan) : Found c present key [] scan := by
  simp only [firstKey] at taken
  split at taken
  next => cases taken
  next n bound =>
    cases taken
    refine ⟨rfl, ⟨n, rfl, bound⟩, (fun _ never => by cases never), rfl, ?_, ?_⟩
    · simp
    · simp [Scan.initial, missing]

theorem scanKey_first {scan : Scan Addr} (taken : scanKey c present (Scan.initial Addr) key = .ok scan) : Found c present key [key] scan := by
  unfold scanKey at taken
  simp only [Scan.initial] at taken
  cases found : firstKey c (Scan.initial Addr) key with
  | error stop =>
    simp only [Scan.initial] at found
    rw [found] at taken
    cases taken
  | ok middle =>
    have fresh : Found c present key [] middle := firstKey_found found
    simp only [Scan.initial] at found
    rw [found] at taken
    cases taken
    exact fresh.count fresh.head

theorem Found.scan {scan : Scan Addr} (found : Found c present first keys scan)
    (taken : scanKey c present scan key = .ok after) : Found c present first (keys ++ [key]) after := by
  unfold scanKey at taken
  rw [found.firstkey] at taken
  simp only [otherKey] at taken
  split at taken
  next same =>
    cases taken
    exact found.count (same ▸ found.head)
  next =>
    split at taken
    next => cases taken
    next same =>
      cases taken
      have flagged : Found c present first keys { scan with multipleKeys := true } :=
        ⟨found.firstkey, found.bound, found.slot, found.head, found.migrating, found.missingKeys⟩
      exact flagged.count (not_not.1 same).symm

variable {scan : Scan Addr}

theorem Found.scans {more : List Key} (found : Found c present first keys scan)
    (taken : more.foldlM (scanKey c present) scan = .ok after) : Found c present first (keys ++ more) after := by
  induction more generalizing keys scan with
  | nil =>
    cases taken
    rwa [append_nil]
  | cons key more ih =>
    rw [foldlM_cons] at taken
    obtain ⟨middle, once, rest⟩ := bind_ok taken
    have next := ih (found.scan once) rest
    rwa [append_assoc] at next

theorem scanKeys_found (taken : (first :: keys).foldlM (scanKey c present) (Scan.initial Addr) = .ok after) :
    Found c present first (first :: keys) after := by
  rw [foldlM_cons] at taken
  obtain ⟨middle, once, rest⟩ := bind_ok taken
  exact (scanKey_first once).scans rest

theorem Found.scans_total {more : List Key} (found : Found c present first keys scan)
    (same : ∀ key ∈ more, hashSlot key = scan.slot) : ∃ after, more.foldlM (scanKey c present) scan = .ok after := by
  induction more generalizing keys scan with
  | nil => exact ⟨scan, rfl⟩
  | cons key more ih =>
    have here := same key mem_cons_self
    obtain ⟨middle, once, slot⟩ : ∃ middle, scanKey c present scan key = .ok middle ∧ middle.slot = scan.slot := by
      have kept : ∀ scan : Scan Addr, (Scan.countMissing present scan key).slot = scan.slot := by
        intro scan
        unfold Scan.countMissing
        split <;> rfl
      unfold scanKey
      rw [found.firstkey]
      simp only [otherKey]
      split
      next => exact ⟨_, rfl, kept scan⟩
      next =>
        rw [if_neg (not_not.2 here.symm)]
        exact ⟨_, rfl, kept _⟩
    obtain ⟨after, rest⟩ := ih (found.scan once) fun other member => (same other (mem_cons_of_mem _ member)).trans slot.symm
    refine ⟨after, ?_⟩
    rw [foldlM_cons, once]
    exact rest

theorem scanKeys_total {n : Addr} (bound : c.slots (hashSlot first) = some n) (same : ∀ key ∈ keys, hashSlot key = hashSlot first) :
    ∃ after, (first :: keys).foldlM (scanKey c present) (Scan.initial Addr) = .ok after := by
  obtain ⟨middle, once⟩ : ∃ middle, scanKey c present (Scan.initial Addr) first = .ok middle := by
    simp only [scanKey, Scan.initial, firstKey, bound]
    exact ⟨_, rfl⟩
  have found := scanKey_first once
  obtain ⟨after, rest⟩ := found.scans_total fun key member => (same key member).trans found.head
  refine ⟨after, ?_⟩
  rw [foldlM_cons, once]
  exact rest

theorem foldlM_error {σ : Type} {round : σ → α → Except Stop σ} {start : σ} {stop : Stop}
    (stopped : items.foldlM round start = .error stop) : ∃ state item, round state item = .error stop := by
  induction items generalizing start with
  | nil => cases stopped
  | cons item items ih =>
    rw [foldlM_cons] at stopped
    cases once : round start item with
    | error other =>
      rw [once] at stopped
      cases stopped
      exact ⟨start, item, once⟩
    | ok middle =>
      rw [once] at stopped
      exact ih stopped

theorem scanKey_error {errorCode : Redirection} (stopped : scanKey c present scan key = .error (.error errorCode)) :
    errorCode = .downUnbound ∨ errorCode = .crossSlot := by
  unfold scanKey at stopped
  split at stopped
  next =>
    simp only [firstKey] at stopped
    split at stopped
    next =>
      cases stopped
      exact .inl rfl
    next => cases stopped
  next =>
    unfold otherKey at stopped
    split at stopped
    next => cases stopped
    next =>
      split at stopped
      next =>
        cases stopped
        exact .inr rfl
      next => cases stopped

theorem scanCommand_error {command : Command × Argv} {errorCode : Redirection}
    (stopped : scanCommand c present scan command = .error (.error errorCode)) : errorCode = .downUnbound ∨ errorCode = .crossSlot := by
  unfold scanCommand at stopped
  split at stopped
  next => cases stopped
  next found _ =>
    obtain ⟨state, j, once⟩ := foldlM_error stopped
    cases key : keyAt command.2 found.1 j with
    | error stop =>
      rw [key] at once
      unfold keyAt at key
      split at key
      next =>
        split at key
        next => cases key
        next =>
          cases key
          cases once
      next =>
        cases key
        cases once
    | ok key_ =>
      rw [key] at once
      exact scanKey_error once

/-- The client did not send ASKING or READONLY, nor is the command one that asks. -/
def plain (client : Client) (cmd : Command) : Bool := !client.asking && !cmd.hasFlag 'k' && !client.readonly

def InSlot (keys : List Key) (slot : Slot) : Prop := ∀ key ∈ keys, hashSlot key = slot

variable (c present) (client : Client) (cmd : Command) (argv : Argv)

structure Routed (answer : Answer Addr) : Prop where
  serves : answer.node = some c.myself → plain client cmd = true →
    ∃ keys, requestKeys (executed client cmd argv) = .ok keys ∧
      (keys = [] ∨ ∃ slot, InSlot keys slot ∧ c.slots slot = some c.myself ∧
        ((c.migrating slot).isSome = true → ∀ key ∈ keys, present key = true))
  moved : answer.errorCode = .moved →
    ∃ keys slot, requestKeys (executed client cmd argv) = .ok keys ∧ keys ≠ [] ∧ InSlot keys slot ∧
      answer.hashslot = some slot ∧ answer.node = c.slots slot ∧ answer.node.isSome = true
  ask : answer.errorCode = .ask →
    ∃ keys slot, requestKeys (executed client cmd argv) = .ok keys ∧ InSlot keys slot ∧ answer.hashslot = some slot ∧
      answer.node = c.migrating slot ∧ answer.node.isSome = true ∧ ∃ key ∈ keys, present key = false
  oneSlot : answer.node = some c.myself → ∀ keys, requestKeys (executed client cmd argv) = .ok keys →
    ∀ first ∈ keys, ∀ second ∈ keys, hashSlot first = hashSlot second

/-- Where this node migrates the slot of the keys and some are missing, the slot goes to another node and their number
does not make an int zero again. -/
def MissingRedirected : Prop :=
  ∀ keys slot target, requestKeys (executed client cmd argv) = .ok keys → InSlot keys slot → c.slots slot = some c.myself →
    c.migrating slot = some target → plain client cmd = true → missing present keys ≠ 0 →
    missing present keys % 2 ^ 32 ≠ 0 ∧ target ≠ c.myself

variable {c present client cmd argv}

theorem missing_zero : missing present keys = 0 ↔ ∀ key ∈ keys, present key = true := by
  simp [missing, countP_eq_zero]

theorem getNodeByQuery_cases {result : Answer Addr} (returned : getNodeByQuery c present client cmd argv = some result) :
    (∃ keys scan, requestKeys (executed client cmd argv) = .ok keys ∧ result = answer c client cmd scan ∧
      (keys = [] ∧ scan = Scan.initial Addr ∨ ∃ first, first ∈ keys ∧ Found c present first keys scan)) ∨
    (result.node = none ∧ (result.errorCode = .downUnbound ∨ result.errorCode = .crossSlot)) := by
  unfold getNodeByQuery at returned
  unfold executed
  split at returned
  next outside =>
    cases returned
    rw [if_pos outside]
    exact .inl ⟨[], Scan.initial Addr, rfl, rfl, .inl ⟨rfl, rfl⟩⟩
  next inside =>
    rw [if_neg inside]
    split at returned
    next scan looped =>
      cases returned
      obtain ⟨keys, found, scanned⟩ := scanCommands_keys looped
      refine .inl ⟨keys, scan, found, rfl, ?_⟩
      cases keys with
      | nil =>
        cases scanned
        exact .inl ⟨rfl, rfl⟩
      | cons first rest => exact .inr ⟨first, mem_cons_self, scanKeys_found scanned⟩
    next errorCode stopped =>
      cases returned
      obtain ⟨state, command, once⟩ := foldlM_error stopped
      exact .inr ⟨rfl, scanCommand_error once⟩
    next => cases returned

theorem Found.counts (found : Found c present first keys scan)
    (migrates : scan.migratingSlot = true) : scan.missingKeys = BitVec.ofNat 32 (missing present keys) := by
  rw [found.missingKeys, migrates]
  rfl

theorem ofNat_ne_zero {n : Nat} : BitVec.ofNat 32 n ≠ 0 ↔ n % 2 ^ 32 ≠ 0 := by
  rw [Ne, ← BitVec.toNat_inj, BitVec.toNat_ofNat]
  rfl

theorem answer_plain {n : Addr} (bound : scan.n = some n) (easy : plain client cmd = true) : answer c client cmd scan =
      if scan.migratingSlot ∧ scan.missingKeys ≠ 0 then ⟨c.migrating scan.slot, some scan.slot, .ask⟩
      else ⟨some n, some scan.slot, if n ≠ c.myself then .moved else .no⟩ := by
  simp only [plain, Bool.and_eq_true, Bool.not_eq_true'] at easy
  simp [answer, bound, easy.1.1, easy.1.2, easy.2]

section
variable (found : Found c present first keys scan)
include found

theorem Found.serves
    (reported : requestKeys (executed client cmd argv) = .ok keys) (redirected : MissingRedirected c present client cmd argv)
    (easy : plain client cmd = true) (here : (answer c client cmd scan).node = some c.myself) :
    c.slots scan.slot = some c.myself ∧ ((c.migrating scan.slot).isSome = true → ∀ key ∈ keys, present key = true) := by
  obtain ⟨n, named, bound⟩ := found.bound
  have migrates := found.migrating
  rw [answer_plain named easy] at here
  split at here
  next asked =>
    -- The slot would have to migrate to this node.
    rw [migrates, Bool.and_eq_true, decide_eq_true_eq] at asked
    have owner : c.slots scan.slot = some c.myself := by rw [bound, ← named, asked.1.1]
    have several : scan.missingKeys ≠ 0 := asked.2
    rw [found.counts (by rw [migrates]; simp [asked.1]), ofNat_ne_zero] at several
    have some_ : missing present keys ≠ 0 := fun none_ => several (by rw [none_, Nat.zero_mod])
    exact absurd rfl (redirected keys scan.slot c.myself reported found.slot owner here easy some_).2
  next quiet =>
    obtain rfl : n = c.myself := Option.some.inj here
    refine ⟨bound, fun moving => missing_zero.1 ?_⟩
    have flagged : scan.migratingSlot = true := by
      rw [migrates, named, moving]
      simp
    have zero : ¬ scan.missingKeys ≠ 0 := fun more => quiet ⟨flagged, more⟩
    rw [found.counts flagged, ofNat_ne_zero, not_not] at zero
    obtain ⟨target, goes⟩ := Option.isSome_iff_exists.1 moving
    by_contra some_
    exact (redirected keys scan.slot target reported found.slot bound goes easy some_).1 zero

theorem Found.moved (moved : (answer c client cmd scan).errorCode = .moved) :
    (answer c client cmd scan).hashslot = some scan.slot ∧ (answer c client cmd scan).node = c.slots scan.slot := by
  obtain ⟨n, named, bound⟩ := found.bound
  revert moved
  simp only [answer, named]
  repeat' split
  all_goals intro moved
  all_goals first | exact ⟨rfl, bound.symm⟩ | cases moved

theorem Found.ask (asked : (answer c client cmd scan).errorCode = .ask) :
    (answer c client cmd scan).hashslot = some scan.slot ∧ (answer c client cmd scan).node = c.migrating scan.slot ∧
      (c.migrating scan.slot).isSome = true ∧ ∃ key ∈ keys, present key = false := by
  obtain ⟨n, named, bound⟩ := found.bound
  simp only [answer, named] at asked ⊢
  split at asked
  next moving =>
    rw [if_pos moving]
    have migrates := found.migrating
    rw [moving.1] at migrates
    have several := moving.2
    rw [found.counts moving.1, ofNat_ne_zero] at several
    refine ⟨rfl, rfl, (Bool.and_eq_true_iff.1 migrates.symm).2, ?_⟩
    by_contra none_
    have all : ∀ key ∈ keys, present key = true := by
      intro key member
      by_contra absent
      exact none_ ⟨key, member, Bool.eq_false_iff.2 absent⟩
    exact several (by rw [missing_zero.2 all, Nat.zero_mod])
  next =>
    repeat' split at asked
    all_goals cases asked

end

theorem routed_of_redirected {result : Answer Addr} (returned : getNodeByQuery c present client cmd argv = some result)
    (redirected : MissingRedirected c present client cmd argv) : Routed c present client cmd argv result := by
  obtain ⟨keys, scan, reported, rfl, ⟨rfl, rfl⟩ | ⟨first, member, found⟩⟩ | ⟨nowhere, failed⟩ := getNodeByQuery_cases returned
  · refine ⟨fun _ _ => ⟨[], reported, .inl rfl⟩, (fun moved => by cases moved), (fun ask => by cases ask), fun _ keys other => ?_⟩
    rw [reported] at other
    cases other
    exact fun _ never => by cases never
  · have some_ : keys ≠ [] := ne_nil_of_mem member
    refine ⟨fun here easy => ?_, fun moved => ?_, fun asked => ?_, fun _ others other => ?_⟩
    · exact ⟨keys, reported, .inr ⟨scan.slot, found.slot, found.serves reported redirected easy here⟩⟩
    · obtain ⟨hashslot, node⟩ := found.moved moved
      obtain ⟨n, _, bound⟩ := found.bound
      refine ⟨keys, scan.slot, reported, some_, found.slot, hashslot, node, ?_⟩
      rw [node, bound]
      rfl
    · obtain ⟨hashslot, node, goes, absent⟩ := found.ask asked
      exact ⟨keys, scan.slot, reported, found.slot, hashslot, node, node ▸ goes, absent⟩
    · rw [reported] at other
      cases other
      exact fun _ one _ two => (found.slot _ one).trans (found.slot _ two).symm
  · have served : ¬ result.node = some c.myself := by
      rw [nowhere]
      exact fun here => by cases here
    refine ⟨fun here => absurd here served, fun moved => ?_, fun asked => ?_, fun here => absurd here served⟩
    all_goals obtain down | cross := failed <;> simp_all

theorem served_unredirected {slot : Slot} {target : Addr} (reported : requestKeys (executed client cmd argv) = .ok keys)
    (inSlot : InSlot keys slot) (owner : c.slots slot = some c.myself) (goes : c.migrating slot = some target)
    (easy : plain client cmd = true) (some_ : keys ≠ []) (unseen : missing present keys % 2 ^ 32 = 0 ∨ target = c.myself) :
    ∃ result, getNodeByQuery c present client cmd argv = some result ∧ result.node = some c.myself := by
  have inside : ¬ (cmd = .exec ∧ !client.multi) := by
    intro outside
    rw [executed, if_pos outside] at reported
    cases reported
    exact some_ rfl
  obtain ⟨first, rest, rfl⟩ := exists_cons_of_ne_nil some_
  have head : hashSlot first = slot := inSlot first mem_cons_self
  have bound : c.slots (hashSlot first) = some c.myself := by rw [head, owner]
  obtain ⟨scan, scanned⟩ : ∃ scan, (first :: rest).foldlM (scanKey c present) (Scan.initial Addr) = .ok scan :=
    scanKeys_total bound fun key member => (inSlot key (mem_cons_of_mem _ member)).trans head.symm
  have found := scanKeys_found scanned
  have slots : scan.slot = slot := found.head.symm.trans head
  rw [executed, if_neg inside] at reported
  refine ⟨answer c client cmd scan, ?_, ?_⟩
  · rw [getNodeByQuery, if_neg inside, scanCommands_of_keys reported, scanned]
  · obtain ⟨n, named, bound⟩ := found.bound
    rw [slots, owner] at bound
    cases bound
    rw [answer_plain named easy]
    split
    next asked =>
      obtain zero | same := unseen
      · have several := asked.2
        rw [found.counts asked.1, ofNat_ne_zero] at several
        exact absurd zero several
      · rw [slots, goes, same]
    next => rfl

/-- Every answer is right exactly when missing keys of a migrating slot are redirected to another node. -/
theorem getNodeByQuery_routes (c : ClusterState Addr Name) (present : Key → Bool) (client : Client) (cmd : Command) (argv : Argv) :
    (∀ result, getNodeByQuery c present client cmd argv = some result → Routed c present client cmd argv result) ↔
      MissingRedirected c present client cmd argv := by
  refine ⟨fun routed keys slot target reported inSlot owner goes easy some_ => ?_, fun redirected result returned =>
    routed_of_redirected returned redirected⟩
  by_contra unseen
  have nonempty : keys ≠ [] := by
    rintro rfl
    exact some_ rfl
  have unseen : missing present keys % 2 ^ 32 = 0 ∨ target = c.myself := by
    by_contra both
    exact unseen (not_or.1 both)
  obtain ⟨result, returned, here⟩ := served_unredirected reported inSlot owner goes easy nonempty unseen
  obtain ⟨others, same, none_ | ⟨other, inOther, _, all⟩⟩ := (routed result returned).serves here easy
  · rw [reported] at same
    cases same
    exact nonempty none_
  · rw [reported] at same
    cases same
    obtain ⟨key, member⟩ := exists_mem_of_ne_nil keys nonempty
    obtain rfl : slot = other := (inSlot key member).symm.trans (inOther key member)
    exact some_ (missing_zero.2 (all (by rw [goes]; rfl)))

def owning (slot : Slot) : ClusterState Nat Nat :=
  Cluster.clusterAddSlot (Cluster.clusterInit (fun _ => ⟨0, false, false, false, 0, fun _ => false, 0, [], none⟩) 0 7) 0 slot

/-- CLUSTER SETSLOT MIGRATING with the node's own name. -/
def migratingToItself (slot : Slot) : ClusterState Nat Nat :=
  { owning slot with migrating := Function.update (owning slot).migrating slot (some 0) }

theorem owning_slots (slot : Slot) : (owning slot).slots slot = some 0 := by
  simp [owning, Cluster.clusterAddSlot, Cluster.clusterInit]

theorem migratingToItself_set (slot : Slot) :
    Cluster.clusterSetSlotCommand (owning slot) slot (.migrating 7) = .ok (migratingToItself slot) := by
  have known : Cluster.clusterLookupNode (owning slot) 7 = some 0 := by
    simp only [Cluster.clusterLookupNode, owning, Cluster.clusterAddSlot, Cluster.clusterInit]
    rfl
  have owner : (owning slot).slots slot = some (owning slot).myself := owning_slots slot
  simp only [Cluster.clusterSetSlotCommand, known, owner, if_true]
  rfl

theorem migratingToItself_migrating (slot : Slot) : (migratingToItself slot).migrating slot = some 0 := by
  simp [migratingToItself]

/-- A GET of a missing key is served after that. -/
theorem getNodeByQuery_serves_missing :
    Cluster.clusterSetSlotCommand (owning (hashSlot [97])) (hashSlot [97]) (.migrating 7) = .ok (migratingToItself (hashSlot [97])) ∧
      ¬ ∀ result, getNodeByQuery (migratingToItself (hashSlot [97])) (fun _ => false) ⟨false, false, false, []⟩ .get [[103, 101, 116], [97]] =
          some result →
        Routed (migratingToItself (hashSlot [97])) (fun _ => false) ⟨false, false, false, []⟩ .get [[103, 101, 116], [97]] result := by
  have positions : getKeysFromCommand .get [[103, 101, 116], [97]] = some ([some 1], 1) := by decide
  have keys : requestKeys (executed ⟨false, false, false, []⟩ .get [[103, 101, 116], [97]]) = .ok [[97]] := by
    have here : commandKeys (.get, [[103, 101, 116], [97]]) = .ok [[97]] := by
      simp only [commandKeys, positions]
      rfl
    have only : executed ⟨false, false, false, []⟩ .get [[103, 101, 116], [97]] = [(.get, [[103, 101, 116], [97]])] := rfl
    rw [only, requestKeys, mapM_cons, here]
    rfl
  have easy : plain ⟨false, false, false, []⟩ .get = true := by decide
  have inSlot : InSlot [[97]] (hashSlot [97]) := fun key member => by rw [mem_singleton.1 member]
  generalize hashSlot [97] = slot at inSlot
  refine ⟨migratingToItself_set slot, fun routed => ?_⟩
  have owner : (migratingToItself slot).slots slot = some (migratingToItself slot).myself := owning_slots slot
  obtain ⟨result, returned, here⟩ := served_unredirected keys inSlot owner (migratingToItself_migrating slot) easy (cons_ne_nil _ _)
    (.inr rfl)
  obtain ⟨others, same, none_ | ⟨other, inOther, _, all⟩⟩ := (routed result returned).serves here easy
  · rw [keys] at same
    cases same
    exact cons_ne_nil _ _ none_
  · rw [keys] at same
    cases same
    obtain rfl : slot = other := (inSlot [97] mem_cons_self).symm.trans (inOther [97] mem_cons_self)
    exact absurd (all (by rw [migratingToItself_migrating]; rfl) [97] mem_cons_self) Bool.false_ne_true

end Cplusplus.Redis.ClusterRouting
