import Cplusplus.Library.Contents
import Cplusplus.Proofs.BlockingMissed

/-! Delivery of the elements. An element that is pushed stays in a list until a client gets
it, and the client that gets it has waited for the key longer than all others. -/

namespace Cplusplus.Redis.BlockingServer

open List

variable {κ α : Type} [DecidableEq κ]
variable {t : BlockingServer κ α} {key : Nat × κ} {value : α} {where_ : ListEnd} {before : List α}

def elements : ListObject α → List α
  | .list elements => elements
  | .other _ => []

def stored (s : BlockingServer κ α) : List α := Contents.contents elements s.dict

def delivered (s : BlockingServer κ α) : List α := s.deliveries.map Delivery.value

def element : BlockingReply κ α → Option α
  | .bulk value => some value
  | .multiBulk _ value => some value
  | _ => none

structure Honest (s : BlockingServer κ α) : Prop where
  replied : s.deliveries.map (fun delivery => (delivery.client, delivery.value)) =
    s.replies.filterMap fun reply => (element reply.2).map (reply.1, ·)
  longest : ∀ delivery ∈ s.deliveries, ∀ rival ∈ delivery.rivals, delivery.since < rival

structure Fair [DecidableEq α] (s t : BlockingServer κ α) : Prop where
  balanced : ∀ item, (stored t).count item + (delivered t).count item + s.pushed.count item =
    (stored s).count item + (delivered s).count item + t.pushed.count item
  honest : Honest s → Honest t

theorem Fair.of_eq [DecidableEq α] {s : BlockingServer κ α} (dict : t.dict = s.dict)
    (deliveries : t.deliveries = s.deliveries) (pushed : t.pushed = s.pushed) (replies : t.replies = s.replies) :
    Fair s t where
  balanced item := by rw [stored, stored, delivered, delivered, dict, deliveries, pushed]
  honest honest := ⟨by rw [deliveries, replies]; exact honest.replied, deliveries ▸ honest.longest⟩

theorem Fair.trans [DecidableEq α] {s u : BlockingServer κ α} (first : Fair s t) (second : Fair t u) : Fair s u where
  balanced item := by
    have before := first.balanced item
    have after := second.balanced item
    omega
  honest honest := second.honest (first.honest honest)

variable {reply : BlockingReply κ α}

theorem addReply_fair [DecidableEq α] (s : BlockingServer κ α) (id : Nat) (none : element reply = none) : Fair s (s.addReply id reply) where
  balanced item := rfl
  honest honest := by
    refine ⟨honest.replied.trans ?_, honest.longest⟩
    simp [addReply, none]

theorem held_of_lookup {s : BlockingServer κ α} {object : ListObject α} (found : s.dict.lookup key = some object) :
    Contents.held elements s.dict key = elements object := by rw [Contents.held, found]; rfl

theorem dbDeleteEmpty_fair [DecidableEq α] (s : BlockingServer κ α) (key : Nat × κ) : Fair s (dbDeleteEmpty s key) := by
  rw [dbDeleteEmpty]
  split
  next empty =>
    refine ⟨fun item => ?_, fun honest => ⟨honest.replied, honest.longest⟩⟩
    have erased := Contents.count_erase elements s.dict key item
    rw [held_of_lookup empty] at erased
    have same : (stored (dbDelete s key)).count item = (stored s).count item := erased
    rw [same]
    rfl
  next => exact .of_eq rfl rfl rfl rfl

theorem listTypePush_count [DecidableEq α] (elements : List α) (value : α) (where_ : ListEnd) (item : α) :
    (listTypePush elements value where_).count item = elements.count item + [value].count item := by
  cases where_ with
  | head => rw [listTypePush, ← singleton_append, count_append, Nat.add_comm]
  | tail => rw [listTypePush, count_append]

theorem listTypePush_pop {elements rest : List α} (pop : listTypePop elements where_ = some (value, rest)) :
    listTypePush rest value where_ = elements := by
  cases elements with
  | nil => cases pop
  | cons first elements =>
    cases where_ with
    | head =>
      cases pop
      rfl
    | tail =>
      cases pop
      have last := dropLast_append_getLast (cons_ne_nil first elements)
      rw [getLast_eq_getLastD] at last
      rw [listTypePush, getLastD_cons]
      exact last

theorem dbAdd_history (s : BlockingServer κ α) (key : Nat × κ) (value : ListObject α) :
    (dbAdd s key value).deliveries = s.deliveries ∧ (dbAdd s key value).replies = s.replies ∧ (dbAdd s key value).pushed = s.pushed := by
  cases value with
  | other type => exact ⟨rfl, rfl, rfl⟩
  | list elements =>
    rw [dbAdd]
    dsimp only [signalListAsReady]
    split
    next => exact ⟨rfl, rfl, rfl⟩
    next => split <;> exact ⟨rfl, rfl, rfl⟩

theorem pushValue_fair [DecidableEq α] (s : BlockingServer κ α) (key : Nat × κ) (where_ : ListEnd) (value : α) :
    Fair s (pushValue key where_ s value) := by
  rw [pushValue]
  split
  next none =>
    obtain ⟨deliveries, replies, pushed⟩ := dbAdd_history s key (.list [])
    refine ⟨fun item => ?_, fun honest => ⟨?_, ?_⟩⟩
    · have inserted := Contents.count_insert elements (s.dict.insert key (.list [])) key item (.list (listTypePush [] value where_))
      have added := Contents.count_insert elements s.dict key item (.list [])
      have held : Contents.held elements (s.dict.insert key (.list [])) key = [] := by rw [Contents.held, AList.lookup_insert]; rfl
      have nothing : Contents.held elements s.dict key = [] := by rw [Contents.held, none]; rfl
      have count := listTypePush_count [] value where_ item
      have dict : stored (((dbAdd s key (.list [])).setList key (listTypePush [] value where_)).recordPush value) =
          Contents.contents elements ((s.dict.insert key (.list [])).insert key (.list (listTypePush [] value where_))) := by
        rw [stored, ← dbAdd_dict]
        rfl
      have given : delivered (((dbAdd s key (.list [])).setList key (listTypePush [] value where_)).recordPush value) = delivered s :=
        congrArg (List.map Delivery.value) deliveries
      have total : (((dbAdd s key (.list [])).setList key (listTypePush [] value where_)).recordPush value).pushed = s.pushed ++ [value] :=
        congrArg (· ++ [value]) pushed
      rw [held] at inserted
      rw [nothing] at added
      rw [dict, given, total, count_append]
      simp only [elements, count_nil, Nat.add_zero, Nat.zero_add] at inserted added count
      rw [inserted, added, count, stored]
      omega
    · exact (congrArg _ deliveries).trans (honest.replied.trans (congrArg _ replies.symm))
    · exact fun delivery member => honest.longest delivery (deliveries ▸ member)
  next before list =>
    refine ⟨fun item => ?_, fun honest => ⟨honest.replied, honest.longest⟩⟩
    have inserted := Contents.count_insert elements s.dict key item (.list (listTypePush before value where_))
    have count := listTypePush_count before value where_ item
    have total : ((s.setList key (listTypePush before value where_)).recordPush value).pushed = s.pushed ++ [value] := rfl
    have same : (stored ((s.setList key (listTypePush before value where_)).recordPush value)).count item =
        (Contents.contents elements (s.dict.insert key (.list (listTypePush before value where_)))).count item := rfl
    have given : delivered ((s.setList key (listTypePush before value where_)).recordPush value) = delivered s := rfl
    rw [held_of_lookup list] at inserted
    rw [same, given, total, count_append]
    simp only [elements] at inserted
    rw [stored]
    omega
  next => exact .of_eq rfl rfl rfl rfl

/-- An element is popped and given to a client that has waited longer than all others. -/
theorem give_fair [DecidableEq α] {s : BlockingServer κ α} {rest : List α}
    (list : s.dict.lookup key = some (.list before)) (pop : listTypePop before where_ = some (value, rest))
    (dict : t.dict = s.dict.insert key (.list rest)) (deliveries : t.deliveries = s.deliveries)
    (pushed : t.pushed = s.pushed) (replies : t.replies = s.replies) (id since : Nat)
    (gives : element reply = some value)
    (first : ∀ other, t.waitsFor key other = true → since < (t.client other).since) :
    Fair s ((t.record id key value since).addReply id reply) := by
  refine ⟨fun item => ?_, fun honest => ⟨?_, ?_⟩⟩
  · have inserted := Contents.count_insert elements s.dict key item (.list rest)
    have count := listTypePush_count rest value where_ item
    have same : stored ((t.record id key value since).addReply id reply) = Contents.contents elements (s.dict.insert key (.list rest)) :=
      congrArg (Contents.contents elements) dict
    have given : delivered ((t.record id key value since).addReply id reply) = delivered s ++ [value] := by
      rw [delivered, delivered, ← deliveries]
      exact map_append
    have total : ((t.record id key value since).addReply id reply).pushed = s.pushed := pushed
    rw [listTypePush_pop pop] at count
    rw [held_of_lookup list] at inserted
    simp only [elements] at inserted
    rw [same, given, total, count_append, stored]
    omega
  · have left : ((t.record id key value since).addReply id reply).deliveries.map (fun delivery => (delivery.client, delivery.value)) =
        s.deliveries.map (fun delivery => (delivery.client, delivery.value)) ++ [(id, value)] := by
      rw [← deliveries]
      exact map_append
    have right : ((t.record id key value since).addReply id reply).replies = s.replies ++ [(id, reply)] :=
      congrArg (· ++ [(id, reply)]) replies
    rw [left, right, filterMap_append, honest.replied]
    simp [gives]
  · intro delivery member rival waits
    have member : delivery ∈ t.deliveries ++
        [⟨id, value, since, (t.clients.filter (t.waitsFor key)).map fun other => (t.client other).since⟩] := member
    rw [deliveries, mem_append, mem_singleton] at member
    rcases member with old | rfl
    · exact honest.longest delivery old rival waits
    · obtain ⟨other, inside, rfl⟩ := List.mem_map.mp waits
      exact first other (mem_filter.mp inside).2

theorem pushValue_addReply (s : BlockingServer κ α) (key : Nat × κ) (where_ : ListEnd) (value : α) (id : Nat) (reply : BlockingReply κ α) :
    (pushValue key where_ s value).addReply id reply = pushValue key where_ (s.addReply id reply) value := by
  have dict : (s.addReply id reply).dict = s.dict := rfl
  unfold pushValue
  rw [dict]
  split
  next =>
    unfold dbAdd signalListAsReady
    dsimp only [addReply]
    split
    next => rfl
    next => split <;> rfl
  next => rfl
  next => rfl

theorem popped_first {s : BlockingServer κ α} (queues : Queues s) {receiver : Nat} {others : List Nat} (rest : List α)
    (queue : s.blockingKeys.lookup key = some (receiver :: others)) (other : Nat)
    (waits : (popped s key receiver rest).waitsFor key other = true) :
    ((popped s key receiver rest).client receiver).since < ((popped s key receiver rest).client other).since := by
  have set := (setList_keeps s key rest).queues queues
  have left := (unblockClientWaitingData_queues set receiver).listed key other
  have queue : waiting (s.setList key rest) key = receiver :: others := by
    rw [(setList_keeps s key rest).waiting, waiting, queue]
    rfl
  rw [unblockClientWaitingData_waiting set.toListed, queue, erase_cons_head] at left
  have ordered := set.ordered key
  rw [queue, pairwise_cons] at ordered
  rw [popped, unblockClientWaitingData_since, unblockClientWaitingData_since]
  exact ordered.1 other (left.mpr waits)

variable [DecidableEq α]

theorem serveFirst_fair {s : BlockingServer κ α} (queues : Queues s) (served : serveFirst s key = some t) : Fair s t := by
  obtain ⟨receiver, others, before, value, rest, queue, list, pop, serves | undone⟩ := serveFirst_cases served
  · have first := popped_first queues rest queue
    have gives {reply : BlockingReply κ α} (gives : element reply = some value) :=
      give_fair (t := popped s key receiver rest) list pop rfl rfl rfl rfl receiver _ gives first
    unfold serveClientBlockedOnList at serves
    dsimp only at serves
    split at serves
    next =>
      cases serves
      exact gives rfl
    next =>
      split at serves
      next => cases serves
      next =>
        cases serves
        unfold rpoplpushHandlePush
        dsimp only
        rw [pushValue_addReply]
        exact (gives rfl).trans (pushValue_fair _ _ .head value)
  · -- The element is put back at the end from which it was popped.
    refine ⟨fun item => ?_, fun honest => ?_⟩
    · have popped' := Contents.count_insert elements s.dict key item (.list rest)
      have back := Contents.count_insert elements (s.dict.insert key (.list rest)) key item (.list before)
      have held : Contents.held elements (s.dict.insert key (.list rest)) key = rest := by rw [Contents.held, AList.lookup_insert]; rfl
      rw [held_of_lookup list] at popped'
      rw [held] at back
      have same : stored t = Contents.contents elements ((s.dict.insert key (.list rest)).insert key (.list before)) := by
        rw [undone, listTypePush_pop pop]
        rfl
      have given : delivered t = delivered s := by rw [undone]; rfl
      have total : t.pushed = s.pushed := by rw [undone]; rfl
      simp only [elements] at popped' back
      rw [same, given, total, stored]
      omega
    · have replied : Honest ((popped s key receiver rest).addReply receiver .wrongtypeerr) :=
        (addReply_fair _ receiver rfl).honest ⟨honest.replied, honest.longest⟩
      rw [undone]
      exact ⟨replied.replied, replied.longest⟩

theorem serveReadyKey_fair {s : BlockingServer κ α} (queues : Queues s) (key : Nat × κ) : Fair s (serveReadyKey s key) := by
  have queuesErased : Queues { s with dbReadyKeys := s.dbReadyKeys.erase key } :=
    ⟨⟨queues.listed, queues.nonempty, queues.ordered, queues.keysNodup⟩, queues.idle, queues.past, queues.alive, queues.clientsNodup⟩
  have erased : Fair s { s with dbReadyKeys := s.dbReadyKeys.erase key } := .of_eq rfl rfl rfl rfl
  rw [serveReadyKey]
  dsimp only
  split
  next =>
    split
    next => exact erased.trans (dbDeleteEmpty_fair _ key)
    next clients _ =>
      refine Fair.trans ?_ (dbDeleteEmpty_fair _ key)
      exact serveClients_induct (fun _ _ queues fair first => fair.trans (serveFirst_fair queues first)) clients.length _ queuesErased erased
  next => exact erased

theorem handleClientsBlockedOnLists_fair {s : BlockingServer κ α} (queues : Queues s) (ready : Ready [] s) :
    Fair s (handleClientsBlockedOnLists s) :=
  handleClients_induct (fun _ fair => fair.trans (.of_eq rfl rfl rfl rfl))
    (fun _ key queues fair => fair.trans (serveReadyKey_fair queues key)) queues ready (.of_eq rfl rfl rfl rfl)

omit [DecidableEq α] in
theorem nobody_waits {s : BlockingServer κ α} (queues : Queues s) (lists : Lists none s) (unready : s.dbReadyKeys = ∅)
    (list : s.dict.lookup key = some (.list before)) (other : Nat) : s.waitsFor key other = false := by
  rw [← Bool.not_eq_true, ← queues.listed]
  rcases (lists key (Option.some_ne_none _) before list).2 with none | ready
  · rw [none]
    exact not_mem_nil
  · rw [unready] at ready
    cases ready

section
variable {s : BlockingServer κ α} (queues : Queues s) (lists : Lists none s) (unready : s.dbReadyKeys = ∅) (id : Nat)
include queues lists unready

theorem take_fair {rest : List α} (list : s.dict.lookup key = some (.list before))
    (pop : listTypePop before where_ = some (value, rest))
    (gives : element reply = some value) :
    Fair s (((s.setList key rest).record id key value s.clock).addReply id reply) := by
  refine give_fair (t := s.setList key rest) list pop rfl rfl rfl rfl id s.clock gives fun other waits => ?_
  have free := nobody_waits queues lists unready list other
  rw [← (setList_keeps s key rest).waitsFor, waits] at free
  cases free

theorem popGenericCommand_fair (key : κ) (where_ : ListEnd) : Fair s (popGenericCommand s id key where_) := by
  unfold popGenericCommand
  dsimp only
  split
  next => exact addReply_fair s id rfl
  next => exact addReply_fair s id rfl
  next before list =>
    split
    next => exact addReply_fair s id rfl
    next value rest pop => exact (take_fair queues lists unready id list pop rfl).trans (dbDeleteEmpty_fair _ _)

theorem rpoplpushCommand_fair (source target : κ) : Fair s (rpoplpushCommand s id source target) := by
  unfold rpoplpushCommand
  dsimp only
  split
  next => exact addReply_fair s id rfl
  next => exact addReply_fair s id rfl
  next before list =>
    split
    next => exact addReply_fair s id rfl
    next value rest pop =>
      split
      next => exact addReply_fair s id rfl
      next =>
        refine Fair.trans ?_ (dbDeleteEmpty_fair _ _)
        unfold rpoplpushHandlePush
        dsimp only
        rw [pushValue_addReply]
        exact (take_fair queues lists unready id list pop rfl).trans (pushValue_fair _ _ .head value)

theorem blockingPopKeys_fair (where_ : ListEnd) (keys : List κ) (found : blockingPopKeys s id where_ keys = some t) : Fair s t := by
  induction keys with
  | nil => cases found
  | cons key keys ih =>
    rw [blockingPopKeys] at found
    split at found
    next =>
      cases found
      exact addReply_fair s id rfl
    next => exact ih found
    next before list =>
      split at found
      next => exact ih found
      next value rest pop =>
        cases found
        exact (take_fair queues lists unready id list pop rfl).trans (dbDeleteEmpty_fair _ _)

end

theorem blockForKeys_fair {s : BlockingServer κ α} {id : Nat} (queues : Queues s) (running : Running s id) (keys : List κ)
    (target : Option κ) : Fair s (blockForKeys s id keys target) := by
  obtain ⟨⟨_, _, _, fields⟩, _⟩ := blockForKeys_fields queues running.free keys target
  rw [fields]
  exact .of_eq rfl rfl rfl rfl

theorem pushValues_fair (key : Nat × κ) (where_ : ListEnd) : ∀ (values : List α) (s : BlockingServer κ α),
    Fair s (values.foldl (pushValue key where_) s) := by
  intro values
  induction values with
  | nil => exact fun s => .of_eq rfl rfl rfl rfl
  | cons value values ih => exact fun s => (pushValue_fair s key where_ value).trans (ih _)

theorem listTypeInsert_count {refval : α} (item : α) : ∀ {before inserted : List α},
    listTypeInsert refval value where_ before = some inserted → inserted.count item = before.count item + [value].count item := by
  intro before
  induction before with
  | nil => exact fun found => nomatch found
  | cons first before ih =>
    intro inserted found
    unfold listTypeInsert at found
    split at found
    next =>
      cases where_ with
      | head =>
        cases found
        rw [← singleton_append, count_append, Nat.add_comm]
      | tail =>
        cases found
        simp only [count_cons, count_nil]
        omega
    next =>
      obtain ⟨rest, later, rfl⟩ := Option.map_eq_some_iff.mp found
      rw [count_cons, count_cons, ih later]
      omega

theorem pushxGenericCommand_fair (s : BlockingServer κ α) (id : Nat) (key : κ) (refval : Option α) (value : α) (where_ : ListEnd) :
    Fair s (pushxGenericCommand s id key refval value where_) := by
  unfold pushxGenericCommand
  dsimp only
  split
  next => exact addReply_fair s id rfl
  next => exact addReply_fair s id rfl
  next before list =>
    split
    next => exact addReply_fair s id rfl
    next inserted found =>
      refine Fair.trans (t := (s.setList ((s.client id).db, key) inserted).recordPush value)
        ⟨fun item => ?_, fun honest => ⟨honest.replied, honest.longest⟩⟩ (addReply_fair _ id rfl)
      have count : inserted.count item = before.count item + [value].count item := by
        cases refval with
        | none => exact Option.some.inj found ▸ listTypePush_count before value where_ item
        | some refval => exact listTypeInsert_count item found
      have total := Contents.count_insert elements s.dict ((s.client id).db, key) item (.list inserted)
      rw [held_of_lookup list] at total
      simp only [elements] at total
      have same : stored ((s.setList ((s.client id).db, key) inserted).recordPush value) =
          Contents.contents elements (s.dict.insert ((s.client id).db, key) (.list inserted)) := rfl
      have given : delivered ((s.setList ((s.client id).db, key) inserted).recordPush value) = delivered s := rfl
      have pushed : ((s.setList ((s.client id).db, key) inserted).recordPush value).pushed = s.pushed ++ [value] := rfl
      rw [same, given, pushed, count_append, stored]
      omega

/-- The commands that push to lists and pop from them, and SELECT. -/
def movesElements : BlockingCommand κ α → Bool
  | .push .. | .pushx .. | .pop .. | .rpoplpush .. | .blockingPop .. | .brpoplpush .. | .select _ => true
  | _ => false

theorem callBlocking_fair {s : BlockingServer κ α} {id : Nat} (queues : Queues s) (running : Running s id) (lists : Lists none s)
    (unready : s.dbReadyKeys = ∅) {cmd : BlockingCommand κ α} (moves : movesElements cmd = true) : Fair s (callBlocking id false s cmd) := by
  cases cmd with
  | push key values where_ =>
    rw [callBlocking, pushGenericCommand]
    dsimp only
    split
    next => exact addReply_fair s id rfl
    next => exact (pushValues_fair _ where_ values s).trans (addReply_fair _ id rfl)
  | pushx key refval value where_ => exact pushxGenericCommand_fair s id key refval value where_
  | pop key where_ => exact popGenericCommand_fair queues lists unready id key where_
  | rpoplpush source target => exact rpoplpushCommand_fair queues lists unready id source target
  | blockingPop key keys where_ =>
    rw [callBlocking, blockingPopGenericCommand]
    cases found : blockingPopKeys s id where_ (key :: keys) with
    | some t => exact blockingPopKeys_fair queues lists unready id where_ (key :: keys) found
    | none => exact blockForKeys_fair queues running (key :: keys) none
  | brpoplpush source target =>
    rw [callBlocking, brpoplpushCommand]
    split
    next => exact blockForKeys_fair queues running [source] (some target)
    next => exact addReply_fair s id rfl
    next => exact rpoplpushCommand_fair queues lists unready id source target
  | select dbid =>
    rw [callBlocking, selectCommand]
    split
    next => exact addReply_fair s id rfl
    next =>
      have moved : Fair s (s.modify id ({ · with db := dbid })) := .of_eq rfl rfl rfl rfl
      exact moved.trans (addReply_fair _ id rfl)
  | del | rename | move | sortStore | set | add => cases moves

def stepMoves : BlockingStep κ α → Bool
  | .command _ cmd => movesElements cmd
  | .exec _ _ | .expire _ => false
  | .connect _ | .timeout _ | .disconnect _ => true

theorem stepFine_of_moves {s : BlockingServer κ α} {step : BlockingStep κ α} (moves : stepMoves step = true) : StepFine s step := by
  cases step with
  | command id cmd =>
    intro _
    cases cmd with
    | sortStore => cases moves
    | _ => trivial
  | exec => cases moves
  | connect | timeout | disconnect | expire => trivial

theorem blockingStep_fair {s : BlockingServer κ α} (quiet : Quiet s) (lists : Lists none s) {step : BlockingStep κ α}
    (moves : stepMoves step = true) : Fair s (blockingStep s step) := by
  have same : Fair s s := .of_eq rfl rfl rfl rfl
  cases step with
  | connect id =>
    rw [blockingStep]
    split
    next => exact same
    next => exact .of_eq rfl rfl rfl rfl
  | command id cmd =>
    rw [blockingStep]
    split
    next can =>
      obtain ⟨queues, ready⟩ := callCommand_queues quiet.queues quiet.ready (running_of_canCall can) cmd
      obtain ⟨queuesStart, running⟩ := lastcmd_queues quiet.queues (running_of_canCall can) cmd.isBlpop
      have unready : s.dbReadyKeys = ∅ := by
        apply Finset.eq_empty_of_forall_notMem
        intro key member
        rw [quiet.ready.both, quiet.none] at member
        cases member
      have started : Fair s (setLastcmd s id cmd.isBlpop) := .of_eq rfl rfl rfl rfl
      exact (started.trans (callBlocking_fair queuesStart running lists unready moves)).trans (handleClientsBlockedOnLists_fair queues ready)
    next => exact same
  | exec => cases moves
  | timeout id =>
    rw [blockingStep]
    split
    next => exact (addReply_fair s id rfl).trans (.of_eq rfl rfl rfl rfl)
    next => exact same
  | disconnect id =>
    rw [blockingStep]
    split
    next =>
      dsimp only
      split <;> exact .of_eq rfl rfl rfl rfl
    next => exact same
  | expire => cases moves

theorem blockingRun_fair : ∀ (steps : List (BlockingStep κ α)) (s : BlockingServer κ α), Quiet s → Lists none s →
    (∀ step ∈ steps, stepMoves step = true) → Fair s (blockingRun s steps) := by
  intro steps
  induction steps with
  | nil => exact fun s _ _ _ => .of_eq rfl rfl rfl rfl
  | cons step steps ih =>
    intro s quiet lists moves
    have first := moves step mem_cons_self
    have next := blockingStep_lists quiet lists (stepFine_of_moves (s := s) first)
    exact (blockingStep_fair quiet lists first).trans
      (ih _ (blockingStep_quiet quiet step) next fun other later => moves other (mem_cons_of_mem _ later))

structure Inverse (s : BlockingServer κ α) : Prop where
  inverse : ∀ id db key, (∃ l, s.blockingKeys.lookup (db, key) = some l ∧ id ∈ l) ↔ (s.client id).db = db ∧ key ∈ (s.client id).keys
  once : ∀ key l, s.blockingKeys.lookup key = some l → l.Nodup ∧ l ≠ []
  keysOnce : ∀ id, (s.client id).keys.Nodup
  blocked : ∀ id, (s.client id).keys ≠ [] → id ∈ s.clients ∧ (s.client id).blocked = true

structure ReadyOnce (s : BlockingServer κ α) : Prop where
  once : s.readyKeys.Nodup
  same : ∀ key, key ∈ s.readyKeys ↔ key ∈ s.dbReadyKeys

omit [DecidableEq α] in
theorem Queues.inverse {s : BlockingServer κ α} (queues : Queues s) : Inverse s where
  inverse id db key := by
    have waits : s.waitsFor (db, key) id = true ↔ (s.client id).db = db ∧ key ∈ (s.client id).keys := waitsFor_iff
    rw [← waits, ← queues.listed, waiting]
    constructor
    · rintro ⟨l, found, member⟩
      rw [found]
      exact member
    · intro member
      cases found : s.blockingKeys.lookup (db, key) with
      | none =>
        rw [found] at member
        cases member
      | some l =>
        rw [found] at member
        exact ⟨l, rfl, member⟩
  once key l found := by
    have nodup := queues.waiting_nodup key
    rw [waiting, found] at nodup
    exact ⟨nodup, fun empty => queues.nonempty key (empty ▸ found)⟩
  keysOnce := queues.keysNodup
  blocked id some := by
    have blocked : (s.client id).blocked = true := by
      rw [← Bool.not_eq_false]
      exact fun running => some (queues.idle id running)
    exact ⟨queues.alive id blocked, blocked⟩

omit [DecidableEq α] in
theorem Ready.once {s : BlockingServer κ α} (ready : Ready [] s) : ReadyOnce s := ⟨ready.nodup, fun key => (ready.both key).symm⟩

omit [DecidableEq α] in
/-- The target of the first client has the wrong type: the client is unblocked, and the list is as it was. -/
theorem serveFirst_undone {s : BlockingServer κ α} {receiver : Nat} {others : List Nat} {target : κ} {type : ObjectType}
    (queue : s.blockingKeys.lookup key = some (receiver :: others)) (list : s.dict.lookup key = some (.list before)) (some_ : before ≠ [])
    (dstkey : (s.client receiver).target = some target) (wrong : s.dict.lookup ((s.client receiver).db, target) = some (.other type)) :
    ∃ t, serveFirst s key = some t ∧ (∀ other, t.dict.lookup other = s.dict.lookup other) ∧ t.deliveries = s.deliveries ∧
      (t.client receiver).blocked = false := by
  cases pop : listTypePop before (servedEnd (s.client receiver)) with
  | none => exact absurd (listTypePop_none pop) some_
  | some pair =>
    obtain ⟨value, rest⟩ := pair
    have client := unblockClientWaitingData_client (s.setList key rest) receiver receiver
    rw [if_pos rfl] at client
    have different : ((s.client receiver).db, target) ≠ key := by
      rintro same
      rw [same, list] at wrong
      cases wrong
    have fails : serveClientBlockedOnList (popped s key receiver rest) receiver key (some target) value = none := by
      have db : ((popped s key receiver rest).client receiver).db = (s.client receiver).db := by rw [popped, client]; rfl
      have held : (popped s key receiver rest).dict.lookup ((s.client receiver).db, target) = some (.other type) :=
        (setList_lookup_ne s key rest different).trans wrong
      have wrongTarget : wrongType (popped s key receiver rest) ((s.client receiver).db, target) = true := by rw [wrongType, held]
      rw [serveClientBlockedOnList, db, if_pos wrongTarget]
    refine ⟨((popped s key receiver rest).addReply receiver .wrongtypeerr).setList key before, ?_, ?_, rfl, congrArg BlockingClient.blocked client⟩
    · unfold serveFirst
      rw [queue, list]
      dsimp only
      rw [pop]
      dsimp only
      rw [← popped, dstkey, fails, listTypePush_pop pop]
    · intro other
      by_cases same : other = key
      · rw [same, list]
        exact AList.lookup_insert _
      · exact (setList_lookup_ne _ key before same).trans (setList_lookup_ne s key rest same)

/-- Blocking pops: both sides of each queue agree after every command; elements are given once, to the client that
has waited longest, or stay in lists; and an element is put back where it was if the target has the wrong type. -/
theorem blocking_pops_deliver (loaded : LoadedKeys κ α) (dbnum : Nat) (steps : List (BlockingStep κ α)) :
    let s := blockingRun (loaded.start dbnum) steps
    Inverse s ∧ ReadyOnce s ∧
      (∀ id cmd, canCall s id = true → Inverse (callCommand s id cmd) ∧ ReadyOnce (callCommand s id cmd)) ∧
      (∀ id commands, canCall s id = true → Inverse (callTransaction s id commands) ∧ ReadyOnce (callTransaction s id commands)) ∧
      ((∀ step ∈ steps, stepMoves step = true) →
        (stored s ++ delivered s).Perm (stored (loaded.start dbnum) ++ s.pushed) ∧ Honest s) ∧
      ∀ (t : BlockingServer κ α) key receiver others before target type, t.blockingKeys.lookup key = some (receiver :: others) →
        t.dict.lookup key = some (.list before) → before ≠ [] → (t.client receiver).target = some target →
          t.dict.lookup ((t.client receiver).db, target) = some (.other type) →
            ∃ u, serveFirst t key = some u ∧ (∀ other, u.dict.lookup other = t.dict.lookup other) ∧ u.deliveries = t.deliveries ∧
              (u.client receiver).blocked = false := by
  intro s
  have quiet := blockingRun_quiet steps _ (quiet_start loaded dbnum)
  refine ⟨quiet.queues.inverse, quiet.ready.once, ?_, ?_, ?_, ?_⟩
  · intro id cmd can
    obtain ⟨queues, ready⟩ := callCommand_queues quiet.queues quiet.ready (running_of_canCall can) cmd
    exact ⟨queues.inverse, ready.once⟩
  · intro id commands can
    obtain ⟨queues, ready⟩ := callTransaction_ready quiet.queues quiet.ready (running_of_canCall can) commands
    exact ⟨queues.inverse, ready.once⟩
  · intro moves
    have fair : Fair (loaded.start dbnum) s := blockingRun_fair steps _ (quiet_start loaded dbnum) (lists_start loaded dbnum) moves
    obtain ⟨balanced, honest⟩ := fair
    refine ⟨?_, honest ⟨rfl, fun delivery member => absurd member not_mem_nil⟩⟩
    apply perm_iff_count.mpr
    intro item
    have total := balanced item
    have none : (delivered (loaded.start dbnum)).count item = 0 := rfl
    have start : (loaded.start dbnum).pushed.count item = 0 := rfl
    rw [count_append, count_append]
    omega
  · exact fun t key receiver others before target type queue list some_ dstkey wrong =>
      serveFirst_undone queue list some_ dstkey wrong

/-- One client waits with BLPOP and one with BRPOPLPUSH, whose target is a string; then a value is pushed for each. -/
theorem blocking_pops_deliver_pushed :
    let steps : List (BlockingStep Nat Nat) := [.connect 0, .connect 1, .connect 2, .command 0 (.blockingPop 5 [6] .head),
      .command 1 (.brpoplpush 6 7), .command 2 (.push 5 [1] .tail)]
    let s := blockingRun (emptyKeys.start 16) steps
    let set := callCommand s 2 (.set 7)
    let t := callCommand set 2 (.push 6 [2] .tail)
    delivered s = [1] ∧ (stored s ++ delivered s).Perm s.pushed ∧ Honest s ∧ Inverse set ∧ Inverse (callTransaction s 2 [.set 7, .push 6 [2] .tail]) ∧
      ∃ u, serveFirst t (0, 6) = some u ∧ u.dict.lookup (0, 6) = some (.list [2]) := by
  intro steps s set t
  obtain ⟨_, _, command, transaction, moves, back⟩ := blocking_pops_deliver emptyKeys 16 steps
  obtain ⟨perm, honest⟩ := moves (by decide)
  obtain ⟨u, served, dict, _⟩ := back t (0, 6) 1 [] [2] 7 .string rfl rfl (by decide) rfl rfl
  exact ⟨rfl, perm, honest, (command 2 (.set 7) rfl).1, (transaction 2 _ rfl).1, u, served, (dict (0, 6)).trans rfl⟩

end Cplusplus.Redis.BlockingServer
