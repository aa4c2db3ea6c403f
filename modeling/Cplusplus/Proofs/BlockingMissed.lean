import Cplusplus.Proofs.BlockingServe

/-! Blocking pops miss no data as long as no list is stored over an object of another type
that has clients waiting: `dbOverwrite` does not signal the key. -/

namespace Cplusplus.Redis.BlockingServer

open List Option

variable {κ α : Type} [DecidableEq κ]
variable {s t : BlockingServer κ α} {key : Nat × κ} {current : Option (Nat × κ)}

def Fine (s : BlockingServer κ α) (key : Nat × κ) : Prop :=
  ∀ elements, s.dict.lookup key = some (.list elements) → elements ≠ [] ∧ (waiting s key = [] ∨ key ∈ s.dbReadyKeys)

def Lists (current : Option (Nat × κ)) (s : BlockingServer κ α) : Prop := ∀ key, some key ≠ current → Fine s key

theorem Fine.of_keeps (fine : Fine s key) (keeps : Keeps s t) (lookup : t.dict.lookup key = s.dict.lookup key) : Fine t key := by
  intro elements list
  obtain ⟨nonempty, waits⟩ := fine elements (lookup ▸ list)
  refine ⟨nonempty, ?_⟩
  rw [keeps.waiting]
  exact waits.imp_right fun member => keeps.signals member

theorem Lists.change (lists : Lists current s) (key : Nat × κ) (keeps : Keeps s t)
    (others : ∀ other, other ≠ key → t.dict.lookup other = s.dict.lookup other) (here : some key ≠ current → Fine t key) :
    Lists current t := by
  intro other different
  by_cases same : other = key
  · subst same
    exact here different
  · exact (lists other different).of_keeps keeps (others other same)

theorem Lists.same (lists : Lists current s) (keeps : Keeps s t) (dict : t.dict = s.dict) : Lists current t :=
  fun key different => (lists key different).of_keeps keeps (by rw [dict])

theorem fine_of_none (none : s.dict.lookup key = none) : Fine s key := by
  intro elements list
  rw [none] at list
  cases list

section
variable (s)

section
variable (key)

theorem setList_lookup_ne (elements : List α) {other : Nat × κ} (different : other ≠ key) :
    (s.setList key elements).dict.lookup other = s.dict.lookup other := AList.lookup_insert_ne different

theorem signalListAsReady_dict : (signalListAsReady s key).dict = s.dict := by
  rw [signalListAsReady]
  split
  next => rfl
  next => split <;> rfl

theorem dbAdd_dict (value : ListObject α) : (dbAdd s key value).dict = s.dict.insert key value := by
  cases value with
  | list elements => exact signalListAsReady_dict _ key
  | other type => rfl

theorem dbAdd_ready (elements : List α) :
    waiting (dbAdd s key (.list elements)) key = [] ∨ key ∈ (dbAdd s key (.list elements)).dbReadyKeys := by
  rw [(dbAdd_keeps s key (.list elements)).waiting]
  exact signalListAsReady_ready { s with dict := s.dict.insert key (.list elements) } key

end

end

theorem dbAdd_lists (lists : Lists current s) (key : Nat × κ) {value : ListObject α} (nonempty : value ≠ .list []) :
    Lists current (dbAdd s key value) := by
  apply lists.change key (dbAdd_keeps s key value)
  · intro other different
    rw [dbAdd_dict, AList.lookup_insert_ne different]
  · intro _ elements list
    rw [dbAdd_dict, AList.lookup_insert, some_inj] at list
    subst list
    exact ⟨fun empty => nonempty (empty ▸ rfl), dbAdd_ready s key elements⟩

theorem dbDelete_lists (lists : Lists current s) (key : Nat × κ) : Lists current (dbDelete s key) := by
  apply lists.change key (dbDelete_keeps s key)
  · exact fun other different => AList.lookup_erase_ne different
  · exact fun _ => fine_of_none (AList.lookup_erase key s.dict)

theorem setList_lists (lists : Lists none s) (key : Nat × κ) (elements : List α) : Lists (some key) (s.setList key elements) := by
  intro other different
  have different : other ≠ key := fun same => different (congrArg some same)
  exact (lists other (some_ne_none _)).of_keeps (setList_keeps s key elements) (setList_lookup_ne s key elements different)

theorem setList_current (lists : Lists (some key) s) (elements : List α) : Lists (some key) (s.setList key elements) :=
  lists.change key (setList_keeps s key elements) (fun _ different => setList_lookup_ne s key elements different)
    fun different => absurd rfl different

theorem listTypePush_ne_nil (elements : List α) (value : α) (where_ : ListEnd) : listTypePush elements value where_ ≠ [] := by
  cases where_ with
  | head => exact cons_ne_nil _ _
  | tail => exact append_ne_nil_of_right_ne_nil _ (cons_ne_nil _ _)

theorem setList_keep {before elements : List α} (lists : Lists current s) (held : s.dict.lookup key = some (.list before))
    (nonempty : elements ≠ []) : Lists current (s.setList key elements) := by
  apply lists.change key (setList_keeps s key elements)
  · exact fun other different => setList_lookup_ne s key elements different
  · intro different after list
    have set : (s.setList key elements).dict.lookup key = some (.list elements) := AList.lookup_insert _
    cases set.symm.trans list
    exact ⟨nonempty, (lists key different before held).2⟩

theorem pushValue_lists (lists : Lists current s) (key : Nat × κ) (where_ : ListEnd) (value : α) :
    Lists current (pushValue key where_ s value) := by
  rw [pushValue]
  split
  next none =>
    have added := dbAdd_keeps s key (.list [])
    have set := setList_keeps (dbAdd s key (.list [])) key (listTypePush [] value where_)
    apply lists.change key ((added.trans set).trans (recordPush_keeps _ value))
    · intro other different
      exact (setList_lookup_ne _ key _ different).trans (by rw [dbAdd_dict, AList.lookup_insert_ne different])
    · intro _ elements list
      have pushed : (dbAdd s key (.list []) |>.setList key (listTypePush [] value where_)).dict.lookup key =
          some (.list (listTypePush [] value where_)) := AList.lookup_insert _
      cases pushed.symm.trans list
      exact ⟨listTypePush_ne_nil _ value where_, dbAdd_ready s key []⟩
  next elements held => exact (setList_keep lists held (listTypePush_ne_nil elements value where_)).same (recordPush_keeps _ value) rfl
  next => exact lists

/-- When the key that was served is not an empty list, and nobody waits for it or it is ready, all keys are fine again. -/
theorem dbDeleteEmpty_lists (lists : Lists (some key) s)
    (served : ∀ elements, s.dict.lookup key = some (.list elements) → elements ≠ [] → waiting s key = [] ∨ key ∈ s.dbReadyKeys) :
    Lists none (dbDeleteEmpty s key) := by
  have keeps := dbDeleteEmpty_keeps s key
  intro other _
  by_cases same : other = key
  · subst same
    rw [dbDeleteEmpty]
    split
    next => exact fine_of_none (AList.lookup_erase other s.dict)
    next some =>
      intro elements list
      have nonempty : elements ≠ [] := by
        rintro rfl
        exact some list
      exact ⟨nonempty, served elements list nonempty⟩
  · have lookup : (dbDeleteEmpty s key).dict.lookup other = s.dict.lookup other := by
      rw [dbDeleteEmpty]
      split
      next => exact AList.lookup_erase_ne same
      next => rfl
    exact (lists other fun eq => same (some.inj eq)).of_keeps keeps lookup

theorem foldl_lists {β : Type} {step : BlockingServer κ α → β → BlockingServer κ α}
    (keeps : ∀ s item, Lists current s → Lists current (step s item)) :
    ∀ (items : List β) (s : BlockingServer κ α), Lists current s → Lists current (items.foldl step s) := by
  intro items
  induction items with
  | nil => exact fun s lists => lists
  | cons item items ih => exact fun s lists => ih _ (keeps s item lists)

theorem addReply_lists (lists : Lists current s) (id : Nat) (reply : BlockingReply κ α) :
    Lists current (s.addReply id reply) := lists.same (addReply_keeps s id reply) rfl

theorem pushGenericCommand_lists (lists : Lists none s) (id : Nat) (key : κ) (values : List α) (where_ : ListEnd) :
    Lists none (pushGenericCommand s id key values where_) := by
  unfold pushGenericCommand
  dsimp only
  split
  next => exact addReply_lists lists id _
  next => exact addReply_lists (foldl_lists (fun s value lists => pushValue_lists lists _ where_ value) values s lists) id _

theorem listTypeInsert_ne_nil [DecidableEq α] {refval value : α} {where_ : ListEnd} {elements inserted : List α}
    (found : listTypeInsert refval value where_ elements = some inserted) : inserted ≠ [] := by
  cases elements with
  | nil => cases found
  | cons element elements =>
    unfold listTypeInsert at found
    split at found
    next => cases where_ <;> cases found <;> exact cons_ne_nil _ _
    next =>
      obtain ⟨rest, _, rfl⟩ := map_eq_some_iff.mp found
      exact cons_ne_nil _ _

theorem pushxGenericCommand_lists [DecidableEq α] (lists : Lists none s) (id : Nat) (key : κ) (refval : Option α)
    (value : α) (where_ : ListEnd) : Lists none (pushxGenericCommand s id key refval value where_) := by
  unfold pushxGenericCommand
  dsimp only
  split
  next => exact addReply_lists lists id _
  next => exact addReply_lists lists id _
  next elements held =>
    split
    next => exact addReply_lists lists id _
    next inserted found =>
      have nonempty : inserted ≠ [] := by
        cases refval with
        | none => exact some.inj found ▸ listTypePush_ne_nil elements value where_
        | some refval => exact listTypeInsert_ne_nil found
      exact addReply_lists ((setList_keep lists held nonempty).same (recordPush_keeps _ value) rfl) id _

theorem dbDeleteEmpty_of_keeps {before : List α} (lists : Lists none s) (held : s.dict.lookup key = some (.list before))
    (keeps : Keeps s t) (after : Lists (some key) t) : Lists none (dbDeleteEmpty t key) := by
  apply dbDeleteEmpty_lists after
  intro _ _ _
  rw [keeps.waiting]
  exact (lists key (some_ne_none key) before held).2.imp_right fun member => keeps.signals member

theorem popped_lists {before : List α} (lists : Lists none s) (held : s.dict.lookup key = some (.list before))
    (id : Nat) (value : α) (rest : List α) (reply : BlockingReply κ α) :
    Lists none (dbDeleteEmpty (((s.setList key rest).record id key value s.clock).addReply id reply) key) := by
  have recorded := record_keeps (s.setList key rest) id key value s.clock
  have keeps := ((setList_keeps s key rest).trans recorded).trans (addReply_keeps _ id reply)
  exact dbDeleteEmpty_of_keeps lists held keeps (addReply_lists ((setList_lists lists key rest).same recorded rfl) id reply)

theorem popGenericCommand_lists (lists : Lists none s) (id : Nat) (key : κ) (where_ : ListEnd) :
    Lists none (popGenericCommand s id key where_) := by
  unfold popGenericCommand
  dsimp only
  split
  next => exact addReply_lists lists id _
  next => exact addReply_lists lists id _
  next elements held =>
    split
    next => exact addReply_lists lists id _
    next => exact popped_lists lists held id _ _ _

theorem rpoplpushHandlePush_lists (lists : Lists current s) (id : Nat) (dstkey : κ) (value : α) :
    Lists current (rpoplpushHandlePush s id dstkey value) :=
  addReply_lists (pushValue_lists lists _ .head value) id _

theorem rpoplpushCommand_lists (lists : Lists none s) (id : Nat) (source target : κ) : Lists none (rpoplpushCommand s id source target) := by
  unfold rpoplpushCommand
  dsimp only
  split
  next => exact addReply_lists lists id _
  next => exact addReply_lists lists id _
  next elements held =>
    split
    next => exact addReply_lists lists id _
    next value rest _ =>
      split
      next => exact addReply_lists lists id _
      next =>
        have recorded := record_keeps (s.setList ((s.client id).db, source) rest) id ((s.client id).db, source) value s.clock
        have keeps := ((setList_keeps s _ rest).trans recorded).trans (rpoplpushHandlePush_keeps _ id target value)
        exact dbDeleteEmpty_of_keeps lists held keeps
          (rpoplpushHandlePush_lists ((setList_lists lists _ rest).same recorded rfl) id target value)

theorem blockingPopKeys_lists (lists : Lists none s) (id : Nat) (where_ : ListEnd) {keys : List κ}
    (found : blockingPopKeys s id where_ keys = some t) : Lists none t := by
  induction keys with
  | nil => cases found
  | cons key keys ih =>
    rw [blockingPopKeys] at found
    split at found
    next =>
      cases found
      exact addReply_lists lists id _
    next => exact ih found
    next elements held =>
      split at found
      next => exact ih found
      next =>
        cases found
        exact popped_lists lists held id _ _ _

theorem blockForKeys_lists {id : Nat} {keys : List κ} (queues : Queues s) (running : Running s id) (lists : Lists none s)
    (empty : NoElements s (s.client id).db keys) (target : Option κ) : Lists none (blockForKeys s id keys target) := by
  obtain ⟨⟨_, _, _, fields⟩, waits⟩ := blockForKeys_fields queues running.free keys target
  intro key different elements list
  have dict : (blockForKeys s id keys target).dict = s.dict := by rw [fields]
  have ready : (blockForKeys s id keys target).dbReadyKeys = s.dbReadyKeys := by rw [fields]
  rw [dict] at list
  obtain ⟨nonempty, before⟩ := lists key different elements list
  refine ⟨nonempty, ?_⟩
  rw [ready]
  rcases waits key with same | ⟨db, member⟩
  · rwa [same]
  · have key_eq : key = ((s.client id).db, key.2) := Prod.ext db rfl
    rw [key_eq] at list
    exact absurd (empty key.2 member elements list) nonempty

theorem setKey_lists (lists : Lists none s) (key : Nat × κ) {value : ListObject α}
    (overwrites : ∀ elements, value = .list elements → elements ≠ [] ∧
      ∀ type, s.dict.lookup key = some (.other type) → waiting s key = [] ∨ key ∈ s.dbReadyKeys) : Lists none (setKey s key value) := by
  rw [setKey]
  split
  next =>
    apply dbAdd_lists lists key
    rintro rfl
    exact (overwrites [] rfl).1 rfl
  next object held =>
    apply lists.change key (dbOverwrite_keeps s key value)
    · exact fun other different => AList.lookup_insert_ne different
    · intro _ elements list
      have set : (dbOverwrite s key value).dict.lookup key = some value := AList.lookup_insert _
      cases set.symm.trans list
      refine ⟨(overwrites elements rfl).1, ?_⟩
      cases object with
      | list before => exact (lists key (some_ne_none key) before held).2
      | other type => exact (overwrites elements rfl).2 type held

theorem renameGenericCommand_lists (lists : Lists none s) (id : Nat) (source target : κ) (nx : Bool) :
    Lists none (renameGenericCommand s id source target nx) := by
  unfold renameGenericCommand
  dsimp only
  split
  next => exact addReply_lists lists id _
  next =>
    split
    next => exact addReply_lists lists id _
    next object held =>
      split
      next => exact addReply_lists lists id _
      next =>
        have nonempty : object ≠ .list [] := by
          rintro rfl
          exact (lists _ (some_ne_none _) [] held).1 rfl
        exact addReply_lists (dbDelete_lists (dbAdd_lists (dbDelete_lists lists _) _ nonempty) _) id _

theorem moveCommand_lists (lists : Lists none s) (id : Nat) (key : κ) (dbid : Nat) : Lists none (moveCommand s id key dbid) := by
  unfold moveCommand
  dsimp only
  split
  next => exact addReply_lists lists id _
  next =>
    split
    next => exact addReply_lists lists id _
    next =>
      split
      next => exact addReply_lists lists id _
      next object held =>
        split
        next => exact addReply_lists lists id _
        next =>
          have nonempty : object ≠ .list [] := by
            rintro rfl
            exact (lists _ (some_ne_none _) [] held).1 rfl
          exact addReply_lists (dbDelete_lists (dbAdd_lists lists _ nonempty) _) id _

def CommandFine (s : BlockingServer κ α) (id : Nat) : BlockingCommand κ α → Prop
  | .sortStore key storekey sorted =>
    ∀ source type, s.dict.lookup ((s.client id).db, key) = some source → source ≠ .other .string → source ≠ .other .hash →
      sorted ≠ [] → s.dict.lookup ((s.client id).db, storekey) = some (.other type) →
        s.blockingKeys.lookup ((s.client id).db, storekey) = none ∨ ((s.client id).db, storekey) ∈ s.dbReadyKeys
  | _ => True

theorem sortStoreCommand_lists (lists : Lists none s) (id : Nat) (key storekey : κ) (sorted : List α)
    (fine : CommandFine s id (.sortStore key storekey sorted)) : Lists none (sortStoreCommand s id key storekey sorted) := by
  unfold sortStoreCommand
  dsimp only
  split
  next => exact addReply_lists lists id _
  next => exact addReply_lists lists id _
  next => exact addReply_lists (dbDelete_lists lists _) id _
  next source notString notHash held =>
    apply addReply_lists
    split
    next => exact dbDelete_lists lists _
    next nonempty =>
      apply setKey_lists lists
      intro elements eq
      cases eq
      refine ⟨nonempty, fun type other => ?_⟩
      refine (fine source type held notString notHash nonempty other).imp_left fun none => ?_
      rw [waiting, none]
      rfl

theorem addCommand_lists (lists : Lists none s) (id : Nat) (key : κ) (type : ObjectType) (reply : Nat) :
    Lists none (addCommand s id key type reply) := by
  unfold addCommand
  dsimp only
  split
  next => exact addReply_lists (dbAdd_lists lists _ (by simp)) id _
  next => exact addReply_lists lists id _
  next => exact addReply_lists lists id _

theorem callBlocking_lists [DecidableEq α] {id : Nat} (queues : Queues s) (running : Running s id) (lists : Lists none s) (multi : Bool)
    {cmd : BlockingCommand κ α} (fine : CommandFine s id cmd) : Lists none (callBlocking id multi s cmd) := by
  cases cmd with
  | push key values where_ => exact pushGenericCommand_lists lists id key values where_
  | pushx key refval value where_ => exact pushxGenericCommand_lists lists id key refval value where_
  | pop key where_ => exact popGenericCommand_lists lists id key where_
  | rpoplpush source target => exact rpoplpushCommand_lists lists id source target
  | blockingPop key keys where_ =>
    have cases := blockingPopKeys_cases s id where_ (key :: keys)
    rw [callBlocking, blockingPopGenericCommand]
    cases found : blockingPopKeys s id where_ (key :: keys) with
    | some t => exact blockingPopKeys_lists lists id where_ found
    | none =>
      rw [found] at cases
      cases multi with
      | true => exact addReply_lists lists id _
      | false => exact blockForKeys_lists queues running lists cases none
  | brpoplpush source target =>
    rw [callBlocking, brpoplpushCommand]
    split
    next none =>
      cases multi with
      | true => exact addReply_lists lists id _
      | false =>
        apply blockForKeys_lists queues running lists
        intro key member elements list
        rw [mem_singleton.mp member, none] at list
        cases list
    next => exact addReply_lists lists id _
    next => exact rpoplpushCommand_lists lists id source target
  | del keys => exact addReply_lists (foldl_lists (fun s key lists => dbDelete_lists lists key) _ s lists) id _
  | rename source target nx => exact renameGenericCommand_lists lists id source target nx
  | move key dbid => exact moveCommand_lists lists id key dbid
  | sortStore key storekey sorted => exact sortStoreCommand_lists lists id key storekey sorted fine
  | set key =>
    apply addReply_lists
    apply setKey_lists lists
    intro elements eq
    cases eq
  | add key type reply => exact addCommand_lists lists id key type reply
  | select dbid =>
    rw [callBlocking, selectCommand]
    split
    next => exact addReply_lists lists id _
    next => exact fun key different elements list => lists key different elements list

theorem unblock_lists (listed : Listed s) (lists : Lists current s) (id : Nat) : Lists current (unblockClientWaitingData s id) := by
  intro key different elements list
  obtain ⟨nonempty, waits⟩ := lists key different elements list
  refine ⟨nonempty, waits.imp_left fun none => ?_⟩
  rw [unblockClientWaitingData_waiting listed, none]
  rfl

theorem serveClientBlockedOnList_lists {receiver : Nat} {dstkey : Option κ} {value : α} (lists : Lists current s)
    (served : serveClientBlockedOnList s receiver key dstkey value = some t) : Lists current t := by
  have recorded : Lists current (s.record receiver key value (s.client receiver).since) := lists.same (record_keeps s receiver key value _) rfl
  unfold serveClientBlockedOnList at served
  dsimp only at served
  split at served
  next =>
    cases served
    exact addReply_lists recorded receiver _
  next =>
    split at served
    next => cases served
    next =>
      cases served
      exact rpoplpushHandlePush_lists recorded receiver _ value

theorem serveFirst_lists (queues : Queues s) (lists : Lists (some key) s) (served : serveFirst s key = some t) : Lists (some key) t := by
  obtain ⟨receiver, _, _, value, rest, _, _, _, serves | undone⟩ := serveFirst_cases served
  all_goals
    have listed := ((setList_keeps s key rest).queues queues).toListed
    have left : Lists (some key) (popped s key receiver rest) := unblock_lists listed (setList_current lists rest) receiver
  · exact serveClientBlockedOnList_lists left serves
  · rw [undone]
    exact setList_current (addReply_lists left receiver _) _

theorem serveFirst_none {elements : List α} (ended : serveFirst s key = none)
    (list : s.dict.lookup key = some (.list elements)) (nonempty : elements ≠ []) : waiting s key = [] := by
  rw [waiting]
  cases queue : s.blockingKeys.lookup key with
  | none => rfl
  | some l =>
    cases l with
    | nil => rfl
    | cons receiver others =>
      cases pop : listTypePop elements (servedEnd (s.client receiver)) with
      | none => exact absurd (listTypePop_none pop) nonempty
      | some pair =>
        rw [serveFirst, queue, list] at ended
        dsimp only at ended
        rw [pop] at ended
        cases serves : serveClientBlockedOnList (unblockClientWaitingData (s.setList key pair.2) receiver) receiver key
            (s.client receiver).target pair.1 with
        | none => simp [serves] at ended
        | some t => simp [serves] at ended

theorem serveClients_done : ∀ (numclients : Nat) (s : BlockingServer κ α), Queues s →
    (waiting s key).length ≤ numclients → ∀ elements, (serveClients key numclients s).dict.lookup key = some (.list elements) →
      elements ≠ [] → waiting (serveClients key numclients s) key = [] := by
  intro numclients
  induction numclients with
  | zero => exact fun s _ length _ _ _ => length_eq_zero_iff.mp (Nat.le_zero.mp length)
  | succ numclients ih =>
    intro s queues length elements
    rw [serveClients]
    split
    next ended => exact serveFirst_none ended
    next t first =>
      obtain ⟨served, _, tail⟩ := serveFirst_served queues first
      apply ih t served.queues
      rw [tail, length_tail]
      omega

theorem serveReadyKey_lists (queues : Queues s) (lists : Lists none s) : Lists none (serveReadyKey s key) := by
  have queuesErased : Queues { s with dbReadyKeys := s.dbReadyKeys.erase key } :=
    ⟨⟨queues.listed, queues.nonempty, queues.ordered, queues.keysNodup⟩, queues.idle, queues.past, queues.alive, queues.clientsNodup⟩
  have erased : Lists (some key) { s with dbReadyKeys := s.dbReadyKeys.erase key } := by
    intro other different elements list
    have different : other ≠ key := fun same => different (congrArg some same)
    obtain ⟨nonempty, waits⟩ := lists other (some_ne_none _) elements list
    exact ⟨nonempty, waits.imp_right fun member => Finset.mem_erase.mpr ⟨different, member⟩⟩
  rw [serveReadyKey]
  dsimp only
  split
  next =>
    split
    next nobody =>
      apply dbDeleteEmpty_lists erased
      intro _ _ _
      left
      rw [waiting, nobody]
      rfl
    next clients queue =>
      have length : (waiting { s with dbReadyKeys := s.dbReadyKeys.erase key } key).length ≤ clients.length := by
        rw [waiting, queue]
        exact Nat.le_refl _
      apply dbDeleteEmpty_lists (serveClients_induct (fun s t queues lists => serveFirst_lists queues lists) clients.length _ queuesErased erased)
      exact fun elements list nonempty => .inl (serveClients_done clients.length _ queuesErased length elements list nonempty)
  next notList =>
    intro other _
    by_cases same : other = key
    · subst same
      exact fun elements list => absurd list (notList elements)
    · exact erased other fun eq => same (some.inj eq)

theorem handleClientsBlockedOnLists_lists (queues : Queues s) (ready : Ready [] s) (lists : Lists none s) :
    Lists none (handleClientsBlockedOnLists s) :=
  handleClients_induct (fun _ lists => lists) (fun _ _ queues lists => serveReadyKey_lists queues lists) queues ready lists

def CommandsFine [DecidableEq α] (id : Nat) : BlockingServer κ α → List (BlockingCommand κ α) → Prop
  | _, [] => True
  | s, cmd :: commands => CommandFine s id cmd ∧ CommandsFine id (callBlocking id true s cmd) commands

def StepFine [DecidableEq α] (s : BlockingServer κ α) : BlockingStep κ α → Prop
  | .command id cmd => canCall s id = true → CommandFine (setLastcmd s id cmd.isBlpop) id cmd
  | .exec id commands => canCall s id = true → CommandsFine id (setLastcmd s id false) commands
  | _ => True

def StepsFine [DecidableEq α] : BlockingServer κ α → List (BlockingStep κ α) → Prop
  | _, [] => True
  | s, step :: steps => StepFine s step ∧ StepsFine (blockingStep s step) steps

theorem callTransaction_lists [DecidableEq α] {id : Nat} : ∀ (commands : List (BlockingCommand κ α)) (s : BlockingServer κ α),
    Queues s → Running s id → Lists none s → CommandsFine id s commands → Lists none (commands.foldl (callBlocking id true) s) := by
  intro commands
  induction commands with
  | nil => exact fun s _ _ lists _ => lists
  | cons cmd commands ih =>
    intro s queues running lists fine
    obtain ⟨queuesNext, _, runningNext⟩ := callBlocking_queues queues running true cmd
    exact ih _ queuesNext (runningNext rfl) (callBlocking_lists queues running lists true fine.1) fine.2

theorem blockingStep_lists [DecidableEq α] (quiet : Quiet s) (lists : Lists none s) {step : BlockingStep κ α}
    (fine : StepFine s step) : Lists none (blockingStep s step) := by
  cases step with
  | connect id =>
    rw [blockingStep]
    split <;> exact lists
  | command id cmd =>
    rw [blockingStep]
    split
    next can =>
      obtain ⟨queues, ready⟩ := callCommand_queues quiet.queues quiet.ready (running_of_canCall can) cmd
      obtain ⟨queuesStart, running⟩ := lastcmd_queues quiet.queues (running_of_canCall can) cmd.isBlpop
      exact handleClientsBlockedOnLists_lists queues ready (callBlocking_lists queuesStart running lists false (fine can))
    next => exact lists
  | exec id commands =>
    rw [blockingStep]
    split
    next can =>
      obtain ⟨queues, ready⟩ := callTransaction_ready quiet.queues quiet.ready (running_of_canCall can) commands
      obtain ⟨queuesStart, running⟩ := lastcmd_queues quiet.queues (running_of_canCall can) false
      exact handleClientsBlockedOnLists_lists queues ready (callTransaction_lists commands _ queuesStart running lists (fine can))
    next => exact lists
  | timeout id =>
    rw [blockingStep]
    split
    next =>
      have replied := addReply_keeps s id .nullmultibulk
      exact unblock_lists (replied.queues quiet.queues).toListed (addReply_lists lists id _) id
    next => exact lists
  | disconnect id =>
    rw [blockingStep]
    split
    next =>
      dsimp only
      split
      next => exact unblock_lists quiet.queues.toListed lists id
      next => exact lists
    next => exact lists
  | expire key => exact dbDelete_lists lists key

theorem blockingRun_lists [DecidableEq α] : ∀ (steps : List (BlockingStep κ α)) (s : BlockingServer κ α), Quiet s → Lists none s →
    StepsFine s steps → Lists none (blockingRun s steps) := by
  intro steps
  induction steps with
  | nil => exact fun s _ lists _ => lists
  | cons step steps ih => exact fun s quiet lists fine => ih _ (blockingStep_quiet quiet step) (blockingStep_lists quiet lists fine.1) fine.2

def NoneMissed (s : BlockingServer κ α) : Prop :=
  ∀ id ∈ s.clients, (s.client id).blocked = true → ∀ key ∈ (s.client id).keys, ∀ elements,
    s.dict.lookup ((s.client id).db, key) = some (.list elements) → elements = []

theorem noneMissed_of_lists (quiet : Quiet s) (lists : Lists none s) : NoneMissed s := by
  intro id _ _ key member elements list
  have queued : id ∈ waiting s ((s.client id).db, key) := by
    rw [quiet.queues.listed, waitsFor_iff]
    exact ⟨rfl, member⟩
  rcases (lists _ (some_ne_none _) elements list).2 with none | ready
  · rw [none] at queued
    cases queued
  · rw [quiet.ready.both, quiet.none] at ready
    cases ready

theorem lists_start (loaded : LoadedKeys κ α) (dbnum : Nat) : Lists none (loaded.start dbnum) := by
  intro key _ elements list
  refine ⟨?_, .inl ?_⟩
  · rintro rfl
    exact loaded.lists key list
  · simp [waiting, LoadedKeys.start]

/-- Blocking pops miss no data in a run in which each step is fine. -/
theorem blocking_pops_miss_nothing [DecidableEq α] (loaded : LoadedKeys κ α) (dbnum : Nat) (steps : List (BlockingStep κ α))
    (fine : StepsFine (loaded.start dbnum) steps) : NoneMissed (blockingRun (loaded.start dbnum) steps) := by
  apply noneMissed_of_lists (blockingRun_quiet steps _ (quiet_start loaded dbnum))
  exact blockingRun_lists steps _ (quiet_start loaded dbnum) (lists_start loaded dbnum) fine

def emptyKeys : LoadedKeys Nat Nat := ⟨∅, fun key => by simp⟩

/-- A client waits for a key, under which another client then pushes a value. -/
theorem blocking_pops_miss_nothing_pushed :
    let steps : List (BlockingStep Nat Nat) := [.connect 0, .connect 1, .command 0 (.blockingPop 5 [] .head), .command 1 (.push 5 [1] .tail)]
    StepsFine (emptyKeys.start 16) steps ∧ NoneMissed (blockingRun (emptyKeys.start 16) steps) := by
  intro steps
  have fine : StepsFine (emptyKeys.start 16) steps := ⟨trivial, trivial, fun _ => trivial, fun _ => trivial, trivial⟩
  exact ⟨fine, blocking_pops_miss_nothing emptyKeys 16 steps fine⟩

/-- A client waits for a key, which another client sets to a string, and then overwrites with the result of SORT. -/
theorem sorted_list_missed :
    let run := blockingRun (emptyKeys.start 16) [.connect 0, .connect 1, .command 0 (.blockingPop 5 [] .head), .command 1 (.set 5),
      .command 1 (.push 6 [1] .tail), .command 1 (.sortStore 6 5 [1])]
    (run.client 0).blocked = true ∧ (run.client 0).keys = [5] ∧ run.dict.lookup (0, 5) = some (.list [1]) ∧ ¬ NoneMissed run := by
  intro run
  have blocked : (run.client 0).blocked = true := rfl
  have keys : (run.client 0).keys = [5] := rfl
  have list : run.dict.lookup (0, 5) = some (.list [1]) := rfl
  have member : 0 ∈ run.clients := by decide
  refine ⟨blocked, keys, list, fun none => ?_⟩
  have empty := none 0 member blocked 5 (keys ▸ mem_cons_self) [1] list
  cases empty

end Cplusplus.Redis.BlockingServer
