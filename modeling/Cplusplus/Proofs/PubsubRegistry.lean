import Cplusplus.Pubsub
import Mathlib.Data.List.Count
import Mathlib.Data.List.Nodup

/-! Both sides of a subscription agree. Each function on one channel or pattern is described
by its effect on the client, and keeps the two sides together. -/

namespace Cplusplus.Redis.Pubsub

open List Option Function
open PubsubServer (createClient setClient)

section
def subscribed (s : PubsubServer) (c : Nat) (channel : PubsubName) : Bool :=
  (s.clients c).any fun client => decide (channel ∈ client.pubsubChannels)

def psubscribed (s : PubsubServer) (c : Nat) (pattern : PubsubName) : Bool :=
  (s.clients c).any fun client => decide (pattern ∈ client.pubsubPatterns)

structure Links (s : PubsubServer) : Prop where
  channel : ∀ channel c, ((s.pubsubChannels channel).getD []).count c = (subscribed s c channel).toNat
  listed : ∀ channel, s.pubsubChannels channel ≠ some []
  pattern : ∀ pattern c, s.pubsubPatterns.count (c, pattern) = (psubscribed s c pattern).toNat
  distinct : ∀ c client, s.clients c = some client → client.pubsubChannels.Nodup ∧ client.pubsubPatterns.Nodup

variable {s s' : PubsubServer} {c : Nat} {client client' : PubsubClient} {name : PubsubName}

theorem subscribed_setClient (s : PubsubServer) (c : Nat) (client : PubsubClient) (other : Nat) (channel : PubsubName) :
    subscribed (s.setClient c client) other channel =
      if other = c then decide (channel ∈ client.pubsubChannels) else subscribed s other channel := by
  by_cases same : other = c
  · subst same
    simp [subscribed, setClient]
  · simp [subscribed, setClient, same]

theorem psubscribed_setClient (s : PubsubServer) (c : Nat) (client : PubsubClient) (other : Nat) (pattern : PubsubName) :
    psubscribed (s.setClient c client) other pattern =
      if other = c then decide (pattern ∈ client.pubsubPatterns) else psubscribed s other pattern := by
  by_cases same : other = c
  · subst same
    simp [psubscribed, setClient]
  · simp [psubscribed, setClient, same]

theorem subscribed_here (here : s.clients c = some client) (channel : PubsubName) :
    subscribed s c channel = decide (channel ∈ client.pubsubChannels) := by simp [subscribed, here]

theorem psubscribed_here (here : s.clients c = some client) (pattern : PubsubName) :
    psubscribed s c pattern = decide (pattern ∈ client.pubsubPatterns) := by simp [psubscribed, here]

theorem Links.congr (links : Links s) (clients : s'.clients = s.clients) (channels : s'.pubsubChannels = s.pubsubChannels)
    (patterns : s'.pubsubPatterns = s.pubsubPatterns) : Links s' where
  channel channel c := by
    rw [channels, links.channel, subscribed, subscribed, clients]
  listed := channels ▸ links.listed
  pattern pattern c := by
    rw [patterns, links.pattern, psubscribed, psubscribed, clients]
  distinct := clients ▸ links.distinct

/-- The registry is linked, and of the clients only `c` has changed, to `client`. -/
structure Becomes (s s' : PubsubServer) (c : Nat) (client : PubsubClient) : Prop where
  links : Links s'
  clients : s'.clients = update s.clients c (some client)

theorem Becomes.here (becomes : Becomes s s' c client) : s'.clients c = some client := by
  rw [becomes.clients, update_self]

theorem Becomes.trans {s'' : PubsubServer} (first : Becomes s s' c client) (second : Becomes s' s'' c client') : Becomes s s'' c client' where
  links := second.links
  clients := by rw [second.clients, first.clients, update_idem]

theorem Becomes.refl (links : Links s) (here : s.clients c = some client) : Becomes s s c client where
  links := links
  clients := by rw [← here, update_eq_self]

theorem Becomes.addReply (becomes : Becomes s s' c client) (reply : PubsubReply) : Becomes s (s'.addReply c reply) c client where
  links := becomes.links.congr rfl rfl rfl
  clients := becomes.clients

theorem Becomes.notify (becomes : Becomes s s' c client) (notify : Bool) (reply : PubsubReply) :
    Becomes s (if notify then s'.addReply c reply else s') c client := by
  cases notify with
  | true => exact becomes.addReply reply
  | false => exact becomes

theorem Links.clientCounts (links : Links s) (here : s.clients c = some client) (channel : PubsubName) (other : Nat) :
    ((s.pubsubChannels channel).getD []).count other =
      (if other = c then decide (channel ∈ client.pubsubChannels) else subscribed s other channel).toNat := by
  rw [links.channel]
  split
  next own => rw [own, subscribed_here here]
  next => rfl

theorem Links.patternCounts (links : Links s) (here : s.clients c = some client) (pattern : PubsubName) (other : Nat) :
    s.pubsubPatterns.count (other, pattern) =
      (if other = c then decide (pattern ∈ client.pubsubPatterns) else psubscribed s other pattern).toNat := by
  rw [links.pattern]
  split
  next own => rw [own, psubscribed_here here]
  next => rfl

/-- A client is replaced, and both tables of the server with it. -/
theorem Links.set (links : Links s) (client' : PubsubClient) (channels : PubsubName → Option (List Nat)) (patterns : List (Nat × PubsubName))
    (channel : ∀ channel other, ((channels channel).getD []).count other =
      (if other = c then decide (channel ∈ client'.pubsubChannels) else subscribed s other channel).toNat)
    (listed : ∀ channel, channels channel ≠ some [])
    (pattern : ∀ pattern other, patterns.count (other, pattern) =
      (if other = c then decide (pattern ∈ client'.pubsubPatterns) else psubscribed s other pattern).toNat)
    (distinct : client'.pubsubChannels.Nodup ∧ client'.pubsubPatterns.Nodup) :
    Links { s.setClient c client' with pubsubChannels := channels, pubsubPatterns := patterns } where
  channel name other := (channel name other).trans (congrArg Bool.toNat (subscribed_setClient s c client' other name).symm)
  listed := listed
  pattern name other := (pattern name other).trans (congrArg Bool.toNat (psubscribed_setClient s c client' other name).symm)
  distinct other client there := by
    by_cases same : other = c
    · subst same
      simp only [setClient, update_self, some.injEq] at there
      subst there
      exact distinct
    · simp only [setClient, update_of_ne same] at there
      exact links.distinct other client there

theorem Links.setFlag (links : Links s) (here : s.clients c = some client) (pubsub : Bool) :
    Becomes s (s.setClient c { client with pubsub }) c { client with pubsub } where
  links := links.set _ _ _ (links.clientCounts here :) links.listed (links.patternCounts here :) (links.distinct c client here)
  clients := rfl

section
variable (links : Links s) (here : s.clients c = some client)
include links here

theorem Links.setChannels (name : PubsubName)
    (channels : List PubsubName) (distinct : channels.Nodup) (clients : Option (List Nat)) (nonempty : clients ≠ some [])
    (others : ∀ other, other ≠ name → (other ∈ channels ↔ other ∈ client.pubsubChannels))
    (counts : ∀ other, (clients.getD []).count other = (if other = c then decide (name ∈ channels) else subscribed s other name).toNat) :
    Links { s.setClient c { client with pubsubChannels := channels } with
      pubsubChannels := update s.pubsubChannels name clients } := by
  refine links.set _ _ s.pubsubPatterns ?_ ?_ (links.patternCounts here :) ⟨distinct, (links.distinct c client here).2⟩
  · intro channel other
    by_cases same : channel = name
    · rw [same, update_self, counts]
    · rw [update_of_ne same, links.clientCounts here, decide_eq_decide.mpr (others channel same)]
  · intro channel
    by_cases same : channel = name
    · rwa [same, update_self]
    · rw [update_of_ne same]
      exact links.listed channel

theorem pubsubSubscribeChannel_spec (channel : PubsubName) : ∃ s' retval, pubsubSubscribeChannel s c channel = some (s', retval) ∧
      Becomes s s' c { client with pubsubChannels := client.pubsubChannels.insert channel } := by
  by_cases present : channel ∈ client.pubsubChannels
  · rw [insert_of_mem present]
    have becomes := (Becomes.refl links here).addReply (.subscribe channel (clientSubscriptionsCount client))
    refine ⟨_, false, ?_, becomes⟩
    simp only [pubsubSubscribeChannel, here, present, bind_eq_bind, bind_some, if_true]
    rfl
  · rw [insert_of_not_mem present]
    have absent : ((s.pubsubChannels channel).getD []).count c = 0 := by
      rw [links.channel, subscribed_here here, decide_eq_false present]
      rfl
    have linked := links.setChannels here channel (channel :: client.pubsubChannels)
      (nodup_cons.mpr ⟨present, (links.distinct c client here).1⟩)
      (some ((s.pubsubChannels channel).getD [] ++ [c])) (by simp)
      (fun other different => by rw [mem_cons, or_iff_right different])
      (fun other => by
        rw [getD_some, count_append]
        by_cases own : other = c
        · subst own
          simp [absent]
        · simp [own, Ne.symm own, links.channel])
    refine ⟨_, true, ?_, Becomes.addReply ⟨linked, rfl⟩ (.subscribe channel (clientSubscriptionsCount
      { client with pubsubChannels := channel :: client.pubsubChannels }))⟩
    simp only [pubsubSubscribeChannel, here, present, bind_eq_bind, bind_some, if_false]
    rfl

theorem pubsubUnsubscribeChannel_spec (channel : PubsubName)
    (notify : Bool) :
    ∃ s' retval, pubsubUnsubscribeChannel s c channel notify = some (s', retval) ∧
      Becomes s s' c { client with pubsubChannels := client.pubsubChannels.erase channel } := by
  by_cases present : channel ∈ client.pubsubChannels
  · have distinct := (links.distinct c client here).1
    have once : ((s.pubsubChannels channel).getD []).count c = 1 := by
      rw [links.channel, subscribed_here here, decide_eq_true present]
      rfl
    cases listed : s.pubsubChannels channel with
    | none => simp [listed] at once
    | some clients =>
      rw [listed, getD_some] at once
      have member : c ∈ clients := count_pos_iff.mp (by omega)
      have linked := links.setChannels here channel (client.pubsubChannels.erase channel) (distinct.erase channel)
        (if (clients.erase c).length = 0 then none else some (clients.erase c))
        (by
          split
          · simp
          next left =>
            intro empty
            rw [some.inj empty] at left
            exact left rfl)
        (fun other different => by rw [distinct.mem_erase_iff, and_iff_right different])
        (fun other => by
          have left : ((if (clients.erase c).length = 0 then none else some (clients.erase c)).getD [] : List Nat) = clients.erase c := by
            split
            next empty => rw [length_eq_zero_iff.mp empty, getD_none]
            next => rw [getD_some]
          rw [left]
          by_cases own : other = c
          · subst own
            rw [if_pos rfl, count_erase_self, once, decide_eq_false (distinct.not_mem_erase)]
            rfl
          · rw [if_neg own, count_erase_of_ne own, ← links.channel, listed, getD_some])
      refine ⟨_, true, ?_, Becomes.notify ⟨linked, rfl⟩ notify (.unsubscribe (some channel) (PubsubClient.subscriptions
        { client with pubsubChannels := client.pubsubChannels.erase channel }))⟩
      simp only [pubsubUnsubscribeChannel, here, present, listed, member, not_true_eq_false, bind_eq_bind, bind_some, if_true, if_false]
      rfl
  · rw [erase_of_not_mem present]
    refine ⟨_, false, ?_, (Becomes.refl links here).notify notify (.unsubscribe (some channel) client.subscriptions)⟩
    simp only [pubsubUnsubscribeChannel, here, present, bind_eq_bind, bind_some, if_false]
    rfl

theorem Links.setPatterns (patterns : List PubsubName)
    (distinct : patterns.Nodup) (stored : List (Nat × PubsubName))
    (counts : ∀ pattern other, stored.count (other, pattern) =
      (if other = c then decide (pattern ∈ patterns) else psubscribed s other pattern).toNat) :
    Links { s.setClient c { client with pubsubPatterns := patterns } with pubsubPatterns := stored } :=
  links.set _ s.pubsubChannels stored (links.clientCounts here :) links.listed counts ⟨(links.distinct c client here).1, distinct⟩

end

def addPattern (patterns : List PubsubName) (pattern : PubsubName) : List PubsubName :=
  if pattern ∈ patterns then patterns else patterns ++ [pattern]

theorem pubsubSubscribePattern_spec (links : Links s) (here : s.clients c = some client) (pattern : PubsubName) :
    ∃ s' retval, pubsubSubscribePattern s c pattern = some (s', retval) ∧
      Becomes s s' c { client with pubsubPatterns := addPattern client.pubsubPatterns pattern } := by
  by_cases present : pattern ∈ client.pubsubPatterns
  · rw [addPattern, if_pos present]
    refine ⟨_, false, ?_, (Becomes.refl links here).addReply (.psubscribe pattern (clientSubscriptionsCount client))⟩
    simp only [pubsubSubscribePattern, here, present, bind_eq_bind, bind_some, if_true]
    rfl
  · rw [addPattern, if_neg present]
    have distinct := (links.distinct c client here).2
    have linked := links.setPatterns here (client.pubsubPatterns ++ [pattern])
      (List.Nodup.append distinct (nodup_singleton _) (by simpa using present)) (s.pubsubPatterns ++ [(c, pattern)])
      (fun other d => by
        rw [count_append, links.pattern]
        by_cases own : d = c
        · subst own
          rw [psubscribed_here here, if_pos rfl]
          by_cases same : other = pattern
          · subst same
            simp [present]
          · simp [same, Ne.symm same]
        · simp [own, Ne.symm own])
    refine ⟨_, true, ?_, Becomes.addReply ⟨linked, rfl⟩ (.psubscribe pattern (clientSubscriptionsCount
      { client with pubsubPatterns := client.pubsubPatterns ++ [pattern] }))⟩
    simp only [pubsubSubscribePattern, here, present, bind_eq_bind, bind_some, if_false]
    rfl

theorem pubsubUnsubscribePattern_spec (links : Links s) (here : s.clients c = some client) (pattern : PubsubName)
    (notify : Bool) :
    ∃ s' retval, pubsubUnsubscribePattern s c pattern notify = some (s', retval) ∧
      Becomes s s' c { client with pubsubPatterns := client.pubsubPatterns.erase pattern } := by
  by_cases present : pattern ∈ client.pubsubPatterns
  · have distinct := (links.distinct c client here).2
    have once : s.pubsubPatterns.count (c, pattern) = 1 := by
      rw [links.pattern, psubscribed_here here, decide_eq_true present]
      rfl
    have member : (c, pattern) ∈ s.pubsubPatterns := count_pos_iff.mp (by omega)
    have linked := links.setPatterns here (client.pubsubPatterns.erase pattern) (distinct.erase pattern)
      (s.pubsubPatterns.erase (c, pattern))
      (fun other d => by
        by_cases own : d = c
        · subst own
          rw [if_pos rfl]
          by_cases same : other = pattern
          · subst same
            rw [count_erase_self, once, decide_eq_false distinct.not_mem_erase]
            rfl
          · rw [count_erase_of_ne (by simp [same]), links.pattern, psubscribed_here here]
            simp [distinct.mem_erase_iff, same]
        · rw [if_neg own, count_erase_of_ne (by simp [own]), links.pattern])
    refine ⟨_, true, ?_, Becomes.notify ⟨linked, rfl⟩ notify (.punsubscribe (some pattern) (PubsubClient.subscriptions
      { client with pubsubPatterns := client.pubsubPatterns.erase pattern }))⟩
    simp only [pubsubUnsubscribePattern, here, present, member, not_true_eq_false, bind_eq_bind, bind_some, if_true, if_false]
    rfl
  · rw [erase_of_not_mem present]
    refine ⟨_, false, ?_, (Becomes.refl links here).notify notify (.punsubscribe (some pattern) client.subscriptions)⟩
    simp only [pubsubUnsubscribePattern, here, present, bind_eq_bind, bind_some, if_false]
    rfl

end

/-! What the Pub/Sub commands and disconnections keep: both sides of every subscription, and the
flag REDIS_PUBSUB. -/

section
/-- The flag REDIS_PUBSUB tells whether there are subscriptions. -/
def FlagExact (client : PubsubClient) : Prop := client.pubsub = true ↔ 0 < client.subscriptions

structure Registry (s : PubsubServer) : Prop where
  links : Links s
  flags : ∀ c client, s.clients c = some client → FlagExact client

variable {s s' : PubsubServer} {c : Nat} {client : PubsubClient}

theorem forEachName_spec {call : PubsubServer → PubsubName → Option (PubsubServer × Bool)}
    {step : PubsubClient → PubsubName → PubsubClient}
    (one : ∀ s client name, Links s → s.clients c = some client →
      ∃ s' retval, call s name = some (s', retval) ∧ Becomes s s' c (step client name))
    (names : List PubsubName) (links : Links s) (here : s.clients c = some client) (count : Nat) :
    ∃ s' total, forEachName call names s count = some (s', total) ∧ Becomes s s' c (names.foldl step client) := by
  induction names generalizing s client count with
  | nil => exact ⟨s, count, rfl, .refl links here⟩
  | cons name names ih =>
    obtain ⟨s₁, retval, first, becomes⟩ := one s client name links here
    obtain ⟨s', total, rest, becomes'⟩ := ih becomes.links becomes.here (count + retval.toNat)
    refine ⟨s', total, ?_, becomes.trans becomes'⟩
    simp only [forEachName, first, bind_eq_bind, bind_some]
    exact rest

section
variable (f : List PubsubName → PubsubName → List PubsubName)
include f

theorem foldl_channels (names : List PubsubName)
    (client : PubsubClient) :
    names.foldl (fun client name => { client with pubsubChannels := f client.pubsubChannels name }) client =
      { client with pubsubChannels := names.foldl f client.pubsubChannels } := by
  induction names generalizing client with
  | nil => rfl
  | cons name names ih => rw [foldl_cons, ih, foldl_cons]

theorem foldl_patterns (names : List PubsubName)
    (client : PubsubClient) :
    names.foldl (fun client name => { client with pubsubPatterns := f client.pubsubPatterns name }) client =
      { client with pubsubPatterns := names.foldl f client.pubsubPatterns } := by
  induction names generalizing client with
  | nil => rfl
  | cons name names ih => rw [foldl_cons, ih, foldl_cons]

end

theorem foldl_erase (names args : List PubsubName) : args.foldl List.erase names = names.diff args := by
  induction args generalizing names with
  | nil => rfl
  | cons name args ih => rw [foldl_cons, ih, diff_cons]

theorem unsubscribeChannels_spec (names : List PubsubName) (notify : Bool) (links : Links s) (here : s.clients c = some client) :
    ∃ s' total, forEachName (fun s channel => pubsubUnsubscribeChannel s c channel notify) names s 0 = some (s', total) ∧
      Becomes s s' c { client with pubsubChannels := client.pubsubChannels.diff names } := by
  obtain ⟨s', total, run, becomes⟩ := forEachName_spec
    (fun s client name links here => pubsubUnsubscribeChannel_spec links here name notify) names links here 0
  rw [foldl_channels, foldl_erase] at becomes
  exact ⟨s', total, run, becomes⟩

theorem unsubscribePatterns_spec (names : List PubsubName) (notify : Bool) (links : Links s) (here : s.clients c = some client) :
    ∃ s' total, forEachName (fun s pattern => pubsubUnsubscribePattern s c pattern notify) names s 0 = some (s', total) ∧
      Becomes s s' c { client with pubsubPatterns := client.pubsubPatterns.diff names } := by
  obtain ⟨s', total, run, becomes⟩ := forEachName_spec
    (fun s client name links here => pubsubUnsubscribePattern_spec links here name notify) names links here 0
  rw [foldl_patterns, foldl_erase] at becomes
  exact ⟨s', total, run, becomes⟩

theorem diff_perm {names names' : List PubsubName} (same : names'.Perm names) : names.diff names' = [] := by
  rw [same.diff_left]
  clear same
  induction names with
  | nil => rfl
  | cons name names ih => simpa using ih

theorem unsubscribeAllChannels_spec (order : DictOrder) (notify : Bool) (links : Links s) (here : s.clients c = some client) :
    ∃ s' total, pubsubUnsubscribeAllChannels order s c notify = some (s', total) ∧ Becomes s s' c { client with pubsubChannels := [] } := by
  obtain ⟨s', total, run, becomes⟩ := unsubscribeChannels_spec (order.keys client.pubsubChannels) notify links here
  rw [diff_perm (order.perm _)] at becomes
  refine ⟨_, total, ?_, becomes.notify (notify && total == 0) (.unsubscribe none (PubsubClient.subscriptions
    { client with pubsubChannels := [] }))⟩
  simp only [pubsubUnsubscribeAllChannels, here, run, becomes.here, bind_eq_bind, bind_some]
  rfl

theorem unsubscribeAllPatterns_spec (notify : Bool) (links : Links s) (here : s.clients c = some client) :
    ∃ s' total, pubsubUnsubscribeAllPatterns s c notify = some (s', total) ∧ Becomes s s' c { client with pubsubPatterns := [] } := by
  obtain ⟨s', total, run, becomes⟩ := unsubscribePatterns_spec client.pubsubPatterns notify links here
  rw [diff_perm (.refl _)] at becomes
  refine ⟨_, total, ?_, becomes.notify (notify && total == 0) (.punsubscribe none (PubsubClient.subscriptions
    { client with pubsubPatterns := [] }))⟩
  simp only [pubsubUnsubscribeAllPatterns, here, run, becomes.here, bind_eq_bind, bind_some]
  rfl

theorem Registry.becomes (registry : Registry s) (becomes : Becomes s s' c client) (flag : FlagExact client) : Registry s' where
  links := becomes.links
  flags other client' there := by
    by_cases same : other = c
    · subst same
      rw [becomes.here] at there
      cases there
      exact flag
    · rw [becomes.clients, update_of_ne same] at there
      exact registry.flags other client' there

theorem setPubsubFlag_spec (becomes : Becomes s s' c client) :
    ∃ s'', setPubsubFlag s' c = some s'' ∧ Becomes s s'' c { client with pubsub := true } := by
  refine ⟨_, ?_, becomes.trans (becomes.links.setFlag becomes.here true)⟩
  simp only [setPubsubFlag, becomes.here, bind_eq_bind, bind_some]
  rfl

theorem clearPubsubFlag_spec (becomes : Becomes s s' c client) : ∃ s'', clearPubsubFlag s' c = some s'' ∧
      Becomes s s'' c { client with pubsub := if clientSubscriptionsCount client = 0 then false else client.pubsub } := by
  by_cases none_left : clientSubscriptionsCount client = 0
  · rw [if_pos none_left]
    refine ⟨_, ?_, becomes.trans (becomes.links.setFlag becomes.here false)⟩
    simp only [clearPubsubFlag, becomes.here, none_left, bind_eq_bind, bind_some, if_true]
    rfl
  · rw [if_neg none_left]
    refine ⟨s', ?_, becomes⟩
    simp only [clearPubsubFlag, becomes.here, none_left, bind_eq_bind, bind_some, if_false]
    rfl

theorem foldl_nonempty {f : List PubsubName → PubsubName → List PubsubName} (grows : ∀ names name, f names name ≠ [])
    (names start : List PubsubName) (name : PubsubName) : (name :: names).foldl f start ≠ [] := by
  induction names generalizing start name with
  | nil => exact grows start name
  | cons next names ih => exact ih (f start name) next

theorem subscribeCommand_becomes (links : Links s) (here : s.clients c = some client) (channels : List PubsubName) :
    ∃ s', subscribeCommand s c channels = some s' ∧ Becomes s s' c { client with
      pubsubChannels := channels.foldl (fun names name => names.insert name) client.pubsubChannels, pubsub := true } := by
  obtain ⟨s₁, total, run, becomes⟩ := forEachName_spec
    (fun s client name links here => pubsubSubscribeChannel_spec links here name) channels links here 0
  rw [foldl_channels fun names name => names.insert name] at becomes
  obtain ⟨s', set, becomes'⟩ := setPubsubFlag_spec becomes
  refine ⟨s', ?_, becomes'⟩
  simp only [subscribeCommand, run, bind_eq_bind, bind_some]
  exact set

theorem subscribeCommand_spec (registry : Registry s) (here : s.clients c = some client) (channel : PubsubName)
    (channels : List PubsubName) : ∃ s', subscribeCommand s c (channel :: channels) = some s' ∧ Registry s' := by
  obtain ⟨s', run, becomes⟩ := subscribeCommand_becomes registry.links here (channel :: channels)
  refine ⟨s', run, registry.becomes becomes ?_⟩
  have nonempty := foldl_nonempty (f := fun names name => names.insert name)
    (fun names name => ne_nil_of_mem mem_insert_self) channels client.pubsubChannels channel
  exact iff_of_true rfl (Nat.add_pos_left (length_pos_iff.mpr nonempty) _)

theorem psubscribeCommand_spec (registry : Registry s) (here : s.clients c = some client) (pattern : PubsubName)
    (patterns : List PubsubName) : ∃ s', psubscribeCommand s c (pattern :: patterns) = some s' ∧ Registry s' := by
  obtain ⟨s₁, total, run, becomes⟩ := forEachName_spec
    (fun s client name links here => pubsubSubscribePattern_spec links here name) (pattern :: patterns) registry.links here 0
  obtain ⟨s', set, becomes'⟩ := setPubsubFlag_spec becomes
  refine ⟨s', ?_, registry.becomes becomes' ?_⟩
  · simp only [psubscribeCommand, run, bind_eq_bind, bind_some]
    exact set
  · have nonempty := foldl_nonempty (f := addPattern) (fun names name => by
      rw [addPattern]
      split
      next present => exact ne_nil_of_mem present
      next => simp) patterns client.pubsubPatterns pattern
    rw [foldl_patterns]
    exact iff_of_true rfl (Nat.add_pos_right _ (length_pos_iff.mpr nonempty))

/-- What an UNSUBSCRIBE leaves of the subscriptions; without arguments it takes all. -/
def leftChannels (client : PubsubClient) (channels : List PubsubName) : PubsubClient :=
  { client with pubsubChannels := if channels.length = 0 then [] else client.pubsubChannels.diff channels }

def leftPatterns (client : PubsubClient) (patterns : List PubsubName) : PubsubClient :=
  { client with pubsubPatterns := if patterns.length = 0 then [] else client.pubsubPatterns.diff patterns }

/-- The number of subscriptions is not taken for 0 when it is returned as an int. -/
def CountExact (client : PubsubClient) : Prop := client.subscriptions % 2 ^ 32 = 0 → client.subscriptions = 0

theorem count_eq_zero (client : PubsubClient) : clientSubscriptionsCount client = 0 ↔ client.subscriptions % 2 ^ 32 = 0 := by
  rw [clientSubscriptionsCount, ← BitVec.toInt_zero (w := 32), BitVec.toInt_inj, ← BitVec.toNat_inj, BitVec.toNat_ofNat]
  rfl

theorem flag_cleared (left : PubsubClient) (flag : FlagExact client) (same : left.pubsub = client.pubsub)
    (fewer : left.subscriptions ≤ client.subscriptions) (exact : CountExact left) :
    FlagExact { left with pubsub := if clientSubscriptionsCount left = 0 then false else left.pubsub } := by
  have counted := count_eq_zero left
  by_cases none_left : clientSubscriptionsCount left = 0
  · have zero := exact (counted.mp none_left)
    rw [if_pos none_left, FlagExact]
    change false = true ↔ 0 < left.subscriptions
    simp [zero]
  · have some_left : left.subscriptions ≠ 0 := by
      intro zero
      rw [zero] at counted
      exact none_left (counted.mpr rfl)
    rw [if_neg none_left, FlagExact, same]
    change client.pubsub = true ↔ 0 < left.subscriptions
    apply flag.trans
    omega

section
variable (client)

theorem leftChannels_fewer (channels : List PubsubName) : (leftChannels client channels).subscriptions ≤ client.subscriptions := by
  apply Nat.add_le_add_right
  rw [leftChannels]
  split
  · exact Nat.zero_le _
  · exact (diff_sublist _ _).length_le

theorem leftPatterns_fewer (patterns : List PubsubName) : (leftPatterns client patterns).subscriptions ≤ client.subscriptions := by
  apply Nat.add_le_add_left
  rw [leftPatterns]
  split
  · exact Nat.zero_le _
  · exact (diff_sublist _ _).length_le

end

theorem unsubscribeCommand_becomes (order : DictOrder) (links : Links s) (here : s.clients c = some client)
    (channels : List PubsubName) :
    ∃ s', unsubscribeCommand order s c channels = some s' ∧ Becomes s s' c { leftChannels client channels with
      pubsub := if clientSubscriptionsCount (leftChannels client channels) = 0 then false else client.pubsub } := by
  by_cases all : channels.length = 0
  · obtain ⟨s₁, total, run, becomes⟩ := unsubscribeAllChannels_spec order true links here
    obtain ⟨s', clear, becomes'⟩ := clearPubsubFlag_spec becomes
    refine ⟨s', ?_, ?_⟩
    · simp only [unsubscribeCommand, all, run, bind_eq_bind, bind_some, if_true]
      exact clear
    · rw [leftChannels, if_pos all]
      exact becomes'
  · obtain ⟨s₁, total, run, becomes⟩ := unsubscribeChannels_spec channels true links here
    obtain ⟨s', clear, becomes'⟩ := clearPubsubFlag_spec becomes
    refine ⟨s', ?_, ?_⟩
    · simp only [unsubscribeCommand, all, run, bind_eq_bind, bind_some, if_false]
      exact clear
    · rw [leftChannels, if_neg all]
      exact becomes'

theorem punsubscribeCommand_becomes (links : Links s) (here : s.clients c = some client) (patterns : List PubsubName) :
    ∃ s', punsubscribeCommand s c patterns = some s' ∧ Becomes s s' c { leftPatterns client patterns with
      pubsub := if clientSubscriptionsCount (leftPatterns client patterns) = 0 then false else client.pubsub } := by
  by_cases all : patterns.length = 0
  · obtain ⟨s₁, total, run, becomes⟩ := unsubscribeAllPatterns_spec true links here
    obtain ⟨s', clear, becomes'⟩ := clearPubsubFlag_spec becomes
    refine ⟨s', ?_, ?_⟩
    · simp only [punsubscribeCommand, all, run, bind_eq_bind, bind_some, if_true]
      exact clear
    · rw [leftPatterns, if_pos all]
      exact becomes'
  · obtain ⟨s₁, total, run, becomes⟩ := unsubscribePatterns_spec patterns true links here
    obtain ⟨s', clear, becomes'⟩ := clearPubsubFlag_spec becomes
    refine ⟨s', ?_, ?_⟩
    · simp only [punsubscribeCommand, all, run, bind_eq_bind, bind_some, if_false]
      exact clear
    · rw [leftPatterns, if_neg all]
      exact becomes'

theorem createClient_spec (registry : Registry s) (absent : s.clients c = none) : Registry (s.createClient c) where
  links := by
    refine registry.links.set ⟨[], [], false⟩ s.pubsubChannels s.pubsubPatterns ?_ registry.links.listed ?_ ⟨nodup_nil, nodup_nil⟩
    · intro channel other
      rw [registry.links.channel]
      split
      next own =>
        rw [own, subscribed, absent]
        rfl
      next => rfl
    · intro pattern other
      rw [registry.links.pattern]
      split
      next own =>
        rw [own, psubscribed, absent]
        rfl
      next => rfl
  flags other client there := by
    by_cases same : other = c
    · subst same
      simp only [createClient, setClient, update_self, some.injEq] at there
      subst there
      simp [FlagExact, PubsubClient.subscriptions]
    · simp only [createClient, setClient, update_of_ne same] at there
      exact registry.flags other client there

theorem freeClient_spec (order : DictOrder) (registry : Registry s) (here : s.clients c = some client) :
    ∃ s', s.freeClient order c = some s' ∧ Registry s' := by
  obtain ⟨s₁, _, first, becomes⟩ := unsubscribeAllChannels_spec order false registry.links here
  obtain ⟨s₂, _, second, becomes'⟩ := unsubscribeAllPatterns_spec false becomes.links becomes.here
  have gone := (becomes.trans becomes')
  refine ⟨{ s₂ with clients := update s₂.clients c none }, ?_, ?_⟩
  · simp only [PubsubServer.freeClient, first, second, bind_eq_bind, bind_some]
    rfl
  have others : ∀ other, other ≠ c → update s₂.clients c none other = s.clients other := by
    intro other different
    rw [update_of_ne different, gone.clients, update_of_ne different]
  refine ⟨⟨fun channel other => ?_, gone.links.listed, fun pattern other => ?_, fun other client' there => ?_⟩, fun other client' there => ?_⟩
  · change ((s₂.pubsubChannels channel).getD []).count other = _
    rw [gone.links.channel]
    by_cases same : other = c
    · subst same
      rw [subscribed_here gone.here, subscribed]
      simp
    · simp [subscribed, same]
  · change s₂.pubsubPatterns.count (other, pattern) = _
    rw [gone.links.pattern]
    by_cases same : other = c
    · subst same
      rw [psubscribed_here gone.here, psubscribed]
      simp
    · simp [psubscribed, same]
  · by_cases same : other = c
    · subst same
      simp at there
    · exact registry.links.distinct other client' (others other same ▸ there)
  · by_cases same : other = c
    · subst same
      simp at there
    · exact registry.flags other client' (others other same ▸ there)

end

end Cplusplus.Redis.Pubsub
