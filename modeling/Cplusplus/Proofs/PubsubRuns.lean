import Cplusplus.Library.Run
import Cplusplus.Proofs.PubsubRegistry
import Cplusplus.Proofs.UtilText

/-! Runs of SUBSCRIBE, UNSUBSCRIBE, PSUBSCRIBE, PUNSUBSCRIBE, PUBLISH and disconnections. -/

namespace Cplusplus.Redis.Pubsub

open List Option

inductive PubsubOp where
  | connect (c : Nat)
  | disconnect (c : Nat)
  | subscribe (c : Nat) (channel : PubsubName) (channels : List PubsubName)
  | unsubscribe (c : Nat) (channels : List PubsubName)
  | psubscribe (c : Nat) (pattern : PubsubName) (patterns : List PubsubName)
  | punsubscribe (c : Nat) (patterns : List PubsubName)
  | publish (c : Nat) (channel : PubsubName) (message : List UInt8)

def pubsubStart : PubsubServer where
  clients := fun _ => none
  pubsubChannels := fun _ => none
  pubsubPatterns := []
  replies := []

/-- An address is used by one client at a time, and only clients send commands. -/
def pubsubStep (order : DictOrder) (stringmatchlen : PubsubName → PubsubName → Bool) (s : PubsubServer) (op : PubsubOp) :
    Option (PubsubServer × Unit) :=
  let live := fun c => (s.clients c).isSome
  let next :=
    match op with
    | .connect c => if live c then some s else some (s.createClient c)
    | .disconnect c => if live c then s.freeClient order c else some s
    | .subscribe c channel channels => if live c then subscribeCommand s c (channel :: channels) else some s
    | .unsubscribe c channels => if live c then unsubscribeCommand order s c channels else some s
    | .psubscribe c pattern patterns => if live c then psubscribeCommand s c (pattern :: patterns) else some s
    | .punsubscribe c patterns => if live c then punsubscribeCommand s c patterns else some s
    | .publish c channel message => if live c then publishCommand stringmatchlen s c channel message else some s
  next.map fun s => (s, ())

variable {s s' : PubsubServer} {c : Nat} {client : PubsubClient}
variable (order : DictOrder) (stringmatchlen : PubsubName → PubsubName → Bool)

structure Delivered (s : PubsubServer) (channel : PubsubName) (message : List UInt8) (out : List (Nat × PubsubReply)) : Prop where
  messages : ∀ c, out.count (c, .message channel message) = (subscribed s c channel).toNat
  pmessages : ∀ c pattern, out.count (c, .pmessage pattern channel message) =
    (psubscribed s c pattern && stringmatchlen pattern channel).toNat
  only : ∀ delivery ∈ out, delivery.2 = .message channel message ∨ ∃ pattern, delivery.2 = .pmessage pattern channel message

theorem deliveries_spec (links : Links s) (channel : PubsubName) (message : List UInt8) :
    Delivered stringmatchlen s channel message (deliveries stringmatchlen s channel message) where
  messages c := by
    have once := count_map_of_injective ((s.pubsubChannels channel).getD []) (fun c => (c, PubsubReply.message channel message))
      (fun left right same => congrArg Prod.fst same) c
    rw [deliveries, count_append, once, links.channel]
    rw [count_eq_zero_of_not_mem, Nat.add_zero]
    simp
  pmessages c pattern := by
    have once := count_map_of_injective (s.pubsubPatterns.filter fun pat => stringmatchlen pat.2 channel)
      (fun pat => (pat.1, PubsubReply.pmessage pat.2 channel message)) (fun left right same => by
        simp only [Prod.mk.injEq, PubsubReply.pmessage.injEq, and_true] at same
        exact Prod.ext same.1 same.2) (c, pattern)
    rw [deliveries, count_append, once, count_eq_zero_of_not_mem (by simp), Nat.zero_add]
    cases accepted : stringmatchlen pattern channel with
    | true => rw [count_filter (by simpa using accepted), links.pattern, Bool.and_true]
    | false =>
      rw [count_eq_zero_of_not_mem, Bool.and_false]
      · rfl
      · simp [accepted]
  only delivery member := by
    rw [deliveries, mem_append, List.mem_map, List.mem_map] at member
    rcases member with ⟨c, _, rfl⟩ | ⟨pat, _, rfl⟩
    · exact .inl rfl
    · exact .inr ⟨pat.2, rfl⟩

theorem toNat_pos {b : Bool} (positive : 0 < b.toNat) : b = true := by
  cases b with
  | true => rfl
  | false => exact absurd positive (Nat.lt_irrefl 0)

theorem deliveries_live (links : Links s) (channel : PubsubName) (message : List UInt8) :
    ((deliveries stringmatchlen s channel message).all fun delivery => (s.clients delivery.1).isSome) = true := by
  rw [List.all_eq_true]
  intro delivery member
  rw [deliveries, mem_append, List.mem_map, List.mem_map] at member
  have live : ∀ {c}, (subscribed s c channel = true ∨ ∃ pattern, psubscribed s c pattern = true) → (s.clients c).isSome = true := by
    intro c known
    cases here : s.clients c with
    | some client => rfl
    | none => simp [subscribed, psubscribed, here] at known
  rcases member with ⟨c, member, rfl⟩ | ⟨pat, member, rfl⟩
  · apply live
    have counted := links.channel channel c
    have positive := count_pos_iff.mpr member
    rw [counted] at positive
    exact .inl (toNat_pos positive)
  · apply live
    have counted := links.pattern pat.2 pat.1
    have positive := count_pos_iff.mpr (mem_filter.mp member).1
    rw [counted] at positive
    exact .inr ⟨pat.2, toNat_pos positive⟩

theorem publishCommand_spec (links : Links s) (c : Nat) (channel : PubsubName) (message : List UInt8)
    (few : (deliveries stringmatchlen s channel message).length < 2 ^ 31) :
    ∃ out, publishCommand stringmatchlen s c channel message = some { s with replies := s.replies ++ out ++ [(c, .integer out.length)] } ∧
      Delivered stringmatchlen s channel message out := by
  refine ⟨deliveries stringmatchlen s channel message, ?_, deliveries_spec stringmatchlen links channel message⟩
  have live := deliveries_live stringmatchlen links channel message
  simp only [publishCommand, pubsubPublishMessage, few, live, and_self, if_true, bind_eq_bind, bind_some]
  rfl

/-- The counts fit an int: what an UNSUBSCRIBE leaves is not taken for nothing, and a message
has fewer than 2^31 receivers. -/
def PubsubOp.Counts (s : PubsubServer) : PubsubOp → Prop
  | .unsubscribe c channels => ∀ client ∈ s.clients c, CountExact (leftChannels client channels)
  | .punsubscribe c patterns => ∀ client ∈ s.clients c, CountExact (leftPatterns client patterns)
  | .publish _ channel message => (deliveries stringmatchlen s channel message).length < 2 ^ 31
  | _ => True

instance (client : PubsubClient) : Decidable (CountExact client) :=
  inferInstanceAs (Decidable (client.subscriptions % 2 ^ 32 = 0 → client.subscriptions = 0))

instance (s : PubsubServer) (op : PubsubOp) : Decidable (op.Counts stringmatchlen s) :=
  match op with
  | .unsubscribe c channels => inferInstanceAs (Decidable (∀ client ∈ s.clients c, CountExact (leftChannels client channels)))
  | .punsubscribe c patterns => inferInstanceAs (Decidable (∀ client ∈ s.clients c, CountExact (leftPatterns client patterns)))
  | .publish _ channel message => inferInstanceAs (Decidable ((deliveries stringmatchlen s channel message).length < 2 ^ 31))
  | .connect _ | .disconnect _ | .subscribe .. | .psubscribe .. => .isTrue trivial

structure PubsubCorrect (s : PubsubServer) : Prop where
  registry : Registry s
  publish : ∀ c channel message, (deliveries stringmatchlen s channel message).length < 2 ^ 31 →
    ∃ out, publishCommand stringmatchlen s c channel message =
        some { s with replies := s.replies ++ out ++ [(c, .integer out.length)] } ∧
      Delivered stringmatchlen s channel message out

theorem pubsubStep_spec (s : PubsubServer) (op : PubsubOp) (registry : Registry s) (counts : op.Counts stringmatchlen s) :
    ∃ after, pubsubStep order stringmatchlen s op = some after ∧ Registry after.1 := by
  have step : ∀ {next : Option PubsubServer}, (∃ s', next = some s' ∧ Registry s') →
      ∃ after, next.map (fun s => (s, ())) = some after ∧ Registry after.1 := by
    rintro next ⟨s', rfl, kept⟩
    exact ⟨(s', ()), rfl, kept⟩
  have idle : ∃ s', some s = some s' ∧ Registry s' := ⟨s, rfl, registry⟩
  apply step
  cases op with
  | connect c =>
    cases here : s.clients c with
    | none => exact ⟨_, by simp [here], createClient_spec registry here⟩
    | some client => simpa [here] using idle
  | disconnect c =>
    cases here : s.clients c with
    | none => simpa [here] using idle
    | some client => simpa [here] using freeClient_spec order registry here
  | subscribe c channel channels =>
    cases here : s.clients c with
    | none => simpa [here] using idle
    | some client => simpa [here] using subscribeCommand_spec registry here channel channels
  | unsubscribe c channels =>
    cases here : s.clients c with
    | none => simpa [here] using idle
    | some client =>
      obtain ⟨s', run, becomes⟩ := unsubscribeCommand_becomes order registry.links here channels
      have flag := flag_cleared (leftChannels client channels) (registry.flags c client here) rfl
        (leftChannels_fewer client channels) (counts client here)
      exact ⟨s', by simpa [here] using run, registry.becomes becomes flag⟩
  | psubscribe c pattern patterns =>
    cases here : s.clients c with
    | none => simpa [here] using idle
    | some client => simpa [here] using psubscribeCommand_spec registry here pattern patterns
  | punsubscribe c patterns =>
    cases here : s.clients c with
    | none => simpa [here] using idle
    | some client =>
      obtain ⟨s', run, becomes⟩ := punsubscribeCommand_becomes registry.links here patterns
      have flag := flag_cleared (leftPatterns client patterns) (registry.flags c client here) rfl
        (leftPatterns_fewer client patterns) (counts client here)
      exact ⟨s', by simpa [here] using run, registry.becomes becomes flag⟩
  | publish c channel message =>
    cases here : s.clients c with
    | none => simpa [here] using idle
    | some client =>
      obtain ⟨out, run, _⟩ := publishCommand_spec stringmatchlen registry.links c channel message counts
      refine ⟨{ s with replies := s.replies ++ out ++ [(c, .integer out.length)] }, ?_, registry.links.congr rfl rfl rfl, registry.flags⟩
      · simp only [here, isSome_some, if_true]
        exact run

theorem pubsubStart_registry : Registry pubsubStart where
  links :=
    { channel := fun _ _ => rfl
      listed := fun _ => (some_ne_none _).symm
      pattern := fun _ _ => rfl
      distinct := fun _ _ there => absurd there.symm (some_ne_none _) }
  flags := fun _ _ there => absurd there.symm (some_ne_none _)

theorem pubsub_registry (ops : List PubsubOp)
    (counts : Run.Allowed (pubsubStep order stringmatchlen) (fun s op => op.Counts stringmatchlen s) pubsubStart ops) :
    ∃ s results, Run.exec (pubsubStep order stringmatchlen) pubsubStart ops = some (s, results) ∧
      PubsubCorrect stringmatchlen s := by
  obtain ⟨s, results, run, registry⟩ := Run.exec_total (pubsubStep_spec order stringmatchlen) ops pubsubStart_registry counts
  exact ⟨s, results, run, registry, fun c channel message => publishCommand_spec stringmatchlen registry.links c channel message⟩

/-- Two subscribers with repeated names, a message, and both leave. -/
theorem pubsub_registry_small :
    ∃ s results, Run.exec (pubsubStep ⟨id, fun _ => .refl _⟩ fun pattern channel => pattern.isPrefixOf channel) pubsubStart
        [.connect 1, .connect 2, .connect 3, .subscribe 1 [97] [[98], [97]], .psubscribe 2 [97] [[97]], .subscribe 2 [97] [],
          .publish 3 [97] [33], .unsubscribe 1 [], .unsubscribe 2 [[97], [97]], .punsubscribe 2 [], .disconnect 2] =
      some (s, results) ∧ PubsubCorrect (fun pattern channel => pattern.isPrefixOf channel) s :=
  pubsub_registry _ _ _ (by decide +kernel)

theorem numerals_new {start k : Nat} {names : List PubsubName} (bound : k < 2 ^ 40)
    (below : ∀ name ∈ names, ∃ j < start, name = numeral j) (new : start ≤ k) : numeral k ∉ names := by
  intro member
  obtain ⟨j, less, same⟩ := below _ member
  have := numeral_injective ⟨by omega, by omega⟩ ⟨by omega, by omega⟩ same
  omega

theorem exec_subscribes (count : Nat) : ∀ (s : PubsubServer) (client : PubsubClient) (start : Nat), Links s →
    s.clients 0 = some client → client.pubsubPatterns = [] → client.pubsubChannels.length = start →
    (∀ name ∈ client.pubsubChannels, ∃ j < start, name = numeral j) → start + count < 2 ^ 40 →
    ∃ s' results client', Run.exec (pubsubStep order stringmatchlen) s
        ((List.range' start count).map fun k : Nat => PubsubOp.subscribe 0 (numeral (k : Int)) []) = some (s', results) ∧ Links s' ∧
      s'.clients 0 = some client' ∧ client'.pubsubPatterns = [] ∧ client'.pubsubChannels.length = start + count := by
  induction count with
  | zero =>
    intro s client start links here patterns length _ _
    exact ⟨s, [], client, rfl, links, here, patterns, length⟩
  | succ count ih =>
    intro s client start links here patterns length below bound
    obtain ⟨s₁, run, becomes⟩ := subscribeCommand_becomes links here [numeral start]
    have absent := numerals_new (k := start) (by omega) below (Nat.le_refl start)
    simp only [foldl_cons, foldl_nil, insert_of_not_mem absent] at becomes
    obtain ⟨s', results, client', rest, links', here', patterns', length'⟩ := ih s₁ _ (start + 1) becomes.links
      becomes.here patterns (by simp [length]) (by
        intro name member
        rcases mem_cons.mp member with rfl | member
        · exact ⟨start, Nat.lt_succ_self start, rfl⟩
        · obtain ⟨j, less, same⟩ := below name member
          exact ⟨j, by omega, same⟩) (by omega)
    refine ⟨s', () :: results, client', ?_, links', here', patterns', by omega⟩
    rw [range'_succ, map_cons, Run.exec]
    simp only [pubsubStep, here, isSome_some, if_true, run, map_some, bind_some, rest]

/-- One client subscribes to 2^32 + 1 channels and unsubscribes from one of them. -/
theorem pubsub_flag_lost : ¬ ∀ (order : DictOrder) (stringmatchlen : PubsubName → PubsubName → Bool) (ops : List PubsubOp),
    ∃ s results, Run.exec (pubsubStep order stringmatchlen) pubsubStart ops = some (s, results) ∧
      PubsubCorrect stringmatchlen s := by
  intro all
  obtain ⟨count, size⟩ : ∃ count, count = 2 ^ 32 := ⟨_, rfl⟩
  have connected := createClient_spec pubsubStart_registry (c := 0) rfl
  obtain ⟨s, results, client, run, links, here, patterns, length⟩ := exec_subscribes ⟨id, fun _ => .refl _⟩
    (fun _ _ => false) (count + 1) _ ⟨[], [], false⟩ 0 connected.links (by simp [PubsubServer.createClient, PubsubServer.setClient])
    rfl rfl (by simp) (by omega)
  obtain ⟨channel, channels, names⟩ : ∃ channel channels, client.pubsubChannels = channel :: channels :=
    exists_cons_of_length_pos (by omega)
  obtain ⟨s', clear, becomes⟩ := unsubscribeCommand_becomes ⟨id, fun _ => .refl _⟩ links here [channel]
  have left : (leftChannels client [channel]).subscriptions = 2 ^ 32 := by
    rw [names, length_cons] at length
    simp only [leftChannels, names, PubsubClient.subscriptions, patterns, length_singleton, Nat.one_ne_zero, if_false,
      diff_cons, erase_cons_head, diff_nil, length_nil]
    omega
  obtain ⟨last, _, whole, correct⟩ := all ⟨id, fun _ => .refl _⟩ (fun _ _ => false)
    (.connect 0 :: (((List.range' 0 (count + 1)).map fun k : Nat => PubsubOp.subscribe 0 (numeral (k : Int)) []) ++
      [.unsubscribe 0 [channel]]))
  have first : pubsubStep ⟨id, fun _ => .refl _⟩ (fun _ _ => false) pubsubStart (.connect 0) =
      some (pubsubStart.createClient 0, ()) := rfl
  have final : pubsubStep ⟨id, fun _ => .refl _⟩ (fun _ _ => false) s (.unsubscribe 0 [channel]) = some (s', ()) := by
    simp only [pubsubStep, here, isSome_some, if_true, clear, map_some]
  simp only [Run.exec, first, Run.exec_append, run, final, bind_some, map_some, some.injEq,
    Prod.mk.injEq] at whole
  obtain ⟨rfl, _⟩ := whole
  have flag := correct.registry.flags 0 _ becomes.here
  rw [FlagExact, if_pos ((count_eq_zero _).mpr (by rw [left]; exact Nat.mod_self _))] at flag
  have positive : 0 < (leftChannels client [channel]).subscriptions := by omega
  exact absurd (flag.mpr positive) Bool.false_ne_true

end Cplusplus.Redis.Pubsub
