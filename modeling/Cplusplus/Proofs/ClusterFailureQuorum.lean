import Mathlib.Data.List.Induction
import Cplusplus.ClusterFailure

/-! A node that this node marks as failing is seen so by most masters that serve slots, as long as nobody else has a
vote and the size of the cluster is the current one. -/

namespace Cplusplus.Redis.ClusterFailure

open List
open Cluster (ClusterState clusterLookupNode)

section
set_option linter.unusedSectionVars false

variable {Addr Name : Type} [DecidableEq Addr] [LinearOrder Name]

section

variable {sender : Addr} {now : Int} {config : Config} {l : List (FailReport Addr)} {fr : FailReport Addr}

theorem addReport_nodes (sender : Addr) (now : Int) (l : List (FailReport Addr)) :
    (clusterNodeAddFailureReport sender now l).map (·.node) = if sender ∈ l.map (·.node) then l.map (·.node) else l.map (·.node) ++ [sender] := by
  induction l with
  | nil => rfl
  | cons fr l ih =>
    rw [clusterNodeAddFailureReport]
    by_cases same : fr.node = sender
    · simp [same]
    · simp only [if_neg same, map_cons, ih, mem_cons, Ne.symm same, false_or]
      split <;> rfl

theorem addReport_nodup (nodup : (l.map (·.node)).Nodup) : ((clusterNodeAddFailureReport sender now l).map (·.node)).Nodup := by
  rw [addReport_nodes]
  split
  next => exact nodup
  next absent => exact nodup_append.mpr ⟨nodup, nodup_singleton sender, fun a old b new same => by
      rw [mem_singleton.mp new] at same
      exact absent (same ▸ old)⟩

theorem mem_addReport (mem : fr ∈ clusterNodeAddFailureReport sender now l) : fr = ⟨sender, now⟩ ∨ fr ∈ l := by
  induction l with
  | nil => exact Or.inl (mem_singleton.mp mem)
  | cons x l ih =>
    rw [clusterNodeAddFailureReport] at mem
    split at mem
    next same =>
      obtain rfl | old := mem_cons.mp mem
      · exact Or.inl (by rw [← same])
      · exact Or.inr (mem_cons_of_mem x old)
    next =>
      obtain rfl | old := mem_cons.mp mem
      · exact Or.inr mem_cons_self
      · exact (ih old).imp_right (mem_cons_of_mem x)

theorem cleanup_sublist (config : Config) (now : Int) (l : List (FailReport Addr)) :
    (clusterNodeCleanupFailureReports config now l).Sublist l := filter_sublist

theorem cleanup_valid (mem : fr ∈ clusterNodeCleanupFailureReports config now l) : fr ∈ l ∧ now - fr.time ≤ maxtime config := by
  obtain ⟨old, valid⟩ := mem_filter.mp mem
  rw [Bool.not_eq_true', decide_eq_false_iff_not] at valid
  exact ⟨old, Int.not_lt.mp valid⟩

theorem delReport_sublist (config : Config) (now : Int) (l : List (FailReport Addr)) (sender : Addr) :
    (clusterNodeDelFailureReport config now l sender).Sublist l := by
  rw [clusterNodeDelFailureReport]
  split
  next => exact (cleanup_sublist config now _).trans eraseP_sublist
  next => exact List.Sublist.refl l

theorem eraseP_gone (nodup : (l.map (·.node)).Nodup) : sender ∉ (l.eraseP (·.node = sender)).map (·.node) := by
  induction l with
  | nil => exact not_mem_nil
  | cons x l ih =>
    rw [map_cons, nodup_cons] at nodup
    intro left_
    rw [eraseP_cons] at left_
    by_cases same : x.node = sender
    · simp only [same, decide_true, cond_true] at left_
      exact nodup.1 (same ▸ left_)
    · simp only [same, decide_false, cond_false, map_cons, mem_cons] at left_
      obtain here | rest := left_
      · exact same here.symm
      · exact ih nodup.2 rest

theorem delReport_gone (nodup : (l.map (·.node)).Nodup) : sender ∉ (clusterNodeDelFailureReport config now l sender).map (·.node) := by
  rw [clusterNodeDelFailureReport]
  split
  next => exact fun left_ => eraseP_gone nodup (((cleanup_sublist config now _).map _).subset left_)
  next absent =>
    intro mem
    obtain ⟨x, old, same⟩ := List.mem_map.mp mem
    exact absent (List.any_eq_true.mpr ⟨x, old, decide_eq_true same⟩)

theorem delReports_sublist (config : Config) (now : Int) (gone : List Addr) (l : List (FailReport Addr)) :
    (gone.foldl (clusterNodeDelFailureReport config now) l).Sublist l := by
  induction gone generalizing l with
  | nil => exact List.Sublist.refl l
  | cons a gone ih => exact (ih _).trans (delReport_sublist config now l a)

theorem delReports_gone (nodup : (l.map (·.node)).Nodup) (gone : List Addr) :
    ∀ a ∈ gone, a ∉ (gone.foldl (clusterNodeDelFailureReport config now) l).map (·.node) := by
  induction gone generalizing l with
  | nil => exact fun a mem => absurd mem not_mem_nil
  | cons b gone ih =>
    intro a mem
    rw [foldl_cons]
    obtain rfl | rest := mem_cons.mp mem
    · exact fun left_ => delReport_gone nodup (((delReports_sublist config now gone _).map _).subset left_)
    · exact ih (nodup.sublist ((delReport_sublist config now l b).map _)) a rest

end

variable {config : Config} {w₀ w w' w'' : Watch Addr Name} {n : Addr}

theorem modify_failure (w : Watch Addr Name) (m n : Addr) (change : NodeFailure Addr → NodeFailure Addr) :
    (w.modify m change).failure n = if n = m then change (w.failure m) else w.failure n := Function.update_apply ..

theorem listed_of_lookup {c : ClusterState Addr Name} {name : Name} (found : clusterLookupNode c name = some n) : n ∈ listed c :=
  List.mem_map.mpr ⟨⟨name, n⟩, AList.mem_lookup_iff.mp found, rfl⟩

variable {link : Option Addr}

theorem gossipSender_listed {sender : Name} (linked : w.cluster.linked link = true)
    (found : w.gossipSender link sender = some n) : n ∈ listed w.cluster := by
  cases link with
  | none => exact listed_of_lookup found
  | some node =>
    cases found
    exact listed_of_lookup (of_decide_eq_true linked)

structure Same (w w' : Watch Addr Name) : Prop where
  cluster : w'.cluster = w.cluster
  reports : ∀ n, (w'.failure n).failReports = (w.failure n).failReports

section
variable (w)

theorem Same.refl : Same w w := ⟨rfl, fun _ => rfl⟩

theorem same_modify (m : Addr) {change : NodeFailure Addr → NodeFailure Addr}
    (keeps : ∀ x, (change x).failReports = x.failReports) : Same w (w.modify m change) where
  cluster := rfl
  reports n := by
    rw [modify_failure]
    split
    next here => rw [keeps, here]
    next => rfl

theorem same_fail (sender about : Name) : Same w (processFail w sender about) := by
  rw [processFail]
  split
  next =>
    split
    next => exact Same.refl w
    next => exact same_modify w _ fun _ => rfl
  next => exact Same.refl w

end

structure Calm (w w' : Watch Addr Name) : Prop extends Same w w' where
  fails : ∀ n, (w'.failure n).fail = true → (w.failure n).fail = true

theorem Calm.refl (w : Watch Addr Name) : Calm w w := ⟨Same.refl w, fun _ fails => fails⟩

theorem Calm.trans (first : Calm w w') (second : Calm w' w'') : Calm w w'' where
  cluster := second.cluster.trans first.cluster
  reports n := (second.reports n).trans (first.reports n)
  fails n last := first.fails n (second.fails n last)

section
variable (w)

theorem calm_modify (m : Addr) {change : NodeFailure Addr → NodeFailure Addr}
    (keeps : ∀ x, (change x).failReports = x.failReports) (calm : ∀ x, (change x).fail = true → x.fail = true) :
    Calm w (w.modify m change) where
  toSame := same_modify w m keeps
  fails n := by
    rw [modify_failure]
    split
    next here =>
      rw [here]
      exact calm _
    next => exact id

theorem calm_clear (n : Addr) : Calm w (clearNodeFailureIfNeeded config w n) := by
  have cleared : ∀ w : Watch Addr Name, Calm w (w.modify n fun x => { x with fail := false }) := by
    intro w
    exact calm_modify w n (fun _ => rfl) fun _ fails => Bool.noConfusion fails
  unfold clearNodeFailureIfNeeded
  by_cases slave : (w.cluster.heap n).slave = true ∨ (w.cluster.heap n).numslots = 0
  · simp only [if_pos slave]
    split
    next => exact (cleared w).trans (cleared _)
    next => exact cleared w
  · simp only [if_neg slave]
    split
    next => exact cleared w
    next => exact Calm.refl w

theorem calm_pong (n : Addr) : Calm w (processPong config w n) := by
  have first : Calm w (w.modify n fun x => { x with pingSent := 0 }) := calm_modify w n (fun _ => rfl) fun _ fails => fails
  simp only [processPong]
  split
  next => exact first.trans (calm_modify _ n (fun _ => rfl) fun _ fails => fails)
  next =>
    split
    next => exact first.trans (calm_clear _ n)
    next => exact first

theorem calm_cron (n : Addr) : Calm w (cronNode config w n) := by
  rw [cronNode]
  split
  next => exact Calm.refl w
  next =>
    split
    next => exact Calm.refl w
    next =>
      split
      next => exact calm_modify w n (fun _ => rfl) fun _ fails => fails
      next => exact Calm.refl w

theorem calm_updateState : Calm w (clusterUpdateState config w) := by
  simp only [clusterUpdateState, delayed, countMasters, changeState]
  repeat' split
  all_goals exact ⟨⟨rfl, fun _ => rfl⟩, fun _ fails => fails⟩

theorem calm_at (name : Name) {change : Addr → Watch Addr Name} (calm : ∀ n, Calm w (change n)) : Calm w (w.at_ name change) := by
  rw [Watch.at_]
  split
  next => exact Calm.refl w
  next n _ => exact calm n

end

/-- Marking a node only drops reports. -/
structure Fewer (w w' : Watch Addr Name) : Prop where
  cluster : w'.cluster = w.cluster
  reports : ∀ n, (w'.failure n).failReports.Sublist (w.failure n).failReports

section
variable (w)

theorem fewer_cleanup (n : Addr) : Fewer w (w.cleanup config n) where
  cluster := rfl
  reports m := by
    rw [Watch.cleanup, modify_failure]
    split
    next here =>
      rw [here]
      exact cleanup_sublist config w.now _
    next => exact List.Sublist.refl _

theorem fewer_mark (n : Addr) : Fewer w (markNodeAsFailingIfNeeded config w n) := by
  rw [markNodeAsFailingIfNeeded]
  split
  next => exact ⟨rfl, fun m => List.Sublist.refl _⟩
  next =>
    split
    next => exact ⟨rfl, fun m => List.Sublist.refl _⟩
    next =>
      have cleaned : Fewer w (w.cleanup config n) := fewer_cleanup w n
      simp only
      split
      next => exact cleaned
      next =>
        have marked : Same (w.cleanup config n) ((w.cleanup config n).modify n fun x =>
            { x with pfail := false, fail := true, failTime := (w.cleanup config n).now }) := same_modify _ n fun _ => rfl
        refine ⟨rfl, fun m => ?_⟩
        rw [marked.reports m]
        exact cleaned.reports m

end

def Stems (w : Watch Addr Name) (event : Event Addr Name) (w' : Watch Addr Name) (n : Addr) (fr : FailReport Addr) : Prop :=
  n ∈ listed w.cluster ∧ fr ∈ (w.failure n).failReports ∧ (fr.node ∈ listed w.cluster → fr.node ∈ listed w'.cluster) ∨
    ∃ link hdrSender nodename, event = .gossip link hdrSender ⟨nodename, true⟩ ∧ clusterLookupNode w.cluster nodename = some n ∧
      w.gossipSender link hdrSender = some fr.node ∧ fr.time = w.now ∧ fr.node ∈ listed w'.cluster

theorem Same.stems (same : Same w w') (event : Event Addr Name) (here : n ∈ listed w'.cluster) {fr : FailReport Addr}
    (mem : fr ∈ (w'.failure n).failReports) : Stems w event w' n fr := by
  rw [same.reports] at mem
  refine Or.inl ⟨same.cluster ▸ here, mem, fun there => ?_⟩
  rw [same.cluster]
  exact there

def Distinct (w : Watch Addr Name) : Prop := ∀ n ∈ listed w.cluster, ((w.failure n).failReports.map (·.node)).Nodup

theorem Distinct.same (distinct : Distinct w) (same : Same w w') : Distinct w' := by
  intro n here
  rw [same.reports]
  exact distinct n (same.cluster ▸ here)

theorem Distinct.follow (distinct : Distinct w) (c : ClusterState Addr Name) : Distinct (w.follow config c) := by
  intro n here
  simp only [Watch.follow]
  split
  next => exact nodup_nil
  next old =>
    have known : n ∈ listed w.cluster := by
      by_contra unknown
      exact old ⟨here, unknown⟩
    exact (distinct n known).sublist ((delReports_sublist config w.now _ _).map _)

theorem follow_stems (distinct : Distinct w) (c : ClusterState Addr Name) (event : Event Addr Name) (here : n ∈ listed c)
    {fr : FailReport Addr} (mem : fr ∈ ((w.follow config c).failure n).failReports) : Stems w event (w.follow config c) n fr := by
  simp only [Watch.follow] at mem
  split at mem
  next => cases mem
  next old =>
    have known : n ∈ listed w.cluster := by
      by_contra unknown
      exact old ⟨here, unknown⟩
    have older : fr ∈ (w.failure n).failReports := (delReports_sublist config w.now _ _).subset mem
    refine Or.inl ⟨known, older, fun there => ?_⟩
    by_contra gone
    -- The reports of a deleted node are dropped.
    have dropped : fr.node ∈ ((w.failure n).failReports.map (·.node)).filter fun sender =>
        sender ∈ listed w.cluster ∧ sender ∉ listed c := by
      rw [mem_filter, decide_eq_true_eq]
      exact ⟨List.mem_map_of_mem older, there, gone⟩
    exact delReports_gone (distinct n known) _ _ dropped (List.mem_map_of_mem mem)

theorem gossip_cluster (w : Watch Addr Name) (link : Option Addr) (hdrSender : Name) (g : Gossip Name) :
    (clusterProcessGossipSection config w link hdrSender g).cluster = w.cluster := by
  rw [clusterProcessGossipSection]
  split
  next =>
    split
    next =>
      split
      next => exact (fewer_mark _ _).cluster
      next => rfl
    next => rfl
  next => rfl

theorem Distinct.gossip (distinct : Distinct w) (link : Option Addr) (hdrSender : Name) (g : Gossip Name) :
    Distinct (clusterProcessGossipSection config w link hdrSender g) := by
  intro n here
  rw [gossip_cluster] at here
  rw [clusterProcessGossipSection]
  split
  next node sender _ _ =>
    split
    next =>
      split
      next =>
        refine List.Nodup.sublist (((fewer_mark _ _).reports n).map _) ?_
        rw [modify_failure]
        split
        next same => exact addReport_nodup (distinct node (same ▸ here))
        next => exact distinct n here
      next =>
        rw [modify_failure]
        split
        next same => exact (distinct node (same ▸ here)).sublist ((delReport_sublist config w.now _ sender).map _)
        next => exact distinct n here
    next => exact distinct n here
  next => exact distinct n here

theorem gossip_stems {hdrSender : Name} {g : Gossip Name} (linked : w.cluster.linked link = true) (here : n ∈ listed w.cluster)
    {fr : FailReport Addr} (mem : fr ∈ ((clusterProcessGossipSection config w link hdrSender g).failure n).failReports) :
    Stems w (.gossip link hdrSender g) (clusterProcessGossipSection config w link hdrSender g) n fr := by
  have old : fr ∈ (w.failure n).failReports →
      Stems w (.gossip link hdrSender g) (clusterProcessGossipSection config w link hdrSender g) n fr := by
    intro older
    refine Or.inl ⟨here, older, fun there => ?_⟩
    rw [gossip_cluster]
    exact there
  by_cases new : fr ∈ (w.failure n).failReports
  · exact old new
  · refine Or.inr ?_
    have cluster : (clusterProcessGossipSection config w link hdrSender g).cluster = w.cluster := gossip_cluster w link hdrSender g
    rw [clusterProcessGossipSection] at mem
    split at mem
    next node sender about from_ =>
      split at mem
      next =>
        split at mem
        next failing =>
          have added := ((fewer_mark _ _).reports n).subset mem
          rw [modify_failure] at added
          split at added
          next same =>
            obtain rfl | older := mem_addReport added
            · refine ⟨link, hdrSender, g.nodename, ?_, same ▸ about, from_, rfl, ?_⟩
              · rw [← failing]
              · rw [cluster]
                exact gossipSender_listed linked from_
            · exact absurd (same ▸ older) new
          next => exact absurd added new
        next =>
          rw [modify_failure] at mem
          split at mem
          next same => exact absurd (same ▸ (delReport_sublist config w.now _ sender).subset mem) new
          next => exact absurd mem new
      next => exact absurd mem new
    next => exact absurd mem new

variable {event : Event Addr Name} {events : List (Event Addr Name)}

theorem step_cases (stepped : step config w event = .ok w') : (∃ change c, event = .cluster change ∧ w' = w.follow config c) ∨
    (∃ link hdrSender g, event = .gossip link hdrSender g ∧ w.cluster.linked link = true ∧
      w' = clusterProcessGossipSection config w link hdrSender g) ∨
    (∃ sender about, event = .fail sender about ∧ Same w w') ∨ Calm w w' := by
  cases event with
  | cluster event =>
    rw [step] at stepped
    cases changed : Cluster.step w.cluster event with
    | error fault =>
      rw [changed] at stepped
      cases stepped
    | ok c =>
      rw [changed] at stepped
      exact Or.inl ⟨event, c, rfl, (Except.ok.inj stepped).symm⟩
  | gossip link hdrSender g =>
    obtain rfl := Except.ok.inj stepped
    split
    next linked => exact Or.inr (Or.inl ⟨link, hdrSender, g, rfl, linked, rfl⟩)
    next => exact Or.inr (Or.inr (Or.inr (Calm.refl w)))
  | pong n =>
    obtain rfl := Except.ok.inj stepped
    exact Or.inr (Or.inr (Or.inr (calm_at w n (calm_pong w))))
  | fail sender about =>
    obtain rfl := Except.ok.inj stepped
    exact Or.inr (Or.inr (Or.inl ⟨sender, about, rfl, same_fail w sender about⟩))
  | ping n =>
    obtain rfl := Except.ok.inj stepped
    exact Or.inr (Or.inr (Or.inr (calm_at w n fun n => calm_modify w n (fun _ => rfl) fun _ fails => fails)))
  | cron n =>
    obtain rfl := Except.ok.inj stepped
    exact Or.inr (Or.inr (Or.inr (calm_at w n (calm_cron w))))
  | updateState =>
    obtain rfl := Except.ok.inj stepped
    exact Or.inr (Or.inr (Or.inr (calm_updateState w)))
  | tick ms =>
    obtain rfl := Except.ok.inj stepped
    exact Or.inr (Or.inr (Or.inr ⟨⟨rfl, fun _ => rfl⟩, fun _ fails => fails⟩))

theorem Distinct.step (distinct : Distinct w) (stepped : step config w event = .ok w') : Distinct w' := by
  obtain ⟨change, c, -, rfl⟩ | ⟨link, hdrSender, g, -, -, rfl⟩ | ⟨sender, about, -, same⟩ | calm := step_cases stepped
  · exact distinct.follow c
  · exact distinct.gossip link hdrSender g
  · exact distinct.same same
  · exact distinct.same calm.toSame

theorem step_stems (distinct : Distinct w) (stepped : step config w event = .ok w') (here : n ∈ listed w'.cluster) {fr : FailReport Addr}
    (mem : fr ∈ (w'.failure n).failReports) : Stems w event w' n fr := by
  obtain ⟨change, c, -, rfl⟩ | ⟨link, hdrSender, g, rfl, linked, rfl⟩ | ⟨sender, about, -, same⟩ | calm := step_cases stepped
  · exact follow_stems distinct c event here mem
  · rw [gossip_cluster] at here
    exact gossip_stems linked here mem
  · exact same.stems event here mem
  · exact calm.toSame.stems event here mem

theorem run_concat (events : List (Event Addr Name)) (event : Event Addr Name) :
    run config w (events ++ [event]) = (run config w events).bind fun w => step config w event := by
  simp only [run, foldlM_append, foldlM_cons, foldlM_nil, bind_pure]
  rfl

def Told (config : Config) (w₀ : Watch Addr Name) (events : List (Event Addr Name)) (n a : Addr) (time : Int) : Prop :=
  ∃ before link hdrSender nodename after mid,
    events = before ++ .gossip link hdrSender ⟨nodename, true⟩ :: after ∧ run config w₀ before = .ok mid ∧ mid.now = time ∧
    mid.gossipSender link hdrSender = some a ∧ clusterLookupNode mid.cluster nodename = some n ∧
    ∀ more, more <+: after → ∀ later, run config w₀ (before ++ .gossip link hdrSender ⟨nodename, true⟩ :: more) = .ok later →
      a ∈ listed later.cluster ∧ n ∈ listed later.cluster

theorem Told.snoc {a : Addr} {time : Int} (told : Told config w₀ events n a time) (after : run config w₀ (events ++ [event]) = .ok w')
    (sender : a ∈ listed w'.cluster) (about : n ∈ listed w'.cluster) : Told config w₀ (events ++ [event]) n a time := by
  obtain ⟨before, link, hdrSender, nodename, rest, mid, rfl, reached, now, from_, found, stay⟩ := told
  refine ⟨before, link, hdrSender, nodename, rest ++ [event], mid, by rw [append_assoc, cons_append], reached, now, from_, found, ?_⟩
  intro more initial later runs
  obtain rfl | shorter := prefix_concat_iff.mp initial
  · rw [append_assoc, cons_append] at after
    rw [after] at runs
    obtain rfl := Except.ok.inj runs
    exact ⟨sender, about⟩
  · exact stay more shorter later runs

structure Traced (config : Config) (w₀ : Watch Addr Name) (events : List (Event Addr Name)) (w : Watch Addr Name) : Prop where
  distinct : Distinct w
  told : ∀ n ∈ listed w.cluster, ∀ fr ∈ (w.failure n).failReports, fr.node ∈ listed w.cluster ∧ Told config w₀ events n fr.node fr.time

theorem Traced.step (traced : Traced config w₀ events w) (reached : run config w₀ events = .ok w)
    (stepped : step config w event = .ok w') : Traced config w₀ (events ++ [event]) w' := by
  have after : run config w₀ (events ++ [event]) = .ok w' := by
    rw [run_concat, reached]
    exact stepped
  refine ⟨traced.distinct.step stepped, fun n here fr mem => ?_⟩
  obtain ⟨known, older, stays⟩ | ⟨link, hdrSender, nodename, rfl, found, from_, time, there⟩ := step_stems traced.distinct stepped here mem
  · obtain ⟨listed_, told⟩ := traced.told n known fr older
    exact ⟨stays listed_, told.snoc after (stays listed_) here⟩
  · refine ⟨there, events, link, hdrSender, nodename, [], w, rfl, reached, time.symm, from_, found, ?_⟩
    intro more initial later runs
    obtain rfl := prefix_nil.mp initial
    rw [after] at runs
    obtain rfl := Except.ok.inj runs
    exact ⟨there, here⟩

def Quiet (w : Watch Addr Name) : Prop := ∀ n, (w.failure n).failReports = []

theorem run_traced (quiet : Quiet w₀) (events : List (Event Addr Name)) : ∀ w, run config w₀ events = .ok w → Traced config w₀ events w := by
  induction events using List.reverseRec with
  | nil =>
    intro w reached
    obtain rfl := Except.ok.inj reached
    refine ⟨fun n _ => ?_, fun n _ fr mem => ?_⟩
    · rw [quiet n]
      exact nodup_nil
    · rw [quiet n] at mem
      cases mem
  | append_singleton events event ih =>
    intro w reached
    rw [run_concat] at reached
    cases earlier : run config w₀ events with
    | error fault =>
      rw [earlier] at reached
      cases reached
    | ok mid =>
      rw [earlier] at reached
      exact (ih mid earlier).step earlier reached

theorem mark_fails {m : Addr} (before : (w.failure m).fail = false)
    (after : ((markNodeAsFailingIfNeeded config w n).failure m).fail = true) :
    m = n ∧ (w.failure n).pfail = true ∧ neededQuorum w.size ≤ (w.cleanup config n).failures n ∧
      ((markNodeAsFailingIfNeeded config w n).failure n).failReports =
        clusterNodeCleanupFailureReports config w.now (w.failure n).failReports := by
  have cleaned : ((w.cleanup config n).failure m).fail = false := by
    rw [Watch.cleanup, modify_failure]
    split
    next here =>
      rw [← here]
      exact before
    next => exact before
  rw [markNodeAsFailingIfNeeded] at after ⊢
  split at after
  next => exact absurd after (by rw [before]; decide)
  next timedOut =>
    split at after
    next => exact absurd after (by rw [before]; decide)
    next failed =>
      simp only at after ⊢
      split at after
      next => exact absurd after (by rw [cleaned]; decide)
      next enough =>
        have same : m = n := by
          by_contra other
          rw [modify_failure, if_neg other, cleaned] at after
          cases after
        refine ⟨same, Bool.eq_true_of_not_eq_false timedOut, Nat.le_of_not_lt enough, ?_⟩
        rw [if_neg timedOut, if_neg failed, if_neg enough, modify_failure, if_pos rfl, Watch.cleanup, modify_failure, if_pos rfl]

theorem gossip_fails {hdrSender : Name} {g : Gossip Name} (before : (w.failure n).fail = false)
    (after : ((clusterProcessGossipSection config w link hdrSender g).failure n).fail = true) :
    ∃ sender, clusterLookupNode w.cluster g.nodename = some n ∧ w.gossipSender link hdrSender = some sender ∧ g.failing = true ∧
      (w.failure n).pfail = true ∧
      ((clusterProcessGossipSection config w link hdrSender g).failure n).failReports =
        clusterNodeCleanupFailureReports config w.now (clusterNodeAddFailureReport sender w.now (w.failure n).failReports) ∧
      neededQuorum w.size ≤ ((clusterProcessGossipSection config w link hdrSender g).failure n).failReports.length +
        if (w.cluster.heap w.cluster.myself).master then 1 else 0 := by
  rw [clusterProcessGossipSection] at after ⊢
  split at after
  next node sender about from_ =>
    split at after
    next allowed =>
      rw [about, from_]
      simp only [if_pos allowed]
      split at after
      next failing =>
        have unchanged : ((w.modify node fun x =>
            { x with failReports := clusterNodeAddFailureReport sender w.now x.failReports }).failure n).fail = false := by
          rw [modify_failure]
          split
          next here =>
            rw [← here]
            exact before
          next => exact before
        obtain ⟨rfl, timedOut, enough, reports⟩ := mark_fails unchanged after
        rw [modify_failure, if_pos rfl] at timedOut reports
        rw [if_pos failing]
        refine ⟨sender, rfl, rfl, failing, timedOut, reports, ?_⟩
        rw [reports]
        rw [Watch.failures, Watch.cleanup, modify_failure, if_pos rfl, modify_failure, if_pos rfl] at enough
        exact enough
      next =>
        rw [modify_failure] at after
        split at after
        next here => exact absurd after (by rw [← here]; simp only [before]; decide)
        next => exact absurd after (by rw [before]; decide)
    next => exact absurd after (by rw [before]; decide)
  next => exact absurd after (by rw [before]; decide)

/-- The votes about a node that times out: only other masters with slots have reported it, this node has slots if it
is a master, and the size of the cluster is not too small. -/
structure Sound (config : Config) (w : Watch Addr Name) (n sender : Addr) : Prop where
  size : neededQuorum (voters w.cluster).length ≤ neededQuorum w.size
  own : (w.cluster.heap w.cluster.myself).master = true → w.cluster.myself ∈ voters w.cluster
  sender : sender ∈ voters w.cluster ∧ sender ≠ w.cluster.myself
  reports : ∀ fr ∈ (w.failure n).failReports, w.now - fr.time ≤ maxtime config → fr.node ∈ voters w.cluster ∧ fr.node ≠ w.cluster.myself

def Trusted (config : Config) (w : Watch Addr Name) : Event Addr Name → Prop
  | .gossip link hdrSender g => ∀ n sender, clusterLookupNode w.cluster g.nodename = some n → w.gossipSender link hdrSender = some sender →
      g.failing = true → (w.failure n).pfail = true → (w.failure n).fail = false → Sound config w n sender
  | _ => True

def Agreed (config : Config) (w₀ : Watch Addr Name) (events : List (Event Addr Name)) (w : Watch Addr Name) (n : Addr) : Prop :=
  ∃ seers : List Addr, seers.Nodup ∧ (voters w.cluster).length < 2 * seers.length ∧
    ∀ a ∈ seers, a ∈ voters w.cluster ∧
      (a = w.cluster.myself ∨ ∃ time, Told config w₀ events n a time ∧ w.now - time ≤ maxtime config)

theorem markNodeAsFailing_agreed (quiet : Quiet w₀) (reached : run config w₀ events = .ok w) (trusted : Trusted config w event)
    (stepped : step config w event = .ok w') (own : ∀ sender about, event ≠ .fail sender about)
    (before : (w.failure n).fail = false) (after : (w'.failure n).fail = true) :
    (w.failure n).pfail = true ∧ Agreed config w₀ (events ++ [event]) w n := by
  have traced : Traced config w₀ (events ++ [event]) w' := (run_traced quiet events w reached).step reached stepped
  obtain ⟨change, c, -, rfl⟩ | ⟨link, hdrSender, g, rfl, linked, rfl⟩ | ⟨sender, about, rfl, -⟩ | calm := step_cases stepped
  · simp only [Watch.follow] at after
    split at after
    next => cases after
    next => exact absurd after (by simp only [before]; decide)
  · obtain ⟨sender, found, from_, failing, timedOut, reports, enough⟩ := gossip_fails before after
    have sound : Sound config w n sender := trusted n sender found from_ failing timedOut before
    have here : n ∈ listed (clusterProcessGossipSection config w link hdrSender g).cluster := by
      rw [gossip_cluster]
      exact listed_of_lookup found
    have distinct := traced.distinct n here
    have told := traced.told n here
    refine ⟨timedOut, ?_⟩
    -- The nodes of the counted reports.
    have others : ∀ a ∈ ((clusterProcessGossipSection config w link hdrSender g).failure n).failReports.map (·.node),
        a ∈ voters w.cluster ∧ a ≠ w.cluster.myself ∧
          ∃ time, Told config w₀ (events ++ [.gossip link hdrSender g]) n a time ∧ w.now - time ≤ maxtime config := by
      intro a mem
      obtain ⟨fr, counted, rfl⟩ := List.mem_map.mp mem
      have origin := (told fr counted).2
      rw [reports] at counted
      obtain ⟨added, valid⟩ := cleanup_valid counted
      obtain rfl | older := mem_addReport added
      · exact ⟨sound.sender.1, sound.sender.2, _, origin, valid⟩
      · have vote := sound.reports fr older valid
        exact ⟨vote.1, vote.2, _, origin, valid⟩
    have length : (((clusterProcessGossipSection config w link hdrSender g).failure n).failReports.map (·.node)).length =
        ((clusterProcessGossipSection config w link hdrSender g).failure n).failReports.length := length_map _
    have size := sound.size
    have mine := sound.own
    generalize ((clusterProcessGossipSection config w link hdrSender g).failure n).failReports.map (·.node) = nodes at distinct others length
    rw [← length] at enough
    simp only [neededQuorum] at size enough
    by_cases master : (w.cluster.heap w.cluster.myself).master = true
    · rw [if_pos master] at enough
      refine ⟨w.cluster.myself :: nodes, nodup_cons.mpr ⟨fun mem => (others _ mem).2.1 rfl, distinct⟩, ?_, ?_⟩
      · rw [length_cons]
        omega
      · intro a mem
        obtain rfl | other := mem_cons.mp mem
        · exact ⟨mine master, Or.inl rfl⟩
        · exact ⟨(others a other).1, Or.inr (others a other).2.2⟩
    · rw [if_neg master] at enough
      exact ⟨nodes, distinct, by omega, fun a mem => ⟨(others a mem).1, Or.inr (others a mem).2.2⟩⟩
  · exact absurd rfl (own sender about)
  · exact absurd (calm.fails n after) (by rw [before]; decide)

theorem run_table (events : List (Event Addr Name)) (calm : ∀ change, .cluster change ∉ events) :
    ∀ w w' : Watch Addr Name, run config w events = .ok w' → w'.cluster = w.cluster := by
  induction events with
  | nil =>
    intro w w' reached
    obtain rfl := Except.ok.inj reached
    rfl
  | cons event events ih =>
    intro w w' reached
    rw [run, foldlM_cons] at reached
    cases stepped : step config w event with
    | error fault =>
      rw [stepped] at reached
      cases reached
    | ok mid =>
      rw [stepped] at reached
      rw [ih (fun change mem => calm change (mem_cons_of_mem _ mem)) mid w' reached]
      obtain ⟨change, c, rfl, -⟩ | ⟨link, hdrSender, g, -, -, rfl⟩ | ⟨sender, about, -, same⟩ | same := step_cases stepped
      · exact absurd mem_cons_self (calm change)
      · exact gossip_cluster w link hdrSender g
      · exact same.cluster
      · exact same.cluster

end

def fourMasters : Watch Nat Nat where
  cluster :=
    { heap a := ⟨a, true, false, false, a, fun slot => slot.val = a && a != 2, if a = 2 then 0 else 1, [], none⟩
      allocated a := a < 4
      nodes := (((AList.singleton 3 3).insert 2 2).insert 1 1).insert 0 0
      myself := 0
      currentEpoch := 3
      slots slot := if slot.val < 4 ∧ slot.val ≠ 2 then some slot.val else none
      importing _ := none
      migrating _ := none
      keys _ := 0 }
  failure _ := ⟨false, false, 0, 0, []⟩
  size := 1
  stateOk := false
  amongMinorityTime := 0
  firstCallTime := 0
  now := 0

def timesOut : List (Event Nat Nat) := [.tick 1, .updateState, .tick 2000, .updateState, .ping 3, .tick 15001, .cron 3]

theorem markNodeAsFailing_agreed_reported : ∃ w, run ⟨15000, false⟩ fourMasters timesOut = .ok w ∧ (w.failure 3).pfail = true ∧
    Agreed ⟨15000, false⟩ fourMasters (timesOut ++ [.gossip none 1 ⟨3, true⟩]) w 3 := by
  refine ⟨_, rfl, markNodeAsFailing_agreed (fun _ => rfl) rfl ?_ rfl (fun _ _ same => by cases same) (by decide) (by decide)⟩
  intro n sender found from_ _ _ _
  obtain rfl : 3 = n := Option.some.inj found
  obtain rfl : 1 = sender := Option.some.inj from_
  exact ⟨by decide, by decide, by decide, fun fr mem => absurd mem not_mem_nil⟩

theorem timesOut_calm : ∀ change, .cluster change ∉ timesOut ++ [.gossip none 2 ⟨3, true⟩] := by
  intro change mem
  simp [timesOut] at mem

theorem timesOut_told {n a : Nat} {time : Int}
    (told : Told ⟨15000, false⟩ fourMasters (timesOut ++ [.gossip none 2 ⟨3, true⟩]) n a time) : a = 2 := by
  obtain ⟨before, link, hdrSender, nodename, after, mid, whole, reached, -, from_, -, -⟩ := told
  have mem : .gossip link hdrSender ⟨nodename, true⟩ ∈ timesOut ++ [.gossip none 2 ⟨3, true⟩] := by
    rw [whole]
    exact mem_append_right _ mem_cons_self
  obtain ⟨rfl, rfl, -⟩ : link = none ∧ hdrSender = 2 ∧ nodename = 3 := by
    simpa [timesOut] using mem
  have table : mid.cluster = fourMasters.cluster := by
    apply run_table before _ _ _ reached
    intro change early
    exact timesOut_calm change (by rw [whole]; exact mem_append_left _ early)
  have found : clusterLookupNode fourMasters.cluster 2 = some a := by
    rw [← table]
    exact from_
  exact (Option.some.inj found).symm

theorem markNodeAsFailing_slotless : ∃ w w', Quiet fourMasters ∧ run ⟨15000, false⟩ fourMasters timesOut = .ok w ∧
    step ⟨15000, false⟩ w (.gossip none 2 ⟨3, true⟩) = .ok w' ∧ (w.failure 3).fail = false ∧ (w'.failure 3).fail = true ∧
    ¬ Agreed ⟨15000, false⟩ fourMasters (timesOut ++ [.gossip none 2 ⟨3, true⟩]) w 3 := by
  refine ⟨_, _, fun _ => rfl, rfl, rfl, by decide, by decide, ?_⟩
  rintro ⟨seers, nodup, majority, seen⟩
  have three : voters fourMasters.cluster = [0, 1, 3] := by decide
  have only : ∀ a ∈ seers, a = 0 := by
    intro a mem
    obtain ⟨votes, here | ⟨time, told, -⟩⟩ := seen a mem
    · exact here
    · obtain rfl := timesOut_told told
      exact absurd (three ▸ votes) (by decide)
  have few : seers.length ≤ 1 := by
    rw [eq_replicate_of_mem only] at nodup
    exact nodup_replicate.mp nodup
  have size : (voters fourMasters.cluster).length = 3 := by rw [three]; rfl
  change (voters fourMasters.cluster).length < 2 * seers.length at majority
  omega

end Cplusplus.Redis.ClusterFailure
