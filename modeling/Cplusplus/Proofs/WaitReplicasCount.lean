import Cplusplus.WaitReplicas

/-! A client released from the remembered pair is owed nothing: the count for a larger offset is a lower bound
of its own. -/

namespace Cplusplus.Redis.WaitReplicas

def Slave.acked (slave : Slave) (offset : Int) : Bool :=
  slave.replstate = .online && decide (offset ≤ slave.replAckOff)

def Waiter.satisfied (slaves : List Slave) (c : Waiter) : Bool :=
  decide (c.numreplicas ≤ (slaves.countP (·.acked c.reploffset) : Int))

section
variable (slaves : List Slave)

private theorem count_from (offset : Int) (count : Nat) : slaves.foldl (fun count slave =>
      if slave.replstate ≠ .online then count else if offset ≤ slave.replAckOff then count + 1 else count) count =
    count + slaves.countP (·.acked offset) := by
  induction slaves generalizing count with
  | nil => rfl
  | cons slave rest ih =>
    rw [List.foldl_cons, ih, List.countP_cons]
    by_cases online : slave.replstate = .online
    · by_cases reached : offset ≤ slave.replAckOff
      · simp [Slave.acked, online, reached]
        omega
      · simp [Slave.acked, online, reached]
    · simp [Slave.acked, online]

theorem replicationCountAcksByOffset_eq (offset : Int) : replicationCountAcksByOffset slaves offset = slaves.countP (·.acked offset) := by
  exact (count_from slaves offset 0).trans (Nat.zero_add _)

theorem countAcks_antitone {small large : Int} (order : small ≤ large) : slaves.countP (·.acked large) ≤ slaves.countP (·.acked small) := by
  apply List.countP_mono_left
  intro slave _ reached
  simp only [Slave.acked, Bool.and_eq_true, decide_eq_true_eq] at reached ⊢
  exact ⟨reached.1, Int.le_trans order reached.2⟩

end

def Answers (slaves : List Slave) (c : Waiter) (reply : Nat × Int) : Prop :=
  reply.1 = c.client ∧ c.numreplicas ≤ reply.2 ∧ reply.2 ≤ (slaves.countP (·.acked c.reploffset) : Int)

def Remembered (slaves : List Slave) (lastOffset lastNumreplicas : Int) : Prop :=
  lastOffset ≠ 0 → lastNumreplicas = (slaves.countP (·.acked lastOffset) : Int)

theorem waitingLoop_exact (slaves : List Slave) (waiting : List Waiter) (lastOffset lastNumreplicas : Int)
    (remembered : Remembered slaves lastOffset lastNumreplicas) :
    (waitingLoop slaves waiting lastOffset lastNumreplicas).1 = waiting.filter (fun c => !c.satisfied slaves) ∧
    List.Forall₂ (Answers slaves) (waiting.filter (·.satisfied slaves))
      (waitingLoop slaves waiting lastOffset lastNumreplicas).2 := by
  induction waiting generalizing lastOffset lastNumreplicas with
  | nil => exact ⟨rfl, List.Forall₂.nil⟩
  | cons c rest ih =>
    simp only [waitingLoop, replicationCountAcksByOffset_eq]
    split
    next cached =>
      -- The client's offset is smaller, so its own count can only be larger.
      have count := remembered cached.1
      have larger := countAcks_antitone slaves (Int.le_of_lt cached.2.1)
      have enough : c.satisfied slaves = true := by
        simp only [Waiter.satisfied, decide_eq_true_eq]
        omega
      obtain ⟨kept, sent⟩ := ih lastOffset lastNumreplicas remembered
      refine ⟨by simp [kept, enough], ?_⟩
      simp only [List.filter_cons, enough, if_true]
      refine List.Forall₂.cons ⟨rfl, Int.le_of_lt cached.2.2, ?_⟩ sent
      omega
    next =>
      split
      next enough =>
        have satisfied : c.satisfied slaves = true := by simpa [Waiter.satisfied] using enough
        obtain ⟨kept, sent⟩ := ih c.reploffset _ (fun _ => rfl)
        refine ⟨by simp [kept, satisfied], ?_⟩
        simp only [List.filter_cons, satisfied, if_true]
        exact List.Forall₂.cons ⟨rfl, enough, Int.le_refl _⟩ sent
      next few =>
        have unsatisfied : c.satisfied slaves = false := by simpa [Waiter.satisfied] using few
        obtain ⟨kept, sent⟩ := ih lastOffset lastNumreplicas remembered
        exact ⟨by simp [kept, unsatisfied], by simpa [unsatisfied] using sent⟩

/-- After any events, exactly the clients with enough acknowledgements leave the list, in its order, and each
is sent a number between what it asked for and what there is. -/
theorem processClientsWaitingReplicas_exact (start : Server) (events : List Event) :
    let s := events.foldl step start
    (processClientsWaitingReplicas s).clientsWaitingAcks =
      s.clientsWaitingAcks.filter (fun c => !c.satisfied s.slaves) ∧
    ∃ sent, (processClientsWaitingReplicas s).replies = s.replies ++ sent ∧
      List.Forall₂ (Answers s.slaves) (s.clientsWaitingAcks.filter (·.satisfied s.slaves)) sent := by
  intro s
  obtain ⟨kept, sent⟩ := waitingLoop_exact s.slaves s.clientsWaitingAcks 0 0 (fun nonzero => absurd rfl nonzero)
  exact ⟨kept, _, rfl, sent⟩

end Cplusplus.Redis.WaitReplicas
