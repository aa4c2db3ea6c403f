import Cplusplus.RedisTrib

/-! The plan for a new cluster: the loop over the hosts ends with all the nodes, the rounded slots
follow each other, and the two passes give out the replicas that are there. -/

namespace Cplusplus.RedisTrib

open List (append_assoc cons_ne_nil flatMap_cons foldlM_cons length_append length_cons length_nil length_singleton
  map_append map_cons map_nil mem_cons mem_singleton singleton_append)

def waiting (ips : List (List UInt8 × List Node)) : List Node := ips.flatMap Prod.snd

theorem addHost_waiting (ips : List (List UInt8 × List Node)) (n : Node) :
    (waiting (addHost ips n)).Perm (waiting ips ++ [n]) ∧ addHost ips n ≠ [] := by
  induction ips with
  | nil => exact ⟨.refl _, cons_ne_nil _ _⟩
  | cons entry ips ih =>
    obtain ⟨ip, nodes⟩ := entry
    rw [addHost]
    split
    · refine ⟨?_, cons_ne_nil _ _⟩
      simp only [waiting, flatMap_cons, append_assoc]
      exact List.perm_append_comm.append_left nodes
    · refine ⟨?_, cons_ne_nil _ _⟩
      simp only [waiting, flatMap_cons, append_assoc]
      exact ih.1.append_left nodes

theorem hosts_waiting (nodes : List Node) (ips : List (List UInt8 × List Node)) :
    (waiting (nodes.foldl addHost ips)).Perm (waiting ips ++ nodes) ∧ (nodes ≠ [] ∨ ips ≠ [] → nodes.foldl addHost ips ≠ []) := by
  induction nodes generalizing ips with
  | nil => exact ⟨by simp, fun some => some.resolve_left (not_not_intro rfl)⟩
  | cons n nodes ih =>
    obtain ⟨perm, some⟩ := ih (addHost ips n)
    refine ⟨?_, fun _ => some (.inr (addHost_waiting ips n).2)⟩
    have first := (addHost_waiting ips n).1.append_right nodes
    rw [append_assoc, singleton_append] at first
    exact perm.trans first

section
variable (nodesCount : Nat)

section
variable (interleaved : List Node)

theorem takeRound_perm (stop : Bool) (ips : List (List UInt8 × List Node)) :
    ((takeRound nodesCount interleaved stop ips).interleaved ++ waiting (takeRound nodesCount interleaved stop ips).ips).Perm
      (interleaved ++ waiting ips) := by
  induction ips generalizing interleaved stop with
  | nil => exact .refl _
  | cons entry ips ih =>
    obtain ⟨ip, nodes⟩ := entry
    cases nodes with
    | nil => exact ih interleaved _
    | cons n nodes =>
      have rest := ih (interleaved ++ [n]) stop
      simp only [takeRound, waiting, flatMap_cons] at rest ⊢
      have moved : ∀ front back : List Node, (front ++ (nodes ++ back)).Perm (nodes ++ (front ++ back)) := by
        intro front back
        rw [← append_assoc, ← append_assoc]
        exact List.perm_append_comm.append_right back
      refine (moved _ _).trans ((rest.append_left nodes).trans ?_)
      refine (moved _ _).symm.trans ?_
      rw [append_assoc, singleton_append]
      rfl

theorem takeRound_length (stop : Bool) (ips : List (List UInt8 × List Node)) :
    interleaved.length ≤ (takeRound nodesCount interleaved stop ips).interleaved.length ∧
      (waiting ips ≠ [] → interleaved.length < (takeRound nodesCount interleaved stop ips).interleaved.length) := by
  induction ips generalizing interleaved stop with
  | nil => exact ⟨Nat.le_refl _, fun some => absurd rfl some⟩
  | cons entry ips ih =>
    obtain ⟨ip, nodes⟩ := entry
    cases nodes with
    | nil => exact ih interleaved _
    | cons n nodes =>
      have rest := (ih (interleaved ++ [n]) stop).1
      rw [length_append, length_singleton] at rest
      simp only [takeRound]
      exact ⟨by omega, fun _ => by omega⟩

theorem takeRound_hosts (stop : Bool) (ips : List (List UInt8 × List Node)) :
    (takeRound nodesCount interleaved stop ips).ips.length = ips.length := by
  induction ips generalizing interleaved stop with
  | nil => rfl
  | cons entry ips ih =>
    obtain ⟨ip, nodes⟩ := entry
    cases nodes with
    | nil => exact congrArg Nat.succ (ih interleaved _)
    | cons n nodes => exact congrArg Nat.succ (ih (interleaved ++ [n]) stop)

end

end

/-- A round that stops the loop has all the nodes: `left` are those of the hosts it has passed. -/
theorem takeRound_stop (nodesCount left : Nat) (interleaved : List Node) (stop : Bool) (ips : List (List UInt8 × List Node))
    (all : interleaved.length + left + (waiting ips).length = nodesCount) (before : stop = true → left = 0 ∧ waiting ips = [])
    (stopped : (takeRound nodesCount interleaved stop ips).stop = true) :
    left = 0 ∧ waiting (takeRound nodesCount interleaved stop ips).ips = [] := by
  induction ips generalizing interleaved stop left with
  | nil => exact before stopped
  | cons entry ips ih =>
    obtain ⟨ip, nodes⟩ := entry
    cases nodes with
    | nil =>
      refine ih left interleaved _ all ?_ stopped
      intro either
      rw [Bool.or_eq_true] at either
      obtain early | full := either
      · exact before early
      · have same := beq_iff_eq.1 full
        have count : (waiting ((ip, []) :: ips)).length = (waiting ips).length := rfl
        exact ⟨by omega, List.eq_nil_of_length_eq_zero (by omega)⟩
    | cons n nodes =>
      have count : (waiting ((ip, n :: nodes) :: ips)).length = nodes.length + 1 + (waiting ips).length := by
        simp only [waiting, flatMap_cons, length_append, length_cons]
      have goes : stop ≠ true := fun early => absurd (before early).2 (cons_ne_nil _ _)
      obtain ⟨none, rest⟩ := ih (left + nodes.length) (interleaved ++ [n]) stop
        (by rw [length_append, length_singleton]; omega) (fun early => absurd early goes) stopped
      have empty : nodes = [] := List.eq_nil_of_length_eq_zero (by omega)
      subst empty
      exact ⟨by omega, rest⟩

theorem takeRound_done {nodesCount : Nat} {interleaved : List Node} (stop : Bool) {ips : List (List UInt8 × List Node)} (hosts : ips ≠ [])
    (none : waiting ips = []) (all : interleaved.length = nodesCount) : (takeRound nodesCount interleaved stop ips).stop = true := by
  induction ips generalizing stop with
  | nil => exact absurd rfl hosts
  | cons entry ips ih =>
    obtain ⟨ip, nodes⟩ := entry
    have empty : nodes = [] := (List.append_eq_nil_iff.1 none).1
    subst empty
    simp only [takeRound, all, beq_self_eq_true, Bool.or_true]
    cases ips with
    | nil => rfl
    | cons next ips => exact ih true (cons_ne_nil _ _) none

theorem interleave_perm {nodesCount fuel : Nat} {ips : List (List UInt8 × List Node)} {interleaved result : List Node}
    (all : interleaved.length + (waiting ips).length = nodesCount) (done : interleave nodesCount fuel ips interleaved = some result) :
    result.Perm (interleaved ++ waiting ips) := by
  induction fuel generalizing ips interleaved with
  | zero => exact absurd done (Option.some_ne_none _).symm
  | succ fuel ih =>
    have perm := takeRound_perm nodesCount interleaved false ips
    simp only [interleave] at done
    split at done
    next stopped =>
      obtain ⟨_, none⟩ := takeRound_stop nodesCount 0 interleaved false ips all (fun early => absurd early Bool.false_ne_true) stopped
      rw [none, List.append_nil] at perm
      exact Option.some.inj done ▸ perm
    next =>
      have count := perm.length_eq
      rw [length_append, length_append] at count
      exact (ih (by omega) done).trans perm

theorem interleave_ends {nodesCount : Nat} (ips : List (List UInt8 × List Node)) (interleaved : List Node) (hosts : ips ≠ [])
    (all : interleaved.length + (waiting ips).length = nodesCount) :
    ∃ fuel result, interleave nodesCount fuel ips interleaved = some result := by
  induction size : (waiting ips).length using Nat.strongRecOn generalizing ips interleaved with
  | _ size ih =>
    have perm := (takeRound_perm nodesCount interleaved false ips).length_eq
    rw [length_append, length_append] at perm
    cases stopped : (takeRound nodesCount interleaved false ips).stop with
    | true => exact ⟨1, _, by simp only [interleave, stopped, if_true]; rfl⟩
    | false =>
      have same : (takeRound nodesCount interleaved false ips).ips ≠ [] := by
        rw [← List.length_pos_iff, takeRound_hosts]
        exact List.length_pos_iff.2 hosts
      have more : waiting ips ≠ [] := by
        intro none
        rw [none, length_nil] at all
        exact absurd (takeRound_done false hosts none all) (by rw [stopped]; exact Bool.false_ne_true)
      have taken := (takeRound_length nodesCount interleaved false ips).2 more
      obtain ⟨fuel, result, done⟩ := ih (waiting (takeRound nodesCount interleaved false ips).ips).length (by omega)
        (takeRound nodesCount interleaved false ips).ips (takeRound nodesCount interleaved false ips).interleaved same (by omega) rfl
      exact ⟨fuel + 1, result, by simp only [interleave, stopped, Bool.false_eq_true, if_false]; exact done⟩

theorem slotRange_append {a b c : Int} (first : a ≤ b + 1) (second : b ≤ c) : slotRange a b ++ slotRange (b + 1) c = slotRange a c := by
  have parts : (c + 1 - a).toNat = (b + 1 - a).toNat + (c + 1 - (b + 1)).toNat := by omega
  simp only [slotRange]
  rw [parts, List.range_add, map_append, List.append_cancel_left_eq, List.map_map]
  apply List.map_congr_left
  intro k _
  simp only [Function.comp_apply]
  omega

theorem slotRange_length (a b : Int) : (slotRange a b).length = (b + 1 - a).toNat := by
  unfold slotRange
  rw [List.length_map, List.length_range]

def cut (mastersCount masternum : Nat) : Int := ⌊(masternum : Rat) * (clusterHashSlots / mastersCount) + 1 / 2⌋

variable {mastersCount : Nat}

theorem cut_zero : cut mastersCount 0 = 0 := by
  unfold cut
  rw [Nat.cast_zero, zero_mul, zero_add]
  norm_num

section
variable (positive : 0 < mastersCount)
include positive

theorem cut_all : cut mastersCount mastersCount = clusterHashSlots := by
  have nonzero : (mastersCount : Rat) ≠ 0 := Nat.cast_ne_zero.2 (Nat.ne_of_gt positive)
  unfold cut
  rw [mul_div_cancel₀ _ nonzero, ← Int.cast_natCast, Int.floor_intCast_add]
  norm_num

theorem slotsPerNode_ge (few : mastersCount ≤ clusterHashSlots) : (1 : Rat) ≤ clusterHashSlots / mastersCount := by
  have above : (0 : Rat) < mastersCount := Nat.cast_pos.2 positive
  rw [one_le_div above]
  exact Nat.cast_le.2 few

theorem cut_succ (few : mastersCount ≤ clusterHashSlots) (masternum : Nat) :
    cut mastersCount masternum + 1 ≤ cut mastersCount (masternum + 1) := by
  have least := slotsPerNode_ge positive few
  unfold cut
  rw [← Int.floor_add_one]
  apply Int.floor_le_floor
  push_cast
  linarith

theorem cut_le {masternum : Nat} (inside : masternum ≤ mastersCount) : cut mastersCount masternum ≤ clusterHashSlots := by
  rw [← cut_all positive]
  unfold cut
  apply Int.floor_le_floor
  have step : (masternum : Rat) * (clusterHashSlots / mastersCount) ≤ mastersCount * (clusterHashSlots / mastersCount) := by
    apply mul_le_mul_of_nonneg_right (Nat.cast_le.2 inside)
    positivity
  linarith

section
variable (few : mastersCount ≤ clusterHashSlots)
include few

theorem roundHalf_cut (masternum : Nat) :
    roundHalf ((masternum : Rat) * (clusterHashSlots / mastersCount) + clusterHashSlots / mastersCount - 1) =
      cut mastersCount (masternum + 1) - 1 := by
  have least := slotsPerNode_ge positive few
  have before : (0 : Rat) ≤ masternum * (clusterHashSlots / mastersCount) := by positivity
  unfold roundHalf cut
  rw [if_pos (by linarith), ← Int.floor_sub_one]
  congr 1
  push_cast
  ring

/-- The last slot is just before the next master's first one, or the last of all. -/
theorem lastSlot_cut {masternum : Nat} (inside : masternum < mastersCount) :
    lastSlot mastersCount masternum (cut mastersCount masternum) (masternum * (clusterHashSlots / mastersCount)) (clusterHashSlots / mastersCount) =
      cut mastersCount (masternum + 1) - 1 := by
  have later := cut_succ positive few masternum
  have most := cut_le positive (show masternum + 1 ≤ mastersCount from inside)
  have clamped : (if cut mastersCount (masternum + 1) - 1 > clusterHashSlots ∨ masternum = mastersCount - 1 then (clusterHashSlots : Int) - 1
      else cut mastersCount (masternum + 1) - 1) = cut mastersCount (masternum + 1) - 1 := by
    split
    next last =>
      have same : masternum + 1 = mastersCount := by omega
      rw [same, cut_all positive]
    next => rfl
  unfold lastSlot
  simp only [roundHalf_cut positive few]
  rw [clamped, if_neg (by omega)]

theorem addSlots_ranges (masters : List Node) (masternum : Nat) (count : masternum + masters.length = mastersCount) :
    ((addSlots mastersCount (clusterHashSlots / mastersCount) masternum (cut mastersCount masternum)
      (masternum * (clusterHashSlots / mastersCount)) masters).flatMap fun entry => slotRange entry.2.1 entry.2.2) =
      slotRange (cut mastersCount masternum) (clusterHashSlots - 1) := by
  induction masters generalizing masternum with
  | nil =>
    obtain rfl : masternum = mastersCount := count
    rw [cut_all positive]
    unfold slotRange
    rw [show (clusterHashSlots : Int) - 1 + 1 - clusterHashSlots = 0 by omega]
    rfl
  | cons n masters ih =>
    rw [length_cons] at count
    have later := cut_succ positive few masternum
    have most := cut_le positive (show masternum + 1 ≤ mastersCount by omega)
    have cursor : (masternum : Rat) * (clusterHashSlots / mastersCount) + clusterHashSlots / mastersCount =
        ((masternum + 1 : Nat) : Rat) * (clusterHashSlots / mastersCount) := by
      push_cast
      ring
    simp only [addSlots, flatMap_cons, lastSlot_cut positive few (show masternum < mastersCount by omega), cursor]
    rw [show cut mastersCount (masternum + 1) - 1 + 1 = cut mastersCount (masternum + 1) by omega, ih (masternum + 1) (by omega)]
    have joined := slotRange_append (a := cut mastersCount masternum) (b := cut mastersCount (masternum + 1) - 1)
      (c := (clusterHashSlots : Int) - 1) (by omega) (by omega)
    rw [show cut mastersCount (masternum + 1) - 1 + 1 = cut mastersCount (masternum + 1) by omega] at joined
    exact joined

end

end

theorem addSlots_owners (mastersCount : Nat) (slotsPerNode : Rat) (masternum : Nat) (first : Int) (cursor : Rat) (masters : List Node) :
    (addSlots mastersCount slotsPerNode masternum first cursor masters).map Prod.fst = masters := by
  induction masters generalizing masternum first cursor with
  | nil => rfl
  | cons n masters ih =>
    simp only [addSlots, map_cons]
    rw [ih]

theorem addSlots_length (mastersCount : Nat) (slotsPerNode : Rat) (masternum : Nat) (first : Int) (cursor : Rat) (masters : List Node) :
    masters.length ≤ ((addSlots mastersCount slotsPerNode masternum first cursor masters).flatMap fun entry =>
      slotRange entry.2.1 entry.2.2).length := by
  induction masters generalizing masternum first cursor with
  | nil => exact Nat.zero_le _
  | cons n masters ih =>
    have own : first ≤ lastSlot mastersCount masternum first cursor slotsPerNode := by
      unfold lastSlot
      simp only
      generalize (if roundHalf (cursor + slotsPerNode - 1) > clusterHashSlots ∨ masternum = mastersCount - 1 then (clusterHashSlots : Int) - 1
        else roundHalf (cursor + slotsPerNode - 1)) = last
      split <;> omega
    have rest := ih (masternum + 1) (lastSlot mastersCount masternum first cursor slotsPerNode + 1) (cursor + slotsPerNode)
    simp only [addSlots, flatMap_cons, length_append, length_cons, slotRange_length]
    omega

theorem addSlots_partition {masters : List Node} (positive : 0 < mastersCount) (count : masters.length = mastersCount) :
    ((addSlots mastersCount (clusterHashSlots / mastersCount) 0 0 0 masters).flatMap fun entry => slotRange entry.2.1 entry.2.2).Perm
      (slotRange 0 (clusterHashSlots - 1)) ↔ mastersCount ≤ clusterHashSlots := by
  constructor
  · intro perm
    have least := addSlots_length mastersCount (clusterHashSlots / mastersCount) 0 0 0 masters
    rw [perm.length_eq, slotRange_length, count] at least
    omega
  · intro few
    have ranges := addSlots_ranges positive few masters 0 (by omega)
    rw [cut_zero, Nat.cast_zero, zero_mul] at ranges
    rw [ranges]

structure Handed (pool : List Node) (spare : Spare) : Prop where
  perm : (spare.replicas.map Prod.fst ++ spare.interleaved).Perm pool
  count : spare.nodesCount = spare.interleaved.length
  distinct : pool.Nodup

variable {pool : List Node} {spare : Spare}

theorem filter_perm {nodes : List Node} (distinct : nodes.Nodup) {node : Node} (member : node ∈ nodes) :
    (node :: nodes.filter (· ≠ node)).Perm nodes := by
  have same : nodes.filter (· ≠ node) = nodes.filter (· != node) := List.filter_congr fun _ _ => by rw [bne, beq_eq_decide, decide_not]
  rw [same, ← List.Nodup.erase_eq_filter distinct node]
  exact (List.perm_cons_erase member).symm

theorem Handed.assign (handed : Handed pool spare) (m : Node) (left : spare.nodesCount ≠ 0) :
    ∃ after, assignReplica m spare = some after ∧ Handed pool after ∧ after.nodesCount = spare.nodesCount - 1 ∧
      after.replicas.map Prod.snd = spare.replicas.map Prod.snd ++ [m.name] := by
  have apart : spare.interleaved.Nodup := (List.nodup_append.1 (handed.perm.nodup_iff.2 handed.distinct)).2.1
  have result : ∃ node rest, (node :: rest).Perm spare.interleaved ∧
      assignReplica m spare = some ⟨rest, spare.nodesCount - 1, spare.replicas ++ [(node, m.name)]⟩ := by
    unfold assignReplica
    cases found : spare.interleaved.find? fun n => n.host ≠ m.host with
    | some node => exact ⟨node, _, filter_perm apart (List.mem_of_find?_eq_some found), rfl⟩
    | none =>
      cases same : spare.interleaved with
      | nil =>
        rw [handed.count, same] at left
        exact absurd rfl left
      | cons node rest => exact ⟨node, rest, .refl _, rfl⟩
  obtain ⟨node, rest, perm, done⟩ := result
  refine ⟨_, done, ⟨?_, ?_, handed.distinct⟩, rfl, ?_⟩
  · simp only [map_append, map_cons, map_nil, append_assoc, singleton_append]
    exact (perm.append_left _).trans handed.perm
  · have size := perm.length_eq
    rw [length_cons] at size
    simp only [handed.count]
    omega
  · simp only [map_append, map_cons, map_nil]

def passLimit (assign : Assign) (replicas : Nat) : Nat := if assign = .unused then min replicas 1 else replicas

structure Passed (pool masters : List Node) (limit : Nat) (before after : Spare) : Prop where
  handed : Handed pool after
  left : after.nodesCount = before.nodesCount - limit * masters.length
  names : ∃ more, after.replicas.map Prod.snd = before.replicas.map Prod.snd ++ more ∧ (∀ name ∈ more, name ∈ masters.map Node.name) ∧
    (limit * masters.length ≤ before.nodesCount → ∀ m ∈ masters, limit ≤ more.count m.name)

section
variable (handed : Handed pool spare)
include handed

theorem Handed.assignReplicas (assign : Assign) (m : Node) (todo : Nat) :
    ∃ after, assignReplicas assign m todo spare = some after ∧ Passed pool [m] (passLimit assign todo) spare after := by
  induction todo generalizing spare with
  | zero =>
    have limit : passLimit assign 0 = 0 := by
      unfold passLimit
      split <;> rfl
    rw [limit]
    exact ⟨spare, rfl, handed, by simp, [], by simp⟩
  | succ todo ih =>
    rw [RedisTrib.assignReplicas]
    by_cases none : spare.nodesCount = 0
    · rw [if_pos none]
      refine ⟨spare, rfl, handed, by omega, [], by simp, by simp, fun room => ?_⟩
      have limit : passLimit assign (todo + 1) = 0 := by
        rw [length_singleton] at room
        omega
      rw [limit]
      exact fun _ _ => Nat.zero_le _
    · obtain ⟨middle, first, kept, left, same⟩ := handed.assign m none
      rw [if_neg none, first, Option.bind_some]
      cases assign with
      | unused =>
        have limit : passLimit .unused (todo + 1) = 1 := by
          unfold passLimit
          rw [if_pos rfl]
          omega
        rw [if_pos rfl, limit]
        refine ⟨middle, rfl, kept, left, [m.name], same, by simp, fun _ other member => ?_⟩
        rw [mem_singleton.1 member, List.count_singleton_self]
      | requested =>
        obtain ⟨after, rest, final, fewer, others, next, among, plenty⟩ := ih kept
        have limit : ∀ n, passLimit .requested n = n := fun n => if_neg (by decide)
        rw [limit, length_singleton] at fewer plenty
        rw [if_neg (by decide), limit]
        refine ⟨after, rest, final, ?_, m.name :: others, ?_, ?_, ?_⟩
        · rw [length_singleton]
          omega
        · rw [next, same, append_assoc, singleton_append]
        · intro name member
          obtain rfl | later := mem_cons.1 member
          · exact mem_singleton.2 rfl
          · exact among name later
        · intro room other member
          rw [length_singleton] at room
          obtain rfl := mem_singleton.1 member
          have given := plenty (by omega) other List.mem_cons_self
          rw [List.count_cons_self]
          omega

theorem Handed.pass (assign : Assign) (replicas : Nat) (masters : List Node) :
    ∃ after, masters.foldlM (fun spare m => RedisTrib.assignReplicas assign m replicas spare) spare = some after ∧
      Passed pool masters (passLimit assign replicas) spare after := by
  induction masters generalizing spare with
  | nil => exact ⟨spare, rfl, handed, by simp, [], by simp⟩
  | cons m masters ih =>
    obtain ⟨middle, first, kept, left, names, same, known, enough⟩ := handed.assignReplicas assign m replicas
    obtain ⟨after, rest, final, fewer, others, next, among, plenty⟩ := ih kept
    refine ⟨after, ?_, final, ?_, names ++ others, ?_, ?_, ?_⟩
    · rw [foldlM_cons, first]
      exact rest
    · rw [fewer, left, length_singleton, length_cons, Nat.mul_add]
      omega
    · rw [next, same, append_assoc]
    · intro name member
      obtain member | member := List.mem_append.1 member
      · exact mem_cons.2 (.inl (mem_singleton.1 (known name member)))
      · exact List.mem_cons_of_mem _ (among name member)
    · intro room other member
      rw [length_cons, Nat.mul_add, Nat.mul_one] at room
      rw [length_singleton, Nat.mul_one] at enough left
      rw [List.count_append]
      obtain rfl | later := mem_cons.1 member
      · have own := enough (by omega) other List.mem_cons_self
        omega
      · have given := plenty (by omega) other later
        omega

/-- Both passes: the second gives one more replica to a master, while there are nodes. -/
theorem Handed.assignAll (masters : List Node) (replicas : Nat) (room : replicas * masters.length ≤ spare.nodesCount) :
    ∃ after, assignAll masters replicas spare = some after ∧ Handed pool after ∧
      after.nodesCount = spare.nodesCount - replicas * masters.length - min replicas 1 * masters.length ∧
      ∃ more, after.replicas.map Prod.snd = spare.replicas.map Prod.snd ++ more ∧ (∀ name ∈ more, name ∈ masters.map Node.name) ∧
        ∀ m ∈ masters, replicas ≤ more.count m.name := by
  obtain ⟨middle, first, kept, left, names, same, known, enough⟩ := handed.pass .requested replicas masters
  obtain ⟨after, second, final, fewer, others, next, among, _⟩ := kept.pass .unused replicas masters
  have requested : passLimit .requested replicas = replicas := if_neg (by decide)
  have unused : passLimit .unused replicas = min replicas 1 := if_pos rfl
  rw [requested] at left enough
  rw [unused] at fewer
  refine ⟨after, ?_, final, by rw [fewer, left], names ++ others, ?_, ?_, ?_⟩
  · unfold RedisTrib.assignAll
    rw [foldlM_cons, first, Option.bind_eq_bind, Option.bind_some, foldlM_cons, second]
    rfl
  · rw [next, same, append_assoc]
  · intro name member
    obtain member | member := List.mem_append.1 member
    · exact known name member
    · exact among name member
  · intro m member
    have own := enough room m member
    rw [List.count_append]
    omega

end

section
variable (create : Create)

theorem Create.hosts_perm : (waiting (create.nodes.foldl addHost [])).Perm create.nodes := (hosts_waiting create.nodes []).1

theorem Create.interleaved_perm {fuel : Nat} {interleaved : List Node}
    (done : interleave create.nodes.length fuel (create.nodes.foldl addHost []) [] = some interleaved) : interleaved.Perm create.nodes := by
  have all : ([] : List Node).length + (waiting (create.nodes.foldl addHost [])).length = create.nodes.length := by
    rw [create.hosts_perm.length_eq, length_nil, Nat.zero_add]
  exact (interleave_perm all done).trans create.hosts_perm

theorem Create.interleave_ends :
    ∃ fuel interleaved, interleave create.nodes.length fuel (create.nodes.foldl addHost []) [] = some interleaved := by
  apply RedisTrib.interleave_ends
  · apply (hosts_waiting create.nodes []).2
    refine .inl fun none => ?_
    have masters := create.masters
    rw [none, length_nil, Nat.zero_div] at masters
    omega
  · rw [create.hosts_perm.length_eq, length_nil, Nat.zero_add]

theorem Create.nodes_length :
    create.nodes.length = create.replicas * create.mastersCount + create.mastersCount + create.nodes.length % (create.replicas + 1) := by
  have parts := Nat.div_add_mod create.nodes.length (create.replicas + 1)
  rw [Nat.add_mul, Nat.one_mul] at parts
  exact parts.symm

theorem Create.assigned {interleaved : List Node} (perm : interleaved.Perm create.nodes) :
    ∃ after, assignAll (interleaved.take create.mastersCount) create.replicas
        ⟨interleaved.drop create.mastersCount, create.nodes.length - (interleaved.take create.mastersCount).length, []⟩ = some after ∧
      Handed (interleaved.drop create.mastersCount) after ∧
      after.nodesCount = create.nodes.length % (create.replicas + 1) - create.mastersCount ∧
      (∀ name ∈ after.replicas.map Prod.snd, name ∈ (interleaved.take create.mastersCount).map Node.name) ∧
      ∀ m ∈ interleaved.take create.mastersCount, create.replicas ≤ (after.replicas.map Prod.snd).count m.name := by
  have size := perm.length_eq
  have nodes := create.nodes_length
  have distinct : interleaved.Nodup := perm.nodup_iff.2 (List.Nodup.of_map Node.name create.distinct)
  have taken : (interleaved.take create.mastersCount).length = create.mastersCount := by
    rw [List.length_take]
    omega
  have handed : Handed (interleaved.drop create.mastersCount)
      ⟨interleaved.drop create.mastersCount, create.nodes.length - (interleaved.take create.mastersCount).length, []⟩ := by
    refine ⟨.refl _, ?_, distinct.sublist (List.drop_sublist _ _)⟩
    simp only [taken, List.length_drop, size]
  obtain ⟨after, done, final, left, more, names, known, enough⟩ := handed.assignAll (interleaved.take create.mastersCount) create.replicas
    (by simp only [taken]; omega)
  simp only [map_nil, List.nil_append] at names
  simp only [taken] at left
  refine ⟨after, done, final, ?_, names ▸ known, names ▸ enough⟩
  rw [left]
  rcases Nat.eq_zero_or_pos create.replicas with none | some
  · have rest : create.nodes.length % (create.replicas + 1) = 0 := by rw [none, Nat.zero_add, Nat.mod_one]
    rw [none, Nat.zero_mul, Nat.zero_min, Nat.zero_mul]
    rw [none, Nat.zero_mul] at nodes
    omega
  · rw [Nat.min_eq_right some, Nat.one_mul]
    omega

/-- Every plan: the nodes are masters, replicas and as many others as the second pass leaves. -/
theorem allocSlots_result {fuel : Nat} {plan : Plan} (done : create.allocSlots fuel = some plan) : plan.masters.length = create.mastersCount ∧
      plan.slots = addSlots create.mastersCount (clusterHashSlots / create.mastersCount) 0 0 0 plan.masters ∧
      (∃ others : List Node, (plan.masters ++ (plan.replicas.map Prod.fst ++ others)).Perm create.nodes ∧
        others.length = create.nodes.length % (create.replicas + 1) - create.mastersCount) ∧
      (∀ entry ∈ plan.replicas, entry.2 ∈ plan.masters.map Node.name) ∧
      ∀ m ∈ plan.masters, create.replicas ≤ (plan.replicas.map Prod.snd).count m.name := by
  obtain ⟨⟨masters, rest⟩, selected, planned⟩ := Option.bind_eq_some_iff.1 done
  obtain ⟨interleaved, joined, same⟩ := Option.map_eq_some_iff.1 selected
  obtain ⟨rfl, rfl⟩ := Prod.mk.inj same
  have perm := create.interleaved_perm joined
  have size := perm.length_eq
  have nodes := create.nodes_length
  obtain ⟨after, assigned, handed, left, known, enough⟩ := create.assigned perm
  obtain ⟨spare, again, rfl⟩ := Option.map_eq_some_iff.1 planned
  obtain rfl := Option.some.inj (assigned.symm.trans again)
  refine ⟨?_, rfl, ⟨after.interleaved, ?_, ?_⟩, ?_, enough⟩
  · simp only [List.length_take]
    omega
  · have whole := handed.perm.append_left (interleaved.take create.mastersCount)
    rw [List.take_append_drop] at whole
    exact whole.trans perm
  · rw [← handed.count, left]
  · exact fun entry member => known entry.2 (List.mem_map_of_mem member)

theorem allocSlots_ends : ∃ fuel plan, create.allocSlots fuel = some plan := by
  obtain ⟨fuel, interleaved, joined⟩ := create.interleave_ends
  obtain ⟨after, assigned, _⟩ := create.assigned (create.interleaved_perm joined)
  refine ⟨fuel, Option.isSome_iff_exists.1 ?_⟩
  unfold Create.allocSlots Create.select
  rw [joined, Option.map_some, Option.bind_some]
  simp only [assigned, Option.map_some, Option.isSome_some]

end

/-- The plan is always found. It is as it should be exactly when there are no more masters than slots
and no more nodes left over than masters. -/
theorem cluster_plan (create : Create) : (∃ fuel plan, create.allocSlots fuel = some plan ∧ Allocated create plan) ↔ create.Fits := by
  have positive : 0 < create.mastersCount := by
    have masters := create.masters
    unfold Create.mastersCount
    omega
  constructor
  · rintro ⟨fuel, plan, done, allocated⟩
    obtain ⟨count, slots, ⟨others, perm, left⟩, _⟩ := allocSlots_result create done
    have ranges := allocated.slots
    rw [slots] at ranges
    have size := perm.length_eq.trans allocated.nodes.length_eq.symm
    simp only [length_append] at size
    exact ⟨(addSlots_partition positive count).1 ranges, by omega⟩
  · rintro ⟨few, used⟩
    obtain ⟨fuel, plan, done⟩ := allocSlots_ends create
    obtain ⟨count, slots, ⟨others, perm, left⟩, known, enough⟩ := allocSlots_result create done
    have none : others = [] := List.eq_nil_of_length_eq_zero (by omega)
    rw [none, List.append_nil] at perm
    refine ⟨fuel, plan, done, ?_, ?_, perm, known, enough⟩
    · rw [slots, addSlots_owners]
    · rw [slots]
      exact (addSlots_partition positive count).2 few

/-- Nineteen nodes of one host with four replicas each: there are three masters, and the last of the
four nodes that are left over gets no role. -/
def nineteen : Create where
  nodes := (List.range 19).map fun n => ⟨[UInt8.ofNat n], []⟩
  distinct := by decide
  replicas := 4
  masters := by decide

theorem node_without_role : ¬ ∀ create : Create, ∃ fuel plan, create.allocSlots fuel = some plan ∧ Allocated create plan := by
  intro always
  obtain ⟨fuel, plan, done, allocated⟩ := always nineteen
  obtain ⟨_, _, ⟨others, perm, left⟩, _⟩ := allocSlots_result nineteen done
  have size := perm.length_eq.trans allocated.nodes.length_eq.symm
  have one : others.length = 1 := left
  simp only [length_append] at size
  omega

end Cplusplus.RedisTrib
