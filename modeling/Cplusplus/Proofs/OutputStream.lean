import Cplusplus.Proofs.OutputQueue

/-! A deferred length takes the place that was kept for it, on its own or glued to the next node. -/

namespace Cplusplus.Redis.OutputBuffer
open Cplusplus.References List Option

section
variable {usable : Nat → Nat} {held : List Nat} {s : Server} {text : List UInt8} {id : Nat}
variable {ln first : ListNode} {front after rest : List ListNode}

theorem multiBulkHeader_length (length : BitVec 64) : (multiBulkHeader length.toInt).length < 32 := by
  have low := BitVec.le_toInt length
  have high := @BitVec.toInt_lt 64 length
  have digits : (Decimal.decimal length.toInt.natAbs).length ≤ 20 := by
    rw [Decimal.decimal, length_map, Nat.length_toDigits_le_iff (by decide) (by decide)]
    omega
  have sign : (if length.toInt < 0 then [45] else ([] : List UInt8)).length ≤ 1 := by split <;> decide
  simp only [multiBulkHeader, length_append, length_cons, length_nil]
  omega

theorem split_at_node {reply : List ListNode} (member : ln ∈ reply) (same : ln.id = id) (distinct : (reply.map ListNode.id).Nodup) :
    ∃ front after, reply.takeWhile (fun other => other.id ≠ id) = front ∧ reply.dropWhile (fun other => other.id ≠ id) = ln :: after ∧
      reply = front ++ ln :: after := by
  induction reply with
  | nil => exact absurd member not_mem_nil
  | cons head reply ih =>
    rw [map_cons, nodup_cons] at distinct
    obtain rfl | later := mem_cons.mp member
    · exact ⟨[], reply, by simp [same], by simp [same], rfl⟩
    · have apart : head.id ≠ id := by
        rintro rfl
        exact distinct.1 (List.mem_map.mpr ⟨ln, later, same⟩)
      obtain ⟨front, after, taken, dropped, whole⟩ := ih later distinct.2
      refine ⟨head :: front, after, ?_, ?_, by rw [cons_append, ← whole]⟩
      · rw [takeWhile_cons_of_pos (by simpa using apart), taken]
      · rw [dropWhile_cons_of_pos (by simpa using apart), dropped]

theorem hole_node {hole : Nat} (waiting : .hole hole ∈ s.queue) : ∃ ln ∈ s.client.reply, ln.id = hole ∧ nodeText s.objects ln = none := by
  obtain inBuf | inList := mem_append.mp waiting
  · exact absurd inBuf hole_notMem_bytes
  · obtain ⟨ln, member, symbol⟩ := mem_flatMap.mp inList
    unfold nodeSymbols at symbol
    cases shows : nodeText s.objects ln with
    | none =>
      rw [shows, elim_none, mem_singleton] at symbol
      exact ⟨ln, member, (Symbol.hole.inj symbol).symm, shows⟩
    | some text =>
      rw [shows, elim_some] at symbol
      exact absurd symbol hole_notMem_bytes

theorem hole_notMem_nodes {part : List ListNode} (apart : ∀ ln ∈ part, ln.id ≠ id) : .hole id ∉ part.flatMap (nodeSymbols s.objects) := by
  intro member
  obtain ⟨ln, inside, symbol⟩ := mem_flatMap.mp member
  unfold nodeSymbols at symbol
  cases shows : nodeText s.objects ln with
  | none =>
    rw [shows, elim_none, mem_singleton] at symbol
    exact apart ln inside (Symbol.hole.inj symbol).symm
  | some text =>
    rw [shows, elim_some] at symbol
    exact hole_notMem_bytes symbol

/-- A node without a text is an object with a NULL pointer that only this node refers to. -/
theorem Server.Valid.hole_sole (valid : s.Valid usable held) (reply : s.client.reply = front ++ ln :: after)
    (empty : nodeText s.objects ln = none) :
    Counted s.objects (ln.value :: (held ++ (front ++ after).map ListNode.value)) ∧
      ln.value ∉ held ++ (front ++ after).map ListNode.value ∧ nodeMemory usable s.objects ln = 0 := by
  have member : ln ∈ s.client.reply := by
    rw [reply]
    simp
  obtain ⟨o, found⟩ := valid.present (mem_append_right held (List.mem_map.mpr ⟨ln, member, rfl⟩))
  have value : (s.objects.get ln.value).map Cell.value = some o := found
  rw [nodeText_eq, value] at empty
  obtain rfl | ⟨shown, _, shows, _⟩ := @Queueable.cases usable _ (valid.queueable ln member o found)
  · refine ⟨?_, ?_, by rw [nodeMemory_eq, value]; rfl⟩
    · apply valid.counted.perm
      rw [Server.owners, reply, map_append, map_cons, map_append, ← append_assoc, ← append_assoc]
      exact perm_middle
    · intro inside
      obtain outside | inList := mem_append.mp inside
      · exact valid.strings _ outside found
      · obtain ⟨other, otherMember, shared⟩ := List.mem_map.mp inList
        have listed : other ∈ s.client.reply := by
          rw [reply]
          simp only [mem_append, mem_cons] at otherMember ⊢
          exact otherMember.imp_right .inr
        obtain rfl := valid.sole ln member found other listed shared
        have distinct := valid.distinct
        rw [reply, map_append, map_cons] at distinct
        rw [perm_middle.nodup_iff, nodup_cons, ← map_append] at distinct
        exact distinct.1 (List.mem_map.mpr ⟨other, otherMember, rfl⟩)
  · rw [bind_some, shows] at empty
    cases empty

/-- Sending starts later than at the node of a hole, or it is still at the start. -/
theorem Server.Valid.started_before (valid : s.Valid usable held) (reply : s.client.reply = front ++ ln :: after)
    (empty : nodeText s.objects ln = none) {objects : Heap Value} (same : Counted.Same s.objects objects (front.map ListNode.value)) :
    s.client.sentlen = 0 ∨ s.client.sentlen < (firstUnit s.client.buf objects (front ++ ln :: rest)).length := by
  have started := valid.started
  rw [Server.unit, reply] at started
  unfold firstUnit at started ⊢
  split
  next unused =>
    rw [if_pos unused] at started
    cases front with
    | nil =>
      rw [nil_append, head?_cons, bind_some, empty] at started
      exact started.imp_right fun inside => absurd inside (Nat.not_lt_zero _)
    | cons head front =>
      rw [cons_append, head?_cons, bind_some, nodeText_eq] at started ⊢
      rwa [same head.value (by simp)]
  next used =>
    rw [if_neg used] at started
    exact started

theorem queue_at_hole (reply : s.client.reply = front ++ ln :: after) (empty : nodeText s.objects ln = none)
    (distinct : (s.client.reply.map ListNode.id).Nodup) (text : List UInt8) :
    fill ln.id text s.queue = bytes s.client.buf ++ front.flatMap (nodeSymbols s.objects) ++ bytes text ++
      after.flatMap (nodeSymbols s.objects) := by
  rw [reply, map_append, map_cons, perm_middle.nodup_iff, nodup_cons, ← map_append] at distinct
  have apart : ∀ other ∈ front ++ after, other.id ≠ ln.id := fun other member same =>
    distinct.1 (List.mem_map.mpr ⟨other, member, same⟩)
  have early := hole_notMem_nodes (s := s) fun other member => apart other (mem_append_left _ member)
  have late := hole_notMem_nodes (s := s) fun other member => apart other (mem_append_right _ member)
  have symbol : nodeSymbols s.objects ln = [.hole ln.id] := by rw [nodeSymbols, empty, elim_none]
  rw [Server.queue, reply, flatMap_append, flatMap_cons, symbol]
  simp only [fill_append, fill_bytes, fill_absent early, fill_absent late, fill_hole, append_assoc]

theorem same_early {objects after : Heap Value} (same : Counted.Same objects after (held ++ (front ++ rest).map ListNode.value)) :
    Counted.Same objects after (front.map ListNode.value) := by
  intro a inside
  apply same
  rw [map_append]
  exact mem_append_right _ (mem_append_left _ inside)

structure Server.Fills (usable : Nat → Nat) (held : List Nat) (s : Server) (id : Nat) (text : List UInt8) (s' : Server) : Prop where
  valid : s'.Valid usable held
  queue : s'.queue = fill id text s.queue
  sentlen : s'.client.sentlen = s.client.sentlen

section
variable (valid : s.Valid usable held)
include valid

theorem setDeferred_alone {len : Sds} (reply : s.client.reply = front ++ ln :: after)
    (empty : nodeText s.objects ln = none) (short : len.buf.length < 2 ^ 31) {between : Heap Value}
    (counted : Counted between (ln.value :: (held ++ (front ++ after).map ListNode.value)))
    (same : Counted.Same s.objects between (held ++ (front ++ after).map ListNode.value))
    (here : (between.get ln.value).map Cell.value = some (.raw (some len))) :
    s.Fills usable held ln.id len.buf (Server.addReplyBytes { s with objects := between } (zmallocSizeSds usable len)) := by
  obtain ⟨_, _, weightless⟩ := valid.hole_sole reply empty
  have account : s.client.replyBytes + BitVec.ofNat 64 (zmallocSizeSds usable len) = s.client.replyBytes -
      BitVec.ofNat 64 ([ln].map (nodeMemory usable s.objects)).sum + BitVec.ofNat 64 (zmallocSizeSds usable len) := by
    rw [map_singleton, sum_singleton, weightless]
    exact congrArg (· + _) (BitVec.sub_zero _).symm
  obtain ⟨replaced, queue⟩ := valid.replace front [] after ln ln reply rfl same counted here (queueable_raw short) rfl rfl account
    (valid.started_before reply empty (same_early same))
  rw [← reply] at replaced queue
  exact ⟨replaced, by rw [queue_at_hole reply empty valid.distinct]; exact queue, rfl⟩

theorem setDeferred_glued {next : ListNode} {len : Sds}
    (reply : s.client.reply = front ++ ln :: next :: rest) (empty : nodeText s.objects ln = none) {o : Value}
    (found : s.value next.value = some o) (shows : o.text = some text) (short : len.buf.length + text.length < 2 ^ 31)
    {between : Heap Value}
    (counted : Counted between (ln.value :: (held ++ (front ++ next :: rest).map ListNode.value)))
    (same : Counted.Same s.objects between (held ++ (front ++ next :: rest).map ListNode.value)) :
    ∃ s', glueNext usable (Server.addReplyBytes { s with objects := between } (zmallocSizeSds usable len)) front ln next rest len =
        some s' ∧ s.Fills usable held ln.id len.buf s' := by
  have nextHere : (between.get next.value).map Cell.value = some o := (same _ (by simp)).trans found
  have listed : next ∈ s.client.reply := by
    rw [reply]
    simp
  obtain rfl | ⟨_, used, _, memory⟩ := @Queueable.cases usable _ (valid.queueable next listed o found)
  · cases shows
  obtain ⟨_, sole, weightless⟩ := valid.hole_sole reply empty
  obtain ⟨second, wrote, recounted, resame, glued⟩ := counted.write sole (.raw (some (sdscatlen len text)))
  have order : (ln.value :: (held ++ (front ++ next :: rest).map ListNode.value)).Perm
      (next.value :: ln.value :: (held ++ (front ++ rest).map ListNode.value)) := by
    refine List.Perm.trans (List.Perm.cons _ ?_) (List.Perm.swap _ _ _)
    rw [map_append, map_cons, map_append, ← append_assoc, ← append_assoc]
    exact perm_middle
  obtain ⟨after, dropped, final, kept⟩ := (recounted.perm order).decrRef
  have whole : Counted.Same s.objects after (held ++ (front ++ rest).map ListNode.value) := by
    intro a member
    have inside : a ∈ held ++ (front ++ next :: rest).map ListNode.value := by
      simp only [map_append, map_cons, mem_append, mem_cons] at member ⊢
      exact member.imp_right (Or.imp_right .inr)
    exact ((kept a (mem_cons_of_mem _ member)).trans (resame a inside)).trans (same a inside)
  have longer : (sdscatlen len text).buf = len.buf ++ text := sdscatlen_buf (by omega)
  have text_ : nodeText s.objects next = some text := by
    have value : (s.objects.get next.value).map Cell.value = some o := found
    rw [nodeText_eq, value, bind_some, shows]
  have weight : nodeMemory usable s.objects next = used := by
    have value : (s.objects.get next.value).map Cell.value = some o := found
    rw [nodeMemory_eq, value, bind_some, memory, getD_some]
  have account : s.client.replyBytes + BitVec.ofNat 64 (zmallocSizeSds usable len) - BitVec.ofNat 64 (zmallocSizeSds usable len) -
      BitVec.ofNat 64 used + BitVec.ofNat 64 (zmallocSizeSds usable (sdscatlen len text)) = s.client.replyBytes -
      BitVec.ofNat 64 ([ln, next].map (nodeMemory usable s.objects)).sum +
      BitVec.ofNat 64 (zmallocSizeSds usable (sdscatlen len text)) := by
    rw [map_cons, map_singleton, sum_cons, sum_singleton, weightless, weight, BitVec.add_sub_cancel, Nat.zero_add]
  obtain ⟨replaced, queue⟩ := valid.replace front [next] rest ln ln reply rfl whole final
    ((kept ln.value mem_cons_self).trans glued) (queueable_raw (by rw [longer, length_append]; exact short))
    (congrArg some longer) rfl account (valid.started_before reply empty (same_early whole))
  refine ⟨_, ?_, ⟨replaced, ?_, rfl⟩⟩
  · have value : Server.value (Server.addReplyBytes { s with objects := between } (zmallocSizeSds usable len)) next.value = some o :=
      nextHere
    rw [glueNext, value]
    cases o with
    | int value => cases shows
    | embstr text' =>
      simp only [memory, shows, Server.subReplyBytes, Server.addReplyBytes, wrote, dropped, bind_eq_bind, bind_some, Option.pure_def]
    | raw ptr =>
      cases ptr with
      | none => cases shows
      | some ptr =>
        simp only [memory, shows, Server.subReplyBytes, Server.addReplyBytes, wrote, dropped, bind_eq_bind, bind_some, Option.pure_def]
  · rw [queue_at_hole reply empty valid.distinct, queue, flatMap_cons, nodeSymbols, text_, elim_some, bytes_append]
    simp only [append_assoc]

theorem setDeferredMultiBulkLength_spec {node : Nat} (length : BitVec 64) (waiting : .hole node ∈ s.queue)
    (short : ∀ text, s.textAfter node = some text → (multiBulkHeader length.toInt).length + text.length < 2 ^ 31) :
    ∃ s', setDeferredMultiBulkLength usable s (some node) length = some s' ∧ s.Fills usable held node (multiBulkHeader length.toInt) s' := by
  obtain ⟨ln, member, rfl, empty⟩ := hole_node waiting
  obtain ⟨front, after, taken, dropped, reply⟩ := split_at_node member rfl valid.distinct
  obtain ⟨owned, sole, _⟩ := valid.hole_sole reply empty
  have headerShort := multiBulkHeader_length length
  obtain ⟨len, made⟩ : ∃ len, len = sdscatlen sdsempty (multiBulkHeader length.toInt) := ⟨_, rfl⟩
  have header : len.buf = multiBulkHeader length.toInt := by
    rw [made]
    exact sdscatlen_buf (by show 0 + _ < _; omega)
  obtain ⟨between, wrote, counted, same, here⟩ := owned.write sole (.raw (some len))
  have alone := setDeferred_alone valid reply empty (by rw [header]; omega) counted same here
  rw [header] at alone
  simp only [setDeferredMultiBulkLength, dropped, ← made, wrote, bind_eq_bind, bind_some, Option.pure_def]
  cases after with
  | nil => exact ⟨_, rfl, alone⟩
  | cons next rest =>
    have listed : next ∈ s.client.reply := by
      rw [reply]
      simp
    obtain ⟨o, found⟩ := valid.present (mem_append_right held (List.mem_map.mpr ⟨next, listed, rfl⟩))
    obtain rfl | ⟨text, _, shows, _⟩ := @Queueable.cases usable _ (valid.queueable next listed o found)
    · have kept : (between.get next.value).map Cell.value = some (.raw none) := (same _ (by simp)).trans found
      refine ⟨_, ?_, alone⟩
      simp only [glueNext, Server.addReplyBytes, Server.value, kept, bind_eq_bind, bind_some, Option.pure_def]
    · have nextText : s.textAfter ln.id = some text := by
        have value : (s.objects.get next.value).map Cell.value = some o := found
        rw [Server.textAfter, dropped, tail_cons, head?_cons, bind_some, nodeText_eq, value, bind_some, shows]
      have glued := setDeferred_glued valid reply empty found shows (by rw [header]; exact short text nextText) counted same
      rw [header, ← taken] at glued
      exact glued

end

end

/-! The bytes that a client gets are its replies in program order, however the socket takes
them, as long as no string outgrows the int that `sendReplyToClient` keeps its length in. -/

section
variable {usable : Nat → Nat} {held : List Nat} {s : Server}

theorem objlen_short {n : Nat} (short : n < 2 ^ 31) : (BitVec.ofNat 32 n).toInt = n := by
  rw [BitVec.toInt_eq_toNat_cond, BitVec.toNat_ofNat, Nat.mod_eq_of_lt (by omega), if_pos (by omega)]

theorem drop_sent {unit : List UInt8} {rest : List Symbol} {k n : Nat} (inside : k + n ≤ unit.length) :
    (bytes unit ++ rest).drop k = bytes ((unit.drop k).take n) ++ (bytes unit ++ rest).drop (k + n) := by
  have early : ∀ i ≤ unit.length, (bytes unit ++ rest).drop i = bytes (unit.drop i) ++ rest := by
    intro i bound
    rw [drop_append_of_le_length (by rw [bytes, length_map]; exact bound), bytes, ← map_drop]
    rfl
  rw [early k (by omega), early (k + n) inside, ← append_assoc, ← bytes_append, ← drop_drop, take_append_drop]

theorem drop_unit {unit : List UInt8} {rest : List Symbol} {k : Nat} (whole : k = unit.length) : (bytes unit ++ rest).drop k = rest := by
  rw [whole, drop_append_of_le_length (by rw [bytes, length_map]), drop_eq_nil_of_le (by rw [bytes, length_map])]
  rfl

structure Server.Sends (usable : Nat → Nat) (held : List Nat) (s : Server) (sent : List UInt8) (s' : Server) : Prop where
  valid : s'.Valid usable held
  filled : ∀ node, .hole node ∉ s'.queue
  pending : s.pending = bytes sent ++ s'.pending

theorem Server.Sends.trans {s' s'' : Server} {first second : List UInt8} (one : s.Sends usable held first s')
    (two : s'.Sends usable held second s'') : s.Sends usable held (first ++ second) s'' :=
  ⟨two.valid, two.filled, by rw [one.pending, two.pending, bytes_append, append_assoc]⟩

section
variable (valid : s.Valid usable held) (filled : ∀ node, .hole node ∉ s.queue)
include valid filled

theorem Server.Valid.sends_nothing : s.Sends usable held [] s := ⟨valid, filled, rfl⟩

theorem sends_buffer (used : s.client.buf ≠ []) {n : Nat}
    (inside : s.client.sentlen + n ≤ s.client.buf.length) :
    s.Sends usable held ((s.client.buf.drop s.client.sentlen).take n)
      { s with client := if s.client.sentlen + n = s.client.buf.length then { s.client with buf := [], sentlen := 0 }
          else { s.client with sentlen := s.client.sentlen + n } } := by
  split
  next whole =>
    refine ⟨⟨valid.kept, valid.counted, valid.strings, valid.queueable, valid.sole, valid.nodes, valid.distinct, .inl rfl,
      valid.accounted⟩, ?_, ?_⟩
    · exact fun node member => filled node (mem_append_right _ member)
    · rw [Server.pending, Server.queue, drop_sent inside, drop_unit whole]
      rfl
  next part =>
    refine ⟨⟨valid.kept, valid.counted, valid.strings, valid.queueable, valid.sole, valid.nodes, valid.distinct, .inr ?_,
      valid.accounted⟩, filled, ?_⟩
    · show s.client.sentlen + n < (firstUnit s.client.buf s.objects s.client.reply).length
      rw [firstUnit, if_neg used]
      omega
    · exact drop_sent inside

theorem sends_part (unused : s.client.buf = [])
    {text : List UInt8} (reply : s.client.reply = first :: rest) (shows : nodeText s.objects first = some text)
    {n : Nat} (inside : s.client.sentlen + n < text.length) :
    s.Sends usable held ((text.drop s.client.sentlen).take n)
      { s with client := { s.client with sentlen := s.client.sentlen + n } } := by
  refine ⟨⟨valid.kept, valid.counted, valid.strings, valid.queueable, valid.sole, valid.nodes, valid.distinct, .inr ?_,
    valid.accounted⟩, filled, ?_⟩
  · show s.client.sentlen + n < (firstUnit s.client.buf s.objects s.client.reply).length
    rw [firstUnit, if_pos unused, reply, head?_cons, bind_some, shows, getD_some]
    exact inside
  · have queue : s.queue = bytes text ++ rest.flatMap (nodeSymbols s.objects) := by
      rw [Server.queue, unused, reply, flatMap_cons, nodeSymbols, shows]
      rfl
    show s.queue.drop _ = _ ++ s.queue.drop _
    rw [queue]
    exact drop_sent (Nat.le_of_lt inside)

theorem sends_first (unused : s.client.buf = [])
    {o : Value} {text : List UInt8} {used : Nat} (reply : s.client.reply = first :: rest)
    (found : s.value first.value = some o) (shows : o.text = some text)
    (memory : getStringObjectSdsUsedMemory usable o = some used) (started : s.client.sentlen ≤ text.length) :
    ∃ after, s.objects.decrRef first.value = some after ∧ s.Sends usable held (text.drop s.client.sentlen)
        ⟨after, s.nodes, { s.client with reply := rest, sentlen := 0, replyBytes := s.client.replyBytes - BitVec.ofNat 64 used }⟩ := by
  have counted : Counted s.objects (first.value :: (held ++ rest.map ListNode.value)) := by
    apply valid.counted.perm
    rw [Server.owners, reply, map_cons]
    exact perm_middle
  obtain ⟨after, dropped, owned, same⟩ := counted.decrRef
  have value : (s.objects.get first.value).map Cell.value = some o := found
  have late : ∀ ln ∈ rest, (after.get ln.value).map Cell.value = s.value ln.value := fun ln member =>
    same _ (mem_append_right _ (List.mem_map.mpr ⟨ln, member, rfl⟩))
  have listed : ∀ ln ∈ rest, ln ∈ s.client.reply := fun ln member => by
    rw [reply]
    exact mem_cons_of_mem _ member
  have symbols : rest.flatMap (nodeSymbols after) = rest.flatMap (nodeSymbols s.objects) :=
    flatMap_congr fun ln member => nodeSymbols_congr (late ln member)
  have queue : s.queue = bytes text ++ rest.flatMap (nodeSymbols s.objects) := by
    rw [Server.queue, unused, reply, flatMap_cons, nodeSymbols, nodeText_eq, value, bind_some, shows]
    rfl
  have queue' : Server.queue ⟨after, s.nodes, { s.client with
      reply := rest, sentlen := 0, replyBytes := s.client.replyBytes - BitVec.ofNat 64 used }⟩ =
      rest.flatMap (nodeSymbols s.objects) := by
    rw [Server.queue, unused, symbols]
    rfl
  refine ⟨after, dropped, ⟨⟨valid.kept, owned, ?_, ?_, ?_, ?_, ?_, .inl rfl, ?_⟩, ?_, ?_⟩⟩
  · intro a member
    exact fun empty => valid.strings a member ((same a (mem_append_left _ member)).symm.trans empty)
  · intro ln member other there
    exact valid.queueable ln (listed ln member) other ((late ln member).symm.trans there)
  · intro ln member empty other otherMember shared
    exact valid.sole ln (listed ln member) ((late ln member).symm.trans empty) other (listed other otherMember) shared
  · exact fun ln member => valid.nodes ln (listed ln member)
  · have distinct := valid.distinct
    rw [reply, map_cons, nodup_cons] at distinct
    exact distinct.2
  · have weight : nodeMemory usable s.objects first = used := by
      rw [nodeMemory_eq, value, bind_some, memory, getD_some]
    have memories : rest.map (nodeMemory usable after) = rest.map (nodeMemory usable s.objects) :=
      map_congr_left fun ln member => nodeMemory_congr (late ln member)
    simp only [Server.memory, memories]
    rw [valid.accounted, Server.memory, reply, map_cons, sum_cons, weight, Nat.add_comm, BitVec.ofNat_add, BitVec.add_sub_cancel]
  · intro node member
    rw [queue'] at member
    refine filled node ?_
    rw [queue]
    exact mem_append_right _ member
  · rw [Server.pending, Server.pending, queue', queue, drop_append_of_le_length (by rw [bytes, length_map]; exact started),
      bytes, ← map_drop]
    rfl

end

theorem listDelFirst_eq {after : Heap Value} (reply : s.client.reply = first :: rest)
    (dropped : s.objects.decrRef first.value = some after) :
    listDelFirst s = some ⟨after, s.nodes, { s.client with reply := rest }⟩ := by
  simp only [listDelFirst, reply, head?_cons, bind_eq_bind, bind_some, dropped, Option.pure_def, tail_cons]

theorem write_short {accepts count : Nat} : write accepts (count : Int) = some (min accepts count) := by
  rw [write, if_neg (by omega), Int.toNat_natCast]

/-- What a write that took something leaves is sent by the next turn, if there is one. -/
theorem sendLoop_spec (overMemory : Bool) (fuel : Nat) (accepts : List Nat) (totwritten : Nat) (valid : s.Valid usable held)
    (filled : ∀ node, .hole node ∉ s.queue) :
    ∃ s' sent, sendLoop usable overMemory fuel accepts totwritten s = some (s', sent, true) ∧ s.Sends usable held sent s' := by
  induction fuel generalizing accepts totwritten s with
  | zero => exact ⟨s, [], rfl, valid.sends_nothing filled⟩
  | succ fuel ih =>
    rw [sendLoop]
    split
    next used =>
      have inside : s.client.sentlen ≤ s.client.buf.length := by
        have started := valid.started
        rw [Server.unit, firstUnit, if_neg used] at started
        omega
      rw [write_short]
      cases took : min (accepts.headD 0) (s.client.buf.length - s.client.sentlen) with
      | zero => exact ⟨s, [], rfl, valid.sends_nothing filled⟩
      | succ n =>
        have part := sends_buffer valid filled used (n := n + 1) (by omega)
        simp only
        split
        next => exact ⟨_, _, rfl, part⟩
        next =>
          obtain ⟨s', sent, looped, onward⟩ := ih accepts.tail (totwritten + (n + 1)) part.valid part.filled
          exact ⟨s', _, by rw [looped]; rfl, part.trans onward⟩
    next unused =>
      rw [ne_eq, not_not] at unused
      split
      next => exact ⟨s, [], rfl, valid.sends_nothing filled⟩
      next first rest reply =>
        have listed : first ∈ s.client.reply := by
          rw [reply]
          exact mem_cons_self
        obtain ⟨o, found⟩ := valid.present (mem_append_right held (List.mem_map.mpr ⟨first, listed, rfl⟩))
        have value : (s.objects.get first.value).map Cell.value = some o := found
        obtain rfl | ⟨text, used, shows, memory⟩ := @Queueable.cases usable _ (valid.queueable first listed o found)
        · refine absurd ?_ (filled first.id)
          rw [Server.queue, reply, flatMap_cons, nodeSymbols, nodeText_eq, value]
          exact mem_append_right _ (mem_append_left _ mem_cons_self)
        have text_ : nodeText s.objects first = some text := by rw [nodeText_eq, value, bind_some, shows]
        have short := (valid.queueable first listed o found).short text shows
        have started : s.client.sentlen = 0 ∨ s.client.sentlen < text.length := by
          have unit := valid.started
          rwa [Server.unit, firstUnit, if_pos unused, reply, head?_cons, bind_some, text_, getD_some] at unit
        obtain ⟨after, dropped, gone⟩ := sends_first valid filled unused reply found shows memory (by omega)
        simp only [found, shows, memory, objlen_short short, bind_eq_bind, bind_some, listDelFirst_eq reply dropped, Option.pure_def]
        split
        next empty =>
          have blank : text = [] := length_eq_zero_iff.mp (Int.ofNat_eq_zero.mp empty)
          have zero : s.client.sentlen = 0 := by
            rw [blank] at started
            exact started.resolve_right (Nat.not_lt_zero _)
          rw [blank, drop_nil] at gone
          rw [zero]
          obtain ⟨s', sent, looped, onward⟩ := ih accepts totwritten gone.valid gone.filled
          exact ⟨s', sent, looped, gone.trans onward⟩
        next solid =>
          have early : s.client.sentlen < text.length := by omega
          rw [← Int.ofNat_sub (Nat.le_of_lt early), write_short]
          cases took : min (accepts.headD 0) (text.length - s.client.sentlen) with
          | zero => exact ⟨s, [], rfl, valid.sends_nothing filled⟩
          | succ n =>
            simp only [Int.ofNat_inj]
            split
            next whole =>
              have rest : (text.drop s.client.sentlen).take (n + 1) = text.drop s.client.sentlen :=
                take_of_length_le (by rw [length_drop]; omega)
              rw [rest]
              split
              next => exact ⟨_, _, rfl, gone⟩
              next =>
                obtain ⟨s', sent, looped, onward⟩ := ih accepts.tail (totwritten + (n + 1)) gone.valid gone.filled
                exact ⟨s', _, congrArg (fun o : Option _ => o.bind _) looped, gone.trans onward⟩
            next part =>
              have some_ := sends_part valid filled unused reply text_ (n := n + 1) (by omega)
              split
              next => exact ⟨_, _, rfl, some_⟩
              next =>
                obtain ⟨s', sent, looped, onward⟩ := ih accepts.tail (totwritten + (n + 1)) some_.valid some_.filled
                exact ⟨s', _, congrArg (fun o : Option _ => o.bind _) looped, some_.trans onward⟩

theorem sendReplyToClient_spec (overMemory : Bool) (accepts : List Nat) (valid : s.Valid usable held)
    (filled : ∀ node, .hole node ∉ s.queue) :
    ∃ s' sent, sendReplyToClient usable overMemory accepts s = some (s', sent, true) ∧ s.Sends usable held sent s' := by
  obtain ⟨s', sent, looped, sends⟩ := sendLoop_spec overMemory (accepts.length + s.client.reply.length + 1) accepts 0 valid filled
  simp only [sendReplyToClient, looped, bind_eq_bind, bind_some, Option.pure_def, Bool.not_true, Bool.false_eq_true, if_false]
  split
  next drained =>
    rw [Bool.and_eq_true, decide_eq_true_eq, decide_eq_true_eq] at drained
    have valid' := sends.valid
    have zero : s'.client.sentlen = 0 := by
      have started := valid'.started
      rw [Server.unit, firstUnit, if_pos drained.1, drained.2] at started
      exact started.resolve_right (Nat.not_lt_zero _)
    have stays : (!s'.client.closeAfterReply) = true := by
      rw [valid'.kept]
      rfl
    rw [stays]
    refine ⟨_, sent, rfl, ⟨⟨valid'.kept, valid'.counted, valid'.strings, valid'.queueable, valid'.sole, valid'.nodes, valid'.distinct,
      .inl rfl, valid'.accounted⟩, sends.filled, ?_⟩⟩
    rw [sends.pending, Server.pending, zero]
    rfl
  next => exact ⟨s', sent, rfl, sends⟩

structure Session.Sound (usable : Nat → Nat) (s : Session) : Prop where
  connected : s.connected = true
  valid : s.server.Valid usable s.held
  stream : s.stream = bytes s.sent ++ s.server.pending

theorem Server.Valid.pending_split (valid : s.Valid usable held) :
    ∃ unit : List UInt8, s.queue = bytes unit ++ s.pending ∧ unit.length = s.client.sentlen := by
  obtain zero | inside := valid.started
  · exact ⟨[], by rw [Server.pending, zero]; rfl, zero.symm⟩
  · obtain ⟨rest, queue⟩ : ∃ rest, s.queue = bytes s.unit ++ rest := by
      unfold Server.unit firstUnit at inside ⊢
      split
      next unused =>
        rw [if_pos unused] at inside
        cases reply : s.client.reply with
        | nil =>
          rw [reply] at inside
          exact absurd inside (Nat.not_lt_zero _)
        | cons first rest =>
          rw [reply, head?_cons, bind_some] at inside
          rw [Server.queue, unused, reply, flatMap_cons, nodeSymbols, head?_cons, bind_some]
          cases shows : nodeText s.objects first with
          | none =>
            rw [shows] at inside
            exact absurd inside (Nat.not_lt_zero _)
          | some text => exact ⟨_, rfl⟩
      next => exact ⟨_, rfl⟩
    refine ⟨s.unit.take s.client.sentlen, ?_, by rw [length_take]; omega⟩
    have split := @drop_sent s.unit rest 0 s.client.sentlen (by omega)
    rw [drop_zero, drop_zero, Nat.zero_add, ← queue] at split
    exact split

variable {session : Session}

theorem Session.Sound.hole_queued (sound : session.Sound usable) {node : Nat} :
    .hole node ∈ session.stream ↔ .hole node ∈ session.server.queue := by
  obtain ⟨unit, queue, _⟩ := sound.valid.pending_split
  rw [sound.stream, queue, mem_append, mem_append, or_iff_right hole_notMem_bytes, or_iff_right hole_notMem_bytes]

theorem Server.Appends.pending {s' : Server} {symbols : List Symbol} (appends : s.Appends usable held symbols s')
    (valid : s.Valid usable held) : s'.pending = s.pending ++ symbols := by
  obtain ⟨unit, queue, length⟩ := valid.pending_split
  rw [Server.pending, appends.sentlen, appends.queue, queue, append_assoc, drop_unit length.symm]

theorem Server.Fills.pending {s' : Server} {node : Nat} {text : List UInt8} (fills : s.Fills usable held node text s')
    (valid : s.Valid usable held) : s'.pending = fill node text s.pending := by
  obtain ⟨unit, queue, length⟩ := valid.pending_split
  rw [Server.pending, fills.sentlen, fills.queue, queue, fill_append, fill_bytes, drop_unit length.symm]

section
variable (sound : session.Sound usable)
include sound

theorem Session.Sound.owe {ev : Bool} {server : Server} {symbols : List Symbol}
    (replies : session.server.Replies usable session.held ev symbols server) : (session.owe ev server symbols).Sound usable := by
  refine ⟨sound.connected, replies.valid, ?_⟩
  have pending := Server.Appends.pending replies sound.valid
  unfold Session.owe
  rw [pending, ← append_assoc, ← sound.stream]
  split
  next => rfl
  next => exact (append_nil _).symm

theorem Session.Sound.refer {after : Heap Value} {others : List Nat}
    (same : Counted.Same session.server.objects after (session.server.client.reply.map ListNode.value))
    (counted : Counted after (others ++ session.server.client.reply.map ListNode.value))
    (strings : ∀ a ∈ others, (after.get a).map Cell.value ≠ some (.raw none)) :
    Session.Sound usable { session with server := { session.server with objects := after }, held := others } := by
  obtain ⟨valid, queue⟩ := sound.valid.of_same others same counted strings
  refine ⟨sound.connected, valid, ?_⟩
  rw [sound.stream, Server.pending, Server.pending, queue]

theorem sessionStep_sound (action : Action) (proper : action.Proper session)
    (short : action.Short session) : ∃ after, sessionStep usable session action = some after ∧ after.1.Sound usable := by
  unfold sessionStep
  rw [if_neg (by rw [sound.connected]; decide)]
  cases action with
  | addReply ev obj =>
    obtain ⟨o, found⟩ := sound.valid.present (mem_append_left _ proper)
    obtain ⟨text, shows⟩ : ∃ text, session.server.replyText obj = some text := by
      rw [Server.replyText, found]
      cases o with
      | int value => exact ⟨_, rfl⟩
      | embstr text => exact ⟨_, rfl⟩
      | raw ptr =>
        cases ptr with
        | none => exact absurd found (sound.valid.strings obj proper)
        | some ptr => exact ⟨_, rfl⟩
    obtain ⟨server, replied, replies⟩ := addReply_spec sound.valid ev proper shows (short text shows)
    simp only [shows, replied, bind_eq_bind, bind_some, Option.pure_def]
    exact ⟨_, rfl, sound.owe replies⟩
  | addReplySds ev text =>
    obtain ⟨server, replied, replies⟩ := addReplySds_spec sound.valid ev short
    simp only [replied, bind_eq_bind, bind_some, Option.pure_def]
    exact ⟨_, rfl, sound.owe replies⟩
  | addReplyString ev text =>
    obtain ⟨server, replied, replies⟩ := addReplyString_spec sound.valid ev short
    simp only [replied, bind_eq_bind, bind_some, Option.pure_def]
    exact ⟨_, rfl, sound.owe replies⟩
  | addDeferredMultiBulkLength ev => exact ⟨_, rfl, sound.owe (addDeferredMultiBulkLength_spec sound.valid ev)⟩
  | setDeferredMultiBulkLength node length =>
    cases node with
    | none => exact ⟨_, rfl, sound⟩
    | some node =>
      obtain ⟨server, set, fills⟩ := setDeferredMultiBulkLength_spec sound.valid length (sound.hole_queued.mp proper) short
      simp only [set, bind_eq_bind, bind_some, Option.pure_def]
      refine ⟨_, rfl, ⟨sound.connected, fills.valid, ?_⟩⟩
      rw [fills.pending sound.valid, elim_some, sound.stream, fill_append, fill_bytes]
  | sendReplyToClient overMemory accepts =>
    obtain ⟨server, sent, ran, sends⟩ := sendReplyToClient_spec overMemory accepts sound.valid fun node member =>
      proper node (sound.hole_queued.mpr member)
    simp only [ran, bind_eq_bind, bind_some, Option.pure_def]
    refine ⟨_, rfl, ⟨rfl, sends.valid, ?_⟩⟩
    rw [sound.stream, sends.pending, bytes_append, append_assoc]
  | createObject o =>
    have counted := sound.valid.counted
    have same := counted.same_alloc o
    have strings : ∀ a ∈ (session.server.objects.alloc o).2 :: session.held,
        ((session.server.objects.alloc o).1.get a).map Cell.value ≠ some (.raw none) := by
      intro a member
      obtain rfl | old := mem_cons.mp member
      · rw [get_alloc_self]
        exact fun null => proper (some.inj null)
      · rw [same a (mem_append_left _ old)]
        exact sound.valid.strings a old
    exact ⟨_, rfl, sound.refer (fun a member => same a (mem_append_right _ member)) (counted.alloc o) strings⟩
  | incrRefCount obj =>
    obtain ⟨after, taken, counted, same⟩ := sound.valid.counted.incrRef (mem_append_left _ proper)
    simp only [taken, bind_eq_bind, bind_some, Option.pure_def]
    refine ⟨_, rfl, sound.refer (fun a member => same a (mem_append_right _ member)) counted fun a member => ?_⟩
    have old : a ∈ session.held := by
      obtain rfl | old := mem_cons.mp member
      · exact proper
      · exact old
    rw [same a (mem_append_left _ old)]
    exact sound.valid.strings a old
  | decrRefCount obj =>
    have owned : Counted session.server.objects
        (obj :: (session.held.erase obj ++ session.server.client.reply.map ListNode.value)) :=
      sound.valid.counted.perm ((perm_cons_erase proper).append_right _)
    obtain ⟨after, dropped, counted, same⟩ := owned.decrRef
    simp only [dropped, bind_eq_bind, bind_some, Option.pure_def]
    refine ⟨_, rfl, sound.refer (fun a member => same a (mem_append_right _ member)) counted fun a member => ?_⟩
    rw [same a (mem_append_left _ member)]
    exact sound.valid.strings a (mem_of_mem_erase member)

end

theorem session_start {client : Client} (fresh : client.Fresh) : (Session.start client).Sound usable := by
  have empty : (Session.start client).server.queue = [] := by
    show bytes client.buf ++ client.reply.flatMap _ = []
    rw [fresh.buf, fresh.reply]
    rfl
  have nodes : ∀ ln, ln ∉ (Session.start client).server.client.reply := by
    intro ln member
    have reply : ln ∈ client.reply := member
    rw [fresh.reply] at reply
    exact not_mem_nil reply
  refine ⟨rfl, ⟨fresh.flags, ?_, (fun _ member => absurd member not_mem_nil), (fun ln member => absurd member (nodes ln)),
    (fun ln member => absurd member (nodes ln)), (fun ln member => absurd member (nodes ln)), ?_, .inl fresh.sentlen, ?_⟩, ?_⟩
  · intro addr
    show ([] ++ client.reply.map ListNode.value).count addr = 0
    rw [fresh.reply]
    rfl
  · show (client.reply.map ListNode.id).Nodup
    rw [fresh.reply]
    exact nodup_nil
  · show client.replyBytes = BitVec.ofNat 64 (client.reply.map _).sum
    rw [fresh.replyBytes, fresh.reply]
    rfl
  · rw [Server.pending, empty, drop_nil]
    rfl

/-- In every run whose strings fit an int, no call faults, the client stays connected, and the bytes
that were sent and then those that wait are the replies in program order, each length in its place. -/
theorem output_stream_intact (usable : Nat → Nat) (client : Client) (fresh : client.Fresh) (actions : List Action)
    (allowed : Run.Allowed (sessionStep usable) (fun session action => action.Proper session ∧ action.Short session)
      (Session.start client) actions) :
    ∃ last results, Run.exec (sessionStep usable) (Session.start client) actions = some (last, results) ∧ last.Intact usable := by
  have progress : ∀ (session : Session) (action : Action), session.Sound usable → action.Proper session ∧ action.Short session →
      ∃ after, sessionStep usable session action = some after ∧ after.1.Sound usable :=
    fun _ action sound guard => sessionStep_sound sound action guard.1 guard.2
  obtain ⟨last, results, run, sound⟩ := Run.exec_total progress actions (session_start fresh) allowed
  exact ⟨last, results, run, ⟨sound.connected, sound.stream, sound.valid.accounted⟩⟩

def acceptedClient : Client := ⟨7, false, false, false, false, false, .none, false, false, [], 0, [], 0⟩

theorem acceptedClient_fresh : acceptedClient.Fresh := ⟨rfl, rfl, rfl, rfl, rfl⟩

/-- A deferred length and a reply after it, sent in two parts. -/
theorem output_stream_intact_deferred :
    ∃ last results, Run.exec (sessionStep id) (Session.start acceptedClient)
        [.addDeferredMultiBulkLength true, .addReplyString true [43, 13, 10], .setDeferredMultiBulkLength (some 0) 1,
          .sendReplyToClient false [2, 9]] = some (last, results) ∧ last.Intact id := by
  refine output_stream_intact id acceptedClient acceptedClient_fresh _ ⟨⟨trivial, trivial⟩, fun _ first => ?_⟩
  cases first
  refine ⟨⟨trivial, (by decide : 3 < 2 ^ 31)⟩, fun _ second => ?_⟩
  cases second
  refine ⟨⟨mem_cons_self, fun text after => ?_⟩, fun _ third => ?_⟩
  · cases after
    decide
  cases third
  exact ⟨⟨fun node member => @hole_notMem_bytes node [42, 49, 13, 10, 43, 13, 10] member, trivial⟩, fun _ _ => trivial⟩

theorem sendReplyToClient_long (usable : Nat → Nat) (overMemory : Bool) (accepts : List Nat) {s : Server} {ptr : Sds}
    (unused : s.client.buf = []) (reply : s.client.reply = first :: rest) (found : s.value first.value = some (.raw (some ptr)))
    (long : 2 ^ 31 ≤ ptr.buf.length) (bound : ptr.buf.length < 2 ^ 32) :
    sendReplyToClient usable overMemory accepts s = some (s, [], false) := by
  have objlen : (BitVec.ofNat 32 ptr.buf.length).toInt = (ptr.buf.length : Int) - 2 ^ 32 := by
    rw [BitVec.toInt_eq_toNat_cond, BitVec.toNat_ofNat, Nat.mod_eq_of_lt bound, if_neg (by omega)]
    rfl
  have failed : write (accepts.headD 0) ((ptr.buf.length : Int) - 2 ^ 32 - s.client.sentlen) = none := if_pos (by omega)
  have looped : sendLoop usable overMemory (accepts.length + s.client.reply.length + 1) accepts 0 s = some (s, [], false) := by
    rw [sendLoop]
    simp only [unused, ne_eq, not_true_eq_false, if_false, reply, found, bind_eq_bind, bind_some, Value.text,
      map_some, objlen, getStringObjectSdsUsedMemory, failed, Option.pure_def]
    rw [if_neg (by omega)]
  simp only [sendReplyToClient, looped, bind_eq_bind, bind_some, Bool.not_false, if_true, Option.pure_def]

theorem output_stream_cut : ¬ ∀ (usable : Nat → Nat) (client : Client), client.Fresh → ∀ actions : List Action,
    Run.Allowed (sessionStep usable) (fun session action => action.Proper session) (Session.start client) actions →
    ∃ last results, Run.exec (sessionStep usable) (Session.start client) actions = some (last, results) ∧ last.Intact usable := by
  intro all
  obtain ⟨text, length⟩ : ∃ text : List UInt8, text.length = 2 ^ 31 := ⟨replicate (2 ^ 31) 120, length_replicate⟩
  have large : ¬ text.length ≤ encodingEmbstrSizeLimit := by
    rw [length]
    decide
  have full : replyChunkBytes - acceptedClient.buf.length < text.length := by
    rw [length]
    decide
  obtain ⟨server, replied, unused, reply, found⟩ : ∃ server,
      addReplyString id true (Session.start acceptedClient).server text = some server ∧ server.client.buf = [] ∧
        server.client.reply = [⟨0, 0⟩] ∧ server.value 0 = some (.raw (some (sdsnewlen text))) := by
    have buffer : addReplyToBuffer { acceptedClient with writeHandler := true } text =
        ({ acceptedClient with writeHandler := true }, false) := by
      unfold addReplyToBuffer
      rw [if_neg (by decide), if_neg (by decide), if_pos full]
    have object : createStringObject text = .raw (some (sdsnewlen text)) := if_neg large
    have prepared : prepareClientToWrite true (Session.start acceptedClient).server.client =
        ({ acceptedClient with writeHandler := true }, true) := rfl
    simp only [addReplyString, whenPrepared, prepared, addReplyText, buffer, addReplyStringToList, object]
    exact ⟨_, rfl, rfl, rfl, rfl⟩
  have textLength : (sdsText text).length = 2 ^ 31 := by
    rw [sdsText_short (by rw [length]; decide), length]
  have cut := sendReplyToClient_long id false [1] unused reply found (Nat.le_of_eq textLength.symm) (by
    show (sdsText text).length < 2 ^ 32
    rw [textLength]
    decide)
  have one : sessionStep id (Session.start acceptedClient) (.addReplyString true text) =
      some (⟨server, [], bytes text, [], true⟩, none) := by
    show (addReplyString id true (Session.start acceptedClient).server text).bind _ = _
    rw [replied]
    rfl
  have two : sessionStep id ⟨server, [], bytes text, [], true⟩ (.sendReplyToClient false [1]) =
      some (⟨server, [], bytes text, [], false⟩, none) := by
    show (sendReplyToClient id false [1] server).bind _ = _
    rw [cut]
    rfl
  obtain ⟨last, results, run, intact⟩ := all id acceptedClient acceptedClient_fresh
    [.addReplyString true text, .sendReplyToClient false [1]] (by
      refine ⟨trivial, fun after first => ⟨fun node member => ?_, fun _ _ => trivial⟩⟩
      rw [one, some.injEq] at first
      subst first
      exact hole_notMem_bytes member)
  simp only [Run.exec, one, two, bind_some, map_some, some.injEq, Prod.mk.injEq] at run
  have connected := intact.connected
  rw [← run.1] at connected
  cases connected

end

end Cplusplus.Redis.OutputBuffer
