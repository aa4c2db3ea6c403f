import Cplusplus.OutputBuffer
import Mathlib.Data.List.Basic

/-! What one call does to the buffers of a client: a reply is appended to what waits there, a
deferred length takes the place that was kept for it. -/

namespace Cplusplus.Redis.OutputBuffer
open Cplusplus.References List Option

theorem sdsText_short {text : List UInt8} (short : text.length < 2 ^ 32) : sdsText text = text := by
  rw [sdsText, Nat.mod_eq_of_lt short, take_length]

theorem sdscatlen_buf {s : Sds} {t : List UInt8} (short : s.buf.length + t.length < 2 ^ 32) : (sdscatlen s t).buf = s.buf ++ t :=
  sdsText_short (by rw [length_append]; exact short)

theorem bytes_append (first second : List UInt8) : bytes (first ++ second) = bytes first ++ bytes second := map_append

theorem hole_notMem_bytes {n : Nat} {text : List UInt8} : .hole n ∉ bytes text := by
  intro member
  obtain ⟨_, _, same⟩ := List.mem_map.mp member
  cases same

section
variable {n : Nat} {text : List UInt8} {first second : List Symbol}

theorem fill_append : fill n text (first ++ second) = fill n text first ++ fill n text second := flatMap_append

theorem fill_absent (absent : .hole n ∉ first) : fill n text first = first := by
  induction first with
  | nil => rfl
  | cons head first ih =>
    rw [mem_cons, not_or] at absent
    have rest := ih absent.2
    cases head with
    | byte b => exact congrArg (Symbol.byte b :: ·) rest
    | hole other =>
      have apart : other ≠ n := fun same => absent.1 (by rw [same])
      unfold fill at rest ⊢
      rw [flatMap_cons, rest]
      simp only [if_neg apart, singleton_append]

theorem fill_bytes (p : List UInt8) : fill n text (bytes p) = bytes p := fill_absent hole_notMem_bytes

theorem fill_hole : fill n text [.hole n] = bytes text := by simp [fill]

end

def firstUnit (buf : List UInt8) (objects : Heap Value) (reply : List ListNode) : List UInt8 :=
  if buf = [] then ((reply.head?).bind (nodeText objects)).getD [] else buf

def Server.unit (s : Server) : List UInt8 := firstUnit s.client.buf s.objects s.client.reply

def Server.owners (s : Server) (held : List Nat) : List Nat := held ++ s.client.reply.map ListNode.value

structure Queueable (o : Value) : Prop where
  encoded : ∀ value, o ≠ .int value
  short : ∀ text, o.text = some text → text.length < 2 ^ 31

structure Server.Valid (usable : Nat → Nat) (held : List Nat) (s : Server) : Prop where
  kept : s.client.closeAfterReply = false
  counted : Counted s.objects (s.owners held)
  strings : ∀ a ∈ held, s.value a ≠ some (.raw none)
  queueable : ∀ ln ∈ s.client.reply, ∀ o, s.value ln.value = some o → Queueable o
  sole : ∀ ln ∈ s.client.reply, s.value ln.value = some (.raw none) → ∀ other ∈ s.client.reply, other.value = ln.value → other = ln
  nodes : ∀ ln ∈ s.client.reply, ln.id < s.nodes
  distinct : (s.client.reply.map ListNode.id).Nodup
  started : s.client.sentlen = 0 ∨ s.client.sentlen < s.unit.length
  accounted : s.client.replyBytes = BitVec.ofNat 64 (s.memory usable)

structure Server.Appends (usable : Nat → Nat) (held : List Nat) (s : Server) (symbols : List Symbol) (s' : Server) : Prop where
  valid : s'.Valid usable held
  queue : s'.queue = s.queue ++ symbols
  sentlen : s'.client.sentlen = s.client.sentlen

variable {usable : Nat → Nat} {held : List Nat} {s s' : Server} {text : List UInt8} {objects : Heap Value}

theorem queueable_raw {ptr : Sds} (short : ptr.buf.length < 2 ^ 31) : Queueable (.raw (some ptr)) :=
  ⟨(fun _ same => by cases same), fun _ same => by
    cases same
    exact short⟩

theorem queueable_created (short : text.length < 2 ^ 31) :
    Queueable (createStringObject text) ∧ (createStringObject text).text = some text := by
  unfold createStringObject createRawStringObject
  split
  · exact ⟨⟨(fun _ same => by cases same), fun _ same => by
      cases same
      exact short⟩, rfl⟩
  · have same : (sdsnewlen text).buf = text := sdsText_short (by omega)
    exact ⟨queueable_raw (by rwa [same]), congrArg some same⟩

variable {o : Value}

theorem Queueable.cases (queueable : Queueable o) :
    o = .raw none ∨ ∃ text used, o.text = some text ∧ getStringObjectSdsUsedMemory usable o = some used := by
  cases o with
  | raw ptr =>
    cases ptr with
    | none => exact .inl rfl
    | some ptr => exact .inr ⟨_, _, rfl, rfl⟩
  | embstr text => exact .inr ⟨_, _, rfl, rfl⟩
  | int value => exact absurd rfl (queueable.encoded value)

/-! The symbols and the memory of the nodes depend on the values of their objects only. -/

theorem nodeText_eq (ln : ListNode) : nodeText objects ln = ((objects.get ln.value).map Cell.value).bind Value.text := by
  rw [bind_map]
  rfl

theorem nodeMemory_eq (ln : ListNode) : nodeMemory usable objects ln =
    (((objects.get ln.value).map Cell.value).bind (getStringObjectSdsUsedMemory usable)).getD 0 := by
  rw [bind_map]
  rfl

theorem nodeSymbols_congr {after : Heap Value} {ln : ListNode}
    (same : (after.get ln.value).map Cell.value = (objects.get ln.value).map Cell.value) :
    nodeSymbols after ln = nodeSymbols objects ln := by
  rw [nodeSymbols, nodeSymbols, nodeText_eq, nodeText_eq, same]

theorem nodeMemory_congr {after : Heap Value} {ln : ListNode}
    (same : (after.get ln.value).map Cell.value = (objects.get ln.value).map Cell.value) :
    nodeMemory usable after ln = nodeMemory usable objects ln := by
  rw [nodeMemory_eq, nodeMemory_eq, same]

section
variable {after : Heap Value} (same : Counted.Same s.objects after (s.client.reply.map ListNode.value))
include same

theorem Server.value_congr {ln : ListNode} (member : ln ∈ s.client.reply) : (after.get ln.value).map Cell.value = s.value ln.value :=
  same _ (List.mem_map.mpr ⟨ln, member, rfl⟩)

theorem Server.symbols_congr : s.client.reply.flatMap (nodeSymbols after) = s.client.reply.flatMap (nodeSymbols s.objects) :=
  flatMap_congr fun _ member => nodeSymbols_congr (Server.value_congr same member)

theorem Server.memory_congr : s.client.reply.map (nodeMemory usable after) = s.client.reply.map (nodeMemory usable s.objects) :=
  map_congr_left fun _ member => nodeMemory_congr (Server.value_congr same member)

theorem Server.unit_congr : { s with objects := after }.unit = s.unit := by
  unfold Server.unit firstUnit
  cases first : s.client.reply.head? with
  | none => rfl
  | some ln =>
    have member := mem_of_head? first
    rw [bind_some, bind_some, nodeText_eq, nodeText_eq, Server.value_congr same member]
    rfl

end

/-- A change to the objects is not seen when it keeps those that the list refers to. -/
theorem Server.Valid.of_same (valid : s.Valid usable held) {after : Heap Value} (others : List Nat)
    (same : Counted.Same s.objects after (s.client.reply.map ListNode.value)) (counted : Counted after (others ++ s.client.reply.map ListNode.value))
    (strings : ∀ a ∈ others, (after.get a).map Cell.value ≠ some (.raw none)) :
    Server.Valid usable others { s with objects := after } ∧ { s with objects := after }.queue = s.queue := by
  refine ⟨⟨valid.kept, counted, strings, ?_, ?_, valid.nodes, valid.distinct, ?_, ?_⟩, ?_⟩
  · intro ln member o found
    exact valid.queueable ln member o ((Server.value_congr same member).symm.trans found)
  · intro ln member empty
    exact valid.sole ln member ((Server.value_congr same member).symm.trans empty)
  · rw [Server.unit_congr same]
    exact valid.started
  · rw [Server.memory, Server.memory_congr same]
    exact valid.accounted
  · rw [Server.queue, Server.symbols_congr same]
    rfl

theorem firstUnit_append {buf : List UInt8} {reply : List ListNode} (more : List ListNode) :
    (firstUnit buf objects reply).length ≤ (firstUnit buf objects (reply ++ more)).length := by
  unfold firstUnit
  split
  · cases reply with
    | nil => exact Nat.zero_le _
    | cons head reply => exact Nat.le_refl _
  · exact Nat.le_refl _

theorem listAddNodeTail_spec (valid : s.Valid usable held) {after : Heap Value} {addr : Nat}
    (same : Counted.Same s.objects after (s.owners held)) (counted : Counted after (addr :: s.owners held))
    (found : (after.get addr).map Cell.value = some o) (queueable : Queueable o) (fresh : o = .raw none → addr ∉ s.owners held) :
    s.Appends usable held (nodeSymbols after ⟨s.nodes, addr⟩)
      ((Server.listAddNodeTail { s with objects := after } addr).addReplyBytes (nodeMemory usable after ⟨s.nodes, addr⟩)) := by
  have within : Counted.Same s.objects after (s.client.reply.map ListNode.value) := fun a member =>
    same a (mem_append_right _ member)
  have owned : ∀ ln ∈ s.client.reply, ln.value ∈ s.owners held := fun ln member =>
    mem_append_right _ (List.mem_map.mpr ⟨ln, member, rfl⟩)
  refine ⟨⟨valid.kept, ?_, ?_, ?_, ?_, ?_, ?_, ?_, ?_⟩, ?_, rfl⟩
  · apply counted.perm
    simp only [Server.owners, Server.addReplyBytes, Server.listAddNodeTail, map_append, map_cons, map_nil, ← append_assoc]
    exact (perm_append_singleton _ _).symm
  · intro a member
    exact fun empty => valid.strings a member ((same a (mem_append_left _ member)).symm.trans empty)
  · intro ln member other there
    simp only [Server.addReplyBytes, Server.listAddNodeTail, mem_append, mem_singleton] at member
    obtain old | rfl := member
    · exact valid.queueable ln old other ((Server.value_congr within old).symm.trans there)
    · obtain rfl : o = other := some.inj (found.symm.trans there)
      exact queueable
  · intro ln member empty other otherMember shared
    simp only [Server.addReplyBytes, Server.listAddNodeTail, mem_append, mem_singleton] at member otherMember
    have null : ln.value = addr → o = .raw none := by
      intro here
      rw [here] at empty
      exact some.inj (found.symm.trans empty)
    obtain old | rfl := member
    · obtain otherOld | rfl := otherMember
      · exact valid.sole ln old ((Server.value_congr within old).symm.trans empty) other otherOld shared
      · refine absurd (owned ln old) ?_
        rw [← shared]
        exact fresh (null shared.symm)
    · obtain otherOld | rfl := otherMember
      · refine absurd (owned other otherOld) ?_
        rw [shared]
        exact fresh (null rfl)
      · rfl
  · intro ln member
    simp only [Server.addReplyBytes, Server.listAddNodeTail, mem_append, mem_singleton] at member ⊢
    obtain old | rfl := member
    · exact Nat.lt_succ_of_lt (valid.nodes ln old)
    · exact Nat.lt_succ_self _
  · simp only [Server.addReplyBytes, Server.listAddNodeTail, map_append, map_cons, map_nil]
    rw [(perm_append_singleton _ _).nodup_iff, nodup_cons]
    refine ⟨?_, valid.distinct⟩
    intro member
    obtain ⟨ln, old, id⟩ := List.mem_map.mp member
    exact absurd (valid.nodes ln old) (by omega)
  · obtain zero | inside := valid.started
    · exact .inl zero
    · refine .inr (Nat.lt_of_lt_of_le inside ?_)
      rw [← Server.unit_congr within]
      exact firstUnit_append _
  · simp only [Server.memory, Server.addReplyBytes, Server.listAddNodeTail, map_append, map_cons, map_nil,
      sum_append, sum_cons, sum_nil, Server.memory_congr within, Nat.add_zero]
    rw [valid.accounted, BitVec.ofNat_add]
    rfl
  · simp only [Server.queue, Server.addReplyBytes, Server.listAddNodeTail, flatMap_append, flatMap_cons, flatMap_nil,
      Server.symbols_congr within, append_nil, append_assoc]

theorem pushObject_spec (valid : s.Valid usable held) {after : Heap Value} {addr : Nat}
    (same : Counted.Same s.objects after (s.owners held)) (counted : Counted after (addr :: s.owners held))
    (found : (after.get addr).map Cell.value = some o) (queueable : Queueable o) (shows : o.text = some text) :
    ∃ s', pushObject usable { s with objects := after } addr = some s' ∧ s.Appends usable held (bytes text) s' := by
  obtain rfl | ⟨_, used, _, memory⟩ := @Queueable.cases usable _ queueable
  · cases shows
  have value : Server.value { s with objects := after } addr = some o := found
  have appended := listAddNodeTail_spec valid same counted found queueable (by
    rintro rfl
    cases shows)
  have symbols : nodeSymbols after ⟨s.nodes, addr⟩ = bytes text := by
    rw [nodeSymbols, nodeText_eq, found, bind_some, shows]
    rfl
  have counts : nodeMemory usable after ⟨s.nodes, addr⟩ = used := by
    rw [nodeMemory_eq, found, bind_some, memory, getD_some]
  rw [symbols, counts] at appended
  refine ⟨_, ?_, appended⟩
  simp only [pushObject, value, bind_eq_bind, bind_some, memory, Option.pure_def]

theorem account_swap (a x y : Nat) : BitVec.ofNat 64 (a + x) - BitVec.ofNat 64 x + BitVec.ofNat 64 y = BitVec.ofNat 64 (a + y) := by
  rw [BitVec.ofNat_add, BitVec.add_sub_cancel, ← BitVec.ofNat_add]

theorem Server.Valid.replace (valid : s.Valid usable held) (front gone rest : List ListNode) (ln ln' : ListNode)
    (reply : s.client.reply = front ++ ln :: (gone ++ rest)) (id : ln'.id = ln.id) {after : Heap Value} {used : Nat}
    (same : Counted.Same s.objects after (held ++ (front ++ rest).map ListNode.value))
    (counted : Counted after (ln'.value :: (held ++ (front ++ rest).map ListNode.value)))
    (found : (after.get ln'.value).map Cell.value = some o) (queueable : Queueable o) (shows : o.text = some text)
    (memory : getStringObjectSdsUsedMemory usable o = some used) {replyBytes : BitVec 64}
    (account : replyBytes = s.client.replyBytes - BitVec.ofNat 64 (((ln :: gone).map (nodeMemory usable s.objects)).sum) +
      BitVec.ofNat 64 used)
    (started : s.client.sentlen = 0 ∨ s.client.sentlen < (firstUnit s.client.buf after (front ++ ln' :: rest)).length) :
    let s' : Server := ⟨after, s.nodes, { s.client with reply := front ++ ln' :: rest, replyBytes := replyBytes }⟩
    s'.Valid usable held ∧ s'.queue =
      bytes s.client.buf ++ front.flatMap (nodeSymbols s.objects) ++ bytes text ++ rest.flatMap (nodeSymbols s.objects) := by
  have solid : o ≠ .raw none := by
    rintro rfl
    cases shows
  have kept : ∀ other ∈ front ++ rest, other ∈ s.client.reply := by
    intro other member
    rw [reply]
    simp only [mem_append, mem_cons] at member ⊢
    exact member.imp_right fun late => .inr (.inr late)
  have value : ∀ other ∈ front ++ rest, (after.get other.value).map Cell.value = s.value other.value := fun other member =>
    same _ (mem_append_right _ (List.mem_map.mpr ⟨other, member, rfl⟩))
  have members : ∀ other, other ∈ front ++ ln' :: rest ↔ other = ln' ∨ other ∈ front ++ rest := by
    intro other
    simp only [mem_append, mem_cons]
    exact or_left_comm
  have symbols : ∀ part : List ListNode, (∀ other ∈ part, other ∈ front ++ rest) →
      part.flatMap (nodeSymbols after) = part.flatMap (nodeSymbols s.objects) := fun part within =>
    flatMap_congr fun other member => nodeSymbols_congr (value other (within other member))
  have memories : ∀ part : List ListNode, (∀ other ∈ part, other ∈ front ++ rest) →
      part.map (nodeMemory usable after) = part.map (nodeMemory usable s.objects) := fun part within =>
    map_congr_left fun other member => nodeMemory_congr (value other (within other member))
  have early : ∀ other ∈ front, other ∈ front ++ rest := fun _ member => mem_append_left _ member
  have late : ∀ other ∈ rest, other ∈ front ++ rest := fun _ member => mem_append_right _ member
  refine ⟨⟨valid.kept, ?_, ?_, ?_, ?_, ?_, ?_, started, ?_⟩, ?_⟩
  · apply counted.perm
    simp only [Server.owners, map_append, map_cons]
    rw [← append_assoc, ← append_assoc]
    exact perm_middle.symm
  · intro a member
    exact fun empty => valid.strings a member ((same a (mem_append_left _ member)).symm.trans empty)
  · intro other member there at_
    obtain rfl | old := (members other).mp member
    · obtain rfl : o = there := some.inj (found.symm.trans at_)
      exact queueable
    · exact valid.queueable other (kept other old) there ((value other old).symm.trans at_)
  · intro hole member empty other otherMember shared
    have apart : hole.value ≠ ln'.value := by
      intro here
      have at_ : (after.get hole.value).map Cell.value = some (.raw none) := empty
      rw [here, found] at at_
      exact solid (some.inj at_)
    obtain rfl | old := (members hole).mp member
    · exact absurd rfl apart
    · obtain rfl | otherOld := (members other).mp otherMember
      · exact absurd shared.symm apart
      · exact valid.sole hole (kept hole old) ((value hole old).symm.trans empty) other (kept other otherOld) shared
  · intro other member
    obtain rfl | old := (members other).mp member
    · rw [id]
      exact valid.nodes ln (by rw [reply]; simp)
    · exact valid.nodes other (kept other old)
  · have distinct := valid.distinct
    rw [reply] at distinct
    have shorter : (front ++ ln :: rest).Sublist (front ++ ln :: (gone ++ rest)) :=
      (List.Sublist.refl front).append ((sublist_append_right gone rest).cons_cons ln)
    have ids := distinct.sublist (shorter.map ListNode.id)
    simpa only [map_append, map_cons, id] using ids
  · have node : nodeMemory usable after ln' = used := by
      rw [nodeMemory_eq, found, bind_some, memory, getD_some]
    have before : s.memory usable = ((front ++ rest).map (nodeMemory usable s.objects)).sum +
        ((ln :: gone).map (nodeMemory usable s.objects)).sum := by
      simp only [Server.memory, reply, map_append, map_cons, sum_append, sum_cons]
      omega
    have now : ((front ++ ln' :: rest).map (nodeMemory usable after)).sum =
        ((front ++ rest).map (nodeMemory usable s.objects)).sum + used := by
      simp only [map_append, map_cons, sum_append, sum_cons, node, memories front early, memories rest late]
      omega
    simp only [Server.memory, now]
    rw [account, valid.accounted, before, account_swap]
  · have node : nodeSymbols after ln' = bytes text := by
      rw [nodeSymbols, nodeText_eq, found, bind_some, shows]
      rfl
    simp only [Server.queue, flatMap_append, flatMap_cons, node, symbols front early, symbols rest late, append_assoc]

theorem dupLastObjectIfNeeded_spec {front : List ListNode} {ln : ListNode} {ptr : Sds} {owners : List Nat}
    (reply : s.client.reply = front ++ [ln]) (counted : Counted s.objects (ln.value :: owners))
    (found : s.value ln.value = some (.raw (some ptr))) (short : ptr.buf.length < 2 ^ 32) :
    ∃ after tail ptr', s.dupLastObjectIfNeeded =
        some (⟨after, s.nodes, { s.client with reply := front ++ [{ ln with value := tail }] }⟩, tail) ∧
      Counted after (tail :: owners) ∧ tail ∉ owners ∧ Counted.Same s.objects after owners ∧
      (after.get tail).map Cell.value = some (.raw (some ptr')) ∧ ptr'.buf = ptr.buf := by
  obtain ⟨cell, present, value⟩ := map_eq_some_iff.mp found
  have last : s.client.reply.getLast? = some ln := by rw [reply, getLast?_concat]
  have others : s.client.reply.dropLast = front := by rw [reply, dropLast_concat]
  by_cases shared : 1 < cell.refcount
  · have allocated := counted.alloc (.raw (some (sdsnewlen ptr.buf)))
    have kept := counted.same_alloc (.raw (some (sdsnewlen ptr.buf)))
    obtain ⟨after, dropped, owned, same⟩ := (allocated.perm (List.Perm.swap _ _ _)).decrRef
    refine ⟨after, s.objects.length, sdsnewlen ptr.buf, ?_, owned, ?_, ?_, ?_, sdsText_short short⟩
    · simp only [Server.dupLastObjectIfNeeded, last, bind_eq_bind, bind_some, present, if_pos shared, value,
        dupStringObject, createRawStringObject, dropped, Option.pure_def, others]
      rfl
    · exact fun member => counted.fresh_unowned (mem_cons_of_mem _ member)
    · intro a member
      exact (same a (mem_cons_of_mem _ member)).trans (kept a (mem_cons_of_mem _ member))
    · rw [same s.objects.length mem_cons_self, get_alloc, if_pos rfl]
      rfl
  · refine ⟨s.objects, ln.value, ptr, ?_, counted, counted.unique present (Nat.le_of_not_lt shared), (fun _ _ => rfl), found, rfl⟩
    simp only [Server.dupLastObjectIfNeeded, last, bind_eq_bind, bind_some, present, if_neg shared, Option.pure_def]
    rw [← reply]

section
variable (valid : s.Valid usable held)
include valid

/-- The last object becomes a longer one, in its place or in the place of a copy. -/
theorem appendToTail_spec {front : List ListNode} {ln : ListNode} {ptr : Sds} (reply : s.client.reply = front ++ [ln])
    (found : s.value ln.value = some (.raw (some ptr))) (fits : ptr.buf.length + text.length ≤ replyChunkBytes) :
    ∃ s', appendToTail usable s ptr text = some s' ∧ s.Appends usable held (bytes text) s' := by
  have bound : ptr.buf.length + text.length < 2 ^ 31 := Nat.lt_of_le_of_lt fits (by decide)
  have owners : s.owners held = held ++ front.map ListNode.value ++ [ln.value] := by
    rw [Server.owners, reply, map_append, append_assoc]
    rfl
  have counted : Counted s.objects (ln.value :: (held ++ front.map ListNode.value)) := by
    have owned := valid.counted
    rw [owners] at owned
    exact owned.perm (perm_append_singleton _ _)
  obtain ⟨between, tail, ptr', dup, owned, sole, kept, here, buf⟩ :=
    @dupLastObjectIfNeeded_spec (s.subReplyBytes (zmallocSizeSds usable ptr)) front ln ptr _ reply counted found (by omega)
  obtain ⟨after, wrote, final, same, now⟩ := owned.write sole (.raw (some (sdscatlen ptr' text)))
  have longer : (sdscatlen ptr' text).buf = ptr.buf ++ text := by
    rw [sdscatlen_buf (by rw [buf]; omega), buf]
  have node : nodeMemory usable s.objects ln = zmallocSizeSds usable ptr := by
    rw [nodeMemory_eq]
    exact congrArg (fun o : Option Value => (o.bind (getStringObjectSdsUsedMemory usable)).getD 0) found
  have old : nodeText s.objects ln = some ptr.buf := by
    rw [nodeText_eq]
    exact congrArg (fun o : Option Value => o.bind Value.text) found
  have unit : firstUnit s.client.buf s.objects (front ++ [ln]) = s.unit := by rw [Server.unit, reply]
  have first : s.client.sentlen = 0 ∨ s.client.sentlen <
      (firstUnit s.client.buf after (front ++ [{ ln with value := tail }])).length := by
    refine valid.started.imp_right fun inside => Nat.lt_of_lt_of_le inside ?_
    rw [← unit]
    unfold firstUnit
    split
    · cases front with
      | nil =>
        have new : nodeText after { ln with value := tail } = some (ptr.buf ++ text) := by
          rw [nodeText_eq, now]
          exact congrArg some longer
        rw [nil_append, head?_cons, bind_some, old, nil_append, head?_cons, bind_some, new, getD_some, getD_some, length_append]
        exact Nat.le_add_right _ _
      | cons head front =>
        have member : head.value ∈ held ++ (head :: front).map ListNode.value := by simp
        rw [cons_append, head?_cons, bind_some, cons_append, head?_cons, bind_some, nodeText_eq,
          nodeText_eq, (same _ member).trans (kept _ member)]
        exact Nat.le_refl _
    · exact Nat.le_refl _
  obtain ⟨replaced, queue⟩ := valid.replace front [] [] ln { ln with value := tail } reply rfl
    (by rw [append_nil]; exact fun a member => (same a member).trans (kept a member))
    (by rw [append_nil]; exact final) now (queueable_raw (by rw [longer, length_append]; exact bound))
    (congrArg some longer) rfl (by rw [map_cons, map_nil, sum_cons, sum_nil, Nat.add_zero, node]) first
  refine ⟨_, ?_, ⟨replaced, ?_, rfl⟩⟩
  · simp only [appendToTail, dup, bind_eq_bind, bind_some, Server.value, here, wrote, Option.pure_def]
    rfl
  · rw [queue, Server.queue, reply, flatMap_append, flatMap_cons, flatMap_nil, nodeSymbols, old, bytes_append]
    simp only [append_nil, elim_some, append_assoc]

theorem Server.Valid.present {addr : Nat} (member : addr ∈ s.owners held) : ∃ o, s.value addr = some o := by
  obtain ⟨cell, found⟩ := valid.counted.present member
  exact ⟨cell.value, by rw [Server.value, found, map_some]⟩

theorem addTextToList_spec {push : Option Server} (pushed : ∃ s', push = some s' ∧ s.Appends usable held (bytes text) s') :
    ∃ s', addTextToList usable s text push = some s' ∧ s.Appends usable held (bytes text) s' := by
  unfold addTextToList
  rw [if_neg (by rw [valid.kept]; exact Bool.false_ne_true)]
  cases last : s.client.reply.getLast? with
  | none => exact pushed
  | some ln =>
    obtain ⟨front, reply⟩ := getLast?_eq_some_iff.mp last
    obtain ⟨o, found⟩ := valid.present (mem_append_right held (List.mem_map.mpr ⟨ln, mem_of_getLast? last, rfl⟩))
    simp only [found, bind_eq_bind, bind_some]
    split
    next ptr =>
      split
      next fits => exact appendToTail_spec valid reply found fits
      next => exact pushed
    next => exact pushed

theorem addReplyObjectToList_spec {addr : Nat} (member : addr ∈ held) (found : s.value addr = some o) (queueable : Queueable o)
    (shows : o.text = some text) : ∃ s', addReplyObjectToList usable s addr = some s' ∧ s.Appends usable held (bytes text) s' := by
  have owned : addr ∈ s.owners held := mem_append_left _ member
  obtain ⟨after, taken, counted, same⟩ := valid.counted.incrRef owned
  have here : (after.get addr).map Cell.value = some o := (same addr owned).trans found
  have pushed := pushObject_spec valid same counted here queueable shows
  simp only [addReplyObjectToList, found, shows, bind_eq_bind, bind_some, taken]
  exact addTextToList_spec valid pushed

theorem pushFresh_spec (queueable : Queueable o) (shows : o.text = some text) :
    ∃ s', pushFresh usable s o = some s' ∧ s.Appends usable held (bytes text) s' :=
  pushObject_spec valid (valid.counted.same_alloc o) (valid.counted.alloc o) (congrArg (Option.map Cell.value) get_alloc_self)
    queueable shows

end

theorem Server.Appends.trans {s'' : Server} {first second : List Symbol} (one : s.Appends usable held first s')
    (two : s'.Appends usable held second s'') : s.Appends usable held (first ++ second) s'' :=
  ⟨two.valid, by rw [two.queue, one.queue, append_assoc], two.sentlen.trans one.sentlen⟩

section
variable (valid : s.Valid usable held)
include valid

theorem prepareClientToWrite_appends (ev : Bool) : s.Appends usable held [] { s with client := (prepareClientToWrite ev s.client).1 } := by
  obtain ⟨handler, asap, same⟩ : ∃ handler asap, (prepareClientToWrite ev s.client).1 =
      { s.client with writeHandler := handler, closeAsap := asap } := by
    unfold prepareClientToWrite
    repeat' split
    all_goals exact ⟨_, _, rfl⟩
  rw [same]
  exact ⟨⟨valid.kept, valid.counted, valid.strings, valid.queueable, valid.sole, valid.nodes, valid.distinct, valid.started,
    valid.accounted⟩, (append_nil _).symm, rfl⟩

theorem addReplyToBuffer_spec (taken : (addReplyToBuffer s.client text).2 = true) :
    s.Appends usable held (bytes text) { s with client := (addReplyToBuffer s.client text).1 } := by
  unfold addReplyToBuffer at taken ⊢
  rw [if_neg (by rw [valid.kept]; exact Bool.false_ne_true)] at taken ⊢
  split at taken
  next => cases taken
  next empty =>
    have reply : s.client.reply = [] := by rwa [ne_eq, not_not] at empty
    split at taken
    next => cases taken
    next room =>
      rw [if_neg empty, if_neg room]
      refine ⟨⟨valid.kept, valid.counted, valid.strings, valid.queueable, valid.sole, valid.nodes, valid.distinct, ?_,
        valid.accounted⟩, ?_, rfl⟩
      · refine valid.started.imp_right fun inside => ?_
        have unit : s.unit = s.client.buf := by
          unfold Server.unit firstUnit
          split
          next none => rw [reply, none]; rfl
          next => rfl
        rw [unit] at inside
        show s.client.sentlen < (firstUnit (s.client.buf ++ text) s.objects s.client.reply).length
        rw [firstUnit, if_neg, length_append]
        · omega
        · intro none
          rw [(append_eq_nil_iff.mp none).1] at inside
          exact Nat.not_lt_zero _ inside
      · simp only [Server.queue, reply, flatMap_nil, append_nil, bytes_append]

theorem addReplyText_spec {toList : Server → Option Server} (listed : ∃ s', toList s = some s' ∧ s.Appends usable held (bytes text) s') :
    ∃ s', addReplyText s text toList = some s' ∧ s.Appends usable held (bytes text) s' := by
  unfold addReplyText
  split
  next c taken =>
    have appended := addReplyToBuffer_spec valid (congrArg Prod.snd taken)
    rw [taken] at appended
    exact ⟨_, rfl, appended⟩
  next => exact listed

end

def Server.Replies (usable : Nat → Nat) (held : List Nat) (ev : Bool) (s : Server) (symbols : List Symbol) (s' : Server) : Prop :=
  s.Appends usable held (if (prepareClientToWrite ev s.client).2 then symbols else []) s'

section
variable (valid : s.Valid usable held)
include valid

theorem whenPrepared_spec (ev : Bool) {run : Server → Option Server} {symbols : List Symbol}
    (works : ∀ c, Server.Valid usable held { s with client := c } →
      ∃ s', run { s with client := c } = some s' ∧ Server.Appends usable held { s with client := c } symbols s') :
    ∃ s', whenPrepared ev s run = some s' ∧ s.Replies usable held ev symbols s' := by
  have prepared := prepareClientToWrite_appends valid ev
  obtain ⟨s', ran, appended⟩ := works _ prepared.valid
  unfold Server.Replies whenPrepared
  cases outcome : prepareClientToWrite ev s.client with
  | mk c ok =>
    rw [outcome] at prepared ran appended
    cases ok with
    | false => exact ⟨_, rfl, prepared⟩
    | true => exact ⟨s', ran, prepared.trans appended⟩

theorem addReplySds_spec (ev : Bool) {ptr : Sds} (short : ptr.buf.length < 2 ^ 31) :
    ∃ s', addReplySds usable ev s ptr = some s' ∧ s.Replies usable held ev (bytes ptr.buf) s' :=
  whenPrepared_spec valid ev fun _ prepared =>
    addReplyText_spec prepared (addTextToList_spec prepared (pushFresh_spec prepared (queueable_raw short) rfl))

theorem addReplyString_spec (ev : Bool) (short : text.length < 2 ^ 31) :
    ∃ s', addReplyString usable ev s text = some s' ∧ s.Replies usable held ev (bytes text) s' :=
  whenPrepared_spec valid ev fun _ prepared =>
    addReplyText_spec prepared
      (addTextToList_spec prepared (pushFresh_spec prepared (queueable_created short).1 (queueable_created short).2))

/-- The temporary object is an object that somebody else refers to until it is given up. -/
theorem addReplyDecoded_spec (short : text.length < 2 ^ 31) :
    ∃ s', addReplyDecoded usable s text = some s' ∧ s.Appends usable held (bytes text) s' := by
  obtain ⟨queueable, shows⟩ := queueable_created short
  have here : ((s.objects.alloc (createStringObject text)).1.get (s.objects.alloc (createStringObject text)).2).map Cell.value =
      some (createStringObject text) := congrArg (Option.map Cell.value) get_alloc_self
  have solid : createStringObject text ≠ .raw none := by
    intro null
    rw [null] at shows
    cases shows
  have same := valid.counted.same_alloc (createStringObject text)
  obtain ⟨allocated, queue⟩ := valid.of_same (_ :: held) (fun a member => same a (mem_append_right _ member))
    (valid.counted.alloc (createStringObject text)) (by
      intro a member
      obtain rfl | old := mem_cons.mp member
      · rw [here]
        exact fun null => solid (some.inj null)
      · rw [same a (mem_append_left _ old)]
        exact valid.strings a old)
  obtain ⟨s', replied, appended⟩ := @addReplyText_spec usable _ _ text allocated (fun s => addReplyObjectToList usable s _)
    (addReplyObjectToList_spec allocated mem_cons_self here queueable shows)
  obtain ⟨after, dropped, counted, kept⟩ := appended.valid.counted.decrRef
  obtain ⟨final, last⟩ := appended.valid.of_same held (fun a member => kept a (mem_append_right _ member)) counted (by
    intro a member
    rw [kept a (mem_append_left _ member)]
    exact appended.valid.strings a (mem_cons_of_mem _ member))
  refine ⟨_, ?_, ⟨final, ?_, appended.sentlen⟩⟩
  · simp only [addReplyDecoded, replied, bind_eq_bind, bind_some, dropped, Option.pure_def]
  · rw [last, appended.queue, queue]

theorem addReply_spec (ev : Bool) {obj : Nat} (member : obj ∈ held) (shows : s.replyText obj = some text)
    (short : text.length < 2 ^ 31) : ∃ s', addReply usable ev s obj = some s' ∧ s.Replies usable held ev (bytes text) s' := by
  refine whenPrepared_spec valid ev fun c prepared => ?_
  obtain ⟨o, found, text_⟩ := bind_eq_some_iff.mp shows
  have here : Server.value { s with client := c } obj = some o := found
  cases o with
  | int value =>
    cases text_
    simp only [here, bind_eq_bind, bind_some]
    split
    next direct => exact ⟨_, rfl, addReplyToBuffer_spec prepared direct.2.2⟩
    next => exact addReplyDecoded_spec prepared short
  | raw ptr =>
    cases ptr with
    | none => cases text_
    | some ptr =>
      cases text_
      simp only [here, Value.text, map_some, bind_eq_bind, bind_some]
      exact addReplyText_spec prepared (addReplyObjectToList_spec prepared member here (queueable_raw short) rfl)
  | embstr text' =>
    cases text_
    simp only [here, Value.text, bind_eq_bind, bind_some]
    exact addReplyText_spec prepared (addReplyObjectToList_spec prepared member here
      ⟨(fun _ same => by cases same), fun _ same => by obtain rfl := some.inj same; exact short⟩ rfl)

theorem addDeferredMultiBulkLength_spec (ev : Bool) : s.Replies usable held ev [.hole s.nodes] (addDeferredMultiBulkLength ev s).1 := by
  have prepared := prepareClientToWrite_appends valid ev
  unfold Server.Replies addDeferredMultiBulkLength
  cases outcome : prepareClientToWrite ev s.client with
  | mk c ok =>
    rw [outcome] at prepared
    cases ok with
    | false => exact prepared
    | true =>
      have counted := prepared.valid.counted
      have null : ((s.objects.alloc (.raw none)).1.get (s.objects.alloc (.raw none)).2).map Cell.value = some (.raw none) :=
        congrArg (Option.map Cell.value) get_alloc_self
      have appended := listAddNodeTail_spec prepared.valid (counted.same_alloc (.raw none)) (counted.alloc (.raw none)) null
        ⟨(fun _ same => by cases same), fun _ same => by cases same⟩ fun _ => counted.fresh_unowned
      have symbols : nodeSymbols (s.objects.alloc (.raw none)).1 ⟨s.nodes, (s.objects.alloc (.raw none)).2⟩ = [.hole s.nodes] := by
        rw [nodeSymbols, nodeText_eq, null]
        rfl
      have counts : nodeMemory usable (s.objects.alloc (.raw none)).1 ⟨s.nodes, (s.objects.alloc (.raw none)).2⟩ = 0 := by
        rw [nodeMemory_eq, null]
        rfl
      rw [symbols, counts, Server.addReplyBytes, BitVec.add_zero] at appended
      exact prepared.trans appended

end

end Cplusplus.Redis.OutputBuffer
