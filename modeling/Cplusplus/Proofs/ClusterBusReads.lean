import Cplusplus.ClusterBus
import Mathlib.Data.List.Basic

/-! The packets passed on are those that the bytes received so far begin with, however they were cut into
reads. A header whose length field is 8 is the exception: it is passed on before it is looked at. -/

namespace Cplusplus.Redis.ClusterBus

section
open List

variable {bytes : Bytes} {link : Link}

theorem byte_eq {more : Bytes} (beyond behind : Nat → UInt8) {offset : Nat} (inside : offset < bytes.length) :
    Memory.byte ⟨bytes ++ more, behind⟩ offset = Memory.byte ⟨bytes, beyond⟩ offset := by
  simp [Memory.byte, getD_eq_getElem?_getD, getElem?_append_left inside, inside]

/-- A field inside of the first bytes has the same value in all that follows them. -/
theorem number_append (more : Bytes) (beyond behind : Nat → UInt8) {f : Field} (inside : f.Within bytes.length) :
    Memory.number ⟨bytes ++ more, behind⟩ f = Memory.number ⟨bytes, beyond⟩ f := by
  apply foldl_ext
  intro n i member
  have small := mem_range.1 member
  unfold Field.Within at inside
  rw [byte_eq beyond behind (by omega)]

theorem number_eq {beyond behind : Nat → UInt8} {f : Field} (inside : f.Within bytes.length) :
    Memory.number ⟨bytes, behind⟩ f = Memory.number ⟨bytes, beyond⟩ f := by
  have same := number_append [] beyond behind inside
  rwa [append_nil] at same

private theorem digits_lt (byte : Nat → UInt8) (size : Nat) : (List.range size).foldl (fun n i => n * 256 + (byte i).toNat) 0 < 256 ^ size := by
  induction size with
  | zero => exact Nat.one_pos
  | succ size ih =>
    rw [range_succ, foldl_append, Nat.pow_succ]
    have last := (byte size).toNat_lt
    simp only [foldl_cons, foldl_nil]
    omega

theorem number_lt (m : Memory) (f : Field) : m.number f < 256 ^ f.size := digits_lt (fun i => m.byte (f.offset + i)) f.size

theorem totlenOf_lt (bytes : Bytes) : totlenOf bytes < 2 ^ 32 := number_lt _ Hdr.totlen

theorem totlenOf_append (header : 8 ≤ bytes.length) (more : Bytes) : totlenOf (bytes ++ more) = totlenOf bytes :=
  number_append more _ _ header

theorem badHeader_append (header : 8 ≤ bytes.length) (more : Bytes) : badHeader (bytes ++ more) = badHeader bytes := by
  have first : (bytes ++ more).take 4 = bytes.take 4 := take_append_of_le_length (by omega)
  rw [badHeader, badHeader, totlenOf_append header, first]

theorem totlenOf_of_good (good : badHeader bytes = false) : clustermsgMinLen ≤ totlenOf bytes := by
  simp only [badHeader, Bool.or_eq_false_iff, decide_eq_false_iff_not] at good
  exact Nat.le_of_not_lt good.2

structure Unpacked where
  packets : List Bytes
  rest : Option Bytes

def Unpacked.after (packets : List Bytes) (unpacked : Unpacked) : Unpacked := ⟨packets ++ unpacked.packets, unpacked.rest⟩

def unpack (keeps : Nat → Bool) (number : Nat) (bytes : Bytes) : Unpacked :=
  if header : 8 ≤ bytes.length ∧ badHeader bytes = false ∧ totlenOf bytes ≤ bytes.length then
    let packet := bytes.take (totlenOf bytes)
    if keeps number then (unpack keeps (number + 1) (bytes.drop (totlenOf bytes))).after [packet] else ⟨[packet], none⟩
  else ⟨[], some bytes⟩
termination_by bytes.length
decreasing_by
  have large := totlenOf_of_good header.2.1
  unfold clustermsgMinLen at large
  rw [length_drop]
  omega

variable {keeps : Nat → Bool} {number : Nat}

theorem unpack_stops (stops : ¬ (8 ≤ bytes.length ∧ badHeader bytes = false ∧ totlenOf bytes ≤ bytes.length)) :
    unpack keeps number bytes = ⟨[], some bytes⟩ := by
  rw [unpack, dif_neg stops]

structure Delimited (packet : Bytes) : Prop where
  header : 8 ≤ packet.length
  good : badHeader packet = false
  length : packet.length = totlenOf packet

theorem unpack_packet {packet : Bytes} (delimited : Delimited packet) (more : Bytes) : unpack keeps number (packet ++ more) =
      if keeps number then (unpack keeps (number + 1) more).after [packet] else ⟨[packet], none⟩ := by
  have total : totlenOf (packet ++ more) = packet.length := by
    rw [totlenOf_append delimited.header, delimited.length]
  have header : 8 ≤ (packet ++ more).length ∧ badHeader (packet ++ more) = false ∧ totlenOf (packet ++ more) ≤ (packet ++ more).length := by
    rw [badHeader_append delimited.header, total, length_append]
    exact ⟨Nat.le_add_right_of_le delimited.header, delimited.good, Nat.le_add_right _ _⟩
  rw [unpack, dif_pos header]
  simp only [total, take_left', drop_left']

theorem unpack_delimited (keeps : Nat → Bool) (number : Nat) (bytes : Bytes) :
    ∀ packet ∈ (unpack keeps number bytes).packets, Delimited packet := by
  have first : ∀ bytes : Bytes, 8 ≤ bytes.length ∧ badHeader bytes = false ∧ totlenOf bytes ≤ bytes.length →
      Delimited (bytes.take (totlenOf bytes)) := by
    intro bytes header
    have large := totlenOf_of_good header.2.1
    have length : (bytes.take (totlenOf bytes)).length = totlenOf bytes := length_take_of_le header.2.2
    have enough : 8 ≤ (bytes.take (totlenOf bytes)).length := by
      rw [length]
      exact Nat.le_trans (by decide) large
    have whole := take_append_drop (totlenOf bytes) bytes
    refine ⟨enough, ?_, ?_⟩
    · rw [← badHeader_append enough (bytes.drop (totlenOf bytes)), whole]
      exact header.2.1
    · rw [← totlenOf_append enough (bytes.drop (totlenOf bytes)), whole, length]
  induction number, bytes using unpack.induct keeps with
  | case1 number bytes header kept ih =>
    rw [unpack, dif_pos header, if_pos kept]
    intro packet member
    obtain rfl | later := mem_cons.1 member
    · exact first bytes header
    · exact ih packet later
  | case2 number bytes header lost =>
    rw [unpack, dif_pos header, if_neg lost]
    intro packet member
    obtain rfl := mem_singleton.1 member
    exact first bytes header
  | case3 number bytes stops =>
    rw [unpack_stops stops]
    intro packet never
    cases never

def Partial (rcvbuf : Bytes) : Prop :=
  rcvbuf.length < 8 ∨ rcvbuf.length = 8 ∧ totlenOf rcvbuf ≠ 8 ∨
    8 < rcvbuf.length ∧ badHeader rcvbuf = false ∧ rcvbuf.length < totlenOf rcvbuf

theorem Partial.unpack {rcvbuf : Bytes} (begun : Partial rcvbuf) : unpack keeps number rcvbuf = ⟨[], some rcvbuf⟩ := by
  apply unpack_stops
  rintro ⟨header, good, complete⟩
  have large := totlenOf_of_good good
  unfold clustermsgMinLen at large
  obtain short | ⟨eight, _⟩ | ⟨_, _, missing⟩ := begun <;> omega

theorem Partial.other {rcvbuf : Bytes} (begun : Partial rcvbuf) (header : 8 ≤ rcvbuf.length) : totlenOf rcvbuf ≠ 8 := by
  obtain short | ⟨_, other⟩ | ⟨long, _, missing⟩ := begun
  · omega
  · exact other
  · omega

def NoShortHeader (keeps : Nat → Bool) (received : Bytes) : Prop :=
  ∀ rest, (unpack keeps 0 received).rest = some rest → 8 ≤ rest.length → totlenOf rest ≠ 8

structure Waiting (keeps : Nat → Bool) (link : Link) : Prop where
  alive : link.freed = false
  begun : Partial link.rcvbuf
  unpacks : ∀ more, unpack keeps 0 (link.received ++ more) = (unpack keeps link.packets.length (link.rcvbuf ++ more)).after link.packets

structure Closed (keeps : Nat → Bool) (link : Link) : Prop where
  freed : link.freed = true
  packets : (unpack keeps 0 link.received).packets = link.packets
  other : NoShortHeader keeps link.received

structure Misled (keeps : Nat → Bool) (link : Link) : Prop where
  short : ∃ packet ∈ link.packets, packet.length = 8
  received : ∃ packets rest, 8 ≤ rest.length ∧ totlenOf rest = 8 ∧
    ∀ more, unpack keeps 0 (link.received ++ more) = ⟨packets, some (rest ++ more)⟩

def Handled (keeps : Nat → Bool) (link : Link) : Prop := Waiting keeps link ∨ Closed keeps link ∨ Misled keeps link

theorem new_waiting (keeps : Nat → Bool) : Waiting keeps Link.new := ⟨rfl, .inl (by decide), fun _ => rfl⟩

theorem Waiting.packets (waiting : Waiting keeps link) :
    (unpack keeps 0 link.received).packets = link.packets ∧ NoShortHeader keeps link.received := by
  have now := waiting.unpacks []
  rw [append_nil, append_nil, waiting.begun.unpack] at now
  refine ⟨by rw [now]; exact append_nil _, fun rest same header => ?_⟩
  rw [now] at same
  cases same
  exact waiting.begun.other header

theorem Waiting.close (waiting : Waiting keeps link) : Closed keeps { link with freed := true } :=
  ⟨rfl, waiting.packets.1, waiting.packets.2⟩

def Link.grow (link : Link) (buf : Bytes) : Link := { link with rcvbuf := link.rcvbuf ++ buf, received := link.received ++ buf }

@[simp] theorem grow_rcvbuf (link : Link) (buf : Bytes) : (link.grow buf).rcvbuf = link.rcvbuf ++ buf := rfl

section
variable (waiting : Waiting keeps link)
include waiting

theorem Waiting.grow (buf more : Bytes) : unpack keeps 0 ((link.grow buf).received ++ more) =
      (unpack keeps link.packets.length ((link.grow buf).rcvbuf ++ more)).after link.packets := by
  simp only [Link.grow, append_assoc]
  exact waiting.unpacks (buf ++ more)

variable {buf : Bytes}

theorem Waiting.grow_partial (begun : Partial (link.rcvbuf ++ buf)) : Waiting keeps ((link.grow buf).process keeps) := by
  have incomplete : ¬ (8 ≤ (link.grow buf).rcvbuf.length ∧ (link.grow buf).rcvbuf.length = totlenOf (link.grow buf).rcvbuf) := by
    rw [grow_rcvbuf]
    rintro ⟨header, complete⟩
    obtain short | ⟨eight, other⟩ | ⟨_, _, missing⟩ := begun <;> omega
  rw [Link.process, if_neg incomplete]
  exact ⟨waiting.alive, begun, waiting.grow buf⟩

theorem Waiting.grow_packet (delimited : Delimited (link.rcvbuf ++ buf)) : Handled keeps ((link.grow buf).process keeps) := by
  have complete : 8 ≤ (link.grow buf).rcvbuf.length ∧ (link.grow buf).rcvbuf.length = totlenOf (link.grow buf).rcvbuf :=
    ⟨delimited.header, delimited.length⟩
  have unpacks : ∀ more, unpack keeps 0 (link.received ++ buf ++ more) =
      (if keeps link.packets.length then (unpack keeps (link.packets.length + 1) more).after [link.rcvbuf ++ buf]
        else ⟨[link.rcvbuf ++ buf], none⟩ : Unpacked).after link.packets := by
    intro more
    rw [← unpack_packet delimited more]
    exact waiting.grow buf more
  rw [Link.process, if_pos complete]
  by_cases kept : keeps link.packets.length = true
  · refine .inl ⟨?_, .inl (by simp), ?_⟩
    · simp [Link.grow, kept]
    · intro more
      simp only [Link.grow, length_append, length_singleton, nil_append]
      rw [unpacks, if_pos kept]
      simp [Unpacked.after]
  · have now := unpacks []
    rw [append_nil, if_neg kept] at now
    refine .inr (.inl ⟨?_, ?_, ?_⟩)
    · simp [Link.grow, kept]
    · simp only [Link.grow]
      rw [now]
      rfl
    · intro rest same
      simp only [Link.grow] at same
      rw [now] at same
      cases same

theorem Waiting.grow_short (eight : (link.rcvbuf ++ buf).length = 8)
    (short : totlenOf (link.rcvbuf ++ buf) = 8) : Misled keeps ((link.grow buf).process keeps) := by
  have complete : 8 ≤ (link.grow buf).rcvbuf.length ∧ (link.grow buf).rcvbuf.length = totlenOf (link.grow buf).rcvbuf := by
    rw [grow_rcvbuf]
    omega
  rw [Link.process, if_pos complete]
  refine ⟨⟨link.rcvbuf ++ buf, mem_append_right _ mem_cons_self, eight⟩, link.packets, link.rcvbuf ++ buf,
    Nat.le_of_eq eight.symm, short, fun more => ?_⟩
  simp only
  rw [waiting.grow buf more, unpack_stops]
  · simp [Unpacked.after, Link.grow]
  · rintro ⟨_, good, _⟩
    have large := totlenOf_of_good good
    unfold clustermsgMinLen at large
    rw [grow_rcvbuf, totlenOf_append (Nat.le_of_eq eight.symm), short] at large
    omega

/-- A read takes no more than the rest of the packet, or of the first 8 bytes of it. -/
theorem Waiting.read (checked : ¬ (link.rcvbuf.length = 8 ∧ badHeader link.rcvbuf = true))
    (available : Bytes) : Handled keeps ((link.grow (available.take (readlen link.rcvbuf))).process keeps) := by
  have taken := length_take_le (readlen link.rcvbuf) available
  generalize available.take (readlen link.rcvbuf) = buf at taken ⊢
  have total : (link.rcvbuf ++ buf).length = link.rcvbuf.length + buf.length := length_append
  by_cases short : link.rcvbuf.length < 8
  · rw [readlen, if_pos short] at taken
    by_cases eight : (link.rcvbuf ++ buf).length = 8
    · by_cases length : totlenOf (link.rcvbuf ++ buf) = 8
      · exact .inr (.inr (waiting.grow_short eight length))
      · exact .inl (waiting.grow_partial (.inr (.inl ⟨eight, length⟩)))
    · exact .inl (waiting.grow_partial (.inl (by omega)))
  · have header : 8 ≤ link.rcvbuf.length := Nat.le_of_not_lt short
    have good : badHeader link.rcvbuf = false := by
      obtain never | ⟨eight, _⟩ | ⟨_, good, _⟩ := waiting.begun
      · exact absurd never short
      · exact Bool.eq_false_iff.2 fun bad => checked ⟨eight, bad⟩
      · exact good
    have large := totlenOf_of_good good
    have small := totlenOf_lt link.rcvbuf
    unfold clustermsgMinLen at large
    have missing : link.rcvbuf.length < totlenOf link.rcvbuf := by
      obtain never | ⟨eight, _⟩ | ⟨_, _, missing⟩ := waiting.begun <;> omega
    have left_ : (totlenOf link.rcvbuf + 2 ^ 32 - link.rcvbuf.length) % 2 ^ 32 = totlenOf link.rcvbuf - link.rcvbuf.length := by
      rw [show totlenOf link.rcvbuf + 2 ^ 32 - link.rcvbuf.length = totlenOf link.rcvbuf - link.rcvbuf.length + 2 ^ 32 by omega,
        Nat.add_mod_right, Nat.mod_eq_of_lt (by omega)]
    rw [readlen, if_neg short, left_] at taken
    have same := totlenOf_append header buf
    have still := badHeader_append header buf
    by_cases complete : (link.rcvbuf ++ buf).length = totlenOf link.rcvbuf
    · exact waiting.grow_packet ⟨by omega, still.trans good, complete.trans same.symm⟩
    · by_cases nothing : (link.rcvbuf ++ buf).length = 8
      · exact .inl (waiting.grow_partial (.inr (.inl ⟨nothing, by omega⟩)))
      · exact .inl (waiting.grow_partial (.inr (.inr ⟨by omega, still.trans good, by omega⟩)))

end

theorem process_packets (keeps : Nat → Bool) (link : Link) :
    (∃ more, (link.process keeps).packets = link.packets ++ more) ∧ (link.process keeps).received = link.received := by
  unfold Link.process
  split
  next => exact ⟨⟨[link.rcvbuf], rfl⟩, rfl⟩
  next => exact ⟨⟨[], (append_nil _).symm⟩, rfl⟩

theorem Misled.read (misled : Misled keeps link) (buf : Bytes) : Misled keeps ((link.grow buf).process keeps) := by
  obtain ⟨⟨more, packets⟩, received⟩ := process_packets keeps (link.grow buf)
  obtain ⟨packet, member, eight⟩ := misled.short
  obtain ⟨before, rest, header, length, unpacks⟩ := misled.received
  refine ⟨⟨packet, ?_, eight⟩, before, rest ++ buf, ?_, ?_, fun later => ?_⟩
  · rw [packets]
    exact mem_append_left more member
  · rw [length_append]
    omega
  · rw [totlenOf_append header, length]
  · rw [received, append_assoc]
    exact (append_assoc link.received buf later).symm ▸ unpacks (buf ++ later)

theorem Handled.call (handled : Handled keeps link) (results : List ReadResult) : Handled keeps (clusterReadHandler keeps link results) := by
  induction results generalizing link with
  | nil => exact handled
  | cons result results ih =>
    unfold clusterReadHandler
    split
    next => exact handled
    next alive =>
      split
      next bad =>
        obtain waiting | closed | misled := handled
        · exact .inr (.inl waiting.close)
        · exact absurd closed.freed alive
        · exact .inr (.inr ⟨misled.short, misled.received⟩)
      next checked =>
        cases result with
        | again => exact handled
        | bytes available =>
          simp only
          split
          next =>
            obtain waiting | closed | misled := handled
            · exact .inr (.inl waiting.close)
            · exact absurd closed.freed alive
            · exact .inr (.inr ⟨misled.short, misled.received⟩)
          next =>
            apply ih
            obtain waiting | closed | misled := handled
            · exact waiting.read checked available
            · exact absurd closed.freed alive
            · exact .inr (.inr (misled.read _))

theorem Handled.packets (handled : Handled keeps link) :
    (unpack keeps 0 link.received).packets = link.packets ↔ NoShortHeader keeps link.received := by
  obtain waiting | closed | misled := handled
  · exact ⟨fun _ => waiting.packets.2, fun _ => waiting.packets.1⟩
  · exact ⟨fun _ => closed.other, fun _ => closed.packets⟩
  · obtain ⟨packet, member, eight⟩ := misled.short
    obtain ⟨before, rest, header, length, unpacks⟩ := misled.received
    constructor
    · intro same
      rw [← same] at member
      have delimited := unpack_delimited keeps 0 link.received packet member
      have large := totlenOf_of_good delimited.good
      have long := delimited.length
      unfold clustermsgMinLen at large
      omega
    · intro other
      have now := unpacks []
      rw [append_nil, append_nil] at now
      exact absurd length (other rest (congrArg Unpacked.rest now) header)

/-- What a link passes on is what the received bytes begin with, unless a header had the length 8. -/
theorem clusterReadHandler_packets (keeps : Nat → Bool) (calls : List (List ReadResult)) :
    let link := calls.foldl (clusterReadHandler keeps) Link.new
    (unpack keeps 0 link.received).packets = link.packets ↔ NoShortHeader keeps link.received := by
  intro link
  have handled : Handled keeps link := by
    suffices kept : ∀ link, Handled keeps link → Handled keeps (calls.foldl (clusterReadHandler keeps) link) from
      kept Link.new (.inl (new_waiting keeps))
    induction calls with
    | nil => exact fun _ handled => handled
    | cons results calls ih => exact fun _ handled => ih _ (handled.call results)
  exact handled.packets

end

/-! The fields of a packet that passes the checks lie within it, but for the two lengths and the strings of a
PUBLISH packet. -/

section
open Traced
open Publish (bulkData channelLen messageLen)

variable {env : Env} {m : Memory}

@[simp] theorem every_touch {p : Field → Prop} (f : Field) : Every p (touch f) ↔ p f := every_note f ()

@[simp] theorem every_read {p : Field → Prop} (f : Field) : Every p (m.read f) ↔ p f := every_note f _

@[simp] theorem value_read (f : Field) : (m.read f).value = m.number f := rfl

variable {len : Nat}

theorem Field.Within.mono {f : Field} {small : Nat} (inside : f.Within small) (le : small ≤ len) : f.Within len := Nat.le_trans inside le

section Branches

variable (header : clustermsgMinLen ≤ len)
include header

theorem Hdr.within {f : Field} (inside : f.Within clustermsgMinLen) : f.Within len := inside.mono header

theorem learn_within : Every (Field.Within len) (learn env m) := by
  simp only [learn, every_bind, every_read, every_when, every_touch]
  refine ⟨Hdr.within header (by decide), Hdr.within header (by decide), Hdr.within header (by decide), fun _ => Hdr.within header (by decide)⟩

theorem clusterProcessGossipSection_within (fits : clustermsgMinLen + sizeofGossip * m.number Hdr.count ≤ len) :
    Every (Field.Within len) (clusterProcessGossipSection env m) := by
  simp only [clusterProcessGossipSection, every_bind, every_read, every_when, every_touch, every_each, value_read]
  refine ⟨Hdr.within header (by decide), fun _ => Hdr.within header (by decide), fun i member => ?_⟩
  have last : i + 1 ≤ m.number Hdr.count := List.mem_range.1 member
  have entry : sizeofGossip * (i + 1) ≤ sizeofGossip * m.number Hdr.count := Nat.mul_le_mul_left _ last
  have inside : ∀ offset size, offset + size ≤ sizeofGossip → Field.Within len ⟨clustermsgMinLen + sizeofGossip * i + offset, size⟩ := by
    intro offset size bound
    simp only [Field.Within]
    rw [Nat.mul_add, Nat.mul_one] at entry
    omega
  exact ⟨inside 96 2 (by decide), inside 94 2 (by decide), inside 0 40 (by decide), fun _ => inside 48 46 (by decide)⟩

theorem checkLinkNode_within : Every (Field.Within len) (checkLinkNode env m) := by
  have sender : Hdr.sender.Within len := Hdr.within header (by decide)
  have port : Hdr.port.Within len := Hdr.within header (by decide)
  unfold checkLinkNode
  split
  next => exact every_pure true
  next =>
    split
    next => simp [port]
    next => simp [sender]
  next => simp [sender]

theorem processConfig_within (type : PacketType) (fits : clustermsgMinLen + sizeofGossip * m.number Hdr.count ≤ len) :
    Every (Field.Within len) (processConfig env m type) := by
  simp only [processConfig, every_bind, every_when, every_touch, every_read, every_pure, and_true]
  refine ⟨checkLinkNode_within header, fun _ => ⟨fun _ => Hdr.within header (by decide), fun _ => ?_⟩⟩
  exact ⟨Hdr.within header (by decide), fun _ => Hdr.within header (by decide), clusterProcessGossipSection_within header fits⟩

theorem clusterSendFailoverAuthIfNeeded_within : Every (Field.Within len) (clusterSendFailoverAuthIfNeeded env m) := by
  simp only [clusterSendFailoverAuthIfNeeded, every_bind, every_read, every_when, every_touch]
  refine ⟨Hdr.within header (by decide), Hdr.within header (by decide), Hdr.within header (by decide), fun _ => Hdr.within header (by decide)⟩

end Branches

theorem processUpdate_within (fits : clustermsgMinLen + sizeofUpdate ≤ len) : Every (Field.Within len) (processUpdate env m) := by
  have inside : ∀ f : Field, f.Within (clustermsgMinLen + sizeofUpdate) → f.Within len := fun _ within => within.mono fits
  simp only [processUpdate, every_bind, every_read, every_when, every_touch]
  exact ⟨inside _ (by decide), fun _ => ⟨inside _ (by decide), fun _ => inside _ (by decide)⟩⟩

theorem sanityChecks_passes {totlen : Nat} (type : PacketType) (large : 16 ≤ totlen) : (sanityChecks m totlen type).value = true ↔
      m.number Hdr.ver = 0 ∧ totlen ≤ m.rcvbuf.length ∧ (checkExplen m totlen type).value = true := by
  have enough : ¬ totlen < 16 := by omega
  simp only [sanityChecks, if_neg enough, value_bind, value_read]
  by_cases ver : m.number Hdr.ver = 0
  · by_cases short : m.rcvbuf.length < totlen
    · simp [ver, short, Nat.not_le_of_lt short]
    · simp [ver, short, Nat.le_of_not_lt short]
  · simp [ver]

/-- With the right version, the fields that are read for the expected length come after the version. -/
theorem sanityChecks_within {totlen : Nat} (type : PacketType) (large : 16 ≤ totlen) (version : m.number Hdr.ver = 0)
    (all : totlen ≤ m.rcvbuf.length) :
    Every (Field.Within len) (sanityChecks m totlen type) ↔ Hdr.ver.Within len ∧ Every (Field.Within len) (checkExplen m totlen type) := by
  have enough : ¬ totlen < 16 := by omega
  have here : ¬ m.rcvbuf.length < totlen := by omega
  simp only [sanityChecks, if_neg enough, every_bind, every_read, value_read, version, ne_eq, not_true, if_false, if_neg here]

/-- The number of entries has 16 bits, so that the expected length does not wrap. -/
theorem gossip_fits {totlen : Nat} (explen : explenIs totlen (clustermsgMinLen + sizeofGossip * m.number Hdr.count) = true) :
    clustermsgMinLen + sizeofGossip * m.number Hdr.count = totlen := by
  have small : m.number Hdr.count < 2 ^ 16 := number_lt m Hdr.count
  have exact_ := of_decide_eq_true explen
  unfold clustermsgMinLen sizeofGossip at exact_ ⊢
  rw [Nat.mod_eq_of_lt (by omega)] at exact_
  exact exact_.symm

theorem checkExplen_within {totlen : Nat} {type : PacketType} (header : clustermsgMinLen ≤ len) (other : type ≠ .publish) :
    Every (Field.Within len) (checkExplen m totlen type) := by
  have count : Hdr.count.Within len := Hdr.within header (by decide)
  cases type with
  | publish => exact absurd rfl other
  | ping => simp [checkExplen, count]
  | pong => simp [checkExplen, count]
  | meet => simp [checkExplen, count]
  | fail => exact every_pure _
  | failoverAuthRequest => exact every_pure _
  | failoverAuthAck => exact every_pure _
  | update => exact every_pure _
  | mfstart => exact every_pure _
  | unknown => exact every_pure _

/-- What is read after the checks is where the checks have put the end of the packet. -/
theorem processChecked_within {type : PacketType} (header : clustermsgMinLen ≤ len) (other : type ≠ .publish)
    (passes : (checkExplen m len type).value = true) : Every (Field.Within len) (processChecked env m type) := by
  have sender : Hdr.sender.Within len := Hdr.within header (by decide)
  have port : Hdr.port.Within len := Hdr.within header (by decide)
  simp only [processChecked, every_bind, every_touch, every_when, every_read]
  refine ⟨sender, fun _ => learn_within header, fun meet => ⟨port, ?_⟩, ?_⟩
  · have type_ : type = .meet := by
      simp only [Bool.and_eq_true, decide_eq_true_eq] at meet
      exact meet.1
    subst type_
    exact clusterProcessGossipSection_within header (Nat.le_of_eq (gossip_fits passes))
  cases type with
  | publish => exact absurd rfl other
  | ping => exact processConfig_within header .ping (Nat.le_of_eq (gossip_fits passes))
  | pong => exact processConfig_within header .pong (Nat.le_of_eq (gossip_fits passes))
  | meet => exact processConfig_within header .meet (Nat.le_of_eq (gossip_fits passes))
  | fail =>
    have exact_ : len = clustermsgMinLen + sizeofFail := of_decide_eq_true passes
    have inside : Fail.about.Within (clustermsgMinLen + sizeofFail) := by decide
    exact (every_touch _).2 (inside.mono (Nat.le_of_eq exact_.symm))
  | failoverAuthRequest => exact (every_when _ _).2 fun _ => clusterSendFailoverAuthIfNeeded_within header
  | failoverAuthAck => exact every_pure ()
  | update =>
    have exact_ : len = clustermsgMinLen + sizeofUpdate := of_decide_eq_true passes
    exact processUpdate_within (Nat.le_of_eq exact_.symm)
  | mfstart => exact every_pure ()
  | unknown => exact every_pure ()

def Safe (env : Env) (m : Memory) : Prop :=
  (clusterProcessPacket env m).value = true → Every (Field.Within m.rcvbuf.length) (clusterProcessPacket env m)

def isPublish (m : Memory) : Prop := PacketType.ofNumber (m.number Hdr.type) = .publish

/-- The lengths of a PUBLISH packet are in it, and do not wrap to the length of the packet. -/
def PublishFits (env : Env) (m : Memory) : Prop :=
  isPublish m → m.number Hdr.ver = 0 →
    m.rcvbuf.length = (bulkData + m.number channelLen + m.number messageLen) % 2 ^ 32 →
    bulkData ≤ m.rcvbuf.length ∧
      (env.subscribers = true → bulkData + m.number channelLen + m.number messageLen = m.rcvbuf.length)

theorem processPublish_within (header : clustermsgMinLen ≤ len) : Every (Field.Within len) (processChecked env m .publish) ↔
      (env.subscribers = true → bulkData + m.number channelLen + m.number messageLen ≤ len) := by
  simp only [processChecked, processPublish, every_bind, every_touch, every_when, every_read, value_read]
  constructor
  · exact fun every subscribed => (every.2.2.2 subscribed).2.2.2
  · intro fits
    refine ⟨Hdr.within header (by decide), fun _ => learn_within header, fun never => absurd never (by simp), fun subscribed => ?_⟩
    have bound := fits subscribed
    simp only [Field.Within, bulkData, channelLen, messageLen] at bound ⊢
    omega

section Delimited

variable (delimited : Delimited m.rcvbuf)
include delimited

theorem Delimited.totlen : m.number Hdr.totlen = m.rcvbuf.length := by
  rw [delimited.length, totlenOf]
  exact number_eq delimited.header

theorem Delimited.minLen : clustermsgMinLen ≤ m.rcvbuf.length := by
  rw [delimited.length]
  exact totlenOf_of_good delimited.good

theorem processPacket_passes : (clusterProcessPacket env m).value = true ↔
      m.number Hdr.ver = 0 ∧ (checkExplen m m.rcvbuf.length (PacketType.ofNumber (m.number Hdr.type))).value = true := by
  have large : 16 ≤ m.rcvbuf.length := Nat.le_trans (by decide) delimited.minLen
  simp only [clusterProcessPacket, value_bind, value_read, value_pure, delimited.totlen]
  rw [sanityChecks_passes _ large]
  exact ⟨fun passes => ⟨passes.1, passes.2.2⟩, fun passes => ⟨passes.1, Nat.le_refl _, passes.2⟩⟩

theorem processPacket_within (version : m.number Hdr.ver = 0) : Every (Field.Within m.rcvbuf.length) (clusterProcessPacket env m) ↔
      Every (Field.Within m.rcvbuf.length) (checkExplen m m.rcvbuf.length (PacketType.ofNumber (m.number Hdr.type))) ∧
        ((clusterProcessPacket env m).value = true →
          Every (Field.Within m.rcvbuf.length) (processChecked env m (PacketType.ofNumber (m.number Hdr.type)))) := by
  have header := delimited.minLen
  have large : 16 ≤ m.rcvbuf.length := Nat.le_trans (by decide) header
  simp only [clusterProcessPacket, value_bind, value_read, value_pure, every_bind, every_read, every_when, every_pure, delimited.totlen,
    sanityChecks_within _ large version (Nat.le_refl _), and_true]
  constructor
  · exact fun every => ⟨every.2.2.2.1.2, every.2.2.2.2⟩
  · intro every
    exact ⟨Hdr.within header (by decide), Hdr.within header (by decide), Hdr.within header (by decide),
      ⟨Hdr.within header (by decide), every.1⟩, every.2⟩

theorem safe_other (other : ¬ isPublish m) : Safe env m := by
  intro passes
  obtain ⟨version, explen⟩ := (processPacket_passes delimited).1 passes
  refine (processPacket_within delimited version).2 ⟨checkExplen_within delimited.minLen other, fun _ => ?_⟩
  exact processChecked_within delimited.minLen other explen

/-- A packet is read inside its bounds exactly when it is no PUBLISH packet whose lengths deceive the check. -/
theorem safe_iff : Safe env m ↔ PublishFits env m := by
  by_cases publish : isPublish m
  · have type : PacketType.ofNumber (m.number Hdr.type) = .publish := publish
    have header := delimited.minLen
    have passing : (clusterProcessPacket env m).value = true ↔ _ := processPacket_passes delimited
    have total : clustermsgMinLen + (sizeofPublish - 8 + m.number channelLen + m.number messageLen) =
        bulkData + m.number channelLen + m.number messageLen := by
      simp only [clustermsgMinLen, sizeofPublish, bulkData]
      omega
    have lengths : (checkExplen m m.rcvbuf.length .publish).value = true ↔
        m.rcvbuf.length = (bulkData + m.number channelLen + m.number messageLen) % 2 ^ 32 := by
      rw [← total]
      exact decide_eq_true_iff
    have fields : Every (Field.Within m.rcvbuf.length) (checkExplen m m.rcvbuf.length .publish) ↔ bulkData ≤ m.rcvbuf.length := by
      simp only [checkExplen, every_bind, every_read, every_pure, and_true]
      simp only [Field.Within, channelLen, messageLen, bulkData]
      omega
    rw [type, lengths] at passing
    constructor
    · intro safe _ version exact_
      have passes := passing.2 ⟨version, exact_⟩
      have every := (processPacket_within delimited version).1 (safe passes)
      rw [type, fields, processPublish_within header] at every
      refine ⟨every.1, fun subscribed => ?_⟩
      have bound := every.2 passes subscribed
      have less := Nat.mod_le (bulkData + m.number channelLen + m.number messageLen) (2 ^ 32)
      omega
    · intro fits passes
      obtain ⟨version, exact_⟩ := passing.1 passes
      obtain ⟨long, bound⟩ := fits publish version exact_
      refine (processPacket_within delimited version).2 ?_
      rw [type, fields, processPublish_within header]
      exact ⟨long, fun _ subscribed => Nat.le_of_eq (bound subscribed)⟩
  · exact ⟨fun _ never => absurd never publish, fun _ => safe_other delimited publish⟩

end Delimited

/-- The packets passed on are those of the stream and are read inside their bounds, exactly when no header has
the length 8 and the lengths of all PUBLISH packets fit. The server's state and the memory behind the buffer may
differ from packet to packet. -/
theorem clusterReadHandler_bounded (keeps : Nat → Bool) (env : Nat → Env) (beyond : Nat → Nat → UInt8) (calls : List (List ReadResult)) :
    let link := calls.foldl (clusterReadHandler keeps) Link.new
    let sent := (unpack keeps 0 link.received).packets
    (sent = link.packets ∧ ∀ n packet, link.packets[n]? = some packet → Safe (env n) ⟨packet, beyond n⟩) ↔
      NoShortHeader keeps link.received ∧ ∀ n packet, sent[n]? = some packet → PublishFits (env n) ⟨packet, beyond n⟩ := by
  intro link sent
  have exact_ : sent = link.packets ↔ NoShortHeader keeps link.received := clusterReadHandler_packets keeps calls
  have bounded : ∀ n packet, sent[n]? = some packet → (Safe (env n) ⟨packet, beyond n⟩ ↔ PublishFits (env n) ⟨packet, beyond n⟩) := by
    intro n packet there
    apply safe_iff
    exact unpack_delimited keeps 0 link.received packet (List.mem_of_getElem? there)
  constructor
  · rintro ⟨same, safe⟩
    refine ⟨exact_.1 same, fun n packet there => (bounded n packet there).1 (safe n packet ?_)⟩
    rwa [← same]
  · rintro ⟨other, fits⟩
    refine ⟨exact_.2 other, fun n packet there => ?_⟩
    rw [← exact_.2 other] at there
    exact (bounded n packet there).2 (fits n packet there)

example : (clusterReadHandler (fun _ => true) Link.new [.bytes [0, 0, 0, 0, 0, 0, 0, 8]]).packets = [[0, 0, 0, 0, 0, 0, 0, 8]] := by
  decide +kernel

/-- A PUBLISH packet without data, of which the lengths are 2^32 - 1 and 1. -/
def deceiving : Bytes :=
  signature ++ [0, 0, 8, 168] ++ [0, 0, 0, 0, 0, 4, 0, 0] ++ List.replicate 2192 0 ++ [255, 255, 255, 255, 0, 0, 0, 1]

theorem clusterReadHandler_overruns :
    ∃ env beyond,
      let link : Link := [[ReadResult.bytes (deceiving.take 8), .bytes (deceiving.drop 8)]].foldl (clusterReadHandler fun _ => true) Link.new
      ¬ ∀ (n : Nat) packet, link.packets[n]? = some packet → Safe env ⟨packet, beyond⟩ := by
  refine ⟨⟨true, false, false, none, true, true, fun _ => true, true, true, true, true⟩, fun _ => 0, fun safe => ?_⟩
  have passed : ([[ReadResult.bytes (deceiving.take 8), .bytes (deceiving.drop 8)]].foldl (clusterReadHandler fun _ => true) Link.new).packets =
      [deceiving] := by decide +kernel
  have delimited : Delimited deceiving := ⟨by decide +kernel, by decide +kernel, by decide +kernel⟩
  have here := safe 0 deceiving (by rw [passed]; rfl)
  have publish : PacketType.ofNumber (Memory.number ⟨deceiving, fun _ => 0⟩ Hdr.type) = .publish := by decide +kernel
  have fits := (safe_iff (m := ⟨deceiving, fun _ => 0⟩) delimited).1 here publish (by decide +kernel) (by decide +kernel)
  exact absurd (fits.2 rfl) (by decide +kernel)

end

end Cplusplus.Redis.ClusterBus
