import Cplusplus.Proofs.HashTypeMap
import Cplusplus.Proofs.ZipmapPlaces

/-! A well-formed zipmap is asked for a key, a value or the number of keys: it answers as the map of its
entries does. -/

namespace Cplusplus.Redis.Zipmap

section
open Bytes List Option
open HashType (TextMap Lists)

section
variable {zm : List UInt8} {count : UInt8} {entries front back : List Entry} {e : Entry} {m : TextMap}
variable {key val : Text} {p : Nat}

structure Counts (count : UInt8) (n : Nat) : Prop where
  exact : count.toNat < zipmapBigLen → count.toNat = n
  saturated : count.toNat ≤ zipmapBigLen

structure Formed (zm : List UInt8) (count : UInt8) (entries : List Entry) : Prop where
  block : zm = layout count entries
  few : ∀ e ∈ entries, e.spare.length < 4
  counts : Counts count entries.length
  small : zm.length < 2 ^ 32

def pairs (entries : List Entry) : List (Text × Text) := entries.map fun e => (e.key, e.value)

def Represents (zm : List UInt8) (m : TextMap) : Prop := ∃ count entries, Formed zm count entries ∧ Lists (pairs entries) m

theorem bytes_length_le (member : e ∈ entries) : e.bytes.length ≤ (body entries).length := by
  obtain ⟨front, back, rfl⟩ := append_of_mem member
  rw [body_append, body_cons, length_append, length_append]
  omega

theorem Formed.ok (formed : Formed zm count entries) : ∀ e ∈ entries, e.Ok := by
  intro e member
  have le := bytes_length_le member
  have small := formed.small
  rw [formed.block, layout_length] at small
  exact ⟨formed.few e member, by omega⟩

theorem entries_length_le (entries : List Entry) : entries.length ≤ (body entries).length := by
  induction entries with
  | nil => exact Nat.le_refl _
  | cons e entries ih =>
    have positive := (lenBytes_pos e.key.length).1
    rw [body_cons, length_append, length_cons, e.bytes_length]
    omega

section
variable (formed : Formed zm count entries)
include formed

theorem Formed.enough : entries.length < zm.length := by
  have le := entries_length_le entries
  rw [formed.block, layout_length]
  omega

theorem Formed.start : zm.drop 1 = body entries ++ [zipmapEnd] := by
  rw [formed.block, layout, drop_succ_cons, drop_zero]

theorem Formed.lookup (key : Text) : zipmapLookupRaw zm (some key) true = some (placeOf key entries 1, zm.length) :=
  lookupLoop_whole formed.ok formed.small formed.start formed.enough (some key) none

theorem Formed.first (key : Text) : ∃ totlen, zipmapLookupRaw zm (some key) false = some (placeOf key entries 1, totlen) :=
  lookupLoop_first formed.ok formed.start formed.enough key

theorem Formed.blobLen : zipmapBlobLen zm = some zm.length := by
  have looked : zipmapLookupRaw zm none true = _ := lookupLoop_whole formed.ok formed.small formed.start formed.enough none none
  rw [zipmapBlobLen, looked]
  rfl

end

theorem placeOf_absent (absent : ∀ e ∈ entries, e.key ≠ key) (p : Nat) : placeOf key entries p = none := by
  induction entries generalizing p with
  | nil => rfl
  | cons e entries ih =>
    rw [placeOf, if_neg (absent e mem_cons_self)]
    exact ih (fun other member => absent other (mem_cons_of_mem _ member)) _

theorem placeOf_present (absent : ∀ e ∈ front, e.key ≠ key) (same : e.key = key) (p : Nat) :
    placeOf key (front ++ e :: back) p = some (p + (body front).length) := by
  induction front generalizing p with
  | nil =>
    rw [nil_append, placeOf, if_pos same]
    rfl
  | cons other front ih =>
    rw [cons_append, placeOf, if_neg (absent other mem_cons_self),
      ih (fun other member => absent other (mem_cons_of_mem _ member)), body_cons, length_append, Nat.add_assoc]

theorem Lists.lookup_none (lists : Lists (pairs entries) m) (missing : m.lookup key = none) : ∀ e ∈ entries, e.key ≠ key := by
  rintro e member rfl
  exact lists.absent missing (List.mem_map.mpr ⟨(e.key, e.value), List.mem_map_of_mem member, rfl⟩)

theorem Lists.lookup_some (lists : Lists (pairs entries) m) (stored : m.lookup key = some val) :
    ∃ front e back, entries = front ++ e :: back ∧ e.key = key ∧ e.value = val ∧ ∀ e ∈ front, e.key ≠ key := by
  obtain ⟨pairs₁, pairs₂, split, outside, -⟩ := lists.split stored
  obtain ⟨front, rest, rfl, rfl, mapped⟩ := map_eq_append_iff.mp split
  obtain ⟨e, back, rfl, pair, rfl⟩ := map_eq_cons_iff.mp mapped
  refine ⟨front, e, back, rfl, congrArg Prod.fst pair, congrArg Prod.snd pair, fun other member same => outside ?_⟩
  exact List.mem_map.mpr ⟨(other.key, other.value), List.mem_map_of_mem member, same⟩

theorem Formed.parts (formed : Formed zm count (front ++ e :: back)) : zm = (count :: body front) ++ e.bytes ++ body back ++ [zipmapEnd] := by
  rw [formed.block, layout, body_append, body_cons]
  simp

theorem Formed.at_entry (formed : Formed zm count (front ++ e :: back)) :
    zm.drop (1 + (body front).length) = e.bytes ++ (body back ++ [zipmapEnd]) := by
  have whole : zm = (count :: body front) ++ (e.bytes ++ (body back ++ [zipmapEnd])) := by
    rw [formed.parts]
    simp
  rw [whole, Nat.add_comm, ← length_cons, drop_left]

theorem zipmapGet_spec (formed : Formed zm count entries) (lists : Lists (pairs entries) m) (key : Text) :
    ∃ found, zipmapGet zm key = some found ∧ (found.map fun place => (zm.drop place.1).take place.2) = m.lookup key := by
  obtain ⟨totlen, looked⟩ := formed.first key
  unfold zipmapGet
  rw [looked]
  cases stored : m.lookup key with
  | none =>
    rw [placeOf_absent (Lists.lookup_none lists stored)]
    exact ⟨none, rfl, rfl⟩
  | some val =>
    obtain ⟨front, e, back, rfl, rfl, rfl, absent⟩ := Lists.lookup_some lists stored
    have ok := formed.ok e (mem_append_right _ mem_cons_self)
    have small := ok.small
    rw [e.bytes_length] at small
    have at_ := formed.at_entry
    rw [Entry.bytes, append_assoc] at at_
    have behind : zm.drop (1 + (body front).length + (lenBytes e.key.length + e.key.length)) =
        valueBytes e.value e.spare ++ (body back ++ [zipmapEnd]) := by
      rw [← drop_drop, at_, drop_key]
    have text : zm.drop (1 + (body front).length + (lenBytes e.key.length + e.key.length) + lenBytes e.value.length + 1) =
        e.value ++ (e.spare ++ (body back ++ [zipmapEnd])) := by
      rw [← drop_drop, ← drop_drop, behind, drop_value_length, drop_succ_cons, drop_zero, append_assoc]
    rw [placeOf_present absent rfl]
    have keyLength : lenBytes e.key.length + e.key.length < 2 ^ 32 := by omega
    have valueLength : e.value.length < 2 ^ 32 := by omega
    simp only [bind_eq_bind, bind_some, at_, rawKeyLength_spec keyLength, behind, decode_value valueLength]
    refine ⟨_, rfl, ?_⟩
    rw [map_some, text, take_left]

theorem zipmapExists_spec (formed : Formed zm count entries) (lists : Lists (pairs entries) m) (key : Text) :
    zipmapExists zm key = some (m.lookup key).isSome := by
  obtain ⟨totlen, looked⟩ := formed.first key
  rw [zipmapExists, looked]
  cases stored : m.lookup key with
  | none =>
    rw [placeOf_absent (Lists.lookup_none lists stored)]
    rfl
  | some val =>
    obtain ⟨front, e, back, rfl, rfl, rfl, absent⟩ := Lists.lookup_some lists stored
    rw [placeOf_present absent rfl]
    rfl

theorem zipmapNext_entry {rest : List UInt8} (ok : e.Ok) (at_ : zm.drop p = e.bytes ++ rest) :
    zipmapNext zm p = some (some (p + e.bytes.length)) := by
  obtain ⟨b, first, other⟩ := e.first rest
  have small := ok.small
  rw [← at_] at first
  rw [Entry.bytes, append_assoc] at at_
  have length := e.bytes_length
  rw [length] at small
  have behind : zm.drop (p + (lenBytes e.key.length + e.key.length)) = valueBytes e.value e.spare ++ rest := by
    rw [← drop_drop, at_, drop_key]
  have keyLength : zipmapRawKeyLength (zm.drop p) = some (lenBytes e.key.length + e.key.length) := by
    rw [at_, rawKeyLength_spec (by omega)]
  have valueLength : zipmapRawValueLength (zm.drop (p + (lenBytes e.key.length + e.key.length))) = some (valueBytes e.value e.spare).length := by
    rw [behind, rawValueLength_spec ok.few (by rw [valueBytes_length]; omega)]
  rw [zipmapNext]
  simp only [first, bind_eq_bind, bind_some, other, if_false, keyLength, valueLength]
  rw [valueBytes_length, length]
  congr 2
  omega

theorem lenLoop_spec (oks : ∀ e ∈ back, e.Ok) (at_ : zm.drop p = body back ++ [zipmapEnd]) {fuel len : Nat} (enough : back.length < fuel)
    (small : len + back.length < 2 ^ 32) : lenLoop zm fuel p len = some (len + back.length) := by
  induction back generalizing p fuel len with
  | nil =>
    obtain ⟨fuel, rfl⟩ : ∃ less, fuel = less + 1 := ⟨fuel - 1, by omega⟩
    have ended : zipmapNext zm p = some none := by
      rw [zipmapNext, at_]
      rfl
    rw [lenLoop, ended]
    rfl
  | cons e back ih =>
    obtain ⟨fuel, rfl⟩ : ∃ less, fuel = less + 1 := ⟨fuel - 1, by omega⟩
    rw [length_cons] at enough small
    rw [body_cons, append_assoc] at at_
    have left : back.length < fuel := by omega
    rw [lenLoop, zipmapNext_entry (oks e mem_cons_self) at_]
    simp only [bind_eq_bind, bind_some, uint_small (show len + 1 < 2 ^ 32 by omega)]
    rw [ih (fun other member => oks other (mem_cons_of_mem _ member)) (drop_add at_) left (by omega), length_cons]
    congr 1
    omega

theorem store_first (old new : UInt8) (rest : List UInt8) : store (old :: rest) 0 [new] = some (new :: rest) := by
  have stored : store ([] ++ [old] ++ rest) 0 [new] = some ([] ++ [new] ++ rest) := store_append rfl rfl
  exact stored

theorem zipmapLen_spec (formed : Formed zm count entries) :
    ∃ zm' count', zipmapLen zm = some (zm', entries.length) ∧ Formed zm' count' entries ∧ zm'.length = zm.length := by
  have first : zm[0]? = some count := by rw [formed.block, layout, getElem?_cons_zero]
  have enough := formed.enough
  have small := formed.small
  rw [zipmapLen, first]
  simp only [bind_eq_bind, bind_some]
  split
  next few => exact ⟨zm, count, by rw [formed.counts.exact few], formed, rfl⟩
  next many =>
    have counted : lenLoop zm zm.length 1 0 = some (0 + entries.length) := lenLoop_spec formed.ok formed.start enough (by omega)
    rw [Nat.zero_add] at counted
    simp only [counted, bind_some]
    split
    next few =>
      have value : (UInt8.ofNat entries.length).toNat = entries.length := by
        unfold zipmapBigLen at few
        rw [UInt8.toNat_ofNat']
        omega
      have length : (layout (UInt8.ofNat entries.length) entries).length = zm.length := by
        rw [formed.block, layout_length, layout_length]
      refine ⟨layout (UInt8.ofNat entries.length) entries, UInt8.ofNat entries.length, ?_, ?_, length⟩
      · rw [formed.block, layout, store_first]
        rfl
      · exact ⟨rfl, formed.few, ⟨fun _ => value, by omega⟩, by omega⟩
    next => exact ⟨zm, count, rfl, formed, rfl⟩

end

/-! A key of a well-formed zipmap is set or deleted: the zipmap stays well formed, and only that key
changes. -/

section
variable {zm : List UInt8} {count : UInt8} {entries front back : List Entry} {e : Entry} {key val : Text} {n reqlen : Nat}

def counted (change : UInt8 → UInt8) (count : UInt8) : UInt8 := if count.toNat < zipmapBigLen then change count else count

theorem countKeys_cons (change : UInt8 → UInt8) (count : UInt8) (rest : List UInt8) :
    countKeys change (count :: rest) = some (counted change count :: rest) := by
  simp only [countKeys, counted, getElem?_cons_zero, bind_eq_bind, bind_some]
  split
  · exact store_first count (change count) rest
  · rfl

theorem Counts.add (counts : Counts count n) : Counts (counted (· + 1) count) (n + 1) := by
  have saturated := counts.saturated
  unfold counted
  split
  next few =>
    have same := counts.exact few
    have next : (count + 1).toNat = count.toNat + 1 := by
      unfold zipmapBigLen at few
      rw [UInt8.toNat_add, show (1 : UInt8).toNat = 1 from rfl, Nat.mod_eq_of_lt (by omega)]
    exact ⟨fun _ => by rw [next, same], by rw [next]; omega⟩
  next many => exact ⟨fun few => absurd few many, saturated⟩

theorem Counts.sub (counts : Counts count (n + 1)) : Counts (counted (· - 1) count) n := by
  have saturated := counts.saturated
  unfold counted
  split
  next few =>
    have same := counts.exact few
    have next : (count - 1).toNat = count.toNat - 1 := by
      rw [UInt8.toNat_sub_of_le _ _ (UInt8.le_iff_toNat_le.mpr (by rw [show (1 : UInt8).toNat = 1 from rfl]; omega))]
      rfl
    exact ⟨fun _ => by rw [next, same]; rfl, by rw [next]; omega⟩
  next many => exact ⟨fun few => absurd few many, saturated⟩

section
variable (junk : List UInt8 → Nat → UInt8)

theorem makePlace_absent (formed : Formed zm count entries) (room : zm.length + reqlen < 2 ^ 32) :
    ∃ place old, makePlace junk zm none zm.length reqlen = some place ∧
      place.Holds (counted (· + 1) count :: body entries) old [] ∧ old.length = reqlen ∧ place.zmlen < 2 ^ 32 := by
  have block : zm = (count :: body entries) ++ [zipmapEnd] := formed.block
  have length : zm.length = (body entries).length + 2 := by rw [formed.block, layout_length]
  obtain ⟨old, resized, size⟩ := resize_keep junk (count :: body entries) [zipmapEnd]
    (show (count :: body entries).length < zm.length + reqlen by rw [length_cons]; omega)
  rw [← block] at resized
  rw [length_cons] at size
  have made : makePlace junk zm none zm.length reqlen =
      some ⟨counted (· + 1) count :: body entries ++ old ++ [zipmapEnd], zm.length - 1, zm.length + reqlen, reqlen⟩ := by
    simp only [makePlace, uint_small room, resized, bind_eq_bind, bind_some, cons_append, countKeys_cons]
    rw [if_neg (by omega)]
  refine ⟨_, old, made, ⟨?_, ?_, ?_, ?_⟩, by omega, room⟩
  · rw [append_nil]
  · simp only [length_cons]
    omega
  · simp only
    omega
  · simp only [length_append, length_cons, length_nil]
    omega

theorem makePlace_present (formed : Formed zm count (front ++ e :: back)) (room : zm.length - e.bytes.length + reqlen < 2 ^ 32) :
    ∃ place old, makePlace junk zm (some (1 + (body front).length)) zm.length reqlen = some place ∧
      place.Holds (count :: body front) old (body back) ∧ reqlen ≤ old.length ∧ place.zmlen < 2 ^ 32 := by
  have small := formed.small
  have block := formed.parts
  have ok := formed.ok e (mem_append_right _ mem_cons_self)
  have here : 1 + (body front).length = (count :: body front).length := by rw [length_cons, Nat.add_comm]
  have length := congrArg List.length block
  simp only [length_append, length_singleton, ← here] at length
  have entry : zipmapRawEntryLength (zm.drop (1 + (body front).length)) = some e.bytes.length := by
    rw [formed.at_entry, rawEntryLength_spec ok]
  unfold makePlace
  simp only [entry, bind_eq_bind, bind_some]
  split
  next short =>
    obtain ⟨grown, after, resized, moved, size⟩ := growPlace_spec junk (count :: body front) e.bytes (body back) short (by omega)
    rw [← block] at resized moved
    rw [← here] at moved
    have total : uint (uintSub zm.length e.bytes.length + reqlen) = zm.length - e.bytes.length + reqlen := by
      rw [uintSub_small (by omega) (by omega), uint_small room]
    rw [total] at resized
    simp only [total, resized, moved, bind_some]
    refine ⟨_, after, rfl, ⟨rfl, ?_, size.symm, ?_⟩, by omega, room⟩
    · rw [uint_small (show 1 + (body front).length < 2 ^ 32 by omega), here]
    · simp only [length_append, length_singleton, ← here]
      omega
  next enough => exact ⟨_, e.bytes, rfl, ⟨block, here, rfl, rfl⟩, by omega, by omega⟩

theorem layout_middle (count : UInt8) (front back : List Entry) (key val : Text) (spare : List UInt8) :
    (count :: body front) ++ (keyBytes key ++ valueBytes val spare) ++ body back ++ [zipmapEnd] = layout count (front ++ ⟨key, val, spare⟩ :: back) := by
  rw [layout, body_append, body_cons]
  simp [Entry.bytes]

/-- The place is cut and the entry is written, and the block is not longer than with the place. -/
theorem writePlace {place : Place} {old : List UInt8} (holds : place.Holds (count :: body front) old (body back)) (total : place.zmlen < 2 ^ 32)
    (enough : entryLength key val ≤ old.length) :
    ∃ cut spare, cutPlace junk place (entryLength key val) = some cut ∧
      writeEntry cut.1 cut.2.1 key val cut.2.2 = some (layout count (front ++ ⟨key, val, spare⟩ :: back)) ∧
      spare.length < 4 ∧ (layout count (front ++ ⟨key, val, spare⟩ :: back)).length < 2 ^ 32 := by
  obtain ⟨cut, spare, isCut, few, bound, written⟩ := cutPlace_spec junk holds total enough
  rw [layout_middle] at written
  refine ⟨cut, spare, isCut, written, few, ?_⟩
  have length := holds.2.2.2
  rw [holds.1] at length
  rw [← layout_middle]
  simp only [length_append, length_cons, length_nil] at length bound ⊢
  omega

theorem Formed.with_entry {count' : UInt8} {spare : List UInt8} (formed : Formed zm count entries) (others : front ++ back ⊆ entries)
    (few : spare.length < 4) (counts : Counts count' (front ++ ⟨key, val, spare⟩ :: back).length)
    (small : (layout count' (front ++ ⟨key, val, spare⟩ :: back)).length < 2 ^ 32) :
    Formed (layout count' (front ++ ⟨key, val, spare⟩ :: back)) count' (front ++ ⟨key, val, spare⟩ :: back) where
  block := rfl
  few := by
    intro e member
    rcases mem_append.mp member with before | rest
    · exact formed.few e (others (mem_append_left _ before))
    · rcases mem_cons.mp rest with rfl | behind
      · exact few
      · exact formed.few e (others (mem_append_right _ behind))
  counts := counts
  small := small

theorem zipmapSet_absent (formed : Formed zm count entries) (absent : ∀ e ∈ entries, e.key ≠ key)
    (room : zm.length + entryLength key val < 2 ^ 32) :
    ∃ zm' spare, zipmapSet junk zm key val = some (zm', false) ∧ Formed zm' (counted (· + 1) count) (entries ++ [⟨key, val, spare⟩]) := by
  have required := requiredLength_spec (show entryLength key val < 2 ^ 32 by omega)
  obtain ⟨place, old, made, holds, size, total⟩ := makePlace_absent junk formed room
  have last : place.Holds (counted (· + 1) count :: body entries) old (body []) := holds
  obtain ⟨cut, spare, isCut, written, few, small⟩ := writePlace junk last total (Nat.le_of_eq size.symm)
  refine ⟨_, spare, ?_, formed.with_entry (by simp) few ?_ small⟩
  · simp only [zipmapSet, required, formed.lookup key, placeOf_absent absent, made, isCut, written, bind_eq_bind, bind_some]
    rfl
  · rw [length_append]
    exact formed.counts.add

theorem zipmapSet_present (formed : Formed zm count (front ++ e :: back)) (absent : ∀ other ∈ front, other.key ≠ e.key)
    (room : zm.length - e.bytes.length + entryLength e.key val < 2 ^ 32) :
    ∃ zm' spare, zipmapSet junk zm e.key val = some (zm', true) ∧ Formed zm' count (front ++ ⟨e.key, val, spare⟩ :: back) := by
  have required := requiredLength_spec (show entryLength e.key val < 2 ^ 32 by omega)
  obtain ⟨place, old, made, holds, size, total⟩ := makePlace_present junk formed room
  obtain ⟨cut, spare, isCut, written, few, small⟩ := writePlace junk holds total size
  refine ⟨_, spare, ?_, formed.with_entry ((sublist_cons_self e back).append_left front).subset few ?_ small⟩
  · simp only [zipmapSet, required, formed.lookup e.key, placeOf_present absent rfl, made, isCut, written, bind_eq_bind,
      bind_some, isSome_some]
  · have counts := formed.counts
    rw [length_append, length_cons] at counts ⊢
    exact counts

theorem zipmapDel_absent (formed : Formed zm count entries) (absent : ∀ e ∈ entries, e.key ≠ key) :
    zipmapDel junk zm key = some (zm, false) := by
  simp only [zipmapDel, formed.lookup key, placeOf_absent absent, bind_eq_bind, bind_some]

theorem zipmapDel_present (formed : Formed zm count (front ++ e :: back)) (absent : ∀ other ∈ front, other.key ≠ e.key) :
    ∃ zm', zipmapDel junk zm e.key = some (zm', true) ∧ Formed zm' (counted (· - 1) count) (front ++ back) := by
  have small := formed.small
  have block := formed.parts
  have ok := formed.ok e (mem_append_right _ mem_cons_self)
  have length := congrArg List.length block
  simp only [length_append, length_cons, length_nil] at length
  have entry : zipmapRawEntryLength (zm.drop (1 + (body front).length)) = some e.bytes.length := by
    rw [formed.at_entry, rawEntryLength_spec ok]
  obtain ⟨target, after, split, tail⟩ : ∃ target after, e.bytes ++ body back ++ [zipmapEnd] = target ++ after ∧ target.length = (body back).length :=
    ⟨_, _, (take_append_drop (body back).length _).symm, by
      rw [length_take, length_append, length_append]
      omega⟩
  have same : ((count :: body front) ++ e.bytes) ++ body back ++ [zipmapEnd] = (count :: body front) ++ target ++ after := by
    rw [append_assoc (count :: body front), append_assoc (count :: body front), split, append_assoc (count :: body front)]
  have moved : memmove zm (1 + (body front).length) (1 + (body front).length + e.bytes.length)
      (zm.length - (1 + (body front).length + e.bytes.length + 1)) = some ((count :: body front) ++ body back ++ after) := by
    rw [block, same]
    refine memmove_append same ?_ ?_ ?_ ?_
    · rw [length_append, length_cons, Nat.add_comm 1]
    · rw [length_cons, Nat.add_comm 1]
    · rw [← same, ← block]
      omega
    · rw [← same, ← block]
      omega
  have cut : uintSub zm.length e.bytes.length = ((count :: body front) ++ body back).length + 1 := by
    rw [uintSub_small small (by omega), length_append, length_cons]
    omega
  have resized := resize_cut junk ((count :: body front) ++ body back) after
  rw [← cut] at resized
  refine ⟨layout (counted (· - 1) count) (front ++ back), ?_, rfl, ?_, ?_, ?_⟩
  · simp only [zipmapDel, formed.lookup e.key, placeOf_present absent rfl, entry, bind_eq_bind, bind_some]
    rw [if_neg (by omega), moved]
    simp only [bind_some, resized]
    simp only [cons_append, countKeys_cons, bind_some, layout, body_append]
  · intro other member
    exact formed.few other (((sublist_cons_self e back).append_left front).subset member)
  · have counts := formed.counts
    rw [length_append, length_cons, ← Nat.add_assoc] at counts
    rw [length_append]
    exact counts.sub
  · rw [layout_length, body_append, length_append]
    omega

end

end

end

/-! Runs of a zipmap: it stays well formed and answers as a finite map does, as long as its bytes can be
counted in an unsigned int. -/

section
open Bytes List Option
open HashType (TextMap Lists lists_empty)

inductive ZipmapOp where
  | set (key val : Text)
  | get (key : Text)
  | del (key : Text)
  | exists (key : Text)
  | len

inductive Reply where
  | flag (b : Bool)
  | value (val : Option Text)
  | length (n : Nat)

def valueAt (zm : List UInt8) (place : Nat × Nat) : Text := (zm.drop place.1).take place.2

section
variable (junk : List UInt8 → Nat → UInt8)

def zipmapStep (zm : List UInt8) : ZipmapOp → Option (List UInt8 × Reply)
  | .set key val => (zipmapSet junk zm key val).map fun after => (after.1, .flag after.2)
  | .get key => (zipmapGet zm key).map fun found => (zm, .value (found.map (valueAt zm)))
  | .del key => (zipmapDel junk zm key).map fun after => (after.1, .flag after.2)
  | .exists key => (zipmapExists zm key).map fun found => (zm, .flag found)
  | .len => (zipmapLen zm).map fun after => (after.1, .length after.2)

end

def mapStep (m : TextMap) : ZipmapOp → TextMap × Reply
  | .set key val => (m.insert key val, .flag (m.lookup key).isSome)
  | .get key => (m, .value (m.lookup key))
  | .del key => (m.erase key, .flag (m.lookup key).isSome)
  | .exists key => (m, .flag (m.lookup key).isSome)
  | .len => (m, .length m.keys.card)

def slotLength (zm : List UInt8) (key : Text) : Nat :=
  match zipmapLookupRaw zm (some key) true with
  | some (some p, _) => (zipmapRawEntryLength (zm.drop p)).getD 0
  | _ => 0

/-- With the new entry in the place of the old one the block has less than 2^32 bytes. -/
def ZipmapOp.Room (zm : List UInt8) : ZipmapOp → Prop
  | .set key val => zm.length - slotLength zm key + entryLength key val < 2 ^ 32
  | _ => True

instance (zm : List UInt8) (op : ZipmapOp) : Decidable (op.Room zm) :=
  match op with
  | .set key val => inferInstanceAs (Decidable (zm.length - slotLength zm key + entryLength key val < 2 ^ 32))
  | .get _ | .del _ | .exists _ | .len => .isTrue trivial

variable {zm : List UInt8} {count : UInt8} {entries front back : List Entry} {e : Entry} {m : TextMap} {key val : Text}

theorem slotLength_absent (formed : Formed zm count entries) (absent : ∀ e ∈ entries, e.key ≠ key) : slotLength zm key = 0 := by
  rw [slotLength, formed.lookup key, placeOf_absent absent]

theorem slotLength_present (formed : Formed zm count (front ++ e :: back)) (absent : ∀ other ∈ front, other.key ≠ e.key) :
    slotLength zm e.key = e.bytes.length := by
  have ok := formed.ok e (mem_append_right _ mem_cons_self)
  rw [slotLength, formed.lookup e.key, placeOf_present absent rfl]
  simp only [formed.at_entry, rawEntryLength_spec ok, getD_some]

theorem pairs_append (front back : List Entry) : pairs (front ++ back) = pairs front ++ pairs back := map_append

theorem pairs_cons (e : Entry) (back : List Entry) : pairs (e :: back) = (e.key, e.value) :: pairs back := rfl

variable (junk : List UInt8 → Nat → UInt8)

theorem zipmapSet_simulates (rep : Represents zm m) (room : zm.length - slotLength zm key + entryLength key val < 2 ^ 32) :
    ∃ zm', zipmapSet junk zm key val = some (zm', (m.lookup key).isSome) ∧ Represents zm' (m.insert key val) := by
  obtain ⟨count, entries, formed, lists⟩ := rep
  cases stored : m.lookup key with
  | none =>
    have absent := Lists.lookup_none lists stored
    rw [slotLength_absent formed absent, Nat.sub_zero] at room
    obtain ⟨zm', spare, run, formed'⟩ := zipmapSet_absent junk formed absent room
    refine ⟨zm', run, _, _, formed', ?_⟩
    rw [pairs_append]
    exact lists.append stored val
  | some old =>
    obtain ⟨front, e, back, rfl, rfl, rfl, absent⟩ := Lists.lookup_some lists stored
    rw [slotLength_present formed absent] at room
    obtain ⟨zm', spare, run, formed'⟩ := zipmapSet_present junk formed absent room
    refine ⟨zm', run, _, _, formed', ?_⟩
    rw [pairs_append, pairs_cons] at lists ⊢
    exact lists.update val

theorem zipmapDel_simulates (rep : Represents zm m) (key : Text) :
    ∃ zm', zipmapDel junk zm key = some (zm', (m.lookup key).isSome) ∧ Represents zm' (m.erase key) := by
  obtain ⟨count, entries, formed, lists⟩ := rep
  cases stored : m.lookup key with
  | none =>
    have same : m.erase key = m := by
      apply Finmap.ext_lookup
      intro other
      by_cases equal : other = key
      · rw [equal, Finmap.lookup_erase, stored]
      · rw [Finmap.lookup_erase_ne equal]
    rw [same]
    exact ⟨zm, zipmapDel_absent junk formed (Lists.lookup_none lists stored), count, entries, formed, lists⟩
  | some old =>
    obtain ⟨front, e, back, rfl, rfl, rfl, absent⟩ := Lists.lookup_some lists stored
    obtain ⟨zm', run, formed'⟩ := zipmapDel_present junk formed absent
    refine ⟨zm', run, _, _, formed', ?_⟩
    rw [pairs_append, pairs_cons] at lists
    rw [pairs_append]
    exact lists.remove

theorem zipmapLen_simulates (rep : Represents zm m) : ∃ zm', zipmapLen zm = some (zm', m.keys.card) ∧ Represents zm' m := by
  obtain ⟨count, entries, formed, lists⟩ := rep
  obtain ⟨zm', count', run, formed', -⟩ := zipmapLen_spec formed
  refine ⟨zm', ?_, count', entries, formed', lists⟩
  rw [run, ← lists.size, pairs, length_map]

theorem zipmapStep_simulates (zm : List UInt8) (m : TextMap) (op : ZipmapOp) (rep : Represents zm m) (room : op.Room zm) :
    ∃ zm', zipmapStep junk zm op = some (zm', (mapStep m op).2) ∧ Represents zm' (mapStep m op).1 := by
  cases op with
  | set key val =>
    obtain ⟨zm', run, rep'⟩ := zipmapSet_simulates junk rep room
    exact ⟨zm', by rw [zipmapStep, run]; rfl, rep'⟩
  | get key =>
    obtain ⟨count, entries, formed, lists⟩ := id rep
    obtain ⟨found, run, same⟩ := zipmapGet_spec formed lists key
    refine ⟨zm, ?_, rep⟩
    rw [zipmapStep, run, mapStep, ← same]
    rfl
  | del key =>
    obtain ⟨zm', run, rep'⟩ := zipmapDel_simulates junk rep key
    exact ⟨zm', by rw [zipmapStep, run]; rfl, rep'⟩
  | «exists» key =>
    obtain ⟨count, entries, formed, lists⟩ := id rep
    exact ⟨zm, by rw [zipmapStep, zipmapExists_spec formed lists]; rfl, rep⟩
  | len =>
    obtain ⟨zm', run, rep'⟩ := zipmapLen_simulates rep
    exact ⟨zm', by rw [zipmapStep, run]; rfl, rep'⟩

structure StoresMap (zm : List UInt8) (m : TextMap) : Prop where
  represents : Represents zm m
  get : ∀ key, ∃ found, zipmapGet zm key = some found ∧ found.map (valueAt zm) = m.lookup key
  len : ∃ zm', zipmapLen zm = some (zm', m.keys.card)
  blobLen : zipmapBlobLen zm = some zm.length

theorem Represents.storesMap (rep : Represents zm m) : StoresMap zm m := by
  obtain ⟨zm', run, -⟩ := zipmapLen_simulates rep
  obtain ⟨count, entries, formed, lists⟩ := id rep
  exact ⟨rep, fun key => zipmapGet_spec formed lists key, ⟨zm', run⟩, formed.blobLen⟩

theorem formed_new : Formed zipmapNew 0 [] where
  block := rfl
  few := by simp
  counts := ⟨fun _ => rfl, by decide⟩
  small := by decide

def RefinesMap (ops : List ZipmapOp) : Prop :=
  ∃ zm, Run.exec (zipmapStep junk) zipmapNew ops = some (zm, (Run.specExec mapStep ∅ ops).2) ∧
    StoresMap zm (Run.specExec mapStep ∅ ops).1

theorem zipmap_refines_map (ops : List ZipmapOp) (room : Run.Allowed (zipmapStep junk) (fun zm op => op.Room zm) zipmapNew ops) :
    RefinesMap junk ops := by
  obtain ⟨zm, run, rep⟩ := Run.exec_refines (zipmapStep_simulates junk) ops ⟨0, [], formed_new, lists_empty⟩ room
  exact ⟨zm, run, rep.storesMap⟩

/-- A shorter value leaves two bytes free, a longer one moves the tail. -/
theorem zipmap_refines_map_updates : RefinesMap (fun _ _ => 0)
    [.set [1] [5, 6, 7], .set [2] [8], .set [1] [9], .get [1], .set [1] [1, 2, 3, 4, 5], .len, .del [2], .exists [2], .get [1]] :=
  zipmap_refines_map _ _ (by decide +kernel)

/-- The keys and values have lengths that an unsigned int holds. -/
def ZipmapOp.Short : ZipmapOp → Prop
  | .set key val => key.length < 2 ^ 32 ∧ val.length < 2 ^ 32
  | .get key | .del key | .exists key => key.length < 2 ^ 32
  | .len => True

/-- The needed length is 4 then, and the entry is written over the end of the block. -/
theorem zipmapSet_outgrows (size : val.length = 2 ^ 32 - 3) : zipmapSet junk zipmapNew [] val = none := by
  have required : zipmapRequiredLength ([] : Text).length val.length = 4 := by
    rw [size]
    decide
  have room : zipmapNew.length + 4 < 2 ^ 32 := by decide
  obtain ⟨place, old, made, ⟨block, here, free, -⟩, fits, -⟩ := makePlace_absent junk formed_new room
  have length := congrArg List.length block
  simp only [length_append, length_cons, length_nil, fits, show body [] = [] from rfl] at length
  have empty : uintSub 4 4 = 0 := by decide
  have isCut : cutPlace junk place 4 = some (place.zm, place.p, 0) := by
    simp only [cutPlace, free, fits, empty]
    rfl
  have outside : writeEntry place.zm place.p [] val 0 = none := by
    rw [writeEntry_eq]
    apply store_none
    simp only [length_append, length_cons, size, length]
    omega
  unfold zipmapSet
  rw [required, formed_new.lookup [], bind_eq_bind, bind_some]
  dsimp only [placeOf]
  rw [made, bind_eq_bind, bind_some, isCut, bind_eq_bind, bind_some, outside, bind_eq_bind, bind_none]

/-- A key without bytes and a value of 2^32 - 3 bytes. -/
theorem zipmap_outgrows : ¬ ∀ (junk : List UInt8 → Nat → UInt8) (ops : List ZipmapOp), (∀ op ∈ ops, op.Short) → RefinesMap junk ops := by
  intro all
  obtain ⟨val, size⟩ : ∃ val : Text, val.length = 2 ^ 32 - 3 := ⟨replicate (2 ^ 32 - 3) 0, length_replicate⟩
  have short : ∀ op ∈ [ZipmapOp.set [] val], op.Short := by
    intro op member
    rw [mem_singleton.mp member]
    exact ⟨by decide, by omega⟩
  obtain ⟨zm, run, -⟩ := all (fun _ _ => 0) [.set [] val] short
  rw [Run.exec, zipmapStep, zipmapSet_outgrows _ size] at run
  cases run

end

end Cplusplus.Redis.Zipmap
