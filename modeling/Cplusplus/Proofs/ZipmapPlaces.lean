import Cplusplus.Zipmap

/-! The bytes of a zipmap that holds a list of entries, and what is read of them. -/

namespace Cplusplus.Redis.Zipmap
open Bytes List Option

section
structure Entry where
  key : Text
  value : Text
  spare : List UInt8

def keyBytes (key : Text) : List UInt8 := zipmapEncodeLength key.length ++ key

def valueBytes (value : Text) (spare : List UInt8) : List UInt8 :=
  zipmapEncodeLength value.length ++ UInt8.ofNat spare.length :: (value ++ spare)

def Entry.bytes (e : Entry) : List UInt8 := keyBytes e.key ++ valueBytes e.value e.spare

def body (entries : List Entry) : List UInt8 := entries.flatMap Entry.bytes

def layout (count : UInt8) (entries : List Entry) : List UInt8 := count :: (body entries ++ [zipmapEnd])

variable {zm rest spare : List UInt8} {key value : Text} {count : UInt8} {e : Entry} {entries front back : List Entry} {n p : Nat}

@[simp] theorem encode_length (n : Nat) : (zipmapEncodeLength n).length = lenBytes n := by
  unfold zipmapEncodeLength lenBytes
  split
  · rfl
  · rw [length_cons, leBytes_length]

theorem lenBytes_pos (n : Nat) : 1 ≤ lenBytes n ∧ lenBytes n ≤ 5 := by
  unfold lenBytes
  split <;> omega

@[simp] theorem keyBytes_length (key : Text) : (keyBytes key).length = lenBytes key.length + key.length := by
  rw [keyBytes, length_append, encode_length]

@[simp] theorem valueBytes_length (value : Text) (spare : List UInt8) :
    (valueBytes value spare).length = lenBytes value.length + 1 + value.length + spare.length := by
  simp only [valueBytes, length_append, length_cons, encode_length]
  omega

theorem Entry.bytes_length (e : Entry) :
    e.bytes.length = lenBytes e.key.length + e.key.length + (lenBytes e.value.length + 1 + e.value.length + e.spare.length) := by
  rw [Entry.bytes, length_append, keyBytes_length, valueBytes_length]

theorem body_cons (e : Entry) (entries : List Entry) : body (e :: entries) = e.bytes ++ body entries := flatMap_cons

theorem body_append (front back : List Entry) : body (front ++ back) = body front ++ body back := flatMap_append

theorem layout_length (count : UInt8) (entries : List Entry) : (layout count entries).length = (body entries).length + 2 := by
  simp only [layout, length_cons, length_append, length_nil]

theorem uint_small (small : n < 2 ^ 32) : uint n = n := Nat.mod_eq_of_lt small

theorem uintSub_small {a b : Nat} (small : a < 2 ^ 32) (le : b ≤ a) : uintSub a b = a - b := by
  unfold uintSub uint
  omega

theorem decode_encode (small : n < 2 ^ 32) (rest : List UInt8) : zipmapDecodeLength (zipmapEncodeLength n ++ rest) = some n := by
  unfold zipmapEncodeLength
  split
  next short =>
    have value : (UInt8.ofNat n).toNat = n := by
      unfold zipmapBigLen at short
      rw [UInt8.toNat_ofNat']
      omega
    simp only [zipmapDecodeLength, singleton_append, getElem?_cons_zero, bind_eq_bind, bind_some, value, if_pos short]
  next =>
    have big : ¬ (254 : UInt8).toNat < zipmapBigLen := by decide
    simp only [zipmapDecodeLength, cons_append, getElem?_cons_zero, bind_eq_bind, bind_some, if_neg big, drop_succ_cons, drop_zero]
    exact load_append rest small

theorem encode_first (n : Nat) : ∃ b tail, zipmapEncodeLength n = b :: tail ∧ b ≠ zipmapEnd := by
  unfold zipmapEncodeLength
  split
  next short =>
    refine ⟨UInt8.ofNat n, [], rfl, fun same => ?_⟩
    have value := congrArg UInt8.toNat same
    unfold zipmapBigLen at short
    rw [UInt8.toNat_ofNat', show zipmapEnd.toNat = 255 from rfl] at value
    omega
  next => exact ⟨254, leBytes 4 n, rfl, by decide⟩

theorem Entry.first (e : Entry) (rest : List UInt8) : ∃ b, (e.bytes ++ rest)[0]? = some b ∧ b ≠ zipmapEnd := by
  obtain ⟨b, tail, same, other⟩ := encode_first e.key.length
  refine ⟨b, ?_, other⟩
  rw [Entry.bytes, keyBytes, same]
  rfl

theorem decode_key (small : key.length < 2 ^ 32) (rest : List UInt8) : zipmapDecodeLength (keyBytes key ++ rest) = some key.length := by
  rw [keyBytes, append_assoc]
  exact decode_encode small _

theorem drop_key (key : Text) (rest : List UInt8) : (keyBytes key ++ rest).drop (lenBytes key.length + key.length) = rest := by
  rw [← keyBytes_length, drop_left]

theorem drop_key_length (key : Text) (rest : List UInt8) : (keyBytes key ++ rest).drop (lenBytes key.length) = key ++ rest := by
  rw [keyBytes, append_assoc, ← encode_length, drop_left]

theorem decode_value (small : value.length < 2 ^ 32) (spare rest : List UInt8) :
    zipmapDecodeLength (valueBytes value spare ++ rest) = some value.length := by
  rw [valueBytes, append_assoc]
  exact decode_encode small _

theorem drop_value_length (value : Text) (spare rest : List UInt8) :
    (valueBytes value spare ++ rest).drop (lenBytes value.length) = UInt8.ofNat spare.length :: (value ++ spare ++ rest) := by
  rw [valueBytes, append_assoc, ← encode_length, drop_left]
  rfl

theorem free_toNat (few : spare.length < 4) : (UInt8.ofNat spare.length).toNat = spare.length := by
  rw [UInt8.toNat_ofNat']
  omega

theorem rawKeyLength_spec (small : lenBytes key.length + key.length < 2 ^ 32) (rest : List UInt8) :
    zipmapRawKeyLength (keyBytes key ++ rest) = some (lenBytes key.length + key.length) := by
  rw [zipmapRawKeyLength, decode_key (by omega)]
  simp only [bind_eq_bind, bind_some, uint_small small]

theorem rawValueLength_spec (few : spare.length < 4) (small : (valueBytes value spare).length < 2 ^ 32) (rest : List UInt8) :
    zipmapRawValueLength (valueBytes value spare ++ rest) = some (valueBytes value spare).length := by
  have free : (valueBytes value spare ++ rest)[lenBytes value.length]? = some (UInt8.ofNat spare.length) := by
    have behind := drop_value_length value spare rest
    rw [getElem?_drop_zero, behind]
    rfl
  rw [valueBytes_length] at small
  rw [zipmapRawValueLength, decode_value (by omega)]
  simp only [bind_eq_bind, bind_some, free, free_toNat few, valueBytes_length]
  rw [uint_small (show spare.length + 1 + value.length < 2 ^ 32 by omega), uint_small (by omega)]
  congr 1
  omega

structure Entry.Ok (e : Entry) : Prop where
  few : e.spare.length < 4
  small : e.bytes.length < 2 ^ 32

theorem rawEntryLength_spec (ok : e.Ok) (rest : List UInt8) : zipmapRawEntryLength (e.bytes ++ rest) = some e.bytes.length := by
  have small := ok.small
  rw [Entry.bytes, length_append, keyBytes_length] at small
  rw [zipmapRawEntryLength, Entry.bytes, append_assoc, rawKeyLength_spec (by omega)]
  simp only [bind_eq_bind, bind_some, drop_key]
  rw [rawValueLength_spec ok.few (by omega), length_append, keyBytes_length]
  simp only [bind_some]
  rw [uint_small small]

theorem drop_add {a : List UInt8} (at_ : zm.drop p = a ++ rest) : zm.drop (p + a.length) = rest := by
  rw [← drop_drop, at_, drop_left]

def isFound (key : Option Text) (k : Option Nat) (e : Entry) : Bool := k.isNone && decide (key = some e.key)

theorem keyFound_spec (key : Option Text) (k : Option Nat) (e : Entry) (rest : List UInt8) :
    keyFound key k e.key.length (e.key ++ rest) = some (isFound key k e) := by
  cases key with
  | none => simp [keyFound, isFound]
  | some key =>
    simp only [keyFound, isFound, some.injEq]
    split
    next same =>
      obtain ⟨rfl, same⟩ := same
      have equal : (e.key == key) = decide (key = e.key) := by
        rw [Bool.eq_iff_iff, beq_iff_eq, decide_eq_true_iff, eq_comm]
      rw [sameKey, if_pos (by rw [length_append]; omega), ← same, take_left, isNone_none, Bool.true_and, equal]
    next differs =>
      cases k with
      | some p => rfl
      | none =>
        have other : key ≠ e.key := fun equal => differs ⟨rfl, congrArg List.length equal.symm⟩
        rw [decide_eq_false other]
        rfl

theorem lookupLoop_entry (ok : e.Ok) (at_ : zm.drop p = e.bytes ++ rest) (key : Option Text) (whole : Bool) (fuel : Nat) (k : Option Nat) :
    lookupLoop zm key whole (fuel + 1) p k = if isFound key k e = true ∧ (!whole) = true then some (some p, 0)
      else lookupLoop zm key whole fuel (p + e.bytes.length) (if isFound key k e = true then some p else k) := by
  have small := ok.small
  rw [e.bytes_length] at small
  obtain ⟨b, first, other⟩ := e.first rest
  have parts : zm.drop p = keyBytes e.key ++ (valueBytes e.value e.spare ++ rest) := by
    rw [at_, Entry.bytes, append_assoc]
  have text : zm.drop (p + lenBytes e.key.length) = e.key ++ (valueBytes e.value e.spare ++ rest) := by
    rw [← drop_drop, parts, drop_key_length]
  have behindKey : zm.drop (p + (lenBytes e.key.length + e.key.length)) = valueBytes e.value e.spare ++ rest := by
    rw [← drop_drop, parts, drop_key]
  have free : (zm.drop (p + (lenBytes e.key.length + e.key.length) + lenBytes e.value.length))[0]? = some (UInt8.ofNat e.spare.length) := by
    rw [← drop_drop, behindKey, drop_value_length]
    rfl
  have onward : p + (lenBytes e.key.length + e.key.length) + lenBytes e.value.length + (e.value.length + 1 + e.spare.length) =
      p + e.bytes.length := by
    rw [e.bytes_length]
    omega
  rw [← at_] at first
  have keyLength : zipmapDecodeLength (zm.drop p) = some e.key.length := by rw [parts, decode_key (by omega)]
  have valueLength : zipmapDecodeLength (zm.drop (p + (lenBytes e.key.length + e.key.length))) = some e.value.length := by
    rw [behindKey, decode_value (by omega)]
  have short : uint (lenBytes e.key.length + e.key.length) = lenBytes e.key.length + e.key.length := uint_small (by omega)
  have short' : uint (e.value.length + 1 + e.spare.length) = e.value.length + 1 + e.spare.length := uint_small (by omega)
  rw [lookupLoop]
  simp only [first, bind_eq_bind, bind_some, other, if_false, keyLength, text, keyFound_spec, short, valueLength, free,
    free_toNat ok.few, short', onward]

def placeOf (key : Text) : List Entry → Nat → Option Nat
  | [], _ => none
  | e :: entries, p => if e.key = key then some p else placeOf key entries (p + e.bytes.length)

theorem lookupLoop_end (at_ : zm.drop p = [zipmapEnd]) (key : Option Text) (whole : Bool) (fuel : Nat) (k : Option Nat) :
    lookupLoop zm key whole (fuel + 1) p k = some (k, uint (uint p + 1)) := by
  rw [lookupLoop, at_]
  simp only [getElem?_cons_zero, bind_eq_bind, bind_some, if_true]

theorem drop_end_length (at_ : zm.drop p = rest ++ [zipmapEnd]) : zm.length = p + rest.length + 1 := by
  have length := congrArg List.length at_
  rw [length_drop, length_append, length_singleton] at length
  omega

theorem lookupLoop_whole (oks : ∀ e ∈ back, e.Ok) (small : zm.length < 2 ^ 32) (at_ : zm.drop p = body back ++ [zipmapEnd]) {fuel : Nat}
    (enough : back.length < fuel) (key : Option Text) (k : Option Nat) :
    lookupLoop zm key true fuel p k = some (k.or (key.bind fun key => placeOf key back p), zm.length) := by
  induction back generalizing p fuel k with
  | nil =>
    obtain ⟨fuel, rfl⟩ : ∃ less, fuel = less + 1 := ⟨fuel - 1, by omega⟩
    have length : zm.length = p + 0 + 1 := drop_end_length at_
    rw [lookupLoop_end at_, uint_small (show p < 2 ^ 32 by omega), uint_small (by omega), length]
    cases key <;> simp [placeOf]
  | cons e back ih =>
    obtain ⟨fuel, rfl⟩ : ∃ less, fuel = less + 1 := ⟨fuel - 1, by omega⟩
    rw [length_cons] at enough
    rw [body_cons, append_assoc] at at_
    rw [lookupLoop_entry (oks e mem_cons_self) at_, if_neg (by simp),
      ih (fun other member => oks other (mem_cons_of_mem _ member)) (drop_add at_) (by omega)]
    congr 2
    cases k with
    | some k => simp [isFound]
    | none =>
      cases key with
      | none => simp [isFound]
      | some key =>
        by_cases same : e.key = key
        · simp [isFound, same, placeOf]
        · simp [isFound, same, placeOf, Ne.symm same]

theorem lookupLoop_first (oks : ∀ e ∈ back, e.Ok) (at_ : zm.drop p = body back ++ [zipmapEnd]) {fuel : Nat}
    (enough : back.length < fuel) (key : Text) : ∃ totlen, lookupLoop zm (some key) false fuel p none = some (placeOf key back p, totlen) := by
  induction back generalizing p fuel with
  | nil =>
    obtain ⟨fuel, rfl⟩ : ∃ less, fuel = less + 1 := ⟨fuel - 1, by omega⟩
    exact ⟨_, lookupLoop_end at_ _ _ _ _⟩
  | cons e back ih =>
    obtain ⟨fuel, rfl⟩ : ∃ less, fuel = less + 1 := ⟨fuel - 1, by omega⟩
    rw [length_cons] at enough
    rw [body_cons, append_assoc] at at_
    rw [lookupLoop_entry (oks e mem_cons_self) at_]
    by_cases same : e.key = key
    · exact ⟨0, by simp [isFound, same, placeOf]⟩
    · have left : back.length < fuel := by omega
      obtain ⟨totlen, rest⟩ := ih (fun other member => oks other (mem_cons_of_mem _ member)) (drop_add at_) left
      exact ⟨totlen, by simp [isFound, same, placeOf, Ne.symm same, rest]⟩

end

/-! The place of an entry is made, moved or cut, and the entry is written: what is in the block before and
after it stays. -/

section
variable {zm pre kept left old back spare : List UInt8} {key val : Text} {len reqlen vempty : Nat}

section
variable (junk : List UInt8 → Nat → UInt8)

theorem resize_keep (kept left : List UInt8) (room : kept.length < len) :
    ∃ old, zipmapResize junk (kept ++ left) len = some (kept ++ old ++ [zipmapEnd]) ∧ kept.length + old.length + 1 = len := by
  have size := realloc_length junk (kept ++ left) len
  have same : (realloc junk (kept ++ left) len).take kept.length = kept := by
    rw [realloc_take (Nat.le_of_lt room) (by rw [length_append]; omega), take_left]
  have split : realloc junk (kept ++ left) len = kept ++ ((realloc junk (kept ++ left) len).drop kept.length) := by
    conv_lhs => rw [← take_append_drop kept.length (realloc junk (kept ++ left) len)]
    rw [same]
  have rest : ((realloc junk (kept ++ left) len).drop kept.length).length = len - kept.length := by rw [length_drop, size]
  generalize (realloc junk (kept ++ left) len).drop kept.length = tail at split rest
  rcases eq_nil_or_concat tail with rfl | ⟨old, last, rfl⟩
  · rw [length_nil] at rest
    omega
  · rw [concat_eq_append, length_append, length_singleton] at rest
    have stored : store ((kept ++ old) ++ [last] ++ []) (len - 1) [zipmapEnd] = some ((kept ++ old) ++ [zipmapEnd] ++ []) :=
      store_append (by rw [length_append]; omega) rfl
    rw [append_nil, append_nil] at stored
    refine ⟨old, ?_, by omega⟩
    rw [zipmapResize, if_neg (by omega), split, concat_eq_append, ← append_assoc, stored]

theorem resize_cut (kept left : List UInt8) : zipmapResize junk (kept ++ left) (kept.length + 1) = some (kept ++ [zipmapEnd]) := by
  obtain ⟨old, resized, size⟩ := resize_keep junk kept left (Nat.lt_succ_self _)
  obtain rfl : old = [] := length_eq_zero_iff.mp (by omega)
  rw [resized, append_nil]

end

theorem writeEntry_eq (zm : List UInt8) (p : Nat) (key val : Text) (vempty : Nat) :
    writeEntry zm p key val vempty = store zm p (keyBytes key ++ (zipmapEncodeLength val.length ++ UInt8.ofNat vempty :: val)) := by
  have free : ∀ zm p, ((store zm p [UInt8.ofNat vempty]).bind fun zm => store zm (p + 1) val) = store zm p (UInt8.ofNat vempty :: val) :=
    fun zm p => store_then zm _ _ p rfl
  have value : ∀ zm p, ((store zm p (zipmapEncodeLength val.length)).bind fun zm =>
      store zm (p + lenBytes val.length) (UInt8.ofNat vempty :: val)) = store zm p (zipmapEncodeLength val.length ++ UInt8.ofNat vempty :: val) :=
    fun zm p => store_then zm _ _ p (encode_length _)
  have text : ∀ zm p, ((store zm p key).bind fun zm => store zm (p + key.length) (zipmapEncodeLength val.length ++ UInt8.ofNat vempty :: val)) =
      store zm p (key ++ (zipmapEncodeLength val.length ++ UInt8.ofNat vempty :: val)) := fun zm p => store_then zm _ _ p rfl
  simp only [writeEntry, bind_eq_bind, free, value, text]
  rw [store_then zm _ _ p (encode_length _), keyBytes, append_assoc]

theorem writeEntry_spec (pre back : List UInt8) (key val : Text) (spare : List UInt8)
    (room : old.length = (keyBytes key).length + (valueBytes val []).length) {p : Nat} (here : p = pre.length) :
    writeEntry (pre ++ (old ++ spare) ++ back) p key val spare.length = some (pre ++ (keyBytes key ++ valueBytes val spare) ++ back) := by
  have size : (keyBytes key ++ (zipmapEncodeLength val.length ++ UInt8.ofNat spare.length :: val)).length = old.length := by
    rw [room]
    simp only [length_append, length_cons, valueBytes_length, encode_length, length_nil]
    omega
  rw [writeEntry_eq, show pre ++ (old ++ spare) ++ back = pre ++ old ++ (spare ++ back) by simp, store_append here size]
  simp [valueBytes]

def entryLength (key val : Text) : Nat := (keyBytes key).length + (valueBytes val []).length

theorem requiredLength_spec (small : entryLength key val < 2 ^ 32) : zipmapRequiredLength key.length val.length = entryLength key val := by
  unfold entryLength at small ⊢
  rw [keyBytes_length, valueBytes_length] at small ⊢
  rw [length_nil] at small ⊢
  unfold zipmapRequiredLength lenBytes at *
  simp only [zipmapBigLen, uint] at *
  rcases Nat.lt_or_ge key.length 254 with k | k <;> rcases Nat.lt_or_ge val.length 254 with v | v
  · simp only [k, v, Nat.not_le.mpr k, Nat.not_le.mpr v, if_true, if_false] at small ⊢
    omega
  · simp only [k, v, Nat.not_le.mpr k, Nat.not_lt.mpr v, if_true, if_false] at small ⊢
    omega
  · simp only [k, v, Nat.not_lt.mpr k, Nat.not_le.mpr v, if_true, if_false] at small ⊢
    omega
  · simp only [k, v, Nat.not_lt.mpr k, Nat.not_lt.mpr v, if_true, if_false] at small ⊢
    omega

def Place.Holds (place : Place) (pre old back : List UInt8) : Prop :=
  place.zm = pre ++ old ++ back ++ [zipmapEnd] ∧ place.p = pre.length ∧ place.freelen = old.length ∧ place.zmlen = place.zm.length

theorem cutPlace_spec (junk : List UInt8 → Nat → UInt8) {place : Place} (holds : place.Holds pre old back) (small : place.zmlen < 2 ^ 32) (room : entryLength key val ≤ old.length) :
    ∃ cut spare, cutPlace junk place (entryLength key val) = some cut ∧ spare.length < 4 ∧
      (keyBytes key ++ valueBytes val spare).length ≤ old.length ∧
      writeEntry cut.1 cut.2.1 key val cut.2.2 = some (pre ++ (keyBytes key ++ valueBytes val spare) ++ back ++ [zipmapEnd]) := by
  obtain ⟨zm, p, zmlen, freelen⟩ := place
  obtain ⟨block, here, free, length⟩ := holds
  simp only at block here free length small
  have total : zmlen = pre.length + old.length + back.length + 1 := by
    rw [length, block]
    simp only [length_append, length_singleton]
  obtain ⟨used, left, rfl, size⟩ : ∃ used left, old = used ++ left ∧ used.length = entryLength key val :=
    ⟨_, _, (take_append_drop (entryLength key val) old).symm, by rw [length_take]; omega⟩
  rw [length_append] at free total room
  have empty : uintSub freelen (entryLength key val) = left.length := by
    rw [uintSub_small (by omega) (by omega)]
    omega
  unfold cutPlace
  simp only [empty]
  split
  next many =>
    unfold zipmapValueMaxFree at many
    have count : uintSub zmlen (uint (uint p + freelen + 1)) = back.length := by
      rw [uint_small (show p < 2 ^ 32 by omega), uint_small (by omega), uintSub_small (by omega) (by omega)]
      omega
    obtain ⟨target, after, split, tail⟩ : ∃ target after, left ++ back ++ [zipmapEnd] = target ++ after ∧ target.length = back.length :=
      ⟨_, _, (take_append_drop back.length _).symm, by
        rw [length_take, length_append, length_append]
        omega⟩
    have same : (pre ++ used ++ left) ++ back ++ [zipmapEnd] = (pre ++ used) ++ target ++ after := by
      rw [append_assoc (pre ++ used), append_assoc (pre ++ used), split, append_assoc (pre ++ used)]
    have moved : memmove zm (p + entryLength key val) (p + freelen) (uintSub zmlen (uint (uint p + freelen + 1))) =
        some ((pre ++ used) ++ back ++ after) := by
      rw [block, show pre ++ (used ++ left) ++ back ++ [zipmapEnd] = (pre ++ used ++ left) ++ back ++ [zipmapEnd] by simp, same]
      exact memmove_append same (by simp only [length_append]; omega) (by rw [length_append]; omega) count (by rw [tail, count])
    have resized : zipmapResize junk ((pre ++ used) ++ back ++ after) (uintSub zmlen left.length) = some ((pre ++ used ++ back) ++ [zipmapEnd]) := by
      have length' : uintSub zmlen left.length = (pre ++ used ++ back).length + 1 := by
        rw [uintSub_small (by omega) (by omega)]
        simp only [length_append]
        omega
      rw [length']
      exact resize_cut junk _ _
    refine ⟨((pre ++ used ++ back) ++ [zipmapEnd], uint p, 0), [], ?_, Nat.zero_lt_succ _, ?_, ?_⟩
    · simp only [moved, resized, bind_eq_bind, bind_some]
    · rw [length_append, length_append]
      unfold entryLength at size
      omega
    · have written := writeEntry_spec pre (back ++ [zipmapEnd]) key val [] size (show uint p = pre.length by rw [uint_small (by omega), here])
      rw [append_nil] at written
      simpa using written
  next few =>
    unfold zipmapValueMaxFree at few
    refine ⟨(zm, p, left.length), left, rfl, by omega, ?_, ?_⟩
    · unfold entryLength at size
      rw [valueBytes_length] at size
      simp only [length_append, valueBytes_length] at size ⊢
      rw [length_nil] at size
      omega
    · have written := writeEntry_spec pre (back ++ [zipmapEnd]) key val left size here
      rw [block]
      simpa using written

theorem growPlace_spec (junk : List UInt8 → Nat → UInt8) (pre old back : List UInt8) (short : old.length < reqlen)
    (small : pre.length + back.length + 1 + reqlen < 2 ^ 32) :
    let zm := pre ++ old ++ back ++ [zipmapEnd]
    ∃ grown after, zipmapResize junk zm (uint (uintSub zm.length old.length + reqlen)) = some grown ∧
      memmove grown (uint pre.length + reqlen) (uint pre.length + old.length) (uintSub zm.length (uint (uint pre.length + old.length + 1))) =
        some (pre ++ after ++ back ++ [zipmapEnd]) ∧ after.length = reqlen := by
  intro zm
  have length : zm.length = pre.length + old.length + back.length + 1 := by
    simp only [zm, length_append, length_singleton]
  have total : uint (uintSub zm.length old.length + reqlen) = pre.length + back.length + 1 + reqlen := by
    rw [uintSub_small (by omega) (by omega), uint_small (by omega)]
    omega
  have count : uintSub zm.length (uint (uint pre.length + old.length + 1)) = back.length := by
    rw [uint_small (show pre.length < 2 ^ 32 by omega), uint_small (by omega), uintSub_small (by omega) (by omega)]
    omega
  obtain ⟨spare, resized, size⟩ := resize_keep junk (pre ++ old ++ back) [zipmapEnd]
    (show (pre ++ old ++ back).length < pre.length + back.length + 1 + reqlen by simp only [length_append]; omega)
  simp only [length_append] at size
  obtain ⟨after, target, split, head⟩ : ∃ after target, old ++ back ++ spare = after ++ target ∧ after.length = reqlen :=
    ⟨_, _, (take_append_drop reqlen _).symm, by
      simp only [length_take, length_append]
      omega⟩
  have tail := congrArg List.length split
  simp only [length_append] at tail
  have same : (pre ++ old) ++ back ++ (spare ++ [zipmapEnd]) = (pre ++ after) ++ target ++ [zipmapEnd] := by
    have parts : (pre ++ old) ++ back ++ (spare ++ [zipmapEnd]) = pre ++ (old ++ back ++ spare) ++ [zipmapEnd] := by simp
    rw [parts, split]
    simp
  refine ⟨pre ++ old ++ back ++ spare ++ [zipmapEnd], after, by rw [total, resized], ?_, head⟩
  rw [count, uint_small (show pre.length < 2 ^ 32 by omega)]
  have moved := memmove_append same (show pre.length + old.length = (pre ++ old).length by rw [length_append])
    (show pre.length + reqlen = (pre ++ after).length by rw [length_append, head]) rfl (by omega)
  rw [← same] at moved
  simpa using moved

end

end Cplusplus.Redis.Zipmap
