import Cplusplus.Proofs.BitposRange
import Cplusplus.Proofs.HashTypeMap

/-! SETRANGE, SETBIT and APPEND write inside the limit of 512 MB, or reply an error and change
nothing. Zero bytes fill what lies between the old end and the offset. -/

namespace Cplusplus.Redis.Strings

open Function (update)
open List

variable {offset : Nat} {value argument : Bytes} {db : Keyspace} {key : Key}

def Reply.IsError : Reply → Prop
  | .integer _ => False
  | .bulk _ => False
  | _ => True

def Refused (db : Keyspace) (outcome : Outcome) : Prop := ∃ reply, reply.IsError ∧ outcome = .ok (db, reply)

structure Written (old new : Bytes) (offset : Nat) (data : Bytes) : Prop where
  length : new.length = max old.length (offset + data.length)
  inside : ∀ i < data.length, new.getD (offset + i) 0 = data.getD i 0
  outside : ∀ i, i < offset ∨ offset + data.length ≤ i → new.getD i 0 = old.getD i 0

theorem longLong_small {size : Nat} (small : (size : Int) < 2 ^ 63) : longLong size = size := by
  rw [longLong, BitVec.toInt_ofNat']
  exact Int.bmod_eq_of_le (by omega) (by omega)

theorem sdsMakeRoomFor_fits {newlen : Nat} (fits : (newlen : Int) ≤ maxStringLength) : sdsMakeRoomFor newlen = .ok () := by
  unfold maxStringLength at fits
  have block : ¬ longLongMax < (sdsBlock newlen : Int) := by
    unfold sdsBlock sdsMaxPrealloc longLongMax
    split <;> omega
  rw [sdsMakeRoomFor, if_neg block]

theorem sdsgrowzero_fits {s : Bytes} {len : Nat} (fits : (len : Int) ≤ maxStringLength) :
    ∃ s', sdsgrowzero s len = .ok s' ∧ s'.length = max s.length len ∧ ∀ i, s'.getD i 0 = s.getD i 0 := by
  rw [sdsgrowzero]
  split
  next long => exact ⟨s, rfl, by omega, fun i => rfl⟩
  next short =>
    rw [sdsMakeRoomFor_fits fits]
    refine ⟨s ++ replicate (len - s.length) 0, rfl, ?_, ?_⟩
    · rw [length_append, length_replicate]
      omega
    · intro i
      rcases Nat.lt_or_ge i s.length with inside | beyond
      · exact getD_append _ _ _ _ inside
      · rw [getD_append_right _ _ _ _ beyond, getD_eq_default _ _ beyond]
        simp

def SetrangeFits (db : Keyspace) (key : Key) (argument value : Bytes) : Prop :=
  ∃ old, ∃ offset : Nat, stringAt db key = some old ∧ getLongLongFromObject (some (.sds argument)) = some (offset : Int) ∧
    ((offset + value.length : Nat) : Int) ≤ maxStringLength

def SetrangeWrites (db : Keyspace) (key : Key) (argument value : Bytes) : Prop :=
  ∃ old new, ∃ offset : Nat, stringAt db key = some old ∧ getLongLongFromObject (some (.sds argument)) = some (offset : Int) ∧
    setrangeCommand db key argument value = .ok (update db key (some (.string (.sds new))), .integer new.length) ∧
      Written old new offset value ∧ ((old.length : Int) ≤ maxStringLength → (new.length : Int) ≤ maxStringLength)

theorem setrange_writes (db : Keyspace) (key : Key) (old : Bytes) (data : value ≠ [])
    (fits : ((offset + value.length : Nat) : Int) ≤ maxStringLength) :
    ∃ new, setrange db key offset old value = .ok (update db key (some (.string (.sds new))), .integer new.length) ∧
      Written old new offset value := by
  obtain ⟨grown, grows, length, bytes⟩ := sdsgrowzero_fits (s := old) fits
  have stored := Bytes.store_eq (show offset + value.length ≤ grown.length by omega)
  have size := Bytes.store_length stored
  have limit : checkStringLength (longLong (offset + value.length)) = true := by
    rw [longLong_small (by unfold maxStringLength at fits; omega), checkStringLength, decide_eq_true fits]
  have some : ¬ value.length = 0 := fun empty => data (length_eq_zero_iff.mp empty)
  refine ⟨_, ?_, size.trans length, ?_, ?_⟩
  · simp only [setrange, some, if_false, limit, grows, memcpy, stored, Bool.not_true, Bool.false_eq_true, bind, Except.bind, pure, Except.pure]
  · intro i inside
    rw [Bytes.store_getD stored, if_pos (by omega), Nat.add_sub_cancel_left]
  · intro i outside
    rw [Bytes.store_getD stored, if_neg (by omega), bytes]

variable {old : Bytes}

theorem setrange_refuses (data : value ≠ []) (small : ((offset + value.length : Nat) : Int) < 2 ^ 63)
    (beyond : ¬ ((offset + value.length : Nat) : Int) ≤ maxStringLength) : setrange db key offset old value = .ok (db, .tooLong) := by
  have limit : checkStringLength (longLong (offset + value.length)) = false := by
    rw [longLong_small small, checkStringLength, decide_eq_false beyond]
  have some : ¬ value.length = 0 := fun empty => data (length_eq_zero_iff.mp empty)
  simp only [setrange, some, if_false, limit, Bool.not_false, if_true, bind, Except.bind, pure, Except.pure]

theorem setrangeCommand_eq (text : stringAt db key = some old)
    (parsed : getLongLongFromObject (some (.sds argument)) = some (offset : Int)) :
    setrangeCommand db key argument value = setrange db key offset old value := by
  have positive : ¬ (offset : Int) < 0 := by omega
  simp only [setrangeCommand, parsed, positive, if_false, Int.toNat_natCast]
  obtain ⟨missing, rfl⟩ | ⟨o, there, rfl⟩ := stringAt_cases text
  · rw [missing]
  · rw [there]

theorem stringAt_none (text : stringAt db key = none) : ∃ o, db key = some o ∧ ∀ s, o ≠ .string s := by
  unfold stringAt at text
  split at text
  next => cases text
  next => cases text
  next o other there => exact ⟨o, there, fun s same => other s same⟩

theorem setrange_bound (data : value ≠ [])
    (small : ∀ offset, getLongLongFromObject (some (.sds argument)) = some offset → offset + value.length < 2 ^ 63) :
    SetrangeFits db key argument value ∧ SetrangeWrites db key argument value ∨
      ¬ SetrangeFits db key argument value ∧ Refused db (setrangeCommand db key argument value) := by
  by_cases parses : ∃ offset : Nat, getLongLongFromObject (some (.sds argument)) = some (offset : Int)
  case neg =>
    refine .inr ⟨fun ⟨_, offset, _, parsed, _⟩ => parses ⟨offset, parsed⟩, ?_⟩
    unfold setrangeCommand
    split
    next => exact ⟨.notInteger, trivial, rfl⟩
    next offset parsed =>
      have negative : offset < 0 := by
        by_contra positive
        exact parses ⟨offset.toNat, by rw [parsed, Int.toNat_of_nonneg (by omega)]⟩
      rw [if_pos negative]
      exact ⟨.offsetOutOfRange, trivial, rfl⟩
  case pos =>
    obtain ⟨offset, parsed⟩ := parses
    cases text : stringAt db key with
    | none =>
      refine .inr ⟨fun ⟨_, _, text', _⟩ => (by rw [text] at text'; cases text'), ?_⟩
      obtain ⟨o, there, other⟩ := stringAt_none text
      have positive : ¬ (offset : Int) < 0 := by omega
      refine ⟨.wrongtype, trivial, ?_⟩
      simp only [setrangeCommand, parsed, positive, if_false, there]
      cases o with
      | string s => exact absurd rfl (other s)
      | hash => rfl
      | other => rfl
    | some old =>
      by_cases fits : ((offset + value.length : Nat) : Int) ≤ maxStringLength
      case pos =>
        obtain ⟨new, ran, written⟩ := setrange_writes db key old data fits
        refine .inl ⟨⟨old, offset, text, parsed, fits⟩, old, new, offset, text, parsed, ?_, written, ?_⟩
        · rw [setrangeCommand_eq text parsed, ran]
        · intro old
          rw [written.length]
          omega
      case neg =>
        refine .inr ⟨?_, .tooLong, trivial, ?_⟩
        · rintro ⟨_, offset', _, parsed', fits'⟩
          rw [parsed] at parsed'
          have same := Option.some.inj parsed'
          omega
        · have end_ := small offset parsed
          rw [setrangeCommand_eq text parsed, setrange_refuses data (by omega) fits]

private theorem bitMask (k i : Nat) (near : k < 8) (low : i < 8) : ((1 : UInt8) <<< UInt8.ofNat (7 - k)).toNat.testBit i = decide (i = 7 - k) ∧
      (~~~((1 : UInt8) <<< UInt8.ofNat (7 - k))).toNat.testBit i = !decide (i = 7 - k) := by
  have all : ∀ k < 8, ∀ i < 8, ((1 : UInt8) <<< UInt8.ofNat (7 - k)).toNat.testBit i = decide (i = 7 - k) ∧
      (~~~((1 : UInt8) <<< UInt8.ofNat (7 - k))).toNat.testBit i = !decide (i = 7 - k) := by decide
  exact all k near i low

theorem setBit_testBit (b : UInt8) (on : Bool) {k i : Nat} (near : k < 8) (low : i < 8) :
    (b &&& ~~~((1 : UInt8) <<< UInt8.ofNat (7 - k)) ||| if on then (1 : UInt8) <<< UInt8.ofNat (7 - k) else 0).toNat.testBit i =
      if i = 7 - k then on else b.toNat.testBit i := by
  obtain ⟨set, clear⟩ := bitMask k i near low
  rw [UInt8.toNat_or, UInt8.toNat_and, Nat.testBit_or, Nat.testBit_and, clear]
  cases on with
  | true =>
    rw [if_pos rfl, set]
    split <;> simp [*]
  | false =>
    rw [if_neg Bool.false_ne_true]
    split <;> simp [*]

theorem bit_clear (b : UInt8) {k : Nat} (near : k < 8) : b &&& ((1 : UInt8) <<< UInt8.ofNat (7 - k)) = 0 ↔ b.toNat.testBit (7 - k) = false := by
  have set := (bitMask k (7 - k) near (by omega)).1
  constructor
  · intro zero
    have bit := congrArg (fun x : UInt8 => x.toNat.testBit (7 - k)) zero
    simp only [UInt8.toNat_and, Nat.testBit_and, set, decide_true, Bool.and_true] at bit
    exact bit.trans (Nat.zero_testBit _)
  · intro clear
    rw [← UInt8.toNat_inj]
    apply Nat.eq_of_testBit_eq
    intro i
    rw [UInt8.toNat_and, Nat.testBit_and, UInt8.toNat_zero, Nat.zero_testBit]
    rcases Nat.lt_or_ge i 8 with low | high
    · rw [(bitMask k i near low).1]
      by_cases here : i = 7 - k
      · rw [here, clear, Bool.false_and]
      · rw [decide_eq_false here, Bool.and_false]
    · rw [Nat.testBit_lt_two_pow (Nat.lt_of_lt_of_le b.toNat_lt (Nat.pow_le_pow_right (by omega) high)), Bool.false_and]

def SetbitFits (db : Keyspace) (key : Key) (argument value : Bytes) : Prop :=
  ∃ old, ∃ bitoffset : Nat, ∃ on : Bool, stringAt db key = some old ∧
    getLongLongFromObject (some (.sds argument)) = some (bitoffset : Int) ∧ ((bitoffset / 8 : Nat) : Int) < maxStringLength ∧
      getLongLongFromObject (some (.sds value)) = some (if on then 1 else 0)

def SetbitWrites (db : Keyspace) (key : Key) (argument value : Bytes) : Prop :=
  ∃ old new, ∃ bitoffset : Nat, ∃ on : Bool, stringAt db key = some old ∧
    getLongLongFromObject (some (.sds argument)) = some (bitoffset : Int) ∧
      getLongLongFromObject (some (.sds value)) = some (if on then 1 else 0) ∧
        setbitCommand db key argument value =
          .ok (update db key (some (.string (.sds new))), .integer (if strBit old bitoffset then 1 else 0)) ∧
        new.length = max old.length (bitoffset / 8 + 1) ∧ strBit new bitoffset = on ∧ (∀ i ≠ bitoffset, strBit new i = strBit old i) ∧
          ((old.length : Int) ≤ maxStringLength → (new.length : Int) ≤ maxStringLength)

theorem setbit_writes (db : Keyspace) (key : Key) {bitoffset : Nat} (on : Bool) (old : Bytes) (fits : ((bitoffset / 8 : Nat) : Int) < maxStringLength) :
    ∃ new, setbit db key bitoffset on old = .ok (update db key (some (.string (.sds new))), .integer (if strBit old bitoffset then 1 else 0)) ∧
      new.length = max old.length (bitoffset / 8 + 1) ∧ strBit new bitoffset = on ∧ ∀ i ≠ bitoffset, strBit new i = strBit old i := by
  have room : ((bitoffset / 8 + 1 : Nat) : Int) ≤ maxStringLength := by omega
  obtain ⟨grown, grows, length, bytes⟩ := sdsgrowzero_fits (s := old) room
  have inside : bitoffset / 8 < grown.length := by omega
  have byte : grown[bitoffset / 8]? = some (old.getD (bitoffset / 8) 0) := by
    rw [← bytes, getD_eq_getElem _ _ inside, getElem?_eq_getElem inside]
  have near : bitoffset % 8 < 8 := Nat.mod_lt _ (by omega)
  have reply : (if old.getD (bitoffset / 8) 0 &&& ((1 : UInt8) <<< UInt8.ofNat (7 - bitoffset % 8)) = 0 then (0 : Int) else 1) =
      if strBit old bitoffset then 1 else 0 := by
    rw [strBit]
    cases bit : (old.getD (bitoffset / 8) 0).toNat.testBit (7 - bitoffset % 8) with
    | false => rw [if_pos ((bit_clear _ near).mpr bit), if_neg Bool.false_ne_true]
    | true =>
      rw [if_pos rfl, if_neg]
      intro clear
      rw [(bit_clear _ near).mp clear] at bit
      cases bit
  refine ⟨_, by simp only [setbit, grows, byte, bind, Except.bind, pure, Except.pure, reply]; rfl, ?_, ?_, ?_⟩
  · rw [length_set, length]
  · rw [strBit, getD_eq_getElem?_getD, getElem?_set_self inside, Option.getD_some, setBit_testBit _ _ near (by omega), if_pos rfl]
  · intro i other
    rw [strBit, strBit, getD_eq_getElem?_getD]
    by_cases same : i / 8 = bitoffset / 8
    · rw [same, getElem?_set_self inside, Option.getD_some, setBit_testBit _ _ near (by omega), if_neg (by omega)]
    · rw [getElem?_set_ne (Ne.symm same), ← getD_eq_getElem?_getD, bytes]

theorem getBitOffset_eq (argument : Bytes) : getBitOffsetFromArgument argument =
    (getLongLongFromObject (some (.sds argument))).bind fun loffset =>
      if loffset < 0 ∨ maxStringLength ≤ loffset / 8 then none else some loffset.toNat := rfl

theorem getBitOffset_some {bitoffset : Nat} (given : getBitOffsetFromArgument argument = some bitoffset) :
    getLongLongFromObject (some (.sds argument)) = some (bitoffset : Int) ∧ ((bitoffset / 8 : Nat) : Int) < maxStringLength := by
  rw [getBitOffset_eq] at given
  obtain ⟨loffset, parsed, bound⟩ := Option.bind_eq_some_iff.mp given
  split at bound
  next => cases bound
  next inside =>
    cases bound
    exact ⟨by rw [parsed, Int.toNat_of_nonneg (by omega)], by omega⟩

theorem setbit_bound (db : Keyspace) (key : Key) (argument value : Bytes) :
    SetbitFits db key argument value ∧ SetbitWrites db key argument value ∨
      ¬ SetbitFits db key argument value ∧ Refused db (setbitCommand db key argument value) := by
  by_cases fits : SetbitFits db key argument value
  case pos =>
    obtain ⟨old, bitoffset, on, text, parsed, inside, bit⟩ := id fits
    obtain ⟨new, ran, length, set, others⟩ := setbit_writes db key on old inside
    have bound : ¬ ((bitoffset : Int) < 0 ∨ maxStringLength ≤ (bitoffset : Int) / 8) := by omega
    have offset : getBitOffsetFromArgument argument = some bitoffset := by
      rw [getBitOffset_eq, parsed, Option.bind_some, if_neg bound, Int.toNat_natCast]
    refine .inl ⟨fits, old, new, bitoffset, on, text, parsed, bit, ?_, length, set, others, ?_⟩
    · simp only [setbitCommand, offset, bit]
      have one : decide ((if on then (1 : Int) else 0) = 1) = on := by cases on <;> rfl
      rw [if_neg (by cases on <;> decide)]
      obtain ⟨missing, rfl⟩ | ⟨o, there, rfl⟩ := stringAt_cases text
      · simp only [missing, one, ran]
      · simp only [there, one, ran]
    · intro small
      rw [length]
      omega
  case neg =>
    refine .inr ⟨fits, ?_⟩
    unfold setbitCommand
    split
    next => exact ⟨.bitOffset, trivial, rfl⟩
    next => exact ⟨.notBit, trivial, rfl⟩
    next bitoffset on offset bit =>
      obtain ⟨parsed, inside⟩ := getBitOffset_some offset
      split
      next => exact ⟨.notBit, trivial, rfl⟩
      next isBit =>
        have value : on = if decide (on = 1) then 1 else 0 := by
          by_cases one : on = 1
          · simp [one]
          · simp [one]
            omega
        have missing : ∀ old, stringAt db key ≠ some old := fun old text =>
          fits ⟨old, bitoffset, decide (on = 1), text, parsed, inside, by rw [bit, ← value]⟩
        split
        next there => exact absurd (by rw [stringAt, there]) (missing [])
        next o there => exact absurd (by rw [stringAt, there]) (missing (getDecodedObject o))
        next => exact ⟨.wrongtype, trivial, rfl⟩

def AppendFits (db : Keyspace) (key : Key) (argument : Bytes) : Prop :=
  ∃ old, stringAt db key = some old ∧ (db key = none ∨ ((old.length + argument.length : Nat) : Int) ≤ maxStringLength)

def AppendWrites (db : Keyspace) (key : Key) (argument : Bytes) : Prop :=
  ∃ old o, stringAt db key = some old ∧
    appendCommand db key argument = .ok (update db key (some (.string o)), .integer (old.length + argument.length : Nat)) ∧
      getDecodedObject o = old ++ argument ∧ ((argument.length : Int) ≤ maxStringLength → ((old ++ argument).length : Int) ≤ maxStringLength)

theorem append_bound (small : ∀ old, stringAt db key = some old → ((old.length + argument.length : Nat) : Int) < 2 ^ 63) :
    AppendFits db key argument ∧ AppendWrites db key argument ∨ ¬ AppendFits db key argument ∧ Refused db (appendCommand db key argument) := by
  cases text : stringAt db key with
  | none =>
    refine .inr ⟨fun ⟨_, text', _⟩ => (by rw [text] at text'; cases text'), .wrongtype, trivial, ?_⟩
    obtain ⟨o, there, other⟩ := stringAt_none text
    simp only [appendCommand, there]
    cases o with
    | string s => exact absurd rfl (other s)
    | hash => rfl
    | other => rfl
  | some old =>
    have sum := small old text
    obtain ⟨missing, rfl⟩ | ⟨o, there, same⟩ := stringAt_cases text
    · have same : getDecodedObject (tryObjectEncoding (.sds argument)) = argument := HashType.tryObjectEncoding_text _
      refine .inl ⟨⟨[], text, .inl missing⟩, [], tryObjectEncoding (.sds argument), text, ?_, same, id⟩
      simp only [appendCommand, missing, same, length_nil, Nat.zero_add]
      rfl
    · have limit : checkStringLength (longLong (old.length + argument.length)) =
          decide (((old.length + argument.length : Nat) : Int) ≤ maxStringLength) := by
        rw [longLong_small sum, checkStringLength]
      by_cases fits : ((old.length + argument.length : Nat) : Int) ≤ maxStringLength
      case pos =>
        rw [decide_eq_true fits] at limit
        refine .inl ⟨⟨old, text, .inr fits⟩, old, .sds (old ++ argument), text, ?_, rfl, fun _ => by rwa [length_append]⟩
        simp only [appendCommand, there, same, limit, sdscatlen, sdsMakeRoomFor_fits fits, Bool.not_true, Bool.false_eq_true, if_false, bind,
          Except.bind, pure, Except.pure, length_append]
      case neg =>
        rw [decide_eq_false fits] at limit
        refine .inr ⟨?_, .tooLong, trivial, ?_⟩
        · rintro ⟨_, text', missing | fits'⟩
          · rw [there] at missing
            cases missing
          · rw [text] at text'
            exact fits (Option.some.inj text' ▸ fits')
        · simp only [appendCommand, there, same, limit, Bool.not_false, if_true, bind, Except.bind, pure, Except.pure]

theorem setrange_nothing (text : stringAt db key = some old) (parsed : getLongLongFromObject (some (.sds argument)) = some (offset : Int)) :
    setrangeCommand db key argument [] = .ok (db, .integer old.length) := by
  rw [setrangeCommand_eq text parsed]
  rfl

/-- Each command writes what fits and refuses what does not. -/
theorem string_sizes (db : Keyspace) (key : Key) (argument value : Bytes) :
    (∀ old, ∀ offset : Nat, stringAt db key = some old → getLongLongFromObject (some (.sds argument)) = some (offset : Int) →
      setrangeCommand db key argument [] = .ok (db, .integer old.length)) ∧
    (value ≠ [] → (∀ offset, getLongLongFromObject (some (.sds argument)) = some offset → offset + value.length < 2 ^ 63) →
      (SetrangeFits db key argument value ∧ SetrangeWrites db key argument value ∨
        ¬ SetrangeFits db key argument value ∧ Refused db (setrangeCommand db key argument value))) ∧
    (SetbitFits db key argument value ∧ SetbitWrites db key argument value ∨
      ¬ SetbitFits db key argument value ∧ Refused db (setbitCommand db key argument value)) ∧
    ((∀ old, stringAt db key = some old → ((old.length + argument.length : Nat) : Int) < 2 ^ 63) →
      (AppendFits db key argument ∧ AppendWrites db key argument ∨
        ¬ AppendFits db key argument ∧ Refused db (appendCommand db key argument))) :=
  ⟨fun _ _ text parsed => setrange_nothing text parsed, setrange_bound, setbit_bound db key argument value, append_bound⟩

/-- SETRANGE of nothing at 5 in a string of two bytes is accepted, and nothing is padded. -/
theorem setrange_empty_value :
    ¬ ∀ (db : Keyspace) (key : Key) (argument value : Bytes),
      SetrangeWrites db key argument value ∨ Refused db (setrangeCommand db key argument value) := by
  intro always
  have replies : setrangeCommand (fun _ => some (.string (.sds [97, 98]))) [107] [53] [] = .ok (fun _ => some (.string (.sds [97, 98])), .integer 2) :=
    setrange_nothing (show stringAt (fun _ => some (.string (.sds [97, 98]))) [107] = some [97, 98] from rfl)
      (show getLongLongFromObject (some (.sds [53])) = some ((5 : Nat) : Int) by decide)
  obtain ⟨old, new, offset, text, parsed, ran, written, -⟩ | ⟨reply, error, ran⟩ := always (fun _ => some (.string (.sds [97, 98]))) [107] [53] []
  · rw [replies] at ran
    obtain ⟨-, same⟩ := Prod.mk.inj (Except.ok.inj ran)
    have five : getLongLongFromObject (some (.sds [53])) = some ((5 : Nat) : Int) := by decide
    rw [five] at parsed
    have offset := Option.some.inj parsed
    have length := written.length
    have two := Reply.integer.inj same
    rw [length_nil] at length
    omega
  · rw [replies] at ran
    obtain ⟨-, rfl⟩ := Prod.mk.inj (Except.ok.inj ran)
    exact error

/-- SETRANGE of one byte at 5 in a string of two bytes. -/
theorem string_sizes_setrange :
    SetrangeFits (fun _ => some (.string (.sds [97, 98]))) [107] [53] [99] ∧ SetrangeWrites (fun _ => some (.string (.sds [97, 98]))) [107] [53] [99] ∨
      ¬ SetrangeFits (fun _ => some (.string (.sds [97, 98]))) [107] [53] [99] ∧
        Refused (fun _ => some (.string (.sds [97, 98]))) (setrangeCommand (fun _ => some (.string (.sds [97, 98]))) [107] [53] [99]) := by
  have five : getLongLongFromObject (some (.sds [53])) = some 5 := by decide
  apply (string_sizes (fun _ => some (.string (.sds [97, 98]))) [107] [53] [99]).2.1 (by simp)
  intro offset parsed
  rw [five] at parsed
  cases parsed
  decide

end Cplusplus.Redis.Strings
