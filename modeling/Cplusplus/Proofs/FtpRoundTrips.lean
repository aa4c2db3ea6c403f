import Cplusplus.Ftp
import Mathlib.Data.List.Basic

/-! The client gets the address that the server has sent. The address buffer has the size of the
longest address with its last comma. -/

namespace Cplusplus.Ftp

open List (append_assoc cons_append forall_mem_cons length_append length_cons length_drop nil_append singleton_append)
open Option (bind_some map_eq_some_iff map_none map_some some_ne_none)

section
open Decimal

theorem decimal_avoids {c : UInt8} (other : c.toNat < 48 ∨ 57 < c.toNat) (n : Nat) : ∀ d ∈ decimal n, d ≠ c := by
  rintro d member rfl
  have between := decimal_between n d member
  omega

theorem decimal_byte {n : Nat} (byte : n < 256) : (decimal n).length ≤ 3 := by
  rcases Nat.lt_or_ge n 10 with small | large
  · rw [decimal_length (k := 0) (.inl rfl) small]
    omega
  · rcases Nat.lt_or_ge n 100 with small | larger
    · rw [decimal_length (k := 1) (.inr large) small]
      omega
    · rw [decimal_length (k := 2) (.inr larger) (by omega)]

theorem getreplyScan_append {text : List UInt8} (whole : ∀ c ∈ text, c ≠ 13) (ftpCode : Nat) (calcCodeflg : Bool) (c : UInt8)
    (rest : List UInt8) : ∃ code, getreplyScan ftpCode calcCodeflg (text ++ 13 :: c :: rest) = some (code, text ++ 0 :: c :: rest) := by
  induction text generalizing ftpCode calcCodeflg with
  | nil => exact ⟨ftpCode, rfl⟩
  | cons first text ih =>
    obtain ⟨other, whole⟩ := forall_mem_cons.1 whole
    rw [cons_append, getreplyScan, if_neg other]
    obtain ⟨code, scanned⟩ := ih whole (if isDigitChar first && calcCodeflg then ftpCode * 10 + (first.toNat - 48) else ftpCode)
      (calcCodeflg && !(isDigitChar first && calcCodeflg && !(text ++ 13 :: c :: rest).head?.any isDigitChar))
    refine ⟨code, ?_⟩
    simp only [scanned, map_some, cons_append]

theorem strchrNext_entering (rest : List UInt8) : strchrNext 40 (enteringPassive ++ rest) = some rest := rfl

/-- A field goes over the next bytes of the buffer, and its comma becomes a dot. -/
theorem pasvAddress_field {field : List UInt8} (whole : ∀ c ∈ field, c ≠ 44) {commaCounter : Nat} (more : commaCounter < 4)
    (front tail rest : List UInt8) (room : field.length < tail.length) :
    pasvAddress commaCounter front.length (front ++ tail) (field ++ 44 :: rest) =
      pasvAddress (commaCounter + 1) (front ++ field ++ [46]).length (front ++ field ++ [46] ++ tail.drop (field.length + 1)) rest := by
  induction field generalizing front tail with
  | nil =>
    obtain ⟨old, tail, rfl⟩ := List.exists_cons_of_length_pos room
    rw [nil_append, pasvAddress, if_pos more, if_pos (by simp), if_pos rfl]
    simp
  | cons c field ih =>
    obtain ⟨other, whole⟩ := forall_mem_cons.1 whole
    obtain ⟨old, tail, rfl⟩ := List.exists_cons_of_length_pos (Nat.zero_lt_of_lt room)
    have next := ih whole (front ++ [c]) tail (by simpa using room)
    have stored : (front ++ old :: tail).set front.length c = front ++ [c] ++ tail := by simp
    have position : front.length + 1 = (front ++ [c]).length := by simp
    rw [cons_append, pasvAddress, if_pos more, if_pos (by simp), if_neg other, stored, position, next]
    simp only [append_assoc, nil_append, cons_append, length_cons, List.drop_succ_cons]

theorem digitOf_digit {d : Nat} (small : d < 10) : digitOf (digit d) = UInt16.ofNat d := by
  have each : ∀ d : Fin 10, digitOf (digit d) = UInt16.ofNat d := by decide
  exact each ⟨d, small⟩

theorem pasvNumber_digit {stop : UInt8} (other : stop.toNat < 48 ∨ 57 < stop.toNat) {d : Nat} (small : d < 10) (number : UInt16)
    (rest : List UInt8) : pasvNumber stop number (digit d :: rest) = pasvNumber stop (number * 10 + UInt16.ofNat d) rest := by
  have differs : digit d ≠ stop := by
    rintro rfl
    rw [digit_toNat small] at other
    omega
  rw [pasvNumber, if_neg differs, digitOf_digit small]

theorem pasvNumber_decimal {stop : UInt8} (other : stop.toNat < 48 ∨ 57 < stop.toNat) (n : Nat) (rest : List UInt8) :
    pasvNumber stop 0 (decimal n ++ rest) = pasvNumber stop (UInt16.ofNat n) rest := by
  induction n using Nat.strongRecOn generalizing rest with
  | _ n ih =>
    rcases Nat.lt_or_ge n 10 with small | large
    · rw [decimal_of_lt small, singleton_append, pasvNumber_digit other small, UInt16.zero_mul, UInt16.zero_add]
    · have value : UInt16.ofNat (n / 10) * 10 + UInt16.ofNat (n % 10) = UInt16.ofNat n := by
        apply UInt16.toNat_inj.1
        have ten : (10 : UInt16).toNat = 10 := rfl
        simp only [UInt16.toNat_add, UInt16.toNat_mul, UInt16.toNat_ofNat', ten]
        omega
      rw [decimal_split large, append_assoc, ih (n / 10) (by omega), singleton_append, pasvNumber_digit other (Nat.mod_lt _ (by decide)), value]

theorem pasvPort_decimal (high low : Nat) (rest : List UInt8) :
    pasvPort (decimal high ++ 44 :: (decimal low ++ 41 :: rest)) = some (UInt16.ofNat high * 256 + UInt16.ofNat low) := by
  have first : pasvNumber 44 0 (decimal high ++ 44 :: (decimal low ++ 41 :: rest)) =
      some (UInt16.ofNat high, 44 :: (decimal low ++ 41 :: rest)) := by
    rw [pasvNumber_decimal (.inl (by decide)), pasvNumber, if_pos rfl]
  have second : pasvNumber 41 0 (decimal low ++ 41 :: rest) = some (UInt16.ofNat low, 41 :: rest) := by
    rw [pasvNumber_decimal (.inl (by decide)), pasvNumber, if_pos rfl]
  unfold pasvPort
  rw [first, bind_some]
  simp only [List.tail_cons, second, map_some]

/-- Four fields of a byte each, with a dot after each, are at most the sixteen bytes of the buffer. -/
theorem pasvAddress_decimal {a b c d : Nat} (ha : a < 256) (hb : b < 256) (hc : c < 256) (hd : d < 256) {buffer : List UInt8}
    (size : buffer.length = 16) (rest : List UInt8) :
    ∃ tail, pasvAddress 0 0 buffer (decimal a ++ 44 :: (decimal b ++ 44 :: (decimal c ++ 44 :: (decimal d ++ 44 :: rest)))) =
        some (rest, ([46].intercalate ([a, b, c, d].map decimal)).length + 1, [46].intercalate ([a, b, c, d].map decimal) ++ 46 :: tail) ∧
      ([46].intercalate ([a, b, c, d].map decimal) ++ 46 :: tail).length = 16 := by
  have text : [46].intercalate ([a, b, c, d].map decimal) ++ [46] =
      decimal a ++ [46] ++ decimal b ++ [46] ++ decimal c ++ [46] ++ decimal d ++ [46] := by
    simp [List.intercalate]
  have count := congrArg List.length text
  simp only [length_append, List.length_singleton] at count
  have avoid : ∀ n, ∀ e ∈ decimal n, e ≠ 44 := fun n => decimal_avoids (.inl (by decide)) n
  have first := decimal_byte ha
  have second := decimal_byte hb
  have third := decimal_byte hc
  have fourth := decimal_byte hd
  have done : ∀ i (address : List UInt8), pasvAddress 4 i address rest = some (rest, i, address) := by
    intro i address
    cases rest <;> rfl
  have start := pasvAddress_field (avoid a) (show 0 < 4 by decide) [] buffer (decimal b ++ 44 :: (decimal c ++ 44 :: (decimal d ++ 44 :: rest)))
    (by omega)
  rw [nil_append, nil_append, List.length_nil] at start
  rw [start, pasvAddress_field (avoid b) (by decide) _ _ _ (by rw [length_drop]; omega),
    pasvAddress_field (avoid c) (by decide) _ _ _ (by simp only [length_drop]; omega),
    pasvAddress_field (avoid d) (by decide) _ _ _ (by simp only [length_drop]; omega), done, ← text]
  refine ⟨(((buffer.drop ((decimal a).length + 1)).drop ((decimal b).length + 1)).drop ((decimal c).length + 1)).drop
    ((decimal d).length + 1), ?_, ?_⟩
  · rw [length_append, List.length_singleton, append_assoc, singleton_append]
  · simp only [length_append, length_cons, length_drop]
    omega

theorem octets_lt (ip : UInt32) : ∀ n ∈ octets ip, n < 256 := by
  have bound := ip.toNat_lt
  simp only [octets, forall_mem_cons]
  refine ⟨?_, ?_, ?_, ?_, fun _ member => absurd member List.not_mem_nil⟩
  all_goals omega

theorem ftpdPasvFields_eq (ip : UInt32) (port : UInt16) : ftpdPasvFields ip port = octets ip ++ [port.toNat / 256, port.toNat % 256] := by
  have mask : ∀ n, n &&& 255 = n % 256 := fun n => Nat.and_two_pow_sub_one_eq_mod n 8
  have bound := ip.toNat_lt
  have small := port.toNat_lt
  simp [ftpdPasvFields, octets, UInt32.toNat_and, UInt32.toNat_shiftRight, mask, Nat.shiftRight_eq_div_pow]
  omega

def pasvText (a b c d high low : Nat) : List UInt8 :=
  decimal a ++ 44 :: (decimal b ++ 44 :: (decimal c ++ 44 :: (decimal d ++ 44 :: (decimal high ++ 44 :: (decimal low ++ [41, 46])))))

theorem pasvText_whole (a b c d high low : Nat) : ∀ e ∈ enteringPassive ++ pasvText a b c d high low, e ≠ 13 := by
  have avoid : ∀ n, ∀ e ∈ decimal n, e ≠ 13 := fun n => decimal_avoids (.inl (by decide)) n
  have entering : enteringPassive.all (· ≠ 13) = true := rfl
  simp only [pasvText, List.forall_mem_append, forall_mem_cons]
  exact ⟨fun e member => of_decide_eq_true (List.all_eq_true.1 entering e member), avoid a, by decide, avoid b, by decide, avoid c, by decide, avoid d, by decide, avoid high, by decide, avoid low,
    by decide, by decide, fun _ member => absurd member List.not_mem_nil⟩

theorem ftpdDoPasv_eq (ip : UInt32) (port : UInt16) : ∃ a b c d, octets ip = [a, b, c, d] ∧
      ftpdDoPasv ip port = enteringPassive ++ pasvText a b c d (port.toNat / 256) (port.toNat % 256) ++ [13, 10] ∧
      (ftpdDoPasv ip port).length ≤ maxline := by
  refine ⟨_, _, _, _, rfl, ?_⟩
  have bytes := octets_lt ip
  have small := port.toNat_lt
  simp only [octets, forall_mem_cons] at bytes
  have first := decimal_byte bytes.1
  have second := decimal_byte bytes.2.1
  have third := decimal_byte bytes.2.2.1
  have fourth := decimal_byte bytes.2.2.2.1
  have fifth := decimal_byte (show port.toNat / 256 < 256 by omega)
  have sixth := decimal_byte (show port.toNat % 256 < 256 by omega)
  have text : enteringPassive ++ [44].intercalate ((ftpdPasvFields ip port).map decimal) ++ [41, 46, 13, 10] =
      enteringPassive ++ pasvText (ip.toNat / 2 ^ 24) (ip.toNat / 2 ^ 16 % 256) (ip.toNat / 2 ^ 8 % 256) (ip.toNat % 256)
        (port.toNat / 256) (port.toNat % 256) ++ [13, 10] := by
    rw [ftpdPasvFields_eq]
    simp [octets, List.intercalate, pasvText]
  have short : (enteringPassive ++ [44].intercalate ((ftpdPasvFields ip port).map decimal) ++ [41, 46, 13, 10]).length ≤ maxline - 1 := by
    rw [text]
    simp only [pasvText, length_append, length_cons, List.length_nil, enteringPassive, maxline]
    omega
  unfold ftpdDoPasv
  rw [List.take_of_length_le short]
  exact ⟨text, by omega⟩

theorem dotted_solid (ip : UInt32) : ∀ e ∈ dotted ip, e ≠ 0 := by
  have avoid : ∀ n, ∀ e ∈ decimal n, e ≠ 0 := fun n => decimal_avoids (.inl (by decide)) n
  have text : dotted ip = decimal (ip.toNat / 2 ^ 24) ++ 46 :: (decimal (ip.toNat / 2 ^ 16 % 256) ++ 46 ::
      (decimal (ip.toNat / 2 ^ 8 % 256) ++ 46 :: decimal (ip.toNat % 256))) := by
    simp [dotted, octets, List.intercalate]
  rw [text]
  simp only [List.forall_mem_append, forall_mem_cons]
  exact ⟨avoid _, by decide, avoid _, by decide, avoid _, by decide, avoid _⟩

/-- For every address and every port, and whatever the buffers of the client held before. -/
theorem pasv_round_trip (ip : UInt32) (port : UInt16) (line : Vector UInt8 maxline) (pasvIpAddr : Vector UInt8 16) :
    ∃ address, ftpDoPasv (ftpdDoPasv ip port) line.toList pasvIpAddr.toList = some (address, port) ∧ address.length = 16 ∧
      address.takeWhile (· ≠ 0) = dotted ip := by
  obtain ⟨a, b, c, d, fields, reply, short⟩ := ftpdDoPasv_eq ip port
  have bytes := octets_lt ip
  simp only [fields, forall_mem_cons] at bytes
  have received : recv (ftpdDoPasv ip port) line.toList = enteringPassive ++ pasvText a b c d (port.toNat / 256) (port.toNat % 256) ++
      13 :: 10 :: line.toList.drop (ftpdDoPasv ip port).length := by
    unfold recv
    rw [List.take_of_length_le]
    · conv_lhs => lhs; rw [reply]
      simp only [append_assoc, cons_append, nil_append]
    · rw [length_append, length_drop, Vector.length_toList]
      omega
  obtain ⟨code, scanned⟩ := getreplyScan_append (pasvText_whole a b c d (port.toNat / 256) (port.toNat % 256)) 0 true 10
    (line.toList.drop (ftpdDoPasv ip port).length)
  obtain ⟨tail, parsed, size⟩ := pasvAddress_decimal bytes.1 bytes.2.1 bytes.2.2.1 bytes.2.2.2.1 pasvIpAddr.length_toList
    (decimal (port.toNat / 256) ++ 44 :: (decimal (port.toNat % 256) ++ 41 :: (46 :: 0 :: 10 :: line.toList.drop (ftpdDoPasv ip port).length)))
  rw [← fields] at parsed size
  have value : UInt16.ofNat (port.toNat / 256) * 256 + UInt16.ofNat (port.toNat % 256) = port := by
    have base : (256 : UInt16).toNat = 256 := rfl
    have bound := port.toNat_lt
    apply UInt16.toNat_inj.1
    simp only [UInt16.toNat_add, UInt16.toNat_mul, UInt16.toNat_ofNat', base]
    omega
  refine ⟨dotted ip ++ 0 :: tail, ?_, ?_, ?_⟩
  · unfold ftpDoPasv getreply
    rw [received, scanned, bind_some]
    simp only [append_assoc, strchrNext_entering, bind_some, pasvText, cons_append, nil_append, parsed, pasvPort_decimal,
      value]
    have inside : 0 < ([46].intercalate ((octets ip).map decimal)).length + 1 ∧ ([46].intercalate ((octets ip).map decimal)).length + 1 ≤
        ([46].intercalate ((octets ip).map decimal) ++ 46 :: tail).length := by
      rw [length_append, length_cons]
      omega
    rw [if_pos inside, Nat.add_sub_cancel, List.set_append_right _ _ (Nat.le_refl _), Nat.sub_self, List.set_cons_zero]
    rfl
  · rw [← size]
    simp only [dotted, length_append, length_cons]
  · rw [List.takeWhile_append_of_pos (fun e member => decide_eq_true (dotted_solid ip e member)),
      List.takeWhile_cons_of_neg (by decide), List.append_nil]

end

/-! The round trip of a file in ASCII mode. A receiver reads the stream as a whole, whatever the
reads, and the byte after a CR decides whether it comes through. -/

section
open Buffered (Split Reader)

theorem asciiDecode_other {c : UInt8} (other : c ≠ 13) (rest : List UInt8) : asciiDecode (c :: rest) = (asciiDecode rest).map (c :: ·) := by
  rw [asciiDecode.eq_def]
  simp only [if_neg other]

theorem asciiDecode_lf (rest : List UInt8) : asciiDecode (13 :: 10 :: rest) = (asciiDecode rest).map (10 :: ·) := by
  rw [asciiDecode]
  simp only [if_true]

variable {next : UInt8}

theorem asciiDecode_dropped (dropped : next = 0 ∨ next = 255) (rest : List UInt8) :
    asciiDecode (13 :: next :: rest) = (asciiDecode rest).map (13 :: ·) := by
  have solid : next ≠ 10 := by
    rintro rfl
    simp at dropped
  rw [asciiDecode]
  simp only [if_true, if_neg solid, if_pos dropped]

theorem asciiDecode_again (solid : next ≠ 10) (kept : ¬ (next = 0 ∨ next = 255)) (rest : List UInt8) :
    asciiDecode (13 :: next :: rest) = (asciiDecode (next :: rest)).map (13 :: ·) := by
  rw [asciiDecode]
  simp only [if_true, if_neg solid, if_neg kept]

variable {r : Reader UInt8}

theorem read1_none (c : UInt8) (ended : r.next = none) : read1 c r = (c, r) := by
  unfold read1
  rw [ended, Option.getD_none]

theorem read1_some {r rest : Reader UInt8} (c : UInt8) (found : r.next = some (next, rest)) : read1 c r = (next, rest) := by
  unfold read1
  rw [found, Option.getD_some]

theorem asciiChar_ended (fuel : Nat) (ended : r.next = none) (fp : List UInt8) : asciiChar fuel 13 r fp = none := by
  induction fuel generalizing fp with
  | zero => rfl
  | succ fuel ih =>
    rw [asciiChar, if_pos rfl]
    simp only [read1_none _ ended]
    exact ih (fp ++ [13])

/-- One character that is done with: what it writes, and what is left of the stream. -/
theorem asciiChar_sound (fuel : Nat) {c : UInt8} {r after : Reader UInt8} {fp written : List UInt8}
    (done : asciiChar fuel c r fp = some (after, written)) :
    ∃ text, written = fp ++ text ∧ asciiDecode (c :: r.stream) = (asciiDecode after.stream).map (text ++ ·) ∧
      after.stream.length ≤ r.stream.length := by
  induction fuel generalizing c r fp with
  | zero => exact absurd done (some_ne_none _).symm
  | succ fuel ih =>
    rw [asciiChar] at done
    split at done
    next cr =>
      subst cr
      obtain ⟨ended, empty⟩ | ⟨next, rest, found, stream⟩ := r.next_cases
      · -- The CR stays the character, and is written again and again.
        simp only [read1_none _ ended] at done
        exact absurd (asciiChar_ended fuel ended _ ▸ done) (some_ne_none _).symm
      · simp only [read1_some _ found] at done
        rw [stream, length_cons]
        split at done
        next solid =>
          split at done
          next null =>
            obtain ⟨rfl, rfl⟩ := Prod.mk.inj (Option.some.inj done)
            exact ⟨[13], rfl, asciiDecode_dropped (.inl null) _, Nat.le_succ _⟩
          next null =>
            split at done
            next eof =>
              obtain ⟨rfl, rfl⟩ := Prod.mk.inj (Option.some.inj done)
              exact ⟨[13], rfl, asciiDecode_dropped (.inr eof) _, Nat.le_succ _⟩
            next eof =>
              obtain ⟨text, same, decoded, shorter⟩ := ih done
              refine ⟨13 :: text, ?_, ?_, Nat.le_succ_of_le shorter⟩
              · rw [same, append_assoc, singleton_append]
              · rw [asciiDecode_again solid (not_or_intro null eof), decoded, Option.map_map]
                rfl
        next lf =>
          obtain rfl := of_not_not lf
          obtain ⟨text, same, decoded, shorter⟩ := ih done
          refine ⟨text, same, ?_, Nat.le_succ_of_le shorter⟩
          rw [asciiDecode_lf, ← decoded, asciiDecode_other (by decide)]
    next other =>
      obtain ⟨rfl, rfl⟩ := Prod.mk.inj (Option.some.inj done)
      exact ⟨[c], rfl, asciiDecode_other other _, Nat.le_refl _⟩

theorem asciiChar_complete (fuel : Nat) {c : UInt8} (enough : r.stream.length < fuel) (fp : List UInt8)
    (decodes : asciiDecode (c :: r.stream) ≠ none) : ∃ done, asciiChar fuel c r fp = some done := by
  induction fuel generalizing c r fp with
  | zero => omega
  | succ fuel ih =>
    rw [asciiChar]
    split
    next cr =>
      subst cr
      obtain ⟨_, empty⟩ | ⟨next, rest, found, stream⟩ := r.next_cases
      · rw [empty] at decodes
        exact absurd rfl decodes
      · simp only [read1_some _ found]
        rw [stream] at decodes enough
        rw [length_cons] at enough
        split
        next solid =>
          split
          · exact ⟨_, rfl⟩
          next null =>
            split
            · exact ⟨_, rfl⟩
            next eof =>
              rw [asciiDecode_again solid (not_or_intro null eof)] at decodes
              exact ih (by omega) _ (mt (fun none => by rw [none, map_none]) decodes)
        next lf =>
          obtain rfl := of_not_not lf
          rw [asciiDecode_lf, ← asciiDecode_other (by decide)] at decodes
          exact ih (by omega) _ decodes
    · exact ⟨_, rfl⟩

/-- The loop ends exactly when the stream has a decoding, and has written it then. -/
theorem asciiReceive_iff (r : Reader UInt8) (file : List UInt8) :
    (∃ fuel, asciiReceive fuel r [] = some file) ↔ asciiDecode r.stream = some file := by
  have sound : ∀ fuel r fp out, asciiReceive fuel r fp = some out → ∃ text, out = fp ++ text ∧ asciiDecode r.stream = some text := by
    intro fuel
    induction fuel with
    | zero => exact fun _ _ _ none => absurd none (some_ne_none _).symm
    | succ fuel ih =>
      intro r fp out received
      rw [asciiReceive] at received
      obtain ⟨ended, empty⟩ | ⟨c, rest, found, stream⟩ := r.next_cases
      · simp only [ended, Option.some.injEq] at received
        exact ⟨[], by rw [List.append_nil, received], by rw [empty]; rfl⟩
      · simp only [found] at received
        obtain ⟨⟨after, written⟩, done, received⟩ := Option.bind_eq_some_iff.1 received
        obtain ⟨first, same, decoded, _⟩ := asciiChar_sound fuel done
        obtain ⟨others, whole, tail⟩ := ih after written out received
        refine ⟨first ++ others, ?_, ?_⟩
        · rw [whole, same, append_assoc]
        · rw [stream, decoded, tail, map_some]
  have complete : ∀ fuel r fp, r.stream.length < fuel → asciiDecode r.stream ≠ none → ∃ out, asciiReceive fuel r fp = some out := by
    intro fuel
    induction fuel with
    | zero => exact fun _ _ enough => absurd enough (Nat.not_lt_zero _)
    | succ fuel ih =>
      intro r fp enough decodes
      rw [asciiReceive]
      obtain ⟨ended, empty⟩ | ⟨c, rest, found, stream⟩ := r.next_cases
      · simp only [ended]
        exact ⟨fp, rfl⟩
      · simp only [found]
        rw [stream] at enough decodes
        rw [length_cons] at enough
        obtain ⟨⟨after, written⟩, done⟩ := asciiChar_complete fuel (by omega) fp decodes
        obtain ⟨_, _, decoded, shorter⟩ := asciiChar_sound fuel done
        rw [decoded] at decodes
        obtain ⟨out, received⟩ := ih after written (by omega) (mt (fun none => by rw [none, map_none]) decodes)
        exact ⟨out, by rw [done, bind_some]; exact received⟩
  constructor
  · rintro ⟨fuel, received⟩
    obtain ⟨text, same, decoded⟩ := sound fuel r [] file received
    rw [decoded, same, nil_append]
  · intro decoded
    obtain ⟨out, received⟩ := complete (r.stream.length + 1) r [] (Nat.lt_succ_self _) (by rw [decoded]; exact some_ne_none _)
    obtain ⟨text, same, again⟩ := sound _ r [] out received
    rw [nil_append] at same
    exact ⟨_, by rw [received, same, Option.some.inj (again.symm.trans decoded)]⟩

theorem asciiSend_eq {half : Nat} {file : List UInt8} (blocks : Split half file) : asciiSend blocks = asciiBlock file := by
  have each : ∀ parts : List (List UInt8), (parts.map asciiBlock).flatten = asciiBlock parts.flatten := by
    intro parts
    induction parts with
    | nil => rfl
    | cons part parts ih =>
      rw [List.map_cons, List.flatten_cons, List.flatten_cons, ih]
      exact List.flatMap_append.symm
  unfold asciiSend
  rw [each, blocks.flatten]

theorem asciiBlock_lf (rest : List UInt8) : asciiBlock (10 :: rest) = 13 :: 10 :: asciiBlock rest := rfl

theorem asciiBlock_other {c : UInt8} (other : c ≠ 10) (rest : List UInt8) : asciiBlock (c :: rest) = c :: asciiBlock rest := by
  simp only [asciiBlock, List.flatMap_cons, if_neg other, singleton_append]

theorem asciiThrough_kept {c : UInt8} {rest : List UInt8} (kept : (c ≠ 13 || rest.head?.any fun next => next ≠ 0 && next ≠ 255) = true) :
    asciiDecode (asciiBlock (c :: rest)) = (asciiDecode (asciiBlock rest)).map (c :: ·) := by
  by_cases lf : c = 10
  · subst lf
    rw [asciiBlock_lf, asciiDecode_lf]
  rw [asciiBlock_other lf]
  by_cases cr : c = 13
  · subst cr
    cases rest with
    | nil => simp at kept
    | cons next tail =>
      have solid : ¬ (next = 0 ∨ next = 255) := by simpa using kept
      by_cases last : next = 10
      · -- A CR LF of the file is sent as CR CR LF.
        subst last
        rw [asciiBlock_lf, asciiDecode_again (by decide) (by decide)]
      · rw [asciiBlock_other last, asciiDecode_again last solid]
  · rw [asciiDecode_other cr]

theorem asciiThrough_lost {rest : List UInt8} (lost : (rest.head?.any fun next => next ≠ 0 && next ≠ 255) = false) :
    asciiDecode (asciiBlock (13 :: rest)) = none ∨
      ∃ next tail, rest = next :: tail ∧ asciiDecode (asciiBlock (13 :: rest)) = (asciiDecode (asciiBlock tail)).map (13 :: ·) := by
  cases rest with
  | nil => exact .inl rfl
  | cons next tail =>
    have dropped : next = 0 ∨ next = 255 := by
      by_contra solid
      simp [not_or] at solid
      simp [solid] at lost
    have last : next ≠ 10 := by
      rintro rfl
      simp at dropped
    refine .inr ⟨next, tail, rfl, ?_⟩
    rw [asciiBlock_other (by decide), asciiBlock_other last, asciiDecode_dropped dropped]

theorem asciiThrough_length (file text : List UInt8) (through : asciiDecode (asciiBlock file) = some text) : text.length ≤ file.length := by
  induction size : file.length using Nat.strongRecOn generalizing file text with
  | _ size ih =>
    cases file with
    | nil =>
      cases through
      exact Nat.zero_le _
    | cons c rest =>
      rw [length_cons] at size
      cases kept : (c ≠ 13 || rest.head?.any fun next => next ≠ 0 && next ≠ 255) with
      | true =>
        rw [asciiThrough_kept kept] at through
        obtain ⟨tail, inner, rfl⟩ := map_eq_some_iff.1 through
        have bound := ih rest.length (by omega) rest tail inner rfl
        rw [length_cons]
        omega
      | false =>
        obtain ⟨cr, lost⟩ := Bool.or_eq_false_iff.1 kept
        obtain rfl : c = 13 := by simpa using cr
        obtain none | ⟨next, tail, rfl, same⟩ := asciiThrough_lost lost
        · exact absurd (none.symm.trans through) (some_ne_none _).symm
        · rw [same] at through
          obtain ⟨text, inner, rfl⟩ := map_eq_some_iff.1 through
          rw [length_cons] at size
          have bound := ih tail.length (by omega) tail text inner rfl
          rw [length_cons]
          omega

theorem asciiThrough_exact (file : List UInt8) : asciiDecode (asciiBlock file) = some file ↔ crFollowed file = true := by
  induction file with
  | nil => exact iff_of_true rfl rfl
  | cons c rest ih =>
    rw [crFollowed]
    cases kept : (c ≠ 13 || rest.head?.any fun next => next ≠ 0 && next ≠ 255) with
    | true =>
      rw [asciiThrough_kept kept, Bool.true_and, ← ih]
      constructor
      · intro through
        obtain ⟨text, through, same⟩ := map_eq_some_iff.1 through
        rw [through, (List.cons.inj same).2]
      · intro through
        rw [through, map_some]
    | false =>
      obtain ⟨cr, lost⟩ := Bool.or_eq_false_iff.1 kept
      obtain rfl : c = 13 := by simpa using cr
      rw [Bool.false_and]
      refine iff_of_false (fun through => ?_) Bool.false_ne_true
      obtain none | ⟨next, tail, rfl, same⟩ := asciiThrough_lost lost
      · exact absurd (none.symm.trans through) (some_ne_none _).symm
      · rw [same] at through
        obtain ⟨text, through, same⟩ := map_eq_some_iff.1 through
        have bound := asciiThrough_length tail text through
        rw [(List.cons.inj same).2, length_cons] at bound
        omega

/-- Both ways, and for every way to cut the file and the stream into blocks: the receiver writes the
file exactly when each CR of it is followed by a byte other than 0 and 255. -/
theorem ascii_round_trip (file : List UInt8) :
    (∀ (blocks : Split (bufsiz / 2) file) (reads : Split readBuf (ftpdDoRetr blocks)),
      (∃ fuel, ftpDoGet fuel reads = some file) ↔ crFollowed file = true) ∧
    (∀ (blocks : Split (bufsize / 2) file) (reads : Split readBuf (ftpDoPut blocks)),
      (∃ fuel, ftpdDoStor fuel reads = some file) ↔ crFollowed file = true) := by
  constructor
  · intro blocks reads
    rw [← asciiThrough_exact, ← asciiSend_eq blocks]
    exact (asciiReceive_iff reads.reader file).trans (by rw [reads.stream, ftpdDoRetr])
  · intro blocks reads
    rw [← asciiThrough_exact, ← asciiSend_eq blocks]
    exact (asciiReceive_iff reads.reader file).trans (by rw [reads.stream, ftpDoPut])

/-- A file of a CR and a zero byte: the receiver writes the CR only. -/
theorem cr_nul_is_lost : ¬ ∀ (file : List UInt8) (blocks : Split (bufsiz / 2) file) (reads : Split readBuf (ftpdDoRetr blocks)),
    ∃ fuel, ftpDoGet fuel reads = some file := by
  intro always
  have received := always [13, 0] ⟨[[13, 0]], rfl, by decide, by decide⟩ ⟨[[13, 0]], rfl, by decide, by decide⟩
  have through := (asciiReceive_iff _ _).1 received
  exact absurd through (by decide)

def EndsWell (stream : List UInt8) (decoded : Option (List UInt8)) : Prop :=
  (stream.getLast? = some 13 → decoded = none) ∧
    (stream.getLast? ≠ some 13 → ∃ out, decoded = some out ∧ out.length ≤ stream.length)

theorem EndsWell.cons {stream rest : List UInt8} {decoded : Option (List UInt8)} (ends : EndsWell rest decoded)
    (last : stream.getLast? = some 13 ↔ rest.getLast? = some 13) (longer : rest.length < stream.length) (c : UInt8) :
    EndsWell stream (decoded.map (c :: ·)) := by
  constructor
  · intro cr
    rw [ends.1 (last.mp cr), map_none]
  · intro other
    obtain ⟨out, rfl, shorter⟩ := ends.2 (mt last.mpr other)
    exact ⟨c :: out, rfl, by simp only [length_cons]; omega⟩

theorem asciiDecode_ends (stream : List UInt8) : EndsWell stream (asciiDecode stream) := by
  fun_induction asciiDecode stream with
  | case1 => exact ⟨by simp, fun _ => ⟨[], rfl, Nat.le_refl _⟩⟩
  | case2 => exact ⟨fun _ => rfl, by simp⟩
  | case3 rest ih =>
    apply ih.cons
    · cases rest <;> simp
    · exact Nat.lt_add_of_pos_right Nat.two_pos
  | case4 next rest _ dropped ih =>
    apply ih.cons
    · cases dropped <;> subst next <;> cases rest <;> simp
    · exact Nat.lt_add_of_pos_right Nat.two_pos
  | case5 next rest _ _ ih =>
    apply ih.cons
    · rw [List.getLast?_cons_cons]
    · exact Nat.lt_succ_self _
  | case6 c rest other ih =>
    apply ih.cons
    · cases rest <;> simp [other]
    · exact Nat.lt_succ_self _

/-- STOR and `get` end, with at most one byte for each byte of the stream, exactly if the last byte is no CR. -/
theorem ascii_receive_ends_iff {sent : List UInt8} (reads : Split readBuf sent) :
    ((∃ fuel out, ftpdDoStor fuel reads = some out ∧ out.length ≤ sent.length) ∧
      ∃ fuel out, ftpDoGet fuel reads = some out ∧ out.length ≤ sent.length) ↔ sent.getLast? ≠ some 13 := by
  obtain ⟨hangs, ends⟩ := asciiDecode_ends sent
  constructor
  · intro ⟨⟨fuel, out, received, _⟩, _⟩ last
    have decoded := (asciiReceive_iff reads.reader out).mp ⟨fuel, received⟩
    rw [reads.stream, hangs last] at decoded
    cases decoded
  · intro last
    obtain ⟨out, decoded, shorter⟩ := ends last
    rw [← reads.stream] at decoded
    obtain ⟨fuel, received⟩ := (asciiReceive_iff reads.reader out).mpr decoded
    exact ⟨⟨fuel, out, received, shorter⟩, ⟨fuel, out, received, shorter⟩⟩

theorem ascii_receive_hangs : ¬ ∀ reads : Split readBuf [13], ∃ fuel out, ftpdDoStor fuel reads = some out ∧ out.length ≤ 1 := by
  intro ends
  obtain ⟨fuel, out, received, _⟩ := ends ⟨[[13]], rfl, by decide, by decide⟩
  have decoded := (asciiReceive_iff _ out).mp ⟨fuel, received⟩
  rw [Split.stream] at decoded
  cases decoded

end

end Cplusplus.Ftp
