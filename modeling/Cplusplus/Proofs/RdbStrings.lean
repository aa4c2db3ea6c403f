import Cplusplus.Proofs.IntegerText
import Cplusplus.Proofs.LzfRoundTrip
import Cplusplus.Rdb

/-! What is saved for a string is loaded as that string, whichever of the encodings was chosen. -/

namespace Cplusplus.Redis.Rdb
open Bytes List
open Lzf (Bytes byte_toNat lzfCompress_spec)
open Sds (sdsll2str_spec)

variable {s : Bytes} {value : Int}

theorem rioRead_append (bytes after : Bytes) : rioRead (bytes ++ after) bytes.length = .ok (bytes, after) := by
  rw [rioRead, if_pos (length_append ▸ Nat.le_add_right _ _), take_left, drop_left]

theorem rdbLoadLen_saved {len : Nat} (small : len < 2 ^ 32) (after : Bytes) : rdbLoadLen (rdbSaveLen len ++ after) = (false, len, after) := by
  rw [rdbSaveLen, Nat.mod_eq_of_lt small]
  split
  next six =>
    have byte : (UInt8.ofNat len).toNat = len := byte_toNat (by omega)
    simp only [rdbLoadLen, cons_append, nil_append, byte]
    rw [if_neg (by omega), if_pos (by omega), show len % 64 = len by omega]
  split
  next fourteen =>
    have high : (UInt8.ofNat (len / 256 + 64)).toNat = len / 256 + 64 := byte_toNat (by omega)
    have low : (UInt8.ofNat len).toNat = len % 256 := UInt8.toNat_ofNat'
    simp only [rdbLoadLen, cons_append, nil_append, high, low]
    rw [if_neg (by omega), if_neg (by omega), if_pos (by omega), show (len / 256 + 64) % 64 * 256 + len % 256 = len by omega]
  next =>
    have four := rioRead_append (leBytes 4 len).reverse after
    rw [length_reverse, leBytes_length] at four
    simp only [rdbLoadLen, cons_append, four, reverse_reverse, leValue_leBytes]
    rw [Nat.mod_eq_of_lt (show len < 256 ^ 4 by omega)]
    rfl

theorem loadInteger_saved {width : Nat} (widths : width = 1 ∨ width = 2 ∨ width = 4) (low : -2 ^ (8 * width - 1) ≤ value)
    (high : value ≤ 2 ^ (8 * width - 1) - 1) (after : Bytes) :
    loadInteger width (leBytes width (value % 2 ^ 64).toNat ++ after) = .ok (numeral value, after) := by
  have read := rioRead_append (leBytes width (value % 2 ^ 64).toNat) after
  rw [leBytes_length] at read
  have loaded : (BitVec.ofNat (8 * width) ((value % 2 ^ 64).toNat % 256 ^ width)).toInt = value := by
    rw [BitVec.toInt_ofNat', Int.bmod]
    rcases widths with rfl | rfl | rfl <;> simp only [Nat.reducePow, Nat.reduceMul] at * <;> omega
  have signed : (BitVec.ofInt 64 value).toInt = value := by
    rw [BitVec.toInt_ofInt, Int.bmod]
    rcases widths with rfl | rfl | rfl <;> simp only [Nat.reducePow, Nat.reduceMul] at * <;> omega
  simp only [loadInteger, read, bind, Except.bind, leValue_leBytes, loaded, sdsll2str_spec, signed]
  rfl

theorem load_encodedAs (type width : Nat) (types : type ≤ 2) (after : Bytes) :
    rdbGenericLoadStringObject (encodedAs type width value ++ after) =
      rdbLoadIntegerObject (leBytes width (value % 2 ^ 64).toNat ++ after) type := by
  have byte : (UInt8.ofNat (192 + type)).toNat = 192 + type := byte_toNat (by omega)
  have head : rdbLoadLen (encodedAs type width value ++ after) = (true, type, leBytes width (value % 2 ^ 64).toNat ++ after) := by
    simp only [rdbLoadLen, encodedAs, cons_append, byte]
    rw [if_pos (by omega), show (192 + type) % 64 = type by omega]
  rw [rdbGenericLoadStringObject, head]
  exact if_pos types

theorem load_integer (some_ : rdbEncodeInteger value ≠ []) (after : Bytes) :
    rdbGenericLoadStringObject (rdbEncodeInteger value ++ after) = .ok (numeral value, after) ∧ value.natAbs < 2 ^ 64 := by
  unfold rdbEncodeInteger at some_ ⊢
  split
  next eight =>
    rw [load_encodedAs 0 1 (by decide)]
    exact ⟨loadInteger_saved (.inl rfl) eight.1 eight.2 after, by omega⟩
  split
  next sixteen =>
    rw [load_encodedAs 1 2 (by decide)]
    exact ⟨loadInteger_saved (.inr (.inl rfl)) sixteen.1 sixteen.2 after, by omega⟩
  split
  next thirty =>
    rw [load_encodedAs 2 4 (by decide)]
    exact ⟨loadInteger_saved (.inr (.inr rfl)) thirty.1 thirty.2 after, by omega⟩
  next one two three => exact absurd rfl (by rwa [if_neg one, if_neg two, if_neg three] at some_)

theorem load_tried (some_ : rdbTryIntegerEncoding s ≠ []) (after : Bytes) :
    rdbGenericLoadStringObject (rdbTryIntegerEncoding s ++ after) = .ok (s, after) := by
  unfold rdbTryIntegerEncoding at some_ ⊢
  generalize CheckAof.strtol (s ++ [0]) = read at some_ ⊢
  simp only at some_ ⊢
  split at some_
  next => exact absurd rfl some_
  next zero =>
    split at some_
    next => exact absurd rfl some_
    next same =>
      obtain ⟨loaded, bound⟩ := load_integer some_ after
      rw [if_neg zero, if_neg same, loaded, ← ll2string_roomy bound (show 22 ≤ 32 by decide), not_ne_iff.mp same]

theorem load_plain (small : s.length < lenErr) (after : Bytes) :
    rdbGenericLoadStringObject (rdbSaveLen s.length ++ s ++ after) = .ok (s, after) := by
  rw [append_assoc, rdbGenericLoadStringObject, rdbLoadLen_saved (Nat.lt_trans small (by decide))]
  simp only
  rw [if_neg Bool.false_ne_true, if_neg (Nat.ne_of_lt small), rioRead_append]

theorem load_lzf {out : Bytes} (shorter : out.length < s.length) (small : s.length < lenErr)
    (done : Lzf.lzfDecompress out s.length = .ok s) (after : Bytes) :
    rdbGenericLoadStringObject (195 :: (rdbSaveLen out.length ++ (rdbSaveLen s.length ++ out)) ++ after) = .ok (s, after) := by
  have clen := rdbLoadLen_saved (Nat.lt_trans (Nat.lt_trans shorter small) (by decide)) (rdbSaveLen s.length ++ out ++ after)
  have len := rdbLoadLen_saved (Nat.lt_trans small (by decide)) (out ++ after)
  rw [← append_assoc] at clen len
  change rdbLoadLzfStringObject (rdbSaveLen out.length ++ (rdbSaveLen s.length ++ out) ++ after) = _
  rw [rdbLoadLzfStringObject, clen]
  simp only [len]
  rw [if_neg (Nat.ne_of_lt (Nat.lt_trans shorter small)), if_neg (Nat.ne_of_lt small), rioRead_append]
  simp only [bind, Except.bind, done, Nat.sub_self, replicate_zero, append_nil]
  rfl

section
variable {mem : Memory} (placed : (⟨s, mem.base, s.length - 4, mem.old⟩ : Lzf.Input).Placed) (small : s.length < lenErr)
include placed small

theorem load_compressed : ∃ out, rdbSaveLzfStringObject mem s = .ok out ∧
    (out ≠ [] → ∀ after, rdbGenericLoadStringObject (out ++ after) = .ok (s, after)) := by
  unfold rdbSaveLzfStringObject
  split
  next => exact ⟨[], rfl, fun some_ => absurd rfl some_⟩
  next large =>
    have spec := lzfCompress_spec placed (show 2 ≤ s.length by omega) mem.htab
    split
    next => exact ⟨[], rfl, fun some_ => absurd rfl some_⟩
    next stop other done => exact absurd (spec.fault done) other
    next out done =>
      obtain ⟨room, codes⟩ := spec.result done
      change out.length ≤ s.length - 4 at room
      have decompressed := codes.decompress (codes.ne_nil (ne_nil_of_length_pos (show 0 < s.length by omega))) (Nat.le_refl _)
      exact ⟨_, rfl, fun _ => load_lzf (by omega) small decompressed⟩

theorem load_raw (compression : Bool) : ∃ bytes, rdbSaveRawString mem compression s = .ok bytes ∧
    ∀ after, rdbGenericLoadStringObject (bytes ++ after) = .ok (s, after) := by
  have plain := load_plain small
  unfold rdbSaveRawString
  by_cases integer : s.length ≤ 11 ∧ rdbTryIntegerEncoding s ≠ []
  · refine ⟨_, ?_, load_tried integer.2⟩
    simp only [if_pos integer.1, if_pos integer.2]
    rfl
  · have none_ : (if s.length ≤ 11 then rdbTryIntegerEncoding s else []) = [] := by
      split
      next short => exact not_not.mp fun some_ => integer ⟨short, some_⟩
      next => rfl
    simp only [none_]
    rw [if_neg (not_not.mpr rfl)]
    split
    next =>
      obtain ⟨out, saved, loaded⟩ := load_compressed placed small
      rw [saved]
      by_cases some_ : out ≠ []
      · exact ⟨out, congrArg Except.ok (if_pos some_), loaded some_⟩
      · exact ⟨_, congrArg Except.ok (if_neg some_), plain⟩
    next => exact ⟨_, rfl, plain⟩

end

theorem load_longLong (value : BitVec 64) (after : Bytes) :
    rdbGenericLoadStringObject (rdbSaveLongLongAsStringObject value.toInt ++ after) = .ok (ll2string 128 value.toInt, after) := by
  have low : -2 ^ 63 ≤ value.toInt := BitVec.le_toInt value
  have high : value.toInt < 2 ^ 63 := BitVec.toInt_lt
  have text : ∀ dstlen, 22 ≤ dstlen → ll2string dstlen value.toInt = numeral value.toInt := fun _ => ll2string_roomy (by omega)
  rw [text 128 (by decide)]
  simp only [rdbSaveLongLongAsStringObject, text 32 (by decide)]
  split
  next some_ => exact (load_integer some_ after).1
  next => exact load_plain (Nat.lt_of_le_of_lt (numeral_length low high) (by decide)) after

theorem rioRead_outside (rdb : Bytes) (len : Nat) : rioRead rdb len ≠ .error .outside := by
  unfold rioRead
  split <;> simp

theorem lzfDecompress_outside (c : Bytes) (len : Nat) : Lzf.lzfDecompress c len = .error .outside ↔ c = [] := by
  match c with
  | [] => exact iff_of_true rfl rfl
  | b :: c =>
    refine iff_of_false (fun fails => ?_) (cons_ne_nil b c)
    obtain ⟨_, _, _, done⟩ | ⟨stop, errno, stops⟩ := Lzf.lzfDecompress_cases b c len
    · cases done.symm.trans fails
    · cases stops.symm.trans fails
      rcases errno with errno | errno <;> cases errno

theorem loadLzf_outside (file : Bytes) :
    rdbLoadLzfStringObject file = .error .outside ↔ (rdbLoadLen file).2.1 = 0 ∧ (rdbLoadLen (rdbLoadLen file).2.2).2.1 ≠ lenErr := by
  unfold rdbLoadLzfStringObject
  simp only
  split
  next large => exact iff_of_false (by simp) fun holds => absurd (large.symm.trans holds.1) (by decide)
  split
  next large => exact iff_of_false (by simp) fun holds => holds.2 large
  next fine =>
    rw [and_iff_left fine]
    cases read : rioRead (rdbLoadLen (rdbLoadLen file).2.2).2.2 (rdbLoadLen file).2.1 with
    | error stop =>
      refine iff_of_false (fun fails => rioRead_outside _ _ (read.trans fails)) fun none_ => ?_
      rw [none_, rioRead, if_pos (Nat.zero_le _)] at read
      cases read
    | ok result =>
      unfold rioRead at read
      split at read
      next inside =>
        cases read
        rw [← length_take_of_le inside, length_eq_zero_iff, ← lzfDecompress_outside _ (rdbLoadLen (rdbLoadLen file).2.2).2.1, length_take_of_le inside]
        simp only [bind, Except.bind]
        split <;> simp_all [pure, Except.pure]
      next => cases read

/-- Whatever the file holds, a string is loaded without an access outside of the buffers, unless
it is a compressed string of no bytes. -/
theorem rdb_string_load_safe (rdb : Bytes) : let (isencoded, enc, file) := rdbLoadLen rdb
    rdbGenericLoadStringObject rdb = .error .outside ↔
      isencoded = true ∧ enc = 3 ∧ (rdbLoadLen file).2.1 = 0 ∧ (rdbLoadLen (rdbLoadLen file).2.2).2.1 ≠ lenErr := by
  have integer : ∀ width file, loadInteger width file ≠ .error .outside := fun width file fails => by
    unfold loadInteger at fails
    cases read : rioRead file width with
    | ok result => simp [read, bind, Except.bind, pure, Except.pure] at fails
    | error stop => exact rioRead_outside _ _ (read.trans (by simpa [read, bind, Except.bind] using fails))
  simp only [rdbGenericLoadStringObject, rdbLoadIntegerObject]
  generalize rdbLoadLen rdb = head
  obtain ⟨isencoded, enc, file⟩ := head
  simp only
  repeat' split
  all_goals simp_all [loadLzf_outside, rioRead_outside]
  omega

end Cplusplus.Redis.Rdb
