import Cplusplus.Proofs.UtilText
import Cplusplus.Ziplist

/-! The layout of a ziplist. A node is what an entry stores apart from the length of
the entry before it: the width of that field, which may be larger than necessary,
and the body. The bytes follow from the nodes. -/

namespace Cplusplus.Redis.Ziplist
open Bytes List Option

structure Node where
  wide : Bool
  body : List UInt8

def fieldSize (wide : Bool) : Nat := if wide then 5 else 1

def Node.size (n : Node) : Nat := fieldSize n.wide + n.body.length

def field (wide : Bool) (prev : Nat) : List UInt8 := if wide then 254 :: leBytes 4 prev else [UInt8.ofNat prev]

def needsWide (prev : Nat) : Bool := zipBiglen ≤ prev

def BodyOk (body : List UInt8) : Prop :=
  ∃ encoding lensize len, 0 < lensize ∧ lensize + len = body.length ∧
    ∀ rest, zipDecodeLength (body ++ rest) = some (encoding, lensize, len)

def encodeFrom : Nat → List Node → List UInt8
  | _, [] => []
  | prev, n :: ns => field n.wide prev ++ n.body ++ encodeFrom n.size ns

def ChainOk : Nat → List Node → Prop
  | _, [] => True
  | prev, n :: ns => (n.wide = false → prev < zipBiglen) ∧ BodyOk n.body ∧ ChainOk n.size ns

def sizes (ns : List Node) : Nat := (ns.map Node.size).sum

def lastSize (prev : Nat) (ns : List Node) : Nat := (ns.getLast?.map Node.size).getD prev

@[simp] theorem field_length (wide : Bool) (prev : Nat) : (field wide prev).length = fieldSize wide := by
  cases wide <;> simp [field, fieldSize]

theorem zipPrevEncodeLength_eq (len : Nat) : zipPrevEncodeLength len = field (needsWide len) len := by
  unfold zipPrevEncodeLength field needsWide
  by_cases small : len < zipBiglen
  · simp [small, Nat.not_le.mpr small]
  · simp [small, Nat.le_of_not_lt small]

@[simp] theorem sizes_nil : sizes [] = 0 := rfl

@[simp] theorem sizes_cons (n : Node) (ns : List Node) : sizes (n :: ns) = n.size + sizes ns := by
  simp [sizes]

@[simp] theorem sizes_append (ns ms : List Node) : sizes (ns ++ ms) = sizes ns + sizes ms := by
  simp [sizes]

theorem Node.size_pos (n : Node) : 0 < n.size := by
  unfold Node.size fieldSize
  split <;> omega

section
variable (prev : Nat)

@[simp] theorem encodeFrom_length (ns : List Node) : (encodeFrom prev ns).length = sizes ns := by
  induction ns generalizing prev with
  | nil => rfl
  | cons n ns ih =>
    simp only [encodeFrom, length_append, field_length, ih, sizes_cons, Node.size]

theorem lastSize_cons (n : Node) (ns : List Node) : lastSize prev (n :: ns) = lastSize n.size ns := by
  cases ns with
  | nil => rfl
  | cons m ms => simp [lastSize, getLast?_cons]

theorem lastSize_append (ns ms : List Node) : lastSize prev (ns ++ ms) = lastSize (lastSize prev ns) ms := by
  induction ns generalizing prev with
  | nil => rfl
  | cons n ns ih => simp only [cons_append, lastSize_cons, ih]

theorem encodeFrom_append (ns ms : List Node) : encodeFrom prev (ns ++ ms) = encodeFrom prev ns ++ encodeFrom (lastSize prev ns) ms := by
  induction ns generalizing prev with
  | nil => rfl
  | cons n ns ih => simp only [cons_append, encodeFrom, ih, lastSize_cons, append_assoc]

end

theorem chainOk_append {prev : Nat} {ns ms : List Node} : ChainOk prev (ns ++ ms) ↔ ChainOk prev ns ∧ ChainOk (lastSize prev ns) ms := by
  induction ns generalizing prev with
  | nil => simp [ChainOk, lastSize]
  | cons n ns ih => simp only [cons_append, ChainOk, ih, lastSize_cons, and_assoc]

private theorem toNat_ofNat_small {n : Nat} (small : n < zipBiglen) : (UInt8.ofNat n).toNat = n := by
  simp only [zipBiglen, UInt8.toNat_ofNat'] at small ⊢
  omega

variable {wide : Bool}

theorem zipDecodePrevlen_field {prev : Nat} (narrow : wide = false → prev < zipBiglen) (bound : prev < 2 ^ 32) (rest : List UInt8) :
    zipDecodePrevlen (field wide prev ++ rest) = some (fieldSize wide, prev) ∧
      zipDecodePrevlensize (field wide prev ++ rest) = some (fieldSize wide) := by
  cases wide with
  | false =>
    have small := narrow rfl
    simp [field, fieldSize, zipDecodePrevlen, zipDecodePrevlensize, toNat_ofNat_small small, small]
  | true =>
    have read : load 4 (leBytes 4 prev ++ rest) = some prev := load_append rest (by omega)
    simp [field, fieldSize, zipDecodePrevlen, zipDecodePrevlensize, zipBiglen, read]

theorem field_head {prev : Nat} (narrow : wide = false → prev < zipBiglen) (rest : List UInt8) :
    ∃ b, (field wide prev ++ rest)[0]? = some b ∧ b ≠ zipEnd := by
  cases wide with
  | false =>
    refine ⟨UInt8.ofNat prev, rfl, fun clash => ?_⟩
    have small := narrow rfl
    have same := toNat_ofNat_small small
    rw [clash] at same
    rw [← same] at small
    exact absurd small (by decide)
  | true => exact ⟨254, rfl, by decide⟩

theorem zipEntry_node {prev : Nat} {body : List UInt8} (narrow : wide = false → prev < zipBiglen)
    (bound : prev < 2 ^ 32) (ok : BodyOk body) (small : fieldSize wide + body.length < 2 ^ 32) (rest : List UInt8) :
    ∃ e, zipEntry (field wide prev ++ body ++ rest) = some e ∧ e.prevrawlensize = fieldSize wide ∧
      e.prevrawlen = prev ∧ e.headersize + e.len = fieldSize wide + body.length ∧
      e.rawlen = fieldSize wide + body.length := by
  obtain ⟨encoding, lensize, len, _, length, decode⟩ := ok
  have dropped : (field wide prev ++ (body ++ rest)).drop (fieldSize wide) = body ++ rest := by
    rw [← field_length wide prev, drop_left]
  refine ⟨⟨fieldSize wide, prev, lensize, len, fieldSize wide + lensize, encoding⟩, ?_, rfl, rfl, ?_, ?_⟩
  · rw [append_assoc]
    simp only [zipEntry, (zipDecodePrevlen_field narrow bound (body ++ rest)).1, bind_eq_bind, bind_some, dropped, decode]
    rfl
  · simp only
    omega
  · simp only [ZlEntry.rawlen]
    rw [Nat.mod_eq_of_lt (by omega)]
    omega

theorem zipRawEntryLength_node {n : Node} {prev : Nat} (narrow : n.wide = false → prev < zipBiglen)
    (bound : prev < 2 ^ 32) (ok : BodyOk n.body) (small : n.size < 2 ^ 32) (rest : List UInt8) :
    zipRawEntryLength (field n.wide prev ++ n.body ++ rest) = some n.size := by
  obtain ⟨encoding, lensize, len, _, length, decode⟩ := ok
  have dropped : (field n.wide prev ++ (n.body ++ rest)).drop (fieldSize n.wide) = n.body ++ rest := by
    rw [← field_length n.wide prev, drop_left]
  rw [append_assoc]
  unfold Node.size at small ⊢
  simp only [zipRawEntryLength, (zipDecodePrevlen_field narrow bound (n.body ++ rest)).2, bind_eq_bind,
    bind_some, dropped, decode, Option.pure_def, some.injEq]
  rw [Nat.mod_eq_of_lt (by omega)]
  omega

def block (total tail zllen : Nat) (rest : List UInt8) : List UInt8 :=
  leBytes 4 total ++ leBytes 4 tail ++ leBytes 2 zllen ++ rest

@[simp] theorem block_length (total tail zllen : Nat) (rest : List UInt8) :
    (block total tail zllen rest).length = ziplistHeaderSize + rest.length := by
  simp only [block, ziplistHeaderSize, length_append, leBytes_length]

theorem block_drop (total tail zllen : Nat) (rest : List UInt8) (k : Nat) :
    (block total tail zllen rest).drop (ziplistHeaderSize + k) = rest.drop k := by
  have header : (leBytes 4 total ++ leBytes 4 tail ++ leBytes 2 zllen).length = ziplistHeaderSize := by
    simp [ziplistHeaderSize]
  rw [block, ← header, drop_length_add_append]

theorem block_get (total tail zllen : Nat) (rest : List UInt8) (k : Nat) :
    (block total tail zllen rest)[ziplistHeaderSize + k]? = rest[k]? := by
  rw [getElem?_drop_zero, block_drop, ← getElem?_drop_zero]

theorem block_bytes {total : Nat} (bound : total < 2 ^ 32) (tail zllen : Nat) (rest : List UInt8) :
    ziplistBytes (block total tail zllen rest) = some total := by
  simp only [ziplistBytes, block, append_assoc]
  exact load_append _ (by omega)

theorem block_tail {tail : Nat} (bound : tail < 2 ^ 32) (total zllen : Nat) (rest : List UInt8) :
    ziplistTailOffset (block total tail zllen rest) = some tail := by
  have dropped : (block total tail zllen rest).drop 4 = leBytes 4 tail ++ (leBytes 2 zllen ++ rest) := by
    simp only [block, append_assoc]
    exact drop_left' (leBytes_length 4 total)
  rw [ziplistTailOffset, dropped]
  exact load_append _ (by omega)

theorem block_zllen {zllen : Nat} (bound : zllen < 2 ^ 16) (total tail : Nat) (rest : List UInt8) :
    ziplistLength (block total tail zllen rest) = some zllen := by
  have dropped : (block total tail zllen rest).drop 8 = leBytes 2 zllen ++ rest := by
    rw [block, append_assoc]
    exact drop_left' (by simp)
  rw [ziplistLength, dropped]
  exact load_append _ (by omega)

theorem block_setTail (total tail zllen : Nat) (rest : List UInt8) (offset : Int) : setTailOffset (block total tail zllen rest) offset =
      some (block total (offset % 2 ^ 32).toNat zllen rest) := by
  have cut : block total tail zllen rest = leBytes 4 total ++ leBytes 4 tail ++ (leBytes 2 zllen ++ rest) := by
    simp only [block, append_assoc]
  rw [setTailOffset, cut, store_append (by simp) (by simp)]
  simp only [block, append_assoc]

theorem block_setLength (total tail zllen : Nat) (rest : List UInt8) (value : Nat) :
    store (block total tail zllen rest) 8 (leBytes 2 value) = some (block total tail value rest) := by
  rw [block, store_append (by simp) (by simp)]
  rfl

theorem block_store (total tail zllen : Nat) (rest : List UInt8) (k : Nat) (bytes : List UInt8) :
    store (block total tail zllen rest) (ziplistHeaderSize + k) bytes = (store rest k bytes).map (block total tail zllen) := by
  by_cases inside : k + bytes.length ≤ rest.length
  · have header : (leBytes 4 total ++ leBytes 4 tail ++ leBytes 2 zllen).length = ziplistHeaderSize := by
      simp [ziplistHeaderSize]
    rw [store_eq inside, store_eq (by simp only [block_length]; omega), Nat.add_assoc, block_drop, block, ← header, take_length_add_append]
    simp only [map_some, block, append_assoc]
  · have outside : (block total tail zllen rest).length < ziplistHeaderSize + k + bytes.length := by
      rw [block_length]
      omega
    rw [store_none outside, store_none (by omega)]
    rfl

theorem block_memmove (total tail zllen : Nat) (rest : List UInt8) (dst src n : Nat) :
    memmove (block total tail zllen rest) (ziplistHeaderSize + dst) (ziplistHeaderSize + src) n =
      (memmove rest dst src n).map (block total tail zllen) := by
  unfold memmove
  by_cases inside : src + n ≤ rest.length
  · rw [if_pos inside, if_pos (by simp only [block_length]; omega), block_drop, block_store]
  · rw [if_neg inside, if_neg (by simp only [block_length]; omega)]
    rfl

/-! The value of an entry. What is stored for a byte string is an integer if the
string is the decimal form of one, else the bytes; reading the entry gives the
string back. -/

def zipBody (s : List UInt8) : List UInt8 :=
  match zipTryEncoding s with
  | some (value, encoding) => zipEncodeLength encoding s.length ++ (zipSaveInteger value encoding).getD []
  | none => zipEncodeLength 0 s.length ++ s

variable {value : Int}

theorem loadInt_intBytes (width : Nat) (positive : 0 < width) (low : -2 ^ (8 * width - 1) ≤ value)
    (high : value < 2 ^ (8 * width - 1)) (rest : List UInt8) : loadInt width (intBytes width value ++ rest) = some value := by
  have bits : (256 : Nat) ^ width = 2 ^ (8 * width) := by
    rw [Nat.pow_mul]
  have bound : (BitVec.ofInt (8 * width) value).toNat < 256 ^ width := by
    rw [bits]
    exact BitVec.isLt _
  have half : ((2 ^ (8 * width) : Nat) : Int) = 2 * 2 ^ (8 * width - 1) := by
    obtain ⟨n, size⟩ : ∃ n, 8 * width = n + 1 := ⟨8 * width - 1, by omega⟩
    rw [size, Nat.add_sub_cancel]
    push_cast
    rw [Int.pow_succ, Int.mul_comm]
  rw [loadInt, intBytes, load_append rest bound, map_some, BitVec.ofNat_toNat, BitVec.setWidth_eq,
    BitVec.toInt_ofInt, Int.bmod_eq_of_le (by rw [half]; omega) (by rw [half]; omega)]

theorem load24_intBytes (low : -2 ^ 23 ≤ value) (high : value < 2 ^ 23) (rest : List UInt8) :
    (load 3 ((intBytes 4 (value * 256)).drop 1 ++ rest)).map
      (fun n => ((BitVec.ofNat 32 (n * 256)).sshiftRight 8).toInt) = some value := by
  obtain ⟨n, stored⟩ : ∃ n, n = (BitVec.ofInt 32 (value * 256)).toNat := ⟨_, rfl⟩
  have whole : (n : Int) = value * 256 % 2 ^ 32 := by
    rw [stored, BitVec.toNat_ofInt]
    omega
  have split : (intBytes 4 (value * 256)).drop 1 = leBytes 3 (n / 256) := by
    rw [intBytes, ← stored]
    rfl
  have restored : n / 256 * 256 = n := by omega
  rw [split, load_append rest (by omega), map_some, restored, stored, BitVec.ofNat_toNat, BitVec.setWidth_eq,
    BitVec.toInt_sshiftRight, BitVec.toInt_ofInt, Int.bmod_eq_of_le (by omega) (by omega), Int.shiftRight_eq_div_pow]
  congr 1
  omega

private theorem immediate_encoding : ∀ k < 13, (zipIntImmMin + UInt8.ofNat k ≠ zipInt8B ∧ zipIntImmMin + UInt8.ofNat k ≠ zipInt16B ∧
      zipIntImmMin + UInt8.ofNat k ≠ zipInt24B ∧ zipIntImmMin + UInt8.ofNat k ≠ zipInt32B ∧
      zipIntImmMin + UInt8.ofNat k ≠ zipInt64B) ∧
    (zipIntImmMin ≤ zipIntImmMin + UInt8.ofNat k ∧ zipIntImmMin + UInt8.ofNat k ≤ zipIntImmMax) ∧
    zipIsStr (zipIntImmMin + UInt8.ofNat k) = false ∧ ¬ zipIntImmMin + UInt8.ofNat k < 0xc0 ∧
    ((zipIntImmMin + UInt8.ofNat k) &&& 0x0f).toNat = k + 1 := by
  decide

variable {s : List UInt8} {encoding : UInt8}

theorem zipTryEncoding_spec (encoded : zipTryEncoding s = some (value, encoding)) :
    numeral value = s ∧ (-2 ^ 63 ≤ value ∧ value < 2 ^ 63) ∧ zipIsStr encoding = false ∧ ¬ encoding < 0xc0 ∧
      ∃ bytes, zipSaveInteger value encoding = some bytes ∧ bytes.length = zipIntSize encoding ∧
        ∀ rest, zipLoadInteger (bytes ++ rest) encoding = some value := by
  unfold zipTryEncoding at encoded
  split at encoded
  · cases encoded
  obtain ⟨v, read, same⟩ := map_eq_some_iff.mp encoded
  obtain ⟨text, low, high⟩ := string2ll_numeral read
  obtain ⟨rfl, code⟩ := Prod.mk.inj same
  refine ⟨text, ⟨low, high⟩, ?_⟩
  split at code
  next small =>
    obtain ⟨k, rfl⟩ := Int.eq_ofNat_of_zero_le small.1
    rw [Int.toNat_natCast] at code
    obtain ⟨⟨not8, not16, not24, not32, not64⟩, inside, notStr, notLess, nibble⟩ := immediate_encoding k (by omega)
    rw [code] at not8 not16 not24 not32 not64 inside notStr notLess nibble
    refine ⟨notStr, notLess, [], ?_, ?_, fun rest => ?_⟩
    · simp only [zipSaveInteger, not8, not16, not24, not32, not64, inside, if_false, if_true, and_self]
    · simp only [zipIntSize, not8, not16, not24, not32, not64, if_false, length_nil]
    · simp only [zipLoadInteger, not8, not16, not24, not32, not64, inside, if_false, if_true, and_self, nibble]
      simp
  split at code
  next _ small =>
    subst code
    refine ⟨rfl, by decide, intBytes 1 v, rfl, leBytes_length .., fun rest => ?_⟩
    exact loadInt_intBytes 1 (by decide) (by omega) (by omega) rest
  split at code
  next small =>
    subst code
    refine ⟨rfl, by decide, intBytes 2 v, rfl, leBytes_length .., fun rest => ?_⟩
    exact loadInt_intBytes 2 (by decide) (by omega) (by omega) rest
  split at code
  next small =>
    subst code
    refine ⟨rfl, by decide, (intBytes 4 (v * 256)).drop 1, rfl, by simp [intBytes, zipIntSize]; decide, fun rest => ?_⟩
    exact load24_intBytes (by omega) (by omega) rest
  split at code
  next small =>
    subst code
    refine ⟨rfl, by decide, intBytes 4 v, rfl, leBytes_length .., fun rest => ?_⟩
    exact loadInt_intBytes 4 (by decide) (by omega) (by omega) rest
  · subst code
    refine ⟨rfl, by decide, intBytes 8 v, rfl, leBytes_length .., fun rest => ?_⟩
    exact loadInt_intBytes 8 (by decide) (by omega) (by omega) rest

theorem zipDecodeLength_string {len : Nat} (bound : len < 2 ^ 32) : ∃ encoding, zipIsStr encoding = true ∧ ∀ rest,
      zipDecodeLength (zipEncodeLength 0 len ++ rest) = some (encoding, (zipEncodeLength 0 len).length, len) := by
  have isStr : zipIsStr 0 = true := by decide
  unfold zipEncodeLength
  rw [if_pos isStr]
  split
  next short =>
    refine ⟨0, isStr, fun rest => ?_⟩
    have head : ∀ n ≤ 0x3f, zipEntryEncoding (UInt8.ofNat n) = 0 ∧ (UInt8.ofNat n &&& 0x3f).toNat = n := by decide
    obtain ⟨encoding, value⟩ := head len short
    simp only [singleton_append, zipDecodeLength, encoding, value]
    rfl
  split
  next long short =>
    refine ⟨zipStr14B, by decide, fun rest => ?_⟩
    have head : ∀ n < 64, zipEntryEncoding (zipStr14B ||| UInt8.ofNat n) = zipStr14B ∧
        ((zipStr14B ||| UInt8.ofNat n) &&& 0x3f).toNat = n := by decide
    obtain ⟨encoding, value⟩ := head (len / 256 % 64) (by omega)
    have low : (UInt8.ofNat len).toNat = len % 256 := by simp
    simp only [cons_append, nil_append, zipDecodeLength, encoding, value, head?_cons, map_some, low]
    have whole : len / 256 % 64 * 256 + len % 256 = len := by omega
    rw [whole]
    rfl
  next _ long =>
    refine ⟨zipStr32B, by decide, fun rest => ?_⟩
    have encoding : zipEntryEncoding zipStr32B = zipStr32B := by decide
    have taken : ((leBytes 4 len).reverse ++ rest).take 4 = (leBytes 4 len).reverse := by
      rw [take_left' (by simp)]
    have value : leValue (((leBytes 4 len).reverse ++ rest).take 4).reverse = len := by
      rw [taken, reverse_reverse, leValue_leBytes, Nat.mod_eq_of_lt (by omega)]
    have enough : 4 ≤ ((leBytes 4 len).reverse ++ rest).length := by simp
    simp only [cons_append, zipDecodeLength, encoding, value, enough, if_true]
    rw [length_cons, length_reverse, leBytes_length]
    rfl

def bodyValue (body : List UInt8) : Option (List UInt8) := do
  let (encoding, lensize, len) ← zipDecodeLength body
  if zipIsStr encoding then return (body.drop lensize).take len
  let value ← zipLoadInteger (body.drop lensize) encoding
  return numeral value

theorem zipDecodeLength_int (notLess : ¬ encoding < 0xc0) (rest : List UInt8) :
    zipDecodeLength (encoding :: rest) = some (encoding, 1, zipIntSize encoding) := by
  have same : zipEntryEncoding encoding = encoding := by rw [zipEntryEncoding, if_neg notLess]
  simp only [zipDecodeLength, same, notLess, if_false]

theorem bodyOk_int {payload : List UInt8} (notLess : ¬ encoding < 0xc0)
    (size : payload.length = zipIntSize encoding) : BodyOk (encoding :: payload) :=
  ⟨encoding, 1, zipIntSize encoding, Nat.one_pos, by rw [length_cons, size, Nat.add_comm], fun rest =>
    zipDecodeLength_int notLess (payload ++ rest)⟩

theorem zipEncodeLength_pos (encoding : UInt8) (len : Nat) : 0 < (zipEncodeLength encoding len).length := by
  unfold zipEncodeLength
  split
  · split
    · exact Nat.one_pos
    · split <;> simp
  · exact Nat.one_pos

theorem bodyOk_string (bound : s.length < 2 ^ 32) : BodyOk (zipEncodeLength 0 s.length ++ s) := by
  obtain ⟨encoding, _, decode⟩ := zipDecodeLength_string bound
  refine ⟨encoding, (zipEncodeLength 0 s.length).length, s.length, zipEncodeLength_pos .., by simp, fun rest => ?_⟩
  rw [append_assoc]
  exact decode (s ++ rest)

theorem zipBody_cases (s : List UInt8) : (zipTryEncoding s = none ∧ zipBody s = zipEncodeLength 0 s.length ++ s) ∨
      ∃ value encoding payload, zipTryEncoding s = some (value, encoding) ∧
        zipSaveInteger value encoding = some payload ∧ zipBody s = encoding :: payload := by
  unfold zipBody
  cases encoded : zipTryEncoding s with
  | none => exact .inl ⟨rfl, rfl⟩
  | some pair =>
    obtain ⟨value, encoding⟩ := pair
    obtain ⟨_, _, notStr, _, payload, saved, _, _⟩ := zipTryEncoding_spec encoded
    refine .inr ⟨value, encoding, payload, rfl, saved, ?_⟩
    simp only [zipEncodeLength, notStr, saved, Bool.false_eq_true, if_false, getD_some, singleton_append]

theorem zipBody_ok (bound : s.length < 2 ^ 32) : BodyOk (zipBody s) := by
  obtain ⟨_, body⟩ | ⟨value, encoding, payload, encoded, saved, body⟩ := zipBody_cases s
  · rw [body]
    exact bodyOk_string bound
  · obtain ⟨_, _, _, notLess, bytes, stored, size, _⟩ := zipTryEncoding_spec encoded
    obtain rfl := some.inj (saved.symm.trans stored)
    rw [body]
    exact bodyOk_int notLess size

theorem bodyValue_zipBody (bound : s.length < 2 ^ 32) : bodyValue (zipBody s) = some s := by
  obtain ⟨_, body⟩ | ⟨value, encoding, payload, encoded, saved, body⟩ := zipBody_cases s
  · obtain ⟨encoding, isStr, decode⟩ := zipDecodeLength_string bound
    simp only [bodyValue, body, decode, isStr, bind_eq_bind, bind_some, if_true, drop_left, take_length]
    rfl
  · obtain ⟨text, _, notStr, notLess, bytes, stored, size, load⟩ := zipTryEncoding_spec encoded
    obtain rfl := some.inj (saved.symm.trans stored)
    have read := load []
    rw [append_nil] at read
    simp only [bodyValue, body, zipDecodeLength_int notLess, notStr, bind_eq_bind, bind_some,
      Bool.false_eq_true, if_false, drop_succ_cons, drop_zero, read, text]
    rfl

/-- The last byte of a stored value may be replaced without breaking the layout. -/
theorem zipBody_overwrite (bound : s.length < 2 ^ 32) : BodyOk ((zipBody s).dropLast ++ [zipEnd]) := by
  have ended : BodyOk [zipEnd] := bodyOk_int (by decide) rfl
  obtain ⟨_, body⟩ | ⟨value, encoding, payload, encoded, saved, body⟩ := zipBody_cases s
  · rw [body]
    cases s.eq_nil_or_concat with
    | inl empty => rw [empty]; exact ended
    | inr more =>
      obtain ⟨init, last, rfl⟩ := more
      rw [concat_eq_append] at bound ⊢
      have length : (init ++ [last]).length = (init ++ [zipEnd]).length := by simp
      rw [length] at bound ⊢
      rw [← append_assoc, dropLast_concat, append_assoc]
      exact bodyOk_string bound
  · obtain ⟨_, _, _, notLess, bytes, stored, size, _⟩ := zipTryEncoding_spec encoded
    obtain rfl := some.inj (saved.symm.trans stored)
    rw [body]
    cases payload.eq_nil_or_concat with
    | inl empty => rw [empty]; exact ended
    | inr more =>
      obtain ⟨init, last, rfl⟩ := more
      rw [concat_eq_append] at size ⊢
      rw [← cons_append, dropLast_concat, cons_append]
      exact bodyOk_int notLess (by rw [← size]; simp)

end Cplusplus.Redis.Ziplist
