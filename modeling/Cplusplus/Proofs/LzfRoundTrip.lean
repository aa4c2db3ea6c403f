import Cplusplus.Library.Faults
import Cplusplus.Lzf

/-! The compressed format as a sequence of pieces. The decompressor accepts exactly the sequences of
pieces that fit, and the compressor writes such a sequence for its input. -/

namespace Cplusplus.Lzf
open BackReferences Faults List Option

/-- The sizes that the format can express. -/
def Fits : Piece UInt8 → Prop
  | .literal items => 1 ≤ items.length ∧ items.length ≤ maxLit
  | .copy distance count => 1 ≤ distance ∧ distance ≤ maxOff ∧ 3 ≤ count ∧ count ≤ maxRef

/-- `000LLLLL <L+1>`, `LLLooooo oooooooo` or `111ooooo LLLLLLLL oooooooo` -/
def pieceBytes : Piece UInt8 → Bytes
  | .literal items => UInt8.ofNat (items.length - 1) :: items
  | .copy distance count =>
    let off := distance - 1
    let len := count - 2
    if len < 7 then [UInt8.ofNat (off / 256 + len * 32), UInt8.ofNat off]
    else [UInt8.ofNat (off / 256 + 7 * 32), UInt8.ofNat (len - 7), UInt8.ofNat off]

def Errno (stop : Stop) : Prop := stop = .e2big ∨ stop = .einval

def format (pieces : List (Piece UInt8)) : Bytes := pieces.flatMap pieceBytes

/-- The bytes are pieces that expand to the text. -/
def Codes (bytes text : Bytes) : Prop := ∃ pieces, (∀ piece ∈ pieces, Fits piece) ∧ expand pieces = some text ∧ bytes = format pieces

variable {data after text full bytes : Bytes} {distance count outLen : Nat} {c : UInt8}

theorem put_eq {size : Nat} (room : bytes.length < size) (c : UInt8) : put size bytes c = .ok (bytes ++ [c]) := if_pos room

theorem copyIn_spec (items after : Bytes) : ∀ text : Bytes, text.length + items.length ≤ outLen →
    copyIn outLen items.length (items ++ after) text = .ok (after, text ++ items) := by
  induction items with
  | nil =>
    intro text _
    rw [append_nil]
    rfl
  | cons item items ih =>
    intro text room
    rw [length_cons] at room ⊢
    rw [cons_append, copyIn, put_eq (by omega), append_cons text item items]
    exact ih (text ++ [item]) (by rw [length_append, length_singleton]; omega)

theorem copyOut_spec (back : 1 ≤ distance) (count : Nat) : ∀ text : Bytes, distance ≤ text.length → text.length + count ≤ outLen →
    ∃ full, copyBack distance count text = some full ∧ copyOut outLen count (text.length - distance) text = .ok full := by
  induction count with
  | zero => exact fun _ _ _ => ⟨_, rfl, rfl⟩
  | succ count ih =>
    intro text far room
    have inside : text.length - distance < text.length := by omega
    have length : (text ++ [text[text.length - distance]]).length = text.length + 1 := length_append
    obtain ⟨full, copied, later⟩ := ih (text ++ [text[text.length - distance]]) (by omega) (by omega)
    refine ⟨full, ?_, ?_⟩
    · rw [copyBack, if_pos ⟨back, far⟩, getElem?_eq_getElem inside]
      exact copied
    · have stored := put_eq (show text.length < outLen by omega) text[text.length - distance]
      rw [length, Nat.sub_add_comm far] at later
      simp only [copyOut, read, getElem?_eq_getElem inside, stored, bind, Except.bind, later]

theorem byte_toNat {n : Nat} (small : n < 256) : (UInt8.ofNat n).toNat = n := UInt8.toNat_ofNat_of_lt small

theorem round_literal {items : Bytes} (fits : Fits (.literal items)) : decompressRound outLen (pieceBytes (.literal items) ++ after) text =
      if outLen < text.length + items.length then .error .e2big else .ok (after, text ++ items) := by
  obtain ⟨positive, small⟩ := fits
  rw [maxLit] at small
  have value : (UInt8.ofNat (items.length - 1)).toNat = items.length - 1 := byte_toNat (by omega)
  simp only [decompressRound, pieceBytes, cons_append, value, Nat.sub_add_cancel positive]
  rw [if_pos (by omega)]
  split
  next => rfl
  next room =>
    rw [if_neg (by rw [length_append]; omega)]
    exact copyIn_spec items after text (Nat.le_of_not_lt room)

theorem copy_bits {high len : Nat} (high_lt : high < 32) (len_le : len ≤ 7) :
    (UInt8.ofNat (high + len * 32)).toNat = high + len * 32 ∧ (high + len * 32) / 32 = len ∧ (high + len * 32) % 32 = high := by
  rw [UInt8.toNat_ofNat']
  omega

theorem reference_eq (high len : Nat) (low : UInt8) (ip text : Bytes) :
    reference outLen high len low ip text = if outLen < text.length + (len + 2) then .error .e2big
      else if text.length < high * 256 + low.toNat + 1 then .error .einval
      else (copyOut outLen (len + 2) (text.length - (high * 256 + low.toNat + 1)) text).map (ip, ·) := by
  have place : ((text.length : Int) - (high * 256 : Nat) - 1 - low.toNat) = text.length - (high * 256 + low.toNat + 1 : Nat) := by omega
  simp only [reference, place, Nat.add_assoc text.length]
  split
  next => rfl
  next =>
    by_cases far : text.length < high * 256 + low.toNat + 1
    · rw [if_pos (by omega), if_pos far]
    · rw [if_neg (by omega), if_neg far, ← Int.ofNat_sub (Nat.le_of_not_lt far), Int.toNat_natCast]
      cases copyOut outLen (len + 2) (text.length - (high * 256 + low.toNat + 1)) text <;> rfl

theorem round_copy (fits : Fits (.copy distance count)) : decompressRound outLen (pieceBytes (.copy distance count) ++ after) text =
      if outLen < text.length + count then .error .e2big
      else if text.length < distance then .error .einval
      else (copyOut outLen count (text.length - distance) text).map (after, ·) := by
  obtain ⟨back, near, long, short⟩ := fits
  rw [maxOff] at near
  rw [maxRef] at short
  have low : (UInt8.ofNat (distance - 1)).toNat = (distance - 1) % 256 := UInt8.toNat_ofNat'
  have place : (distance - 1) / 256 * 256 + (distance - 1) % 256 + 1 = distance := by omega
  have high : (distance - 1) / 256 < 32 := by omega
  rw [pieceBytes]
  split
  next shorter =>
    obtain ⟨value, length, offset⟩ := copy_bits high (Nat.le_of_lt shorter)
    simp only [decompressRound, cons_append, nil_append, value, length, offset]
    rw [if_neg (by omega), if_neg (by omega), reference_eq, low, place, Nat.sub_add_cancel (by omega)]
  next =>
    obtain ⟨value, length, offset⟩ := copy_bits high (Nat.le_refl 7)
    have size : (UInt8.ofNat (count - 2 - 7)).toNat = count - 2 - 7 := byte_toNat (by omega)
    simp only [decompressRound, cons_append, nil_append, value, length, offset, size]
    rw [if_neg (by omega), if_pos trivial, reference_eq, low, place, Nat.add_sub_cancel' (by omega), Nat.sub_add_cancel (by omega)]

variable {piece : Piece UInt8}

/-- A round extends the text by one piece, unless that is an error. -/
theorem round_piece (fits : Fits piece) (outLen : Nat) (after text : Bytes) :
    (∃ full, piece.extend text = some full ∧ full.length ≤ outLen ∧ decompressRound outLen (pieceBytes piece ++ after) text = .ok (after, full)) ∨
    ∃ stop, Errno stop ∧ decompressRound outLen (pieceBytes piece ++ after) text = .error stop ∧
      ∀ full, piece.extend text = some full → outLen < full.length := by
  cases piece with
  | literal items =>
    rw [round_literal fits]
    split
    next large =>
      refine .inr ⟨.e2big, .inl rfl, rfl, fun full extends_ => ?_⟩
      cases extends_
      rwa [length_append]
    next room => exact .inl ⟨text ++ items, rfl, length_append ▸ Nat.le_of_not_lt room, rfl⟩
  | copy distance count =>
    rw [round_copy fits]
    split
    next large =>
      refine .inr ⟨.e2big, .inl rfl, rfl, fun full extends_ => ?_⟩
      rwa [copyBack_length extends_]
    next room =>
      split
      next far =>
        refine .inr ⟨.einval, .inr rfl, rfl, fun full extends_ => ?_⟩
        match count, fits.2.2.1 with
        | count + 1, _ =>
          rw [Piece.extend, copyBack, if_neg fun inside => Nat.not_lt.mpr inside.2 far] at extends_
          cases extends_
      next near =>
        obtain ⟨full, copied, done⟩ := copyOut_spec fits.1 count text (Nat.le_of_not_lt near) (Nat.le_of_not_lt room)
        exact .inl ⟨full, copied, copyBack_length copied ▸ Nat.le_of_not_lt room, by rw [done]; rfl⟩

/-- The bytes of a round are those of a piece, unless that is an error. -/
theorem round_parses (outLen : Nat) (text tail : Bytes) (c : UInt8) : (∃ piece after, Fits piece ∧ c :: tail = pieceBytes piece ++ after) ∨
    ∃ stop, Errno stop ∧ decompressRound outLen (c :: tail) text = .error stop := by
  by_cases run : c.toNat < 32
  · by_cases whole : c.toNat + 1 ≤ tail.length
    · have size := length_take_of_le whole
      refine .inl ⟨.literal (tail.take (c.toNat + 1)), tail.drop (c.toNat + 1), ⟨by omega, by rw [maxLit]; omega⟩, ?_⟩
      rw [pieceBytes, size, Nat.add_sub_cancel, UInt8.ofNat_toNat, cons_append, take_append_drop]
    · simp only [decompressRound, if_pos run]
      split
      next => exact .inr ⟨.e2big, .inl rfl, rfl⟩
      next =>
        rw [if_pos (Nat.lt_of_not_le whole)]
        exact .inr ⟨.einval, .inr rfl, rfl⟩
  · have high := c.toNat_lt
    match tail with
    | [] => exact .inr ⟨.einval, .inr rfl, if_neg run⟩
    | b :: after =>
      have middle := b.toNat_lt
      by_cases long : c.toNat / 32 = 7
      · match after with
        | [] => exact .inr ⟨.einval, .inr rfl, by simp only [decompressRound, if_neg run, if_pos long]⟩
        | low :: after =>
          have last := low.toNat_lt
          refine .inl ⟨.copy (c.toNat % 32 * 256 + low.toNat + 1) (7 + b.toNat + 2), after, ?_, ?_⟩
          · simp only [Fits, maxOff, maxRef]
            omega
          · simp only [pieceBytes, Nat.add_sub_cancel]
            rw [if_neg (by omega), show (c.toNat % 32 * 256 + low.toNat) / 256 + 7 * 32 = c.toNat by omega, Nat.add_sub_cancel_left]
            simp
      · refine .inl ⟨.copy (c.toNat % 32 * 256 + b.toNat + 1) (c.toNat / 32 + 2), after, ?_, ?_⟩
        · simp only [Fits, maxOff, maxRef]
          omega
        · simp only [pieceBytes, Nat.add_sub_cancel]
          rw [if_pos (by omega), show (c.toNat % 32 * 256 + b.toNat) / 256 + c.toNat / 32 * 32 = c.toNat by omega]
          simp

theorem pieceBytes_ne_nil (piece : Piece UInt8) : pieceBytes piece ≠ [] := by
  cases piece with
  | literal items => exact cons_ne_nil _ _
  | copy distance count =>
    rw [pieceBytes]
    split <;> exact cons_ne_nil _ _

theorem Codes.push (codes : Codes bytes text) (fits : Fits piece) (extends_ : piece.extend text = some full) :
    Codes (bytes ++ pieceBytes piece) full := by
  obtain ⟨pieces, fine, expands, rfl⟩ := codes
  refine ⟨pieces ++ [piece], ?_, (expand_concat expands piece).trans extends_, ?_⟩
  · exact fun p member => (mem_append.mp member).elim (fine p) fun last => mem_singleton.mp last ▸ fits
  · rw [format, format, flatMap_append, flatMap_singleton]

theorem Codes.ne_nil (codes : Codes bytes text) (some_ : text ≠ []) : bytes ≠ [] := by
  obtain ⟨pieces, _, expands, rfl⟩ := codes
  intro empty
  match pieces with
  | [] => exact some_ (some.inj expands).symm
  | piece :: _ => exact pieceBytes_ne_nil piece (append_eq_nil_iff.mp empty).1

theorem decompressLoop_piece {fuel : Nat} (done : decompressRound outLen (pieceBytes piece ++ after) text = .ok (after, full)) :
    decompressLoop outLen (fuel + 1) (pieceBytes piece ++ after) text =
      if after = [] then .ok full else decompressLoop outLen fuel after full := by
  rw [decompressLoop, done]
  exact ite_not _ _ _

theorem decompressLoop_format (pieces : List (Piece UInt8)) : ∀ {fuel : Nat} {text : Bytes}, pieces ≠ [] → (∀ piece ∈ pieces, Fits piece) →
    pieces.foldlM Piece.extend text = some full → full.length ≤ outLen → (format pieces).length < fuel →
    decompressLoop outLen fuel (format pieces) text = .ok full := by
  induction pieces with
  | nil => exact fun nonempty => absurd rfl nonempty
  | cons piece pieces ih =>
    intro fuel text _ fits expands room enough
    rw [foldlM_cons] at expands
    obtain ⟨middle, first, later⟩ := Option.bind_eq_some_iff.mp expands
    obtain ⟨_, extended, _, done⟩ | ⟨_, _, _, large⟩ := round_piece (fits piece mem_cons_self) outLen (format pieces) text
    · cases first.symm.trans extended
      match fuel, enough with
      | fuel + 1, enough =>
        rw [format, flatMap_cons, ← format] at enough ⊢
        rw [decompressLoop_piece done]
        split
        next last =>
          match pieces, last with
          | [], _ =>
            cases later
            rfl
          | other :: _, last => exact absurd (append_eq_nil_iff.mp last).1 (pieceBytes_ne_nil other)
        next more =>
          have size := length_pos_iff.mpr (pieceBytes_ne_nil piece)
          rw [length_append] at enough
          exact ih (fun none_ => more (by rw [none_]; rfl)) (fun p member => fits p (mem_cons_of_mem _ member)) later room (by omega)
    · exact absurd (Nat.lt_of_lt_of_le (large middle first) (foldlM_extend_length later)) (Nat.not_lt.mpr room)

theorem decompressLoop_parses (outLen fuel : Nat) : ∀ (text : Bytes) {tail : Bytes}, tail ≠ [] → tail.length < fuel →
    (∃ pieces full, (∀ piece ∈ pieces, Fits piece) ∧ tail = format pieces ∧ pieces.foldlM Piece.extend text = some full ∧
      full.length ≤ outLen) ∨
    ∃ stop, Errno stop ∧ decompressLoop outLen fuel tail text = .error stop := by
  induction fuel with
  | zero => exact fun _ _ _ less => absurd less (Nat.not_lt_zero _)
  | succ fuel ih =>
    intro text tail nonempty enough
    obtain ⟨c, bytes, rfl⟩ := exists_cons_of_ne_nil nonempty
    obtain ⟨piece, after, fits, same⟩ | ⟨stop, errno, fails⟩ := round_parses outLen text bytes c
    · rw [same] at enough ⊢
      obtain ⟨middle, extended, room, done⟩ | ⟨stop, errno, fails, _⟩ := round_piece fits outLen after text
      · rw [decompressLoop_piece done]
        by_cases last : after = []
        · refine .inl ⟨[piece], middle, forall_mem_singleton.mpr fits, ?_, ?_, room⟩
          · rw [last, format, flatMap_singleton, append_nil]
          · rw [foldlM_cons, extended]
            rfl
        · have size := length_pos_iff.mpr (pieceBytes_ne_nil piece)
          rw [length_append] at enough
          rw [if_neg last]
          obtain ⟨pieces, full, fine, whole, expands, room⟩ | fails := ih middle last (by omega)
          · refine .inl ⟨piece :: pieces, full, forall_mem_cons.mpr ⟨fits, fine⟩, ?_, ?_, room⟩
            · rw [whole]
              rfl
            · rw [foldlM_cons, extended]
              exact expands
          · exact .inr fails
      · refine .inr ⟨stop, errno, ?_⟩
        rw [decompressLoop, fails]
        rfl
    · refine .inr ⟨stop, errno, ?_⟩
      rw [decompressLoop, fails]
      rfl

theorem Codes.decompress (codes : Codes bytes text) (nonempty : bytes ≠ []) (room : text.length ≤ outLen) :
    lzfDecompress bytes outLen = .ok text := by
  obtain ⟨pieces, fits, expands, rfl⟩ := codes
  exact decompressLoop_format pieces (fun none_ => nonempty (by rw [none_]; rfl)) fits expands room (Nat.lt_succ_self _)

theorem lzfDecompress_cases (c : UInt8) (tail : Bytes) (outLen : Nat) :
    (∃ text, text.length ≤ outLen ∧ Codes (c :: tail) text ∧ lzfDecompress (c :: tail) outLen = .ok text) ∨
    ∃ stop, Errno stop ∧ lzfDecompress (c :: tail) outLen = .error stop := by
  have some_ := cons_ne_nil c tail
  obtain ⟨pieces, text, fits, same, expands, room⟩ | fails := decompressLoop_parses outLen ((c :: tail).length + 1) [] some_ (Nat.lt_succ_self _)
  · have codes : Codes (c :: tail) text := ⟨pieces, fits, expands, same⟩
    exact .inl ⟨text, room, codes, codes.decompress some_ room⟩
  · exact .inr fails

/-- The decompressor stays inside both buffers. It gives the text of the pieces that its input is
made of, unless there are none or the text is too long: these are errors, and it returns 0. -/
theorem lzfDecompress_exact (c : UInt8) (tail : Bytes) (outLen : Nat) : Yields Errno (fun _ => True) (lzfDecompress (c :: tail) outLen) ∧
      ∀ text, lzfDecompress (c :: tail) outLen = .ok text ↔ text.length ≤ outLen ∧ Codes (c :: tail) text := by
  have exact_ : ∀ text, text.length ≤ outLen ∧ Codes (c :: tail) text → lzfDecompress (c :: tail) outLen = .ok text :=
    fun text holds => holds.2.decompress (cons_ne_nil c tail) holds.1
  obtain ⟨full, room, codes, done⟩ | ⟨stop, errno, fails⟩ := lzfDecompress_cases c tail outLen
  · refine ⟨done ▸ trivial, fun text => ⟨fun answer => ?_, exact_ text⟩⟩
    cases done.symm.trans answer
    exact ⟨room, codes⟩
  · refine ⟨fails ▸ errno, fun text => ⟨fun answer => ?_, exact_ text⟩⟩
    cases fails.symm.trans answer

theorem read_some {i : Nat} (inside : i < data.length) : ∃ c, read data i = .ok c ∧ data[i]? = some c := by
  rw [read, getElem?_eq_getElem inside]
  exact ⟨_, rfl, rfl⟩

def Matches (data : Bytes) (ref ip len : Nat) : Prop := ∀ k < len, data[ref + k]? = data[ip + k]?

variable {ref ip len : Nat} {allowed : Stop → Prop} {inp : Input} {s : Compressor}

theorem same_spec (behind : ref < ip) (inside : ip + len < data.length) :
    ∃ equal, same data ref ip len = .ok equal ∧ (equal = true → data[ref + len]? = data[ip + len]?) := by
  obtain ⟨c, readC, hereC⟩ := read_some (show ref + len < data.length by omega)
  obtain ⟨d, readD, hereD⟩ := read_some inside
  refine ⟨c == d, by rw [same, readC, readD]; rfl, fun equal => ?_⟩
  rw [hereC, hereD, eq_of_beq equal]

theorem Matches.succ (matches_ : Matches data ref ip len) (here : data[ref + len]? = data[ip + len]?) : Matches data ref ip (len + 1) := by
  intro k less
  obtain less | rfl := Nat.lt_succ_iff_lt_or_eq.mp less
  · exact matches_ k less
  · exact here

theorem compare_spec (behind : ref < ip) (count : Nat) : ∀ {len : Nat}, Matches data ref ip (len + 1) → ip + (len + count) < data.length →
    Yields allowed (fun found => if found.2 then Matches data ref ip found.1 ∧ len < found.1 ∧ found.1 ≤ len + count
      else Matches data ref ip (found.1 + 1) ∧ found.1 = len + count) (compare data ref ip count len) := by
  induction count with
  | zero => exact fun matches_ _ => ⟨matches_, rfl⟩
  | succ count ih =>
    intro len matches_ inside
    obtain ⟨equal, compared, meaning⟩ := same_spec behind (show ip + (len + 1) < data.length by omega)
    rw [compare, compared]
    cases equal with
    | false => exact ⟨matches_, Nat.lt_succ_self _, by omega⟩
    | true =>
      apply (ih (matches_.succ (meaning rfl)) (by omega)).mono
      intro found holds
      split at holds
      next ends => exact (if_pos ends).mpr ⟨holds.1, by omega, by omega⟩
      next goes => exact (if_neg goes).mpr ⟨holds.1, by omega⟩

theorem matchLength_spec (behind : ref < ip) (matches_ : Matches data ref ip 3) (inside : ip + 4 < data.length) :
    Yields allowed (fun found => Matches data ref ip found ∧ 3 ≤ found ∧ found ≤ maxRef ∧ ip + found ≤ data.length)
      (matchLength data ref ip (min (data.length - ip - 2) maxRef)) := by
  rw [maxRef, matchLength]
  apply (compare_spec behind _ matches_ (by split <;> omega)).bind
  intro row first
  split at first
  next ends =>
    rw [if_pos ends]
    exact ⟨first.1, first.2.1, by split at first <;> omega, by split at first <;> omega⟩
  next goes =>
    rw [if_neg goes]
    have far : row.1 = 2 ∨ 16 < min (data.length - ip - 2) 264 ∧ row.1 = 18 := by
      split at first <;> omega
    apply (compare_spec behind _ first.1 (by omega)).bind
    intro rest second
    change Matches data ref ip (if _ then _ else _) ∧ _
    split at second
    next ends =>
      rw [if_pos ends]
      exact ⟨second.1, by omega, by omega, by omega⟩
    next goes =>
      rw [if_neg goes]
      exact ⟨second.1, by omega, by omega, by omega⟩

theorem sameThree_spec (behind : ref < ip) (inside : ip + 2 < data.length) :
    Yields allowed (fun found => found = true → Matches data ref ip 3) (sameThree data ref ip) := by
  obtain ⟨first, compared, zero⟩ := same_spec behind (show ip + 0 < data.length by omega)
  obtain ⟨second, compared', one⟩ := same_spec behind (show ip + 1 < data.length by omega)
  obtain ⟨third, compared'', two⟩ := same_spec behind (show ip + 2 < data.length by omega)
  have none_ : Matches data ref ip 0 := fun k less => absurd less (Nat.not_lt_zero k)
  simp only [sameThree, compared, compared', compared'', bind, Except.bind]
  cases first
  · exact fun found => Bool.noConfusion found
  cases second
  · exact fun found => Bool.noConfusion found
  exact fun found => ((none_.succ (zero rfl)).succ (one rfl)).succ (two found)

/-- No input lies in the first bytes of the address space, or goes around its end. -/
structure Input.Placed (inp : Input) : Prop where
  low : maxOff ≤ inp.base.toNat
  high : inp.base.toNat + inp.data.length ≤ 2 ^ 64

def Reference (inp : Input) (ip : Nat) (slot : UInt64) (off : Nat) : Prop :=
  off < maxOff ∧ off + 1 < ip ∧ slot.toNat - inp.base.toNat = ip - (off + 1) ∧ ip + 4 < inp.data.length ∧ Matches inp.data (ip - (off + 1)) ip 3

theorem isMatch_spec (placed : inp.Placed) (slot : UInt64) :
    Yields allowed (fun found => found = true → Reference inp ip slot (inp.base + UInt64.ofNat ip - slot - 1).toNat) (isMatch inp ip slot) := by
  unfold isMatch
  split
  next possible =>
    obtain ⟨near, inside, above⟩ := possible
    obtain ⟨low, high⟩ := placed
    have small := slot.toNat_lt
    have address : (inp.base + UInt64.ofNat ip).toNat = inp.base.toNat + ip := by
      rw [UInt64.toNat_add, UInt64.toNat_ofNat']
      omega
    have wraps : (inp.base + UInt64.ofNat ip - slot - 1).toNat =
        (2 ^ 64 - 1 + (2 ^ 64 - slot.toNat + (inp.base.toNat + ip)) % 2 ^ 64) % 2 ^ 64 := by
      rw [UInt64.toNat_sub, UInt64.toNat_sub, address]
      rfl
    rw [UInt64.lt_iff_toNat_lt] at above
    generalize (inp.base + UInt64.ofNat ip - slot - 1).toNat = off at *
    rw [maxOff] at low
    have near' : off < 8192 := near
    have place : slot.toNat - inp.base.toNat = ip - (off + 1) := by omega
    have before : off + 1 < ip := by omega
    rw [place]
    apply (sameThree_spec (Nat.sub_lt (by omega) (Nat.succ_pos off)) (by omega)).mono
    exact fun _ compared found => ⟨near, before, place, inside, compared found⟩
  next => exact fun found => Bool.noConfusion found

theorem put_spec (room : s.out.length ≤ inp.outLen) (c : UInt8) : s.put inp c = .ok { s with out := s.out ++ [c] } := by
  rw [Compressor.put, put_eq (Nat.lt_succ_of_le room)]
  rfl

/-- The run is ended: what is written stands for the input up to `ip`. -/
structure Closed (inp : Input) (s : Compressor) : Prop where
  inside : s.ip ≤ inp.data.length
  room : s.out.length ≤ inp.outLen
  written : Codes s.out (inp.data.take s.ip)

/-- Inside of a run, whose length is not stored yet. -/
structure Run (inp : Input) (s : Compressor) : Prop where
  inside : s.ip ≤ inp.data.length
  room : s.out.length ≤ inp.outLen + 1
  begun : s.lit ≠ 0 → s.out.length ≤ inp.outLen
  written : ∃ front done lits hole, Codes front done ∧ inp.data.take s.ip = done ++ lits ∧ s.lit = lits.length ∧ lits.length < maxLit ∧
    s.out = front ++ hole :: lits

variable {front done lits : Bytes}

theorem stopRun_eq (written : s.out = front ++ c :: lits) (count : s.lit = lits.length) (room : s.out.length ≤ inp.outLen + 1) :
    s.stopRun inp = .ok { s with out := front ++ UInt8.ofNat (s.lit + 255) :: lits } := by
  have length : s.out.length = front.length + (s.lit + 1) := by
    rw [written, count, length_append, length_cons]
  rw [Compressor.stopRun, if_pos (by omega), show s.out.length - s.lit - 1 = front.length by omega, written, set_append_right _ _ (Nat.le_refl _),
    Nat.sub_self, set_cons_zero]

/-- The length of a run that is not empty is stored. -/
theorem stopRun_closes (inside : s.ip ≤ inp.data.length) (room : s.out.length ≤ inp.outLen) (codes : Codes front done)
    (whole : inp.data.take s.ip = done ++ lits) (count : s.lit = lits.length) (some_ : s.lit ≠ 0) (short : s.lit ≤ maxLit)
    (written : s.out = front ++ c :: lits) :
    ∃ out, s.stopRun inp = .ok { s with out } ∧ out.length = s.out.length ∧ Closed inp { s with out } := by
  have bytes : UInt8.ofNat (s.lit + 255) :: lits = pieceBytes (.literal lits) := by
    rw [pieceBytes, ← UInt8.ofNat_mod_size, ← count, show (s.lit + 255) % 2 ^ 8 = (s.lit - 1) % 2 ^ 8 by omega, UInt8.ofNat_mod_size]
  have length : (front ++ UInt8.ofNat (s.lit + 255) :: lits).length = s.out.length := by
    rw [written, length_append, length_append, length_cons, length_cons]
  refine ⟨_, stopRun_eq written count (Nat.le_succ_of_le room), length, inside, length ▸ room, ?_⟩
  rw [bytes, whole]
  exact codes.push ⟨count ▸ Nat.pos_of_ne_zero some_, count ▸ short⟩ rfl

theorem endRun_spec (run : Run inp s) : Yields allowed (fun t => Closed inp t ∧ t.ip = s.ip) (s.endRun inp) := by
  obtain ⟨front, done, lits, hole, codes, whole, count, short, written⟩ := run.written
  unfold Compressor.endRun
  by_cases none_ : s.lit = 0
  · have empty := length_eq_zero_iff.mp (count.symm.trans none_)
    subst empty
    have room := run.room
    rw [written, length_append, length_singleton] at room
    rw [append_nil] at whole
    rw [stopRun_eq written count run.room]
    change Yields _ _ (Except.ok (if _ then _ else _))
    rw [if_pos none_, dropLast_concat]
    exact ⟨⟨run.inside, Nat.le_of_succ_le_succ room, whole ▸ codes⟩, rfl⟩
  · obtain ⟨out, stopped, _, closed⟩ := stopRun_closes run.inside (run.begun none_) codes whole count none_ (count ▸ Nat.le_of_lt short) written
    rw [stopped]
    change Yields _ _ (Except.ok (if _ then _ else _))
    rw [if_neg none_]
    exact ⟨closed, rfl⟩

theorem startRun_spec (closed : Closed inp s) : Run inp (s.startRun inp) := by
  refine ⟨closed.inside, ?_, fun begun => absurd rfl begun, s.out, _, [], _, closed.written, (append_nil _).symm, rfl, by decide, rfl⟩
  rw [Compressor.startRun, length_append]
  exact Nat.succ_le_succ closed.room

theorem literal_spec (run : Run inp s) (inside : s.ip < inp.data.length) (room : s.out.length < inp.outLen) :
    Yields allowed (fun t => Run inp t ∧ t.ip = s.ip + 1 ∧ t.out.length ≤ s.out.length + 2) (s.literal inp) := by
  obtain ⟨front, done, lits, hole, codes, whole, count, short, written⟩ := run.written
  obtain ⟨c, source, found⟩ := read_some inside
  have written' : s.out ++ [c] = front ++ hole :: (lits ++ [c]) := by
    rw [written, append_assoc, cons_append]
  have longer : s.lit + 1 = (lits ++ [c]).length := by
    rw [count, length_append]
    rfl
  have length : (s.out ++ [c]).length = s.out.length + 1 := length_append
  have whole' : inp.data.take (s.ip + 1) = done ++ (lits ++ [c]) := by
    rw [take_add_one, found, whole, append_assoc]
    rfl
  simp only [Compressor.literal, source, bind, Except.bind, put_spec (Nat.le_of_lt room)]
  split
  next full =>
    obtain ⟨out, stopped, same, closed⟩ := stopRun_closes (s := { s with ip := s.ip + 1, lit := s.lit + 1, out := s.out ++ [c] })
      inside (length ▸ room) codes whole' longer (Nat.succ_ne_zero _) (Nat.le_of_eq full) written'
    rw [stopped]
    refine ⟨startRun_spec closed, rfl, ?_⟩
    change (out ++ [_]).length ≤ _
    rw [length_append, same, length]
    exact Nat.le_refl _
  next more =>
    exact ⟨⟨inside, length ▸ Nat.succ_le_succ (Nat.le_of_lt room), fun _ => length ▸ room, front, done, lits ++ [c], hole, codes, whole', longer,
      by omega, written'⟩, rfl, length ▸ Nat.le_succ _⟩

theorem next_spec (h : UInt32) (inside : ip + 2 < data.length) : ∃ hval, next h data ip = .ok hval := by
  obtain ⟨c, found, -⟩ := read_some inside
  rw [next, found]
  exact ⟨_, rfl⟩

theorem enter_spec (inside : s.ip + 2 < inp.data.length) : ∃ hval htab, s.enter inp = .ok { s with hval, htab } := by
  obtain ⟨hval, found⟩ := next_spec s.hval inside
  rw [Compressor.enter, found]
  exact ⟨_, _, rfl⟩

theorem first_spec (inside : ip + 1 < data.length) : ∃ hval, first data ip = .ok hval := by
  obtain ⟨c, readC, -⟩ := read_some (Nat.lt_of_succ_lt inside)
  obtain ⟨d, readD, -⟩ := read_some inside
  rw [first, readC, readD]
  exact ⟨_, rfl⟩

/-- The table and the hash have no part in what is written. -/
theorem Run.hash (run : Run inp s) (hval : UInt32) (htab : UInt32 → UInt64) : Run inp { s with hval, htab } :=
  ⟨run.inside, run.room, run.begun, run.written⟩

theorem advance_spec (started : 2 ≤ s.ip) (run : Run inp s) : Yields allowed (fun t => Run inp t ∧ t.ip = s.ip) (s.advance inp) := by
  unfold Compressor.advance
  split
  next => exact ⟨run, rfl⟩
  next more =>
    obtain ⟨hval, hashed⟩ := first_spec (show s.ip - 2 + 1 < inp.data.length by omega)
    obtain ⟨hval', htab, entered⟩ := enter_spec (s := { s with ip := s.ip - 2, hval }) (show s.ip - 2 + 2 < inp.data.length by omega)
    obtain ⟨_, _, entered'⟩ :=
      enter_spec (s := { s with ip := s.ip - 2 + 1, hval := hval', htab }) (show s.ip - 2 + 1 + 2 < inp.data.length by omega)
    simp only [hashed, bind, Except.bind, pure, Except.pure, entered, entered', show s.ip - 2 + 1 + 1 = s.ip by omega]
    exact ⟨run.hash _ _, rfl⟩

theorem putLength_eq (off len : Nat) (room : s.out.length + 1 ≤ inp.outLen) : ∃ head, head ++ [UInt8.ofNat off] = pieceBytes (.copy (off + 1) len) ∧
    head.length ≤ 2 ∧ s.putLength inp off (len - 2) = .ok { s with out := s.out ++ head } := by
  unfold Compressor.putLength
  rw [pieceBytes, Nat.add_sub_cancel]
  split
  next => exact ⟨[_], rfl, Nat.le_succ 1, put_spec (Nat.le_of_succ_le room) _⟩
  next =>
    refine ⟨[_, _], rfl, Nat.le_refl 2, ?_⟩
    rw [put_spec (Nat.le_of_succ_le room), append_cons s.out _ [_]]
    exact put_spec (s := { s with out := s.out ++ [_] }) (by rw [length_append]; exact room) _

theorem backReference_spec {off : Nat} (closed : Closed inp s) (room : s.out.length + 3 ≤ inp.outLen) (fits : Fits (.copy (off + 1) len))
    (behind : off + 1 < s.ip) (within : s.ip + len ≤ inp.data.length) (found : Matches inp.data (s.ip - (off + 1)) s.ip len) :
    Yields allowed (fun t => Run inp t ∧ t.ip = s.ip + len) (s.backReference inp off len) := by
  obtain ⟨head, whole, short, stored⟩ := putLength_eq off len (show s.out.length + 1 ≤ inp.outLen by omega)
  have length : (s.out ++ head).length = s.out.length + head.length := length_append
  have last : (s.out ++ head ++ [UInt8.ofNat off]).length = s.out.length + head.length + 1 := by
    rw [length_append, length, length_singleton]
  have stored' := put_spec (s := { s with out := s.out ++ head }) (show (s.out ++ head).length ≤ inp.outLen by omega) (UInt8.ofNat off)
  simp only [Compressor.backReference, stored, stored', bind, Except.bind]
  have closed' : Closed inp { s with ip := s.ip + len, out := s.out ++ head ++ [UInt8.ofNat off] } := by
    refine ⟨within, last ▸ (by omega : s.out.length + head.length + 1 ≤ inp.outLen), ?_⟩
    rw [append_assoc, whole]
    exact closed.written.push fits (copyBack_take (Nat.succ_pos off) len (Nat.le_of_lt behind) within found)
  exact advance_spec (show 2 ≤ s.ip + len by omega) (startRun_spec closed')

theorem matched_spec {slot : UInt64} (run : Run inp s) (matches_ : Reference inp s.ip slot (inp.base + UInt64.ofNat s.ip - slot - 1).toNat) :
    Yields (· = .returnsZero) (fun t => Run inp t ∧ s.ip < t.ip) (s.matched inp slot) := by
  obtain ⟨near, behind, place, inside, three⟩ := matches_
  unfold Compressor.matched
  apply (endRun_spec run).bind
  intro t ⟨closed, same⟩
  rw [same, place]
  split
  next => exact rfl
  next room =>
    apply (matchLength_spec (by omega) three inside).bind
    intro len ⟨found, long, short, within⟩
    generalize (inp.base + UInt64.ofNat s.ip - slot - 1).toNat = off at *
    rw [← same] at behind within found ⊢
    apply (backReference_spec closed (by omega) ⟨Nat.succ_pos _, near, long, short⟩ behind within found).mono
    exact fun u ⟨run, last⟩ => ⟨run, by omega⟩

theorem round_spec (placed : inp.Placed) (run : Run inp s) (inside : s.ip + 2 < inp.data.length) :
    Yields (· = .returnsZero) (fun t => Run inp t ∧ s.ip < t.ip) (s.round inp) := by
  obtain ⟨hval, hashed⟩ := next_spec s.hval inside
  obtain ⟨hval', htab', entered⟩ := enter_spec inside
  simp only [Compressor.round, hashed, entered, bind, Except.bind]
  apply (isMatch_spec placed (s.htab (idx hval))).bind
  intro found meaning
  split
  next yes => exact matched_spec (run.hash hval' htab') (meaning yes)
  next =>
    split
    next => exact rfl
    next room =>
      apply (literal_spec (run.hash hval' htab') (by simp only; omega) (Nat.lt_of_not_le room)).mono
      exact fun t ⟨run, place, _⟩ => ⟨run, place ▸ Nat.lt_succ_self s.ip⟩

theorem compressLoop_spec (placed : inp.Placed) (fuel : Nat) : ∀ {s : Compressor}, Run inp s → inp.data.length < s.ip + fuel →
    Yields (· = .returnsZero) (fun t => Run inp t ∧ inp.data.length ≤ t.ip + 2) (compressLoop inp fuel s) := by
  induction fuel with
  | zero => exact fun run enough => absurd run.inside (Nat.not_le_of_lt enough)
  | succ fuel ih =>
    intro s run enough
    rw [compressLoop]
    split
    next inside =>
      apply (round_spec placed run inside).bind
      exact fun t ⟨run, further⟩ => ih run (by omega)
    next last => exact ⟨run, Nat.le_of_not_lt last⟩

theorem literals_spec (count : Nat) : ∀ {s : Compressor}, Run inp s → s.ip + count ≤ inp.data.length → s.out.length + 2 * count ≤ inp.outLen + 1 →
    Yields allowed (fun t => Run inp t ∧ t.ip = s.ip + count) (literals inp count s) := by
  induction count with
  | zero => exact fun run _ _ => ⟨run, rfl⟩
  | succ count ih =>
    intro s run inside room
    rw [literals]
    apply (literal_spec run (by omega) (by omega)).bind
    intro t ⟨run, place, little⟩
    apply (ih run (by omega) (by omega)).mono
    exact fun u ⟨run, last⟩ => ⟨run, by omega⟩

/-- The compressor stays inside its buffers, and what it writes is a compressed form of its input. -/
theorem lzfCompress_spec (placed : inp.Placed) (long : 2 ≤ inp.data.length) (htab : UInt32 → UInt64) :
    Yields (· = .returnsZero) (fun result => result.length ≤ inp.outLen ∧ Codes result inp.data) (lzfCompress inp htab) := by
  unfold lzfCompress
  split
  next => exact rfl
  next some_ =>
    obtain ⟨hval, hashed⟩ := first_spec (show 0 + 1 < inp.data.length by omega)
    have start : Run inp (Compressor.startRun inp ⟨0, 0, hval, htab, []⟩) :=
      startRun_spec ⟨Nat.zero_le _, Nat.zero_le _, [], forall_mem_nil _, rfl, rfl⟩
    rw [hashed]
    apply (compressLoop_spec placed _ start (show inp.data.length < 0 + (inp.data.length + 1) by omega)).bind
    intro s ⟨run, last⟩
    split
    next => exact rfl
    next room =>
      have inside := run.inside
      apply (literals_spec _ run (by omega) (by omega)).bind
      intro t ⟨run, place⟩
      apply (endRun_spec run).bind
      intro u ⟨closed, same⟩
      have whole : inp.data.take u.ip = inp.data := take_of_length_le (by omega)
      exact ⟨closed.room, whole ▸ closed.written⟩

/-- Whatever the table and the buffer hold at first, what was compressed is decompressed again. -/
theorem lzf_round_trip (inp : Input) (placed : inp.Placed) (long : 2 ≤ inp.data.length) (htab : UInt32 → UInt64) :
    lzfCompress inp htab = .error .returnsZero ∨ ∃ result, lzfCompress inp htab = .ok result ∧ 0 < result.length ∧
      result.length ≤ inp.outLen ∧ lzfDecompress result inp.data.length = .ok inp.data := by
  have spec := lzfCompress_spec placed long htab
  cases done : lzfCompress inp htab with
  | error stop => exact .inl (congrArg _ (spec.fault done))
  | ok result =>
    obtain ⟨room, codes⟩ := spec.result done
    have nonempty := codes.ne_nil (ne_nil_of_length_pos (Nat.lt_of_lt_of_le Nat.zero_lt_two long))
    exact .inr ⟨result, rfl, length_pos_iff.mpr nonempty, room, codes.decompress nonempty (Nat.le_refl _)⟩

theorem lzf_round_trip_repeated : lzfCompress ⟨replicate 20 7, 8192, 19, fun _ => 0⟩ (fun _ => 0) = .error .returnsZero ∨
    ∃ result, lzfCompress ⟨replicate 20 7, 8192, 19, fun _ => 0⟩ (fun _ => 0) = .ok result ∧ 0 < result.length ∧
      result.length ≤ 19 ∧ lzfDecompress result 20 = .ok (replicate 20 7) :=
  lzf_round_trip ⟨replicate 20 7, 8192, 19, fun _ => 0⟩ ⟨by decide, by decide⟩ (by decide) (fun _ => 0)

end Cplusplus.Lzf
