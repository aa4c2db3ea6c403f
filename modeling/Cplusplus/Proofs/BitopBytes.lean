import Cplusplus.Proofs.BitposRange

/-! BITOP computes its result byte by byte. The fast path maps every byte of the words that it
passes, and the loop over bytes goes on where the words end. -/

namespace Cplusplus.Redis.Strings
open List Option

variable {offset j : Nat} {op : Bitop} {rest : List Bytes}

structure Mapped (f : Nat → UInt8 → UInt8) (lo hi : Nat) (res res' : Bytes) : Prop where
  length : res'.length = res.length
  byte : ∀ i, res'.getD i 0 = if lo ≤ i ∧ i < hi then f i (res.getD i 0) else res.getD i 0

namespace Mapped

variable {f g : Nat → UInt8 → UInt8} {lo mid hi : Nat} {res res' res'' : Bytes}

theorem none (f : Nat → UInt8 → UInt8) (lo : Nat) (res : Bytes) : Mapped f lo lo res res where
  length := rfl
  byte i := by rw [if_neg (by omega)]

theorem append (first : Mapped f lo mid res res') (second : Mapped f mid hi res' res'') (low : lo ≤ mid) (high : mid ≤ hi) :
    Mapped f lo hi res res'' where
  length := second.length.trans first.length
  byte i := by
    rw [second.byte, first.byte]
    by_cases before : i < mid
    · rw [if_neg (by omega)]
      by_cases inside : lo ≤ i
      · rw [if_pos ⟨inside, before⟩, if_pos ⟨inside, by omega⟩]
      · rw [if_neg (by omega), if_neg (by omega)]
    · rw [if_neg (show ¬ (lo ≤ i ∧ i < mid) by omega)]
      by_cases inside : i < hi
      · rw [if_pos ⟨by omega, inside⟩, if_pos ⟨by omega, inside⟩]
      · rw [if_neg (by omega), if_neg (by omega)]

theorem comp (first : Mapped f lo hi res res') (second : Mapped g lo hi res' res'') : Mapped (fun i b => g i (f i b)) lo hi res res'' where
  length := second.length.trans first.length
  byte i := by
    rw [second.byte, first.byte]
    split <;> rfl

theorem congr (mapped : Mapped f lo hi res res') (same : ∀ i, lo ≤ i → i < hi → ∀ b, f i b = g i b) : Mapped g lo hi res res' where
  length := mapped.length
  byte i := by
    rw [mapped.byte]
    split
    next inside => exact same i inside.1 inside.2 _
    next => rfl

end Mapped

theorem loadUlong_eq {s : Bytes} (inside : offset + 8 ≤ s.length) :
    loadUlong s offset = some (BitVec.ofNat 64 (Bytes.leValue ((s.drop offset).take 8))) := by
  rw [loadUlong, Bytes.load, if_pos (by rw [length_drop]; omega)]
  rfl

private theorem wordAt_length {s : Bytes} (inside : offset + 8 ≤ s.length) : ((s.drop offset).take 8).length = 8 := by
  rw [length_take, length_drop]
  omega

theorem word_bytes {a : Bytes} (eight : a.length = 8) : Bytes.leBytes 8 (BitVec.ofNat 64 (Bytes.leValue a)).toNat = a := by
  have bytes := Bytes.leBytes_leValue a
  rw [eight] at bytes
  rw [BitVec.toNat_ofNat, show 2 ^ 64 = 256 ^ 8 from rfl, Bytes.leBytes_mod, bytes]

theorem op_word_bytes (binary : op ≠ .not) (x y : BitVec 64) :
    Bytes.leBytes 8 (op.word x y).toNat = List.zipWith op.byte (Bytes.leBytes 8 x.toNat) (Bytes.leBytes 8 y.toNat) := by
  cases op with
  | and => rw [Bitop.word, BitVec.toNat_and, Bytes.leBytes_and]; rfl
  | or => rw [Bitop.word, BitVec.toNat_or, Bytes.leBytes_or]; rfl
  | xor => rw [Bitop.word, BitVec.toNat_xor, Bytes.leBytes_xor]; rfl
  | not => exact absurd rfl binary

theorem not_word_bytes (x : BitVec 64) : Bytes.leBytes 8 (~~~x).toNat = (Bytes.leBytes 8 x.toNat).map fun b => ~~~b := by
  have ones : Bytes.leBytes 8 (BitVec.allOnes 64).toNat = List.replicate (Bytes.leBytes 8 x.toNat).length 255 := by
    rw [Bytes.leBytes_length]
    decide
  have byte : ∀ b : UInt8, b ^^^ 255 = ~~~b := fun b => UInt8.xor_neg_one
  rw [← BitVec.xor_allOnes, BitVec.toNat_xor, Bytes.leBytes_xor, ones]
  generalize Bytes.leBytes 8 x.toNat = bytes
  induction bytes with
  | nil => rfl
  | cons b bytes ih => rw [length_cons, replicate_succ, zipWith_cons_cons, ih, map_cons, byte]

theorem storeUlong_mapped {f : Nat → UInt8 → UInt8} {res : Bytes} (word : BitVec 64) (inside : offset + 8 ≤ res.length)
    (content : ∀ i < 8, (Bytes.leBytes 8 word.toNat).getD i 0 = f (offset + i) (res.getD (offset + i) 0)) :
    ∃ res', storeUlong res offset word = some res' ∧ Mapped f offset (offset + 8) res res' := by
  have fits : offset + (Bytes.leBytes 8 word.toNat).length ≤ res.length := by rwa [Bytes.leBytes_length]
  have stored := Bytes.store_eq fits
  refine ⟨_, stored, Bytes.store_length stored, ?_⟩
  intro i
  rw [Bytes.store_getD stored, Bytes.leBytes_length]
  split
  next here =>
    rw [content (i - offset) (by omega), Nat.add_sub_cancel' here.1]
  next => rfl

private theorem wordAt_getD (s : Bytes) (offset : Nat) {i : Nat} (near : i < 8) : ((s.drop offset).take 8).getD i 0 = s.getD (offset + i) 0 := by
  rw [getD_eq_getElem?_getD, getElem?_take_of_lt near, getElem?_drop, ← getD_eq_getElem?_getD]

private theorem zipWith_getD {f : UInt8 → UInt8 → UInt8} {a b : Bytes} {i : Nat} (left : i < a.length) (right : i < b.length) :
    (List.zipWith f a b).getD i 0 = f (a.getD i 0) (b.getD i 0) := by
  simp [getD_eq_getElem?_getD, left, right]

private theorem map_getD {f : UInt8 → UInt8} {a : Bytes} {i : Nat} (inside : i < a.length) : (a.map f).getD i 0 = f (a.getD i 0) := by
  simp [getD_eq_getElem?_getD, inside]

theorem mergeWord (binary : op ≠ .not) {res lp : Bytes} (inside : offset + 8 ≤ res.length) (source : offset + 8 ≤ lp.length) :
    ∃ res', (do storeUlong res offset (op.word (← loadUlong res offset) (← loadUlong lp offset))) = some res' ∧
      Mapped (fun i b => op.byte b (lp.getD i 0)) offset (offset + 8) res res' := by
  have left := wordAt_length inside
  have right := wordAt_length source
  obtain ⟨res', stored, mapped⟩ := storeUlong_mapped (f := fun i b => op.byte b (lp.getD i 0))
    (op.word (BitVec.ofNat 64 (Bytes.leValue ((res.drop offset).take 8))) (BitVec.ofNat 64 (Bytes.leValue ((lp.drop offset).take 8)))) inside (by
      intro i near
      rw [op_word_bytes binary, word_bytes left, word_bytes right, zipWith_getD (by omega) (by omega), wordAt_getD _ _ near,
        wordAt_getD _ _ near])
  exact ⟨res', by simp only [loadUlong_eq inside, loadUlong_eq source, bind_eq_bind, bind_some, stored], mapped⟩

theorem invertWord {res : Bytes} (inside : offset + 8 ≤ res.length) :
    ∃ res', (do storeUlong res offset (~~~(← loadUlong res offset))) = some res' ∧ Mapped (fun _ b => ~~~b) offset (offset + 8) res res' := by
  have eight := wordAt_length inside
  obtain ⟨res', stored, mapped⟩ := storeUlong_mapped (f := fun _ b => ~~~b)
    (~~~(BitVec.ofNat 64 (Bytes.leValue ((res.drop offset).take 8)))) inside (by
      intro i near
      rw [not_word_bytes, word_bytes eight, map_getD (by omega), wordAt_getD _ _ near])
  exact ⟨res', by simp only [loadUlong_eq inside, bind_eq_bind, bind_some, stored], mapped⟩

def combined (op : Bitop) (rest : List Bytes) (i : Nat) (b : UInt8) : UInt8 :=
  rest.foldl (fun output s => op.byte output (s.getD i 0)) (if op = .not then ~~~b else b)

theorem foldlM_words {f : Nat → UInt8 → UInt8} {step : Bytes → Nat → Option Bytes} {res : Bytes}
    (word : ∀ r k, r.length = res.length → k < 4 → ∃ r', step r k = some r' ∧ Mapped f (j + 8 * k) (j + 8 * k + 8) r r') :
    ∃ res', [0, 1, 2, 3].foldlM step res = some res' ∧ Mapped f j (j + 32) res res' := by
  obtain ⟨r0, step0, mapped0⟩ := word res 0 rfl (by decide)
  obtain ⟨r1, step1, mapped1⟩ := word r0 1 mapped0.length (by decide)
  have first := mapped0.append mapped1 (by omega) (by omega)
  obtain ⟨r2, step2, mapped2⟩ := word r1 2 first.length (by decide)
  have second := first.append mapped2 (by omega) (by omega)
  obtain ⟨r3, step3, mapped3⟩ := word r2 3 second.length (by decide)
  refine ⟨r3, ?_, second.append mapped3 (by omega) (by omega)⟩
  simp only [foldlM_cons, foldlM_nil, step0, step1, step2, step3, bind_eq_bind, bind_some]
  rfl

theorem mergeWords_mapped (binary : op ≠ .not) {res lp : Bytes} (inside : j + 32 ≤ res.length) (source : j + 32 ≤ lp.length) :
    ∃ res', mergeWords op j res lp = some res' ∧ Mapped (fun i b => op.byte b (lp.getD i 0)) j (j + 32) res res' := by
  apply foldlM_words
  intro r k same near
  exact mergeWord binary (by omega) (by omega)

theorem invertWords_mapped {res : Bytes} (inside : j + 32 ≤ res.length) :
    ∃ res', invertWords j res = some res' ∧ Mapped (fun _ b => ~~~b) j (j + 32) res res' := by
  apply foldlM_words
  intro r k same near
  exact invertWord (by omega)

theorem fastStep_mapped (single : op = .not → rest = []) {res : Bytes} (inside : j + 32 ≤ res.length)
    (sources : ∀ s ∈ rest, j + 32 ≤ s.length) :
    ∃ res', fastStep op j res rest = some res' ∧ Mapped (combined op rest) j (j + 32) res res' := by
  rw [fastStep]
  split
  next inverted =>
    obtain ⟨res', ran, mapped⟩ := invertWords_mapped inside
    refine ⟨res', ran, mapped.congr ?_⟩
    intro i _ _ b
    rw [combined, single inverted, if_pos inverted, foldl_nil]
  next binary =>
    have unfolded : ∀ i b, combined op rest i b = rest.foldl (fun output s => op.byte output (s.getD i 0)) b := fun i b => by
      rw [combined, if_neg binary]
    clear single
    induction rest generalizing res with
    | nil => exact ⟨res, rfl, rfl, fun i => by rw [unfolded, foldl_nil, ite_self]⟩
    | cons s rest ih =>
      obtain ⟨res', ran, mapped⟩ := mergeWords_mapped binary inside (sources s mem_cons_self)
      obtain ⟨res'', ran', mapped'⟩ := ih (by rw [mapped.length]; exact inside) (fun t member => sources t (mem_cons_of_mem _ member))
        fun i b => by rw [combined, if_neg binary]
      refine ⟨res'', by rw [foldlM_cons, ran]; exact ran', (mapped.comp mapped').congr ?_⟩
      intro i _ _ b
      rw [unfolded, foldl_cons, combined, if_neg binary]

theorem fastLoop_mapped (single : op = .not → rest = []) (fuel minlen j : Nat) {res : Bytes} (enough : minlen ≤ fuel)
    (inside : j + minlen ≤ res.length) (sources : ∀ s ∈ rest, j + minlen ≤ s.length) :
    ∃ res' j', fastLoop op rest fuel minlen j res = some (res', j') ∧ j ≤ j' ∧ j' ≤ j + minlen ∧ Mapped (combined op rest) j j' res res' := by
  induction fuel generalizing minlen j res with
  | zero => exact ⟨res, j, rfl, Nat.le_refl j, Nat.le_add_right j minlen, Mapped.none _ _ _⟩
  | succ fuel ih =>
    rw [fastLoop]
    split
    next long =>
      obtain ⟨res', ran, mapped⟩ := fastStep_mapped single (show j + 32 ≤ res.length by omega) fun s member => by
        have := sources s member
        omega
      obtain ⟨res'', j', ran', low, high, mapped'⟩ := ih (minlen - 32) (j + 32) (by omega) (show j + 32 + (minlen - 32) ≤ res'.length by
        rw [mapped.length]; omega) fun s member => by
          have := sources s member
          omega
      exact ⟨res'', j', by rw [ran]; exact ran', by omega, by omega, mapped.append mapped' (by omega) low⟩
    next => exact ⟨res, j, rfl, Nat.le_refl j, Nat.le_add_right j minlen, Mapped.none _ _ _⟩

theorem paddedByte_eq (s : Bytes) (j : Nat) : paddedByte s j = s.getD j 0 := by
  rw [paddedByte]
  split
  next beyond => rw [getD_eq_getElem?_getD, getElem?_eq_none beyond, getD_none]
  next => rfl

theorem bitopByte_eq (op : Bitop) (first : Bytes) (rest : List Bytes) (j : Nat) : bitopByte op first rest j = combined op rest j (first.getD j 0) := by
  simp only [bitopByte, combined, paddedByte_eq]

theorem byteLoop_mapped (op : Bitop) (first : Bytes) (rest : List Bytes) (count j : Nat) {res : Bytes} (inside : j + count ≤ res.length) :
    ∃ res', byteLoop op first rest count j res = some res' ∧ Mapped (fun i _ => combined op rest i (first.getD i 0)) j (j + count) res res' := by
  induction count generalizing j res with
  | zero => exact ⟨res, rfl, Mapped.none _ _ _⟩
  | succ count ih =>
    have stored := Bytes.store_eq (show j + [bitopByte op first rest j].length ≤ res.length by rw [length_singleton]; omega)
    have here : Mapped (fun i _ => combined op rest i (first.getD i 0)) j (j + 1) res _ := ⟨Bytes.store_length stored, fun i => by
      rw [Bytes.store_getD stored, length_singleton]
      split
      next at_ =>
        obtain rfl : i = j := by omega
        rw [Nat.sub_self, bitopByte_eq]
        rfl
      next => rfl⟩
    obtain ⟨res', ran, mapped⟩ := ih (j + 1) (by rw [here.length]; omega)
    refine ⟨res', by rw [byteLoop, stored]; exact ran, ?_⟩
    have both := here.append mapped (by omega) (by omega)
    rwa [show j + 1 + count = j + (count + 1) by omega] at both

theorem bitopResult_eq {first : Bytes} (single : op = .not → rest = []) {maxlen minlen : Nat}
    (least : ∀ s ∈ first :: rest, minlen ≤ s.length) (most : first.length ≤ maxlen) :
    bitopResult op first rest maxlen minlen = some ((List.range maxlen).map fun i => combined op rest i (first.getD i 0)) := by
  have whole : ∀ {j : Nat} {res : Bytes}, j ≤ maxlen → res.length = maxlen → (∀ i < j, res.getD i 0 = combined op rest i (first.getD i 0)) →
      byteLoop op first rest (maxlen - j) j res = some ((List.range maxlen).map fun i => combined op rest i (first.getD i 0)) := by
    intro j res start length done
    obtain ⟨res', ran, mapped⟩ := byteLoop_mapped op first rest (maxlen - j) j (show j + (maxlen - j) ≤ res.length by omega)
    rw [ran]
    congr 1
    apply ext_getElem
    · rw [mapped.length, length, length_map, length_range]
    · intro i inside inside'
      have byte := mapped.byte i
      rw [getD_eq_getElem _ _ inside] at byte
      rw [byte, getElem_map, getElem_range]
      rw [mapped.length, length] at inside
      split
      next => rfl
      next before => exact done i (by omega)
  rw [bitopResult]
  split
  next fast =>
    have firstLeast := least first mem_cons_self
    have taken : (first.take minlen).length = minlen := by rw [length_take, Nat.min_eq_left firstLeast]
    have stored := Bytes.store_eq (show 0 + (first.take minlen).length ≤ (List.replicate maxlen (0 : UInt8)).length by
      rw [taken, length_replicate]; omega)
    have length := Bytes.store_length stored
    rw [length_replicate] at length
    obtain ⟨res, j, ran, -, high, mapped⟩ := fastLoop_mapped single minlen minlen 0 (Nat.le_refl _)
      (show 0 + minlen ≤ _ by rw [length]; omega) fun s member => by
        have := least s (mem_cons_of_mem _ member)
        omega
    simp only [stored, ran, bind_eq_bind, bind_some]
    apply whole (by omega) (mapped.length.trans length)
    intro i before
    rw [mapped.byte, if_pos ⟨Nat.zero_le i, before⟩, Bytes.store_getD stored, if_pos ⟨Nat.zero_le i, by rw [taken]; omega⟩, Nat.sub_zero,
      getD_eq_getElem?_getD, getElem?_take_of_lt (by omega), ← getD_eq_getElem?_getD]
  next =>
    simp only [bind_eq_bind, bind_some]
    exact whole (Nat.zero_le _) length_replicate fun i before => absurd before (Nat.not_lt_zero i)

/-- The operation on byte `i` of all sources, where a source that has ended has zero bytes. -/
def bytewise (op : Bitop) (sources : List Bytes) (i : Nat) : UInt8 :=
  let bytes := sources.map fun s => s.getD i 0
  match op with
  | .and => bytes.foldl (· &&& ·) 255
  | .or => bytes.foldl (· ||| ·) 0
  | .xor => bytes.foldl (· ^^^ ·) 0
  | .not => ~~~bytes.headD 0

theorem combined_bytewise (first : Bytes) (single : op = .not → rest = []) (i : Nat) :
    combined op rest i (first.getD i 0) = bytewise op (first :: rest) i := by
  cases op with
  | and =>
    have ones : (255 : UInt8) &&& first.getD i 0 = first.getD i 0 := UInt8.neg_one_and
    simp only [combined, bytewise, map_cons, foldl_cons, foldl_map, ones]
    rfl
  | or =>
    simp only [combined, bytewise, map_cons, foldl_cons, foldl_map, UInt8.zero_or]
    rfl
  | xor =>
    simp only [combined, bytewise, map_cons, foldl_cons, foldl_map, UInt8.zero_xor]
    rfl
  | not =>
    rw [combined, single rfl]
    rfl

def maxLength (texts : List Bytes) : Nat := (texts.map List.length).foldr max 0

theorem le_maxLength {texts : List Bytes} {s : Bytes} (member : s ∈ texts) : s.length ≤ maxLength texts := by
  induction texts with
  | nil => cases member
  | cons t texts ih =>
    rw [maxLength, map_cons, foldr_cons]
    rcases mem_cons.mp member with rfl | member
    · exact Nat.le_max_left _ _
    · exact Nat.le_trans (ih member) (Nat.le_max_right _ _)

theorem bitopLengths_cons (source : Option Bytes) (src : List (Option Bytes)) (j maxlen minlen : Nat) :
    bitopLengths (source :: src) j maxlen minlen = bitopLengths src (j + 1) (max maxlen (source.getD []).length)
      (if j = 0 then (source.getD []).length else min minlen (source.getD []).length) := by
  cases source with
  | none => simp [bitopLengths]
  | some text =>
    rw [bitopLengths, getD_some]
    congr 1
    · split <;> omega
    · split_ifs <;> omega

theorem bitopLengths_spec (src : List (Option Bytes)) (j maxlen minlen : Nat) :
    (bitopLengths src (j + 1) maxlen minlen).1 = max maxlen (maxLength (src.map fun s => s.getD [])) ∧
      (bitopLengths src (j + 1) maxlen minlen).2 ≤ minlen ∧
        ∀ s ∈ src.map fun s => s.getD [], (bitopLengths src (j + 1) maxlen minlen).2 ≤ s.length := by
  induction src generalizing j maxlen minlen with
  | nil => exact ⟨by simp [bitopLengths, maxLength], Nat.le_refl _, by simp⟩
  | cons source src ih =>
    rw [bitopLengths_cons, if_neg (Nat.succ_ne_zero j)]
    obtain ⟨most, least, all⟩ := ih (j + 1) (max maxlen (source.getD []).length) (min minlen (source.getD []).length)
    refine ⟨?_, Nat.le_trans least (Nat.min_le_left _ _), ?_⟩
    · rw [most, maxLength, maxLength, map_cons, map_cons, foldr_cons, Nat.max_assoc]
    · intro s member
      rcases mem_cons.mp member with rfl | member
      · exact Nat.le_trans least (Nat.min_le_right _ _)
      · exact all s member

theorem bitopLengths_start (src : List (Option Bytes)) : (bitopLengths src 0 0 0).1 = maxLength (src.map fun s => s.getD []) ∧
      ∀ s ∈ src.map fun s => s.getD [], (bitopLengths src 0 0 0).2 ≤ s.length := by
  cases src with
  | nil => exact ⟨rfl, by simp⟩
  | cons source src =>
    rw [bitopLengths_cons, if_pos rfl]
    obtain ⟨most, least, all⟩ := bitopLengths_spec src 0 (max 0 (source.getD []).length) (source.getD []).length
    refine ⟨?_, ?_⟩
    · rw [most, maxLength, maxLength, map_cons, map_cons, foldr_cons, Nat.zero_max]
    · intro s member
      rcases mem_cons.mp member with rfl | member
      · exact least
      · exact all s member

theorem bitopSources_eq {db : Keyspace} {keys : List Key} {texts : List Bytes} (strings : keys.mapM (stringAt db) = some texts) :
    ∃ sources, bitopSources db keys = some sources ∧ sources.length = keys.length ∧ sources.map (fun s => s.getD []) = texts := by
  induction keys generalizing texts with
  | nil => exact ⟨[], rfl, rfl, some.inj strings⟩
  | cons key keys ih =>
    rw [mapM_cons] at strings
    obtain ⟨text, here, strings⟩ := bind_eq_some_iff.mp strings
    obtain ⟨texts', others, same⟩ := bind_eq_some_iff.mp strings
    cases same
    obtain ⟨sources, found, count, mapped⟩ := ih others
    obtain ⟨missing, rfl⟩ | ⟨o, there, rfl⟩ := stringAt_cases here
    · exact ⟨none :: sources, by simp [bitopSources, missing, found], by simp [count], by simp [mapped]⟩
    · exact ⟨some (getDecodedObject o) :: sources, by simp [bitopSources, there, found], by simp [count], by simp [mapped]⟩

def storeString (db : Keyspace) (key : Key) (res : Bytes) : Keyspace :=
  Function.update db key (if res = [] then none else some (.string (.sds res)))

/-- BITOP with any sources stores what the operation makes of their bytes. -/
theorem bitop_bytewise {db : Keyspace} {opname : Bytes} {op : Bitop} {targetkey : Key} {keys : List Key} {texts : List Bytes}
    (parsed : parseBitop opname = some op) (given : keys ≠ []) (single : op = .not → keys.length = 1)
    (strings : keys.mapM (stringAt db) = some texts) :
    bitopCommand db opname targetkey keys =
      some (storeString db targetkey ((List.range (maxLength texts)).map (bytewise op texts)), .integer (maxLength texts)) := by
  obtain ⟨sources, found, count, rfl⟩ := bitopSources_eq strings
  obtain ⟨most, least⟩ := bitopLengths_start sources
  have arity : ¬ (op = .not ∧ keys.length ≠ 1) := fun ⟨inverted, other⟩ => other (single inverted)
  simp only [bitopCommand, parsed, found]
  rw [if_neg arity, most]
  split
  next empty =>
    rw [empty]
    rfl
  next some_ =>
    cases texts : sources.map fun s => s.getD [] with
    | nil =>
      have none : sources.length = 0 := by rw [← length_map fun s : Option Bytes => s.getD [], texts]; rfl
      exact absurd (length_eq_zero_iff.mp (count.symm.trans none)) given
    | cons first rest =>
      rw [texts] at most least some_
      have alone : op = .not → rest = [] := by
        intro inverted
        have length := congrArg List.length texts
        rw [length_map, count, single inverted, length_cons] at length
        exact length_eq_zero_iff.mp (by omega)
      simp only [bitopResult_eq alone least (le_maxLength mem_cons_self), bind_eq_bind, bind_some, storeString,
        combined_bytewise first alone]
      rw [if_neg]
      · rfl
      · intro none
        apply some_
        have length := congrArg List.length none
        rwa [length_map, length_range] at length

/-- AND of two strings. -/
theorem bitop_bytewise_and :
    bitopCommand (fun key => some (.string (.sds key))) andName [116] [[1, 3], [3]] =
      some (storeString (fun key => some (.string (.sds key))) [116] [1, 0], .integer 2) := by
  have strings : [[1, 3], [3]].mapM (stringAt fun key => some (.string (.sds key))) = some [[1, 3], [3]] := rfl
  exact bitop_bytewise (show parseBitop andName = some .and by decide) (by simp) (by simp) strings

end Cplusplus.Redis.Strings
