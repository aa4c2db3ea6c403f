import Cplusplus.Sds
import Mathlib.Data.List.Basic

/-! What `sdscatrepr` writes, `sdssplitargs` reads back, for one string and for a line of them. -/

namespace Cplusplus.Redis.Sds

open List
open CheckAof (isspace)

def ReadsAs (text : Bytes) (c : UInt8) : Prop :=
  ∀ rest current, ∃ p, tokenStep .double (text ++ rest) current = .next .double p (current ++ [c]) ∧ advance p = rest

theorem readsAs_escape {e : UInt8} (nonzero : e ≠ 0) (hex : e ≠ 120) : ReadsAs [92, e] (unescape e) := by
  intro rest current
  refine ⟨e :: rest, ?_, ?_⟩
  · simp [tokenStep, peek, nonzero, hex]
  · simp [advance, peek, nonzero]

theorem readsAs_plain {c : UInt8} (nonzero : c ≠ 0) (backslash : c ≠ 92) (quote : c ≠ 34) : ReadsAs [c] c := by
  intro rest current
  refine ⟨c :: rest, ?_, ?_⟩
  · simp [tokenStep, peek, nonzero, backslash, quote]
  · simp [advance, peek, nonzero]

private theorem hexDigit_spec : ∀ d < 16, isHexDigit (hexDigit d) = true ∧ hexDigitToInt (hexDigit d) = d ∧ hexDigit d ≠ 0 := by
  decide

theorem readsAs_hex (c : UInt8) : ReadsAs [92, 120, hexDigit (c.toNat / 16), hexDigit (c.toNat % 16)] c := by
  obtain ⟨upper, high, -⟩ := hexDigit_spec (c.toNat / 16) (by have := c.toNat_lt; omega)
  obtain ⟨lower, low, nonzero⟩ := hexDigit_spec (c.toNat % 16) (Nat.mod_lt _ (by decide))
  intro rest current
  refine ⟨hexDigit (c.toNat % 16) :: rest, ?_, ?_⟩
  · have byte : UInt8.ofNat (hexDigitToInt (hexDigit (c.toNat / 16)) * 16 + hexDigitToInt (hexDigit (c.toNat % 16))) = c := by
      rw [high, low, Nat.div_add_mod', UInt8.ofNat_toNat]
    simp [tokenStep, peek, upper, lower, byte]
  · simp [advance, peek, nonzero]

theorem readsAs_reprByte (c : UInt8) : ReadsAs (reprByte c) c := by
  unfold reprByte
  split
  next self =>
    have same : unescape c = c := by rcases self with rfl | rfl <;> rfl
    have read := readsAs_escape (e := c) (by rcases self with rfl | rfl <;> decide) (by rcases self with rfl | rfl <;> decide)
    rwa [same] at read
  next plain =>
    split
    next newline => exact newline ▸ readsAs_escape (e := 110) (by decide) (by decide)
    next =>
      split
      next carriage => exact carriage ▸ readsAs_escape (e := 114) (by decide) (by decide)
      next =>
        split
        next tab => exact tab ▸ readsAs_escape (e := 116) (by decide) (by decide)
        next =>
          split
          next alert => exact alert ▸ readsAs_escape (e := 97) (by decide) (by decide)
          next =>
            split
            next backspace => exact backspace ▸ readsAs_escape (e := 98) (by decide) (by decide)
            next =>
              split
              next print =>
                have nonzero : c ≠ 0 := fun zero => by
                  rw [zero] at print
                  exact absurd print (by decide)
                exact readsAs_plain nonzero (fun same => plain (.inl same)) (fun same => plain (.inr same))
              next => exact readsAs_hex c

def Separated (rest : Bytes) : Prop := peek rest 0 = 0 ∨ isspace (peek rest 0) = true

theorem tokenLoop_repr {rest : Bytes} (separated : Separated rest) (s current : Bytes) {fuel : Nat} (enough : s.length < fuel) :
    tokenLoop fuel .double (s.flatMap reprByte ++ 34 :: rest) current = some (current ++ s, rest) := by
  induction s generalizing fuel current with
  | nil =>
    obtain ⟨fuel, rfl⟩ := Nat.exists_eq_succ_of_ne_zero (Nat.ne_of_gt enough)
    have close : closeQuote (34 :: rest) = .done := by
      unfold closeQuote
      rw [if_neg]
      rintro ⟨nonzero, other⟩
      rcases separated with zero | space
      · exact nonzero zero
      · rw [show peek (34 :: rest) 1 = peek rest 0 from rfl, space] at other
        cases other
    simp [tokenLoop, tokenStep, peek, close, advance]
  | cons c s ih =>
    obtain ⟨fuel, rfl⟩ := Nat.exists_eq_succ_of_ne_zero (Nat.ne_of_gt (Nat.zero_lt_of_lt enough))
    rw [length_cons] at enough
    obtain ⟨p, step, rest_⟩ := readsAs_reprByte c (s.flatMap reprByte ++ 34 :: rest) current
    rw [flatMap_cons, append_assoc, tokenLoop, step]
    simp only [rest_]
    rw [ih (current ++ [c]) (by omega), append_assoc, singleton_append]

theorem sdscatrepr_eq (s p : Bytes) : sdscatrepr s p = s ++ 34 :: p.flatMap reprByte ++ [34] := by
  have loop : ∀ start : Bytes, p.foldl (fun s c => s ++ reprByte c) start = start ++ p.flatMap reprByte := by
    induction p with
    | nil => simp
    | cons c p ih =>
      intro start
      rw [foldl_cons, ih, flatMap_cons, append_assoc]
  simp [sdscatrepr, loop]

private theorem length_le_flatMap (s : Bytes) : s.length ≤ (s.flatMap reprByte).length := by
  induction s with
  | nil => simp
  | cons c s ih =>
    have nonempty : 0 < (reprByte c).length := by
      unfold reprByte
      repeat' split
      all_goals simp
    rw [flatMap_cons, length_append, length_cons]
    omega

theorem splitLoop_repr {rest : Bytes} (separated : Separated rest) (s : Bytes) (fuel : Nat) (vector : List Bytes) :
    splitLoop (fuel + 1) (sdscatrepr [] s ++ rest) vector = splitLoop fuel rest (vector ++ [s]) := by
  have text : sdscatrepr [] s ++ rest = 34 :: (s.flatMap reprByte ++ 34 :: rest) := by simp [sdscatrepr_eq]
  have length := length_le_flatMap s
  rw [text, splitLoop, dropWhile_cons_of_neg (by decide)]
  have opened : tokenLoop ((34 :: (s.flatMap reprByte ++ 34 :: rest)).length + 1) .none (34 :: (s.flatMap reprByte ++ 34 :: rest)) [] =
      some (s, rest) := by
    rw [length_cons, tokenLoop]
    simp only [tokenStep, peek, getD_cons_zero, advance]
    exact tokenLoop_repr separated s [] (by simp only [length_append, length_cons]; omega)
  rw [opened]
  simp [peek]

theorem splitLoop_space (p : Bytes) (fuel : Nat) (vector : List Bytes) : splitLoop fuel (32 :: p) vector = splitLoop fuel p vector := by
  cases fuel with
  | zero => rfl
  | succ fuel => rw [splitLoop, splitLoop, dropWhile_cons_of_pos (by decide)]

theorem splitLoop_tail (l : List Bytes) {fuel : Nat} (enough : l.length < fuel) (vector : List Bytes) :
    splitLoop fuel (l.flatMap fun s => 32 :: sdscatrepr [] s) vector = some (vector ++ l) := by
  induction l generalizing fuel vector with
  | nil =>
    obtain ⟨fuel, rfl⟩ := Nat.exists_eq_succ_of_ne_zero (Nat.ne_of_gt enough)
    simp [splitLoop, peek]
  | cons s l ih =>
    obtain ⟨fuel, rfl⟩ := Nat.exists_eq_succ_of_ne_zero (Nat.ne_of_gt (Nat.zero_lt_of_lt enough))
    rw [length_cons] at enough
    have separated : Separated (l.flatMap fun s => 32 :: sdscatrepr [] s) := by
      cases l with
      | nil => exact .inl rfl
      | cons => exact .inr (by simp [peek, isspace])
    rw [flatMap_cons, cons_append, splitLoop_space, splitLoop_repr separated, ih (by omega), append_assoc, singleton_append]

private theorem intercalate_cons (s : Bytes) (l : List Bytes) :
    List.intercalate [32] ((s :: l).map (sdscatrepr [])) = sdscatrepr [] s ++ l.flatMap fun s => 32 :: sdscatrepr [] s := by
  induction l generalizing s with
  | nil => simp [List.intercalate]
  | cons t l ih =>
    rw [map_cons, map_cons, intercalate_cons_cons, ← map_cons, ih]
    simp

theorem sdssplitargs_join (l : List Bytes) : sdssplitargs (List.intercalate [32] (l.map (sdscatrepr []))) = some l := by
  cases l with
  | nil => rfl
  | cons s l =>
    have separated : Separated (l.flatMap fun s => 32 :: sdscatrepr [] s) := by
      cases l with
      | nil => exact .inl rfl
      | cons => exact .inr (by simp [peek, isspace])
    have enough : l.length < (sdscatrepr [] s ++ l.flatMap fun s => 32 :: sdscatrepr [] s).length := by
      have tail : l.length ≤ (l.flatMap fun s => 32 :: sdscatrepr [] s).length := by
        clear separated
        induction l with
        | nil => simp
        | cons t l ih =>
          rw [flatMap_cons, length_append, length_cons, length_cons]
          omega
      simp only [length_append, sdscatrepr_eq, length_cons, length_nil] at tail ⊢
      omega
    rw [intercalate_cons, sdssplitargs, splitLoop_repr separated, splitLoop_tail l enough]
    rfl

section
def words (text : Bytes) : List Bytes := (text.splitOnP isspace).filter (· ≠ [])

def Spaced (text : Bytes) : Prop :=
  ∀ front last c back, text = front ++ last :: c :: back → c = 11 ∨ c = 12 → isspace last = true

structure Unquoted (text : Bytes) : Prop where
  plain : ∀ c ∈ text, c ≠ 0 ∧ c ≠ 34 ∧ c ≠ 39
  spaced : Spaced text

variable {text front back word rest : Bytes} {c : UInt8} {fuel : Nat}

theorem Unquoted.suffix (unquoted : Unquoted (front ++ back)) : Unquoted back := by
  refine ⟨fun c member => unquoted.plain c (mem_append_right _ member), ?_⟩
  rintro first last c rest rfl special
  exact unquoted.spaced (front ++ first) last c rest (append_assoc ..).symm special

theorem Unquoted.tail (unquoted : Unquoted (c :: back)) : Unquoted back := by
  have whole : Unquoted ([c] ++ back) := unquoted
  exact whole.suffix

theorem unquoted_of_plain (plain : text.all (fun c => c != 0 && c != 34 && c != 39 && c != 11 && c != 12) = true) : Unquoted text := by
  simp only [List.all_eq_true, Bool.and_eq_true, bne_iff_ne] at plain
  constructor
  · intro c member
    obtain ⟨⟨⟨⟨zero, double⟩, single⟩, -⟩, -⟩ := plain c member
    exact ⟨zero, double, single⟩
  · rintro front last c back rfl special
    obtain ⟨⟨-, vertical⟩, feed⟩ := plain c (by simp)
    rcases special with same | same
    · exact absurd same vertical
    · exact absurd same feed

theorem isspace_cases (space : isspace c = true) (special : c ≠ 11 ∧ c ≠ 12) : c = 32 ∨ c = 10 ∨ c = 13 ∨ c = 9 := by
  have other : c.toNat ≠ 11 ∧ c.toNat ≠ 12 := ⟨fun same => special.1 (UInt8.toNat_inj.mp same), fun same => special.2 (UInt8.toNat_inj.mp same)⟩
  simp only [isspace, Bool.or_eq_true, Bool.and_eq_true, decide_eq_true_eq, UInt8.le_iff_toNat_le] at space
  have values : (13 : UInt8).toNat = 13 ∧ (9 : UInt8).toNat = 9 := by decide
  rcases space with space | between
  · exact .inl space
  obtain ten | thirteen | nine : c.toNat = 10 ∨ c.toNat = 13 ∨ c.toNat = 9 := by omega
  · exact .inr (.inl (UInt8.toNat_inj.mp ten))
  · exact .inr (.inr (.inl (UInt8.toNat_inj.mp thirteen)))
  · exact .inr (.inr (.inr (UInt8.toNat_inj.mp nine)))

theorem words_space (space : isspace c = true) (text : Bytes) : words (c :: text) = words text := by
  rw [words, splitOnP_cons_eq_if_modifyHead, if_pos space, filter_cons_of_neg (by simp)]
  rfl

theorem words_dropWhile (text : Bytes) : words (text.dropWhile isspace) = words text := by
  induction text with
  | nil => rfl
  | cons c text ih =>
    by_cases space : isspace c = true
    · rw [dropWhile_cons_of_pos space, ih, words_space space]
    · rw [dropWhile_cons_of_neg space]

theorem split_word (text : Bytes) : ∃ word rest, text = word ++ rest ∧ (∀ c ∈ word, isspace c = false) ∧
    (rest = [] ∨ ∃ c after, rest = c :: after ∧ isspace c = true) := by
  induction text with
  | nil => exact ⟨[], [], rfl, nofun, .inl rfl⟩
  | cons c text ih =>
    cases space : isspace c with
    | true => exact ⟨[], c :: text, rfl, nofun, .inr ⟨c, text, rfl, space⟩⟩
    | false =>
      obtain ⟨word, rest, rfl, solid, ends⟩ := ih
      exact ⟨c :: word, rest, rfl, forall_mem_cons.mpr ⟨space, solid⟩, ends⟩

theorem words_last (solid : ∀ c ∈ word, isspace c = false) (some_ : word ≠ []) : words word = [word] := by
  rw [words, splitOnP_eq_singleton solid, filter_cons_of_pos (by simpa using some_), filter_nil]

theorem words_cons (solid : ∀ c ∈ word, isspace c = false) (some_ : word ≠ []) (space : isspace c = true) (rest : Bytes) :
    words (word ++ c :: rest) = word :: words rest := by
  rw [words, splitOnP_append_cons_of_forall_mem solid c space, filter_cons_of_pos (by simpa using some_)]
  rfl

def EndsWord (rest : Bytes) : Prop := rest = [] ∨ ∃ c after, rest = c :: after ∧ (c = 32 ∨ c = 10 ∨ c = 13 ∨ c = 9)

theorem tokenLoop_word (ends : EndsWord rest) (plain : ∀ c ∈ word, isspace c = false ∧ c ≠ 0 ∧ c ≠ 34 ∧ c ≠ 39) (enough : word.length < fuel)
    (current : Bytes) : tokenLoop fuel .none (word ++ rest) current = some (current ++ word, advance rest) := by
  induction word generalizing fuel current with
  | nil =>
    obtain ⟨fuel, rfl⟩ : ∃ less, fuel = less + 1 := ⟨fuel - 1, by omega⟩
    have ended : tokenStep .none rest current = .done := by
      obtain rfl | ⟨c, after, rfl, rfl | rfl | rfl | rfl⟩ := ends <;> rfl
    rw [tokenLoop, nil_append, ended, append_nil]
  | cons c word ih =>
    obtain ⟨⟨solid, zero, double, single⟩, plain⟩ := forall_mem_cons.mp plain
    obtain ⟨fuel, rfl⟩ : ∃ less, fuel = less + 1 := ⟨fuel - 1, by omega⟩
    have first : peek (c :: (word ++ rest)) 0 = c := rfl
    have inside : ¬ (c = 32 ∨ c = 10 ∨ c = 13 ∨ c = 9 ∨ c = 0) := by
      rintro (rfl | rfl | rfl | rfl | rfl)
      · cases solid
      · cases solid
      · cases solid
      · cases solid
      · exact zero rfl
    have step : tokenStep .none (c :: (word ++ rest)) current = .next .none (c :: (word ++ rest)) (current ++ [c]) := by
      simp only [tokenStep, first, inside, double, single, if_false]
    have onward : advance (c :: (word ++ rest)) = word ++ rest := by
      rw [advance, first, if_pos zero]
      rfl
    rw [length_cons] at enough
    rw [tokenLoop, cons_append, step]
    simp only [onward]
    rw [ih plain (by omega), append_assoc, singleton_append]

theorem splitLoop_words (unquoted : Unquoted text) (enough : text.length < fuel) (vector : List Bytes) :
    splitLoop fuel text vector = some (vector ++ words text) := by
  induction fuel generalizing text vector with
  | zero => exact absurd enough (Nat.not_lt_zero _)
  | succ fuel ih =>
    rw [splitLoop, ← words_dropWhile]
    have short : (text.dropWhile isspace).length ≤ text.length := (dropWhile_sublist _).length_le
    have unquoted' : Unquoted (text.dropWhile isspace) := by
      rw [← takeWhile_append_dropWhile (p := isspace) (l := text)] at unquoted
      exact unquoted.suffix
    have starts : ∀ c after, text.dropWhile isspace = c :: after → isspace c = false := by
      intro c after same
      have head := head?_dropWhile_not isspace text
      rw [same] at head
      simpa using head
    generalize text.dropWhile isspace = p at short unquoted' starts
    cases p with
    | nil =>
      have nothing : words [] = [] := rfl
      rw [nothing, append_nil]
      rfl
    | cons c after =>
      have nonzero : peek (c :: after) 0 ≠ 0 := (unquoted'.plain c mem_cons_self).1
      have solid := starts c after rfl
      simp only [if_pos nonzero]
      obtain ⟨word, rest, split, inside, space⟩ := split_word (c :: after)
      have some_ : word ≠ [] := by
        rintro rfl
        obtain rfl | ⟨first, more, rfl, space⟩ := space
        · cases split
        · obtain ⟨rfl, -⟩ := cons.inj split
          rw [solid] at space
          cases space
      have ends : EndsWord rest := by
        refine space.imp_right ?_
        rintro ⟨first, more, rfl, blank⟩
        refine ⟨first, more, rfl, isspace_cases blank (not_or.mp fun special => ?_)⟩
        have last := inside _ (getLast_mem some_)
        rw [← dropLast_concat_getLast some_, append_assoc, singleton_append] at split
        rw [unquoted'.spaced _ _ first more split special] at last
        cases last
      have plain : ∀ c ∈ word, isspace c = false ∧ c ≠ 0 ∧ c ≠ 34 ∧ c ≠ 39 := fun c member =>
        ⟨inside c member, unquoted'.plain c (split ▸ mem_append_left _ member)⟩
      have length := congrArg List.length split
      rw [length_append] at length
      have positive := length_pos_iff.mpr some_
      rw [split, tokenLoop_word ends plain (by rw [← split]; omega)]
      simp only [nil_append]
      rw [split] at unquoted'
      obtain rfl | ⟨first, more, rfl, blank⟩ := space
      · rw [append_nil, words_last inside some_]
        have empty : splitLoop fuel [] (vector ++ [word]) = some (vector ++ [word] ++ words []) :=
          ih ⟨fun c member => absurd member not_mem_nil, fun front last c back same => by cases front <;> cases same⟩ (by rw [length_nil]; omega) _
        rw [show words [] = [] from rfl, append_nil] at empty
        exact empty
      · have onward : advance (first :: more) = more := by
          have zero : peek (first :: more) 0 ≠ 0 := (unquoted'.plain first (mem_append_right _ mem_cons_self)).1
          rw [advance, if_pos zero]
          rfl
        rw [words_cons inside some_ blank, onward]
        simp only [length_cons] at length short
        rw [ih unquoted'.suffix.tail (by omega), append_assoc, singleton_append]

theorem sdssplitargs_words (unquoted : Unquoted text) : sdssplitargs text = some (words text) :=
  splitLoop_words unquoted (Nat.lt_succ_self _) []

end

end Cplusplus.Redis.Sds
