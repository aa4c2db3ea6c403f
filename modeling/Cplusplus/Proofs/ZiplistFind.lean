import Cplusplus.Proofs.ZiplistRead

/-! What an entry of a ziplist holds, whatever form it has, and how it is read at its pointer. -/

namespace Cplusplus.Redis.Ziplist

open List Option

section
open Bytes

variable {s vstr : List UInt8} {vencoding : FindEncoding} {nodes : List Node} {entries : Entries}

def bodyEntry (body : List UInt8) : Option ZiplistValue := do
  let (encoding, lensize, len) ← zipDecodeLength body
  if zipIsStr encoding then return .str ((body.drop lensize).take len)
  let value ← zipLoadInteger (body.drop lensize) encoding
  return .int value

structure WellFormed (zl : List UInt8) (nodes : List Node) (entries : Entries) : Prop where
  valid : Represents zl nodes
  values : nodes.map (fun n => bodyEntry n.body) = entries.map some

def Holds (zl : List UInt8) (q : Nat) (encoding : UInt8) (len : Nat) : ZiplistValue → Prop
  | .str s => zipIsStr encoding = true ∧ (zl.drop q).take len = s ∧ s.length = len
  | .int value => zipIsStr encoding = false ∧ zipLoadInteger (zl.drop q) encoding = some value

structure Reads (zl : List UInt8) (p q : Nat) (encoding : UInt8) (psize prevlen lsize len : Nat) (value : ZiplistValue) : Prop where
  mark : ∃ b, zl[p]? = some b ∧ b ≠ zipEnd
  prevlensize : zipDecodePrevlensize (zl.drop p) = some psize
  length : zipDecodeLength (zl.drop (p + psize)) = some (encoding, lsize, len)
  entry : zipEntry (zl.drop p) = some ⟨psize, prevlen, lsize, len, psize + lsize, encoding⟩
  ends : p + psize + lsize + len = q
  inside : q ≤ zl.length
  holds : Holds zl (p + psize + lsize) encoding len value

variable {zl : List UInt8} {before after : List Node} {n : Node} {value : ZiplistValue}

section
variable (valid : Represents zl (before ++ n :: after)) (stored : bodyEntry n.body = some value)
include valid stored

theorem Represents.reads : ∃ encoding prevlensize prevlen lensize len,
      Reads zl (pointer before) (pointer (before ++ [n])) encoding prevlensize prevlen lensize len value := by
  obtain ⟨narrow, bound, ⟨encoding, lensize, len, positive, length, decode⟩, small⟩ := valid.node
  have cut := valid.drop_node
  have mark := valid.mark_node
  have started : pointer before < zl.length := by
    obtain ⟨b, head, -⟩ := mark
    exact (List.getElem?_eq_some_iff.mp head).1
  generalize encodeFrom n.size after ++ [zipEnd] = rest at cut
  rw [append_assoc] at cut
  have body : zl.drop (pointer before + fieldSize n.wide) = n.body ++ rest := by
    rw [← drop_drop, cut, ← field_length n.wide (lastSize 0 before), drop_left]
  have contents : zl.drop (pointer before + fieldSize n.wide + lensize) = n.body.drop lensize ++ rest := by
    rw [← drop_drop, body, drop_append_of_le_length (by omega)]
  have room := congrArg List.length cut
  simp only [length_append, field_length, length_drop] at room
  have here := decode []
  rw [append_nil] at here
  refine ⟨encoding, fieldSize n.wide, lastSize 0 before, lensize, len, mark, ?_, by rw [body, decode], ?_, ?_, ?_, ?_⟩
  · rw [cut]
    exact (zipDecodePrevlen_field narrow bound _).2
  · simp only [zipEntry, cut, (zipDecodePrevlen_field narrow bound (n.body ++ rest)).1, bind_eq_bind, bind_some]
    rw [← cut, drop_drop, body, decode]
    rfl
  · rw [pointer_next, Node.size]
    omega
  · rw [pointer_next, Node.size]
    omega
  · simp only [bodyEntry, here, bind_eq_bind, bind_some, Option.pure_def] at stored
    cases isStr : zipIsStr encoding with
    | true =>
      rw [isStr, if_pos rfl] at stored
      cases stored
      refine ⟨isStr, ?_, ?_⟩
      · rw [contents, take_append_of_le_length (by rw [length_drop]; omega)]
      · rw [length_take, length_drop]
        omega
    | false =>
      rw [isStr, if_neg Bool.false_ne_true] at stored
      obtain ⟨number, loaded, rfl⟩ := map_eq_some_iff.mp (by
        rw [map_eq_bind]
        exact stored)
      refine ⟨isStr, ?_⟩
      rw [contents]
      exact zipLoadInteger_extend loaded rest

theorem ziplistGet_entry : ziplistGet zl (some (pointer before)) = some (some value) := by
  obtain ⟨encoding, prevlensize, prevlen, lensize, len, reads⟩ := valid.reads stored
  obtain ⟨b, head, notEnd⟩ := reads.mark
  have next := reads.ends
  have inside := reads.inside
  have holds := reads.holds
  simp only [ziplistGet, head, notEnd, reads.entry, if_false, bind_eq_bind, bind_some, Option.pure_def]
  rw [← Nat.add_assoc]
  cases value with
  | str s =>
    obtain ⟨isStr, contents, -⟩ := holds
    rw [isStr, if_pos rfl, if_pos (by omega), contents]
  | int v =>
    obtain ⟨isStr, loaded⟩ := holds
    rw [isStr, if_neg Bool.false_ne_true, loaded]
    rfl

theorem ziplistDecode_entry : ziplistDecode zl (pointer before) = some (value, pointer (before ++ [n])) := by
  obtain ⟨encoding, prevlensize, prevlen, lensize, len, reads⟩ := valid.reads stored
  have next := reads.ends
  have inside := reads.inside
  have holds := reads.holds
  simp only [ziplistDecode, reads.prevlensize, reads.length, bind_eq_bind, bind_some, Option.pure_def]
  cases value with
  | str s =>
    obtain ⟨isStr, contents, -⟩ := holds
    rw [isStr, if_pos rfl, if_pos (by omega), contents, next]
  | int v =>
    obtain ⟨isStr, loaded⟩ := holds
    rw [isStr, if_neg Bool.false_ne_true, loaded, bind_some, next]

theorem ziplistCompare_entry (sstr : List UInt8) : ziplistCompare zl (pointer before) sstr = some (findMatches sstr .untried value).1 := by
  obtain ⟨encoding, prevlensize, prevlen, lensize, len, reads⟩ := valid.reads stored
  obtain ⟨b, head, notEnd⟩ := reads.mark
  have next := reads.ends
  have inside := reads.inside
  have holds := reads.holds
  simp only [ziplistCompare, head, notEnd, reads.entry, if_false, bind_eq_bind, bind_some, Option.pure_def]
  rw [← Nat.add_assoc]
  cases value with
  | str s =>
    obtain ⟨isStr, contents, size⟩ := holds
    rw [isStr, if_pos rfl, findMatches]
    split
    next same => rw [if_pos (by omega), ← same, contents]
    next other =>
      have different : s ≠ sstr := fun same => other (by rw [← size, same])
      rw [beq_false_of_ne different]
  | int v =>
    obtain ⟨isStr, loaded⟩ := holds
    rw [isStr, if_neg Bool.false_ne_true]
    simp only [findMatches, tryFindEncoding]
    cases zipTryEncoding sstr with
    | none => rfl
    | some pair =>
      simp only [loaded, bind_some, some.injEq]
      rw [Bool.eq_iff_iff, beq_iff_eq, beq_iff_eq, FindEncoding.int.injEq]
      exact eq_comm

end

end

/-! `ziplistFind` over the bytes is the search in the sequence of the entries, and an entry
matches a string if and only if it was made for this string. -/

section
open Bytes

theorem zipTryEncoding_injective {t : List UInt8} {value : Int} {e f : UInt8}
    (left : zipTryEncoding s = some (value, e)) (right : zipTryEncoding t = some (value, f)) : s = t :=
  (zipTryEncoding_spec left).1.symm.trans (zipTryEncoding_spec right).1

def Remembers (vstr : List UInt8) (vencoding : FindEncoding) : Prop :=
  vencoding = .untried ∨ vencoding = tryFindEncoding vstr .untried

theorem tryFindEncoding_remembers (remembers : Remembers vstr vencoding) : tryFindEncoding vstr vencoding = tryFindEncoding vstr .untried := by
  obtain rfl | rfl := remembers
  · rfl
  · unfold tryFindEncoding
    cases zipTryEncoding vstr <;> rfl

theorem findMatches_spec (remembers : Remembers vstr vencoding) : (findMatches vstr vencoding (entryOf s)).1 = decide (s = vstr) ∧
      Remembers vstr (findMatches vstr vencoding (entryOf s)).2 := by
  have tried := tryFindEncoding_remembers remembers
  cases encoded : zipTryEncoding s with
  | none =>
    have entry : entryOf s = .str s := by simp [entryOf, encoded]
    rw [entry]
    exact ⟨beq_eq_decide _ _, remembers⟩
  | some pair =>
    obtain ⟨value, encoding⟩ := pair
    have entry : entryOf s = .int value := by simp [entryOf, encoded]
    simp only [entry, findMatches, tried]
    refine ⟨?_, .inr rfl⟩
    rw [Bool.eq_iff_iff, beq_iff_eq, decide_eq_true_iff]
    constructor
    · intro found
      cases sought : zipTryEncoding vstr with
      | none => simp [tryFindEncoding, sought] at found
      | some other =>
        simp only [tryFindEncoding, sought, FindEncoding.int.injEq] at found
        exact zipTryEncoding_injective encoded (by rw [sought, ← found])
    · rintro rfl
      simp [tryFindEncoding, encoded]

variable {zl : List UInt8}

/-- The search from a pointer on finds the node that the search in the sequence finds. -/
theorem ziplistFindLoop_spec (vstr : List UInt8) (skip : Nat) (entries : Entries) (fuel skipcnt : Nat) (vencoding : FindEncoding)
    {before after : List Node} (valid : Represents zl (before ++ after))
    (values : after.map (fun n => bodyEntry n.body) = entries.map some) (enough : entries.length < fuel) :
    ziplistFindLoop zl vstr skip fuel skipcnt vencoding (pointer before) =
      some ((findLoop vstr skip skipcnt vencoding entries).map fun i => pointer (before ++ after.take i)) := by
  induction fuel generalizing entries before after skipcnt vencoding with
  | zero => exact absurd enough (Nat.not_lt_zero _)
  | succ fuel ih =>
    cases entries with
    | nil =>
      obtain rfl := map_eq_nil_iff.mp values
      have ended := valid.mark_end
      rw [append_nil] at ended
      simp [ziplistFindLoop, ended, findLoop]
    | cons entry entries =>
      cases after with
      | nil => cases values
      | cons n after =>
        rw [map_cons, map_cons, cons.injEq] at values
        obtain ⟨b, head, notEnd⟩ := valid.mark_node
        have decoded := ziplistDecode_entry valid values.1
        have onward := fun skipcnt vencoding => @ih entries skipcnt vencoding (before ++ [n]) after
          (by rw [append_assoc]; exact valid) values.2 (by rw [length_cons] at enough; omega)
        have shifted : ∀ found : Option Nat, (found.map fun i => pointer (before ++ [n] ++ after.take i)) =
            (found.map (· + 1)).map fun i => pointer (before ++ (n :: after).take i) := by
          intro found
          rw [Option.map_map]
          congr 1
          funext i
          simp
        simp only [ziplistFindLoop, head, notEnd, if_false, decoded, bind_eq_bind, bind_some]
        cases skipcnt with
        | zero =>
          simp only [findLoop]
          split
          next => simp
          next => rw [onward, shifted]
        | succ skipcnt =>
          simp only [findLoop]
          rw [onward, shifted]

theorem ziplistFind_entries (vstr : List UInt8) (skip : Nat) (p : Nat) (formed : WellFormed zl nodes entries) :
    ziplistFind zl (pointer (nodes.take p)) vstr skip = some ((entries.find p vstr skip).map fun i => pointer (nodes.take i)) := by
  obtain ⟨valid, values⟩ := formed
  have split : Represents zl (nodes.take p ++ nodes.drop p) := by rwa [take_append_drop]
  have rest : (nodes.drop p).map (fun n => bodyEntry n.body) = (entries.drop p).map some := by
    rw [map_drop, map_drop, values]
  have sizes_le := length_le_sizes nodes
  have same : nodes.length = entries.length := by simpa using congrArg List.length values
  have room := valid.length_eq
  rw [ziplistFind, ziplistFindLoop_spec vstr skip (entries.drop p) _ 0 .untried split rest
    (by rw [length_drop, room, pointer]; omega), Entries.find, Option.map_map]
  congr 2
  funext i
  rw [Function.comp_apply, take_add]

end

/-! `ziplistFind` returns the first of the entries it looks at whose value is the string. -/

def text : ZiplistValue → List UInt8
  | .str s => s
  | .int value => numeral value

theorem bodyEntry_range {body : List UInt8} {value : Int} (stored : bodyEntry body = some (.int value)) : -2 ^ 63 ≤ value ∧ value < 2 ^ 63 := by
  unfold bodyEntry at stored
  cases decoded : zipDecodeLength body with
  | none =>
    rw [decoded] at stored
    cases stored
  | some header =>
    obtain ⟨encoding, lensize, len⟩ := header
    simp only [decoded, bind_eq_bind, bind_some, Option.pure_def] at stored
    split at stored
    next => cases stored
    next =>
      obtain ⟨number, loaded, same⟩ := bind_eq_some_iff.mp stored
      cases same
      exact zipLoadInteger_range loaded

/-- A string is tried as an integer with success if and only if it is the numeral of it. -/
theorem tryFindEncoding_iff {value : Int} (range : -2 ^ 63 ≤ value ∧ value < 2 ^ 63) (vstr : List UInt8) :
    tryFindEncoding vstr .untried = .int value ↔ numeral value = vstr := by
  simp only [tryFindEncoding]
  constructor
  · intro found
    cases encoded : zipTryEncoding vstr with
    | none => simp [encoded] at found
    | some pair =>
      obtain ⟨number, encoding⟩ := pair
      simp only [encoded, FindEncoding.int.injEq] at found
      exact found ▸ (zipTryEncoding_spec encoded).1
  · rintro rfl
    have long := numeral_length range.1 range.2
    have short : numeral value ≠ [] := by simp [numeral, Decimal.decimal_ne_nil]
    have accepted := string2ll_complete range.1 range.2
    have tries : ¬ (32 ≤ (numeral value).length ∨ (numeral value).length = 0) := by
      rw [length_eq_zero_iff]
      rintro (large | empty)
      · omega
      · exact short empty
    simp only [zipTryEncoding, if_neg tries, accepted, map_some]

def Ranged (entries : Entries) : Prop := ∀ value, .int value ∈ entries → -2 ^ 63 ≤ value ∧ value < 2 ^ 63

theorem findMatches_text (remembers : Remembers vstr vencoding) (value : ZiplistValue)
    (range : ∀ v, value = .int v → -2 ^ 63 ≤ v ∧ v < 2 ^ 63) :
    ((findMatches vstr vencoding value).1 = true ↔ text value = vstr) ∧ Remembers vstr (findMatches vstr vencoding value).2 := by
  cases value with
  | str s => exact ⟨beq_iff_eq, remembers⟩
  | int v =>
    simp only [findMatches, tryFindEncoding_remembers remembers, beq_iff_eq]
    exact ⟨tryFindEncoding_iff (range v rfl) vstr, .inr rfl⟩

/-- The least number with a property, or none if there is none. -/
def IsFirst (P : Nat → Prop) : Option Nat → Prop
  | none => ∀ i, ¬ P i
  | some i => P i ∧ ∀ j < i, ¬ P j

theorem IsFirst.shift {P Q : Nat → Prop} {found : Option Nat} (first : IsFirst Q found) (not_zero : ¬ P 0) (same : ∀ i, P (i + 1) ↔ Q i) :
    IsFirst P (found.map (· + 1)) := by
  cases found with
  | none =>
    intro i
    cases i with
    | zero => exact not_zero
    | succ i => exact fun holds => first i ((same i).mp holds)
  | some i =>
    refine ⟨(same i).mpr first.1, fun j (smaller : j < i + 1) => ?_⟩
    cases j with
    | zero => exact not_zero
    | succ j => exact fun holds => first.2 j (by omega) ((same j).mp holds)

/-- An entry that is looked at when `skipcnt` entries are skipped first, and holds the string. -/
def Hit (vstr : List UInt8) (skip skipcnt : Nat) (entries : Entries) (i : Nat) : Prop :=
  skipcnt ≤ i ∧ skip + 1 ∣ i - skipcnt ∧ ∃ value, entries[i]? = some value ∧ text value = vstr

theorem findLoop_first (skip : Nat) (ranged : Ranged entries) (skipcnt : Nat) (remembers : Remembers vstr vencoding) :
    IsFirst (Hit vstr skip skipcnt entries) (findLoop vstr skip skipcnt vencoding entries) := by
  induction entries generalizing skipcnt vencoding with
  | nil =>
    have empty : ∀ i, ¬ Hit vstr skip skipcnt [] i := by
      rintro i ⟨-, -, value, here, -⟩
      rw [getElem?_nil] at here
      cases here
    cases skipcnt <;> exact empty
  | cons entry rest ih =>
    have ranged' : Ranged rest := fun value member => ranged value (mem_cons_of_mem _ member)
    cases skipcnt with
    | zero =>
      obtain ⟨matches_, remembers'⟩ := findMatches_text remembers entry fun v same => ranged v (same ▸ mem_cons_self)
      simp only [findLoop]
      split
      next found => exact ⟨⟨Nat.le_refl _, by simp, entry, rfl, matches_.mp found⟩, fun j smaller => absurd smaller (Nat.not_lt_zero j)⟩
      next other =>
        refine IsFirst.shift (ih ranged' skip remembers') ?_ fun i => ?_
        · rintro ⟨-, -, value, here, same⟩
          rw [getElem?_cons_zero] at here
          cases here
          exact other (matches_.mpr same)
        · simp only [Hit, getElem?_cons_succ, Nat.sub_zero]
          constructor
          · rintro ⟨-, divides, holds⟩
            have far := Nat.le_of_dvd (Nat.succ_pos i) divides
            refine ⟨by omega, ?_, holds⟩
            have back := Nat.dvd_sub divides (Nat.dvd_refl (skip + 1))
            rwa [Nat.add_sub_add_right] at back
          · rintro ⟨far, divides, holds⟩
            refine ⟨Nat.zero_le _, ?_, holds⟩
            have onward := Nat.dvd_add divides (Nat.dvd_refl (skip + 1))
            rwa [show i - skip + (skip + 1) = i + 1 by omega] at onward
    | succ skipcnt =>
      simp only [findLoop]
      refine IsFirst.shift (ih ranged' skipcnt remembers) (fun hit => absurd hit.1 (Nat.not_succ_le_zero _)) fun i => ?_
      simp only [Hit, getElem?_cons_succ, Nat.add_le_add_iff_right, Nat.add_sub_add_right]

def entryPointer (nodes : List Node) (i : Nat) : Nat := pointer (nodes.take i)

theorem WellFormed.ranged {zl : List UInt8} (formed : WellFormed zl nodes entries) : Ranged entries := by
  intro value member
  obtain ⟨n, -, same⟩ := List.mem_map.mp (show some (.int value) ∈ nodes.map fun n => bodyEntry n.body by
    rw [formed.values]
    exact List.mem_map_of_mem member)
  exact bodyEntry_range same

theorem WellFormed.length {zl : List UInt8} (formed : WellFormed zl nodes entries) : nodes.length = entries.length := by
  simpa using congrArg List.length formed.values

theorem WellFormed.at {zl : List UInt8} (formed : WellFormed zl nodes entries) {i : Nat} {value : ZiplistValue}
    (here : entries[i]? = some value) (vstr : List UInt8) :
    ziplistGet zl (some (entryPointer nodes i)) = some (some value) ∧
      ziplistCompare zl (entryPointer nodes i) vstr = some (decide (text value = vstr)) := by
  obtain ⟨inside, same⟩ := List.getElem?_eq_some_iff.mp here
  have inside' : i < nodes.length := formed.length ▸ inside
  have stored : bodyEntry (nodes[i]).body = some value := by
    have at_ := congrArg (·[i]?) formed.values
    simpa [getElem?_map, getElem?_eq_getElem inside', here] using at_
  have valid : Represents zl (nodes.take i ++ nodes[i] :: nodes.drop (i + 1)) := by
    rw [getElem_cons_drop, take_append_drop]
    exact formed.valid
  refine ⟨ziplistGet_entry valid stored, ?_⟩
  have untried : Remembers vstr .untried := .inl rfl
  have matches_ := (findMatches_text untried value fun v int => formed.ranged v (int ▸ mem_of_getElem? here)).1
  rw [entryPointer, ziplistCompare_entry valid stored, some.injEq, Bool.eq_iff_iff, matches_, decide_eq_true_iff]

/-- For every start (the end of the list included), string and skip: the result is the first entry
at a distance of 0, skip + 1, 2 (skip + 1), ... whose value is the string, and NULL if there is none.
At every entry `ziplistGet` and `ziplistCompare` agree on what the value is. -/
theorem ziplistFind_first {zl : List UInt8} {nodes : List Node} {entries : Entries} (formed : WellFormed zl nodes entries)
    (start : Nat) (vstr : List UInt8) (skip : Nat) :
    (∃ found, ziplistFind zl (entryPointer nodes start) vstr skip = some (found.map (entryPointer nodes)) ∧
      IsFirst (fun i => start ≤ i ∧ skip + 1 ∣ i - start ∧ i < nodes.length ∧ ziplistCompare zl (entryPointer nodes i) vstr = some true) found) ∧
    ∀ i < nodes.length, ∃ value, ziplistGet zl (some (entryPointer nodes i)) = some (some value) ∧
      ziplistCompare zl (entryPointer nodes i) vstr = some (decide (text value = vstr)) := by
  have compares : ∀ i, (i < nodes.length ∧ ziplistCompare zl (entryPointer nodes i) vstr = some true) ↔
      ∃ value, entries[i]? = some value ∧ text value = vstr := by
    intro i
    constructor
    · rintro ⟨inside, same⟩
      rw [formed.length] at inside
      have here := getElem?_eq_getElem inside
      rw [(formed.at here vstr).2, some.injEq, decide_eq_true_iff] at same
      exact ⟨_, here, same⟩
    · rintro ⟨value, here, same⟩
      refine ⟨formed.length ▸ (List.getElem?_eq_some_iff.mp here).1, ?_⟩
      rw [(formed.at here vstr).2, decide_eq_true same]
  constructor
  · have ranged : Ranged (entries.drop start) := fun value member => formed.ranged value (mem_of_mem_drop member)
    have untried : Remembers vstr .untried := .inl rfl
    have first := findLoop_first skip ranged 0 untried
    refine ⟨entries.find start vstr skip, ziplistFind_entries vstr skip start formed, ?_⟩
    unfold Entries.find
    generalize findLoop vstr skip 0 .untried (entries.drop start) = found at first
    have same : ∀ i, (start ≤ i ∧ skip + 1 ∣ i - start ∧ i < nodes.length ∧ ziplistCompare zl (entryPointer nodes i) vstr = some true) ↔
        start ≤ i ∧ Hit vstr skip 0 (entries.drop start) (i - start) := by
      intro i
      rw [compares]
      simp only [Hit, Nat.sub_zero, getElem?_drop, Nat.zero_le, true_and]
      refine and_congr_right fun after => ?_
      rw [Nat.add_sub_cancel' after]
    cases found with
    | none => exact fun i hit => first _ ((same i).mp hit).2
    | some i =>
      have reached := first.1
      rw [← Nat.add_sub_cancel_left (n := start) (m := i)] at reached
      exact ⟨(same _).mpr ⟨Nat.le_add_right _ _, reached⟩, fun j (smaller : j < start + i) hit => first.2 (j - start) (by
        have := hit.1
        omega) ((same j).mp hit).2⟩
  · intro i inside
    rw [formed.length] at inside
    exact ⟨_, formed.at (getElem?_eq_getElem inside) vstr⟩

def mixedNodes : List Node := [⟨false, zipEncodeLength 0 2 ++ [49, 50]⟩, ⟨false, [zipInt8B, 12]⟩]

theorem mixed_formed : WellFormed (image 2 mixedNodes) mixedNodes [.str [49, 50], .int 12] where
  valid := ⟨⟨fun _ => by decide, bodyOk_string (s := [49, 50]) (by decide), fun _ => by decide, bodyOk_int (by decide) rfl, trivial⟩,
    by decide, 2, rfl, by decide, fun _ => rfl⟩
  values := by decide

theorem ziplistFind_first_mixed :
    ∃ found, ziplistFind (image 2 mixedNodes) (entryPointer mixedNodes 1) [49, 50] 0 = some (found.map (entryPointer mixedNodes)) ∧
      IsFirst (fun i => 1 ≤ i ∧ 0 + 1 ∣ i - 1 ∧ i < mixedNodes.length ∧
        ziplistCompare (image 2 mixedNodes) (entryPointer mixedNodes i) [49, 50] = some true) found :=
  (ziplistFind_first mixed_formed 1 [49, 50] 0).1

end Cplusplus.Redis.Ziplist
