import Cplusplus.Proofs.SetLoops
import Mathlib.Data.Nat.Pairing

/-! SRANDMEMBER with a count replies with as many members as it should, unless the count loses its
upper bits, its sign cannot be changed, or SUNION cannot count the set. -/

namespace Cplusplus.Redis.Srandmember
open SetType Intsets List Option

variable {hash : List UInt8 → BitVec 32} {random : Random} {set : SetObject} {s : Finset (List UInt8)} {elements : List SetElement}
variable {d after : Keys} {key : StringObject}

def texts (d : Keys) : List (List UInt8) := d.map getDecodedObject

structure Drawn (d : Keys) (s : Finset (List UInt8)) : Prop where
  distinct : (texts d).Nodup
  members : ∀ text ∈ texts d, text ∈ s

theorem drawn_nil (s : Finset (List UInt8)) : Drawn [] s := ⟨nodup_nil, fun _ member => absurd member not_mem_nil⟩

theorem any_iff (d : Keys) (key : StringObject) : d.any (dictEncObjKeyCompare key) = true ↔ getDecodedObject key ∈ texts d := by
  rw [List.any_eq_true, texts, List.mem_map]
  refine exists_congr fun other => and_congr_right fun _ => ?_
  rw [dictEncObjKeyCompare_iff, eq_comm]

theorem dictAdd_present (present : getDecodedObject key ∈ texts d) : dictAdd d key = (d, false) := by
  rw [dictAdd, if_pos ((any_iff d key).mpr present)]

theorem dictAdd_absent (absent : getDecodedObject key ∉ texts d) : dictAdd d key = (key :: d, true) := by
  rw [dictAdd, if_neg fun present => absent ((any_iff d key).mp present)]

theorem Drawn.add (drawn : Drawn d s) (member : getDecodedObject key ∈ s) : Drawn (dictAdd d key).1 s := by
  by_cases present : getDecodedObject key ∈ texts d
  · rwa [dictAdd_present present]
  · rw [dictAdd_absent present]
    refine ⟨nodup_cons.mpr ⟨present, drawn.distinct⟩, fun text inside => ?_⟩
    rcases mem_cons.mp inside with rfl | inside
    · exact member
    · exact drawn.members text inside

theorem dictDelete_spec (drawn : Drawn d s) (present : key ∈ d) : Drawn (dictDelete d key) s ∧ (dictDelete d key).length + 1 = d.length := by
  have found : ∃ other ∈ d, dictEncObjKeyCompare key other = true := ⟨key, present, (dictEncObjKeyCompare_iff key key).mpr rfl⟩
  have sublist : (dictDelete d key).Sublist d := eraseP_sublist
  obtain ⟨other, member, same⟩ := found
  have length := length_eraseP_of_mem member same
  have positive := length_pos_of_mem member
  refine ⟨⟨(sublist.map _).nodup drawn.distinct, fun text inside => drawn.members text ((sublist.map _).subset inside)⟩, ?_⟩
  rw [dictDelete, length]
  omega

theorem setTypeRandomElement_spec (read : setTypeElements set = some elements) (nonempty : elements ≠ []) (choice : Nat) :
    ∃ ele ∈ elements, setTypeRandomElement set choice = some ele := by
  have inside : choice % elements.length < elements.length := Nat.mod_lt _ (length_pos_iff.mpr nonempty)
  refine ⟨elements[choice % elements.length], getElem_mem inside, ?_⟩
  simp only [setTypeRandomElement, read, bind_eq_bind, bind_some]
  exact getElem?_eq_getElem inside

theorem elementText_mem (lists : Lists elements s) {ele : SetElement} (member : ele ∈ elements) : elementText ele ∈ s :=
  (lists.mem _).mp (List.mem_map_of_mem member)

theorem sampleLoop_spec (random : Random) (read : setTypeElements set = some elements) (lists : Lists elements s) (nonempty : elements ≠ []) (count i : Nat)
    (replies : List (List UInt8)) :
    ∃ sampled, sampleLoop random set count i replies = some (replies ++ sampled) ∧ sampled.length = count ∧ ∀ text ∈ sampled, text ∈ s := by
  induction count generalizing i replies with
  | zero => exact ⟨[], by rw [sampleLoop, append_nil], rfl, fun _ member => absurd member not_mem_nil⟩
  | succ count ih =>
    obtain ⟨ele, member, drawn⟩ := setTypeRandomElement_spec read nonempty (random.next i)
    have fits : ∀ v, .intset v ∈ [ele] → Fits .int64 v := fun v same => lists.fits v (mem_singleton.mp same ▸ member)
    have emitted := emitReply_spec [ele] fits replies
    simp only [foldlM_cons, foldlM_nil, bind_pure, map_cons, map_nil] at emitted
    obtain ⟨sampled, rest, length, members⟩ := ih (i + 1) (replies ++ [elementText ele])
    refine ⟨elementText ele :: sampled, ?_, by rw [length_cons, length], fun text inside => ?_⟩
    · simp only [sampleLoop, drawn, emitted, bind_eq_bind, bind_some, rest, append_assoc, singleton_append]
    · rcases mem_cons.mp inside with rfl | inside
      · exact elementText_mem lists member
      · exact members text inside

theorem fresh_cons {ele : SetElement} (new : elementText ele ∉ elements.map elementText)
    (fresh : ∀ other ∈ ele :: elements, elementText other ∉ texts d) : ∀ other ∈ elements, elementText other ∉ texts (ele.object :: d) := by
  intro other member same
  rcases mem_cons.mp same with same | same
  · have equal : elementText other = elementText ele := same
    exact new (equal ▸ List.mem_map_of_mem member)
  · exact fresh other (mem_cons_of_mem _ member) same

section
variable (elements)

theorem fillLoop_spec (d : Keys) (distinct : (elements.map elementText).Nodup)
    (fresh : ∀ ele ∈ elements, elementText ele ∉ texts d) : fillLoop elements d = some ((elements.map SetElement.object).reverse ++ d) := by
  induction elements generalizing d with
  | nil => rfl
  | cons ele elements ih =>
    rw [map_cons, nodup_cons] at distinct
    have added : dictAdd d ele.object = (ele.object :: d, true) := dictAdd_absent (fresh ele mem_cons_self)
    rw [fillLoop, added]
    simp only
    rw [ih (ele.object :: d) distinct.2 (fresh_cons distinct.1 fresh)]
    simp

theorem unionOne_spec (d : Keys) (distinct : (elements.map elementText).Nodup) (fresh : ∀ ele ∈ elements, elementText ele ∉ texts d) :
    unionOne elements d d.length = if elements = [] ∨ d.length + elements.length < 2 ^ 31 then
        some ((elements.map SetElement.object).reverse ++ d, ((d.length + elements.length : Nat) : Int))
      else none := by
  induction elements generalizing d with
  | nil => rw [if_pos (.inl rfl)]; rfl
  | cons ele elements ih =>
    rw [map_cons, nodup_cons] at distinct
    have added : dictAdd d ele.object = (ele.object :: d, true) := dictAdd_absent (fresh ele mem_cons_self)
    have onward := ih (ele.object :: d) distinct.2 (fresh_cons distinct.1 fresh)
    rw [length_cons] at onward
    simp only [unionOne, added, if_true]
    by_cases small : d.length + 1 < 2 ^ 31
    · simp only [increment_spec small, bind_eq_bind, bind_some, onward]
      cases elements with
      | nil =>
        rw [if_pos (.inl rfl), if_pos (.inr small)]
        simp
      | cons next elements =>
        have same : d.length + 1 + (next :: elements).length = d.length + (ele :: next :: elements).length := by
          simp only [length_cons]
          omega
        rw [same]
        simp
    · have overflow : increment d.length = none := by
        rw [increment, if_neg (by omega)]
      rw [overflow, if_neg]
      · rfl
      · simp only [length_cons, reduceCtorEq, false_or]
        omega

end

theorem removeLoop_spec (random : Random) (left i : Nat) (drawn : Drawn d s) (enough : left ≤ d.length) :
    ∃ after, removeLoop random left i d = some after ∧ Drawn after s ∧ after.length + left = d.length := by
  induction left generalizing i d with
  | zero => exact ⟨d, rfl, drawn, rfl⟩
  | succ left ih =>
    have inside : random.next i % d.length < d.length := Nat.mod_lt _ (by omega)
    have key : dictGetRandomKey d (random.next i) = some d[random.next i % d.length] := getElem?_eq_getElem inside
    obtain ⟨drawn', length⟩ := dictDelete_spec drawn (getElem_mem inside)
    obtain ⟨after, rest, drawn'', total⟩ := ih (i + 1) drawn' (by omega)
    exact ⟨after, by simp only [removeLoop, key, bind_eq_bind, bind_some, rest], drawn'', by omega⟩

theorem insertLoop_returns (read : setTypeElements set = some elements) (lists : Lists elements s) (nonempty : elements ≠ []) {count : Nat}
    (fuel i : Nat) (drawn : Drawn d s) (few : d.length ≤ count) (result : insertLoop random set count fuel i d = some after) :
    Drawn after s ∧ after.length = count := by
  induction fuel generalizing i d with
  | zero => cases result
  | succ fuel ih =>
    rw [insertLoop] at result
    split at result
    next more =>
      obtain ⟨ele, member, chosen⟩ := setTypeRandomElement_spec read nonempty (random.next i)
      simp only [chosen, bind_eq_bind, bind_some] at result
      refine ih (i + 1) (drawn.add (elementText_mem lists member)) ?_ result
      unfold dictAdd
      split
      · exact few
      · rw [length_cons]
        omega
    next done =>
      cases result
      exact ⟨drawn, by omega⟩

/-- A fair generator comes to a member that is not drawn yet, so the loop comes to its end. -/
theorem insertLoop_ends (random : Random) (read : setTypeElements set = some elements) (lists : Lists elements s) {count : Nat} (room : count ≤ s.card)
    (missing : Nat) (d : Keys) (i : Nat) (drawn : Drawn d s) (left : d.length + missing = count) :
    ∃ fuel after, insertLoop random set count fuel i d = some after := by
  induction missing generalizing d i with
  | zero => exact ⟨1, d, by rw [insertLoop, if_neg (by omega)]⟩
  | succ missing ih =>
    have fewer : (texts d).toFinset.card < s.card := by
      rw [toFinset_card_of_nodup drawn.distinct, texts, length_map]
      omega
    obtain ⟨text, inside, new⟩ := Finset.exists_mem_notMem_of_card_lt_card fewer
    obtain ⟨ele, member, rfl⟩ := List.mem_map.mp ((lists.mem text).mpr inside)
    obtain ⟨r, place, here⟩ := getElem_of_mem member
    obtain ⟨j, later, residue⟩ := random.fair i place
    have nonempty : elements ≠ [] := ne_nil_of_mem member
    -- at the latest, the table grows in the round that comes to this member
    induction wait : j - i generalizing i with
    | zero =>
      obtain rfl : i = j := by omega
      have chosen : setTypeRandomElement set (random.next i) = some ele := by
        simp only [setTypeRandomElement, read, bind_eq_bind, bind_some, residue]
        rw [getElem?_eq_getElem place, here]
      have added : dictAdd d ele.object = (ele.object :: d, true) := dictAdd_absent fun present => new (List.mem_toFinset.mpr present)
      have drawn' : Drawn (dictAdd d ele.object).1 s := drawn.add (elementText_mem lists member)
      rw [added] at drawn'
      obtain ⟨fuel, after, rest⟩ := ih (ele.object :: d) (i + 1) drawn' (by rw [length_cons]; omega)
      refine ⟨fuel + 1, after, ?_⟩
      rw [insertLoop, if_pos (by omega)]
      simp only [chosen, bind_eq_bind, bind_some, added, rest]
    | succ wait again =>
      obtain ⟨other, member', chosen⟩ := setTypeRandomElement_spec read nonempty (random.next i)
      have onward : ∃ fuel after, insertLoop random set count fuel (i + 1) (dictAdd d other.object).1 = some after := by
        by_cases present : getDecodedObject other.object ∈ texts d
        · rw [dictAdd_present present]
          exact again (i + 1) (by omega) (by omega)
        · have drawn' : Drawn (dictAdd d other.object).1 s := drawn.add (elementText_mem lists member')
          rw [dictAdd_absent present] at drawn' ⊢
          exact ih (other.object :: d) (i + 1) drawn' (by rw [length_cons]; omega)
      obtain ⟨fuel, after, rest⟩ := onward
      refine ⟨fuel + 1, after, ?_⟩
      rw [insertLoop, if_pos (by omega)]
      simp only [chosen, bind_eq_bind, bind_some, rest]

def Replies (s : Finset (List UInt8)) (l : Int) (reply : SetReply) : Prop :=
  ∃ members, reply = .multibulk members.length members ∧ (∀ text ∈ members, text ∈ s) ∧
    if 0 ≤ l then members.Nodup ∧ members.length = min l.toNat s.card else members.length = l.natAbs

variable {l : BitVec 64}

theorem slt_zero (l : BitVec 64) : l.slt 0 = decide (l.toInt < 0) := by
  rw [BitVec.slt_eq_decide]
  rfl

theorem neg_toNat (negative : l.toInt < 0) : (-l).toNat = l.toInt.natAbs := by
  have small := l.isLt
  have signed := BitVec.toInt_eq_toNat_cond l
  rw [BitVec.toNat_neg]
  split at signed <;> omega

theorem neg_toInt (negative : l.toInt < 0) : (-l).toInt = if l.toInt = -2 ^ 63 then -2 ^ 63 else (l.toInt.natAbs : Int) := by
  have low := BitVec.le_toInt l
  have magnitude := neg_toNat negative
  have signed := BitVec.toInt_eq_toNat_cond (-l)
  rw [magnitude] at signed
  split at signed <;> split <;> omega

theorem unsigned_toNat (nonneg : 0 ≤ l.toInt) : ((l.setWidth 32).setWidth 64).toNat = l.toInt.toNat % 2 ^ 32 := by
  have signed := BitVec.toInt_eq_toNat_cond l
  have small := l.isLt
  rw [BitVec.toNat_setWidth, BitVec.toNat_setWidth]
  split at signed <;> omega

theorem toInt_small {count : BitVec 64} (small : count.toNat < 2 ^ 32) : count.toInt = count.toNat := by
  rw [BitVec.toInt_eq_toNat_cond, if_pos (by omega)]

section
variable (random)

theorem replies_negative (fuel : Nat) (rep : SetType.Represents hash set s) (nonempty : s.Nonempty) (negative : l.toInt < 0) :
    ∃ members, srandmemberWithCountCommand random set l fuel = some (.multibulk (-l).toInt members) ∧ members.length = l.toInt.natAbs ∧
      ∀ text ∈ members, text ∈ s := by
  obtain ⟨elements, read, lists⟩ := setTypeElements_spec rep
  have some_ : elements ≠ [] := fun empty => by
    have length := lists.length
    rw [empty, length_nil] at length
    exact absurd nonempty.card_pos (by omega)
  obtain ⟨sampled, result, length, members⟩ := sampleLoop_spec random read lists some_ (-l).toNat 0 []
  have nonzero : ¬ -l = 0 := fun zero => by
    have magnitude := neg_toNat negative
    rw [zero] at magnitude
    have : (0 : BitVec 64).toNat = 0 := rfl
    omega
  refine ⟨sampled, ?_, by rw [length, neg_toNat negative], members⟩
  simp only [srandmemberWithCountCommand, slt_zero, decide_eq_true negative, Bool.not_true, Bool.false_eq_true, if_false, nonzero,
    Bool.not_false, if_true, result, bind_eq_bind, bind_some, nil_append]
  rfl

theorem replies_all (fuel : Nat) (rep : SetType.Represents hash set s) (nonneg : 0 ≤ l.toInt) (nonempty : s.Nonempty) (many : s.card ≤ l.toInt.toNat % 2 ^ 32) :
    (s.card < 2 ^ 31 → ∃ members, srandmemberWithCountCommand random set l fuel = some (.multibulk s.card members) ∧
        members.Nodup ∧ members.length = s.card ∧ ∀ text ∈ members, text ∈ s) ∧
      (2 ^ 31 ≤ s.card → srandmemberWithCountCommand random set l fuel = none) := by
  obtain ⟨elements, read, lists⟩ := setTypeElements_spec rep
  have positive := nonempty.card_pos
  have size := lists.length
  have some_ : elements ≠ [] := fun empty => by
    rw [empty, length_nil] at size
    omega
  have unions := unionOne_spec elements [] lists.distinct fun _ _ => not_mem_nil
  have nonzero : ¬ (l.setWidth 32).setWidth 64 = 0 := fun zero => by
    have count := unsigned_toNat nonneg
    rw [zero] at count
    have : (0 : BitVec 64).toNat = 0 := rfl
    omega
  have result : srandmemberWithCountCommand random set l fuel =
      (unionOne elements [] 0).map fun union => .multibulk union.2 (texts union.1) := by
    simp only [srandmemberWithCountCommand, slt_zero, decide_eq_false (Int.not_lt.mpr nonneg), Bool.not_false, if_true, nonzero, if_false,
      Bool.not_true, Bool.false_eq_true, unsigned_toNat nonneg, rep.size, many, read, bind_eq_bind, bind_some,
      map_eq_bind]
    rfl
  simp only [some_, length_nil, Nat.zero_add, false_or, append_nil, Int.natCast_zero, size] at unions
  refine ⟨fun small => ?_, fun large => ?_⟩
  · rw [if_pos small] at unions
    have same : texts (elements.map SetElement.object).reverse = (elements.map elementText).reverse := by
      rw [texts, map_reverse, List.map_map]
      rfl
    refine ⟨texts (elements.map SetElement.object).reverse, by rw [result, unions]; rfl, ?_, ?_, fun text member => ?_⟩
    · rw [same]
      exact nodup_reverse.mpr lists.distinct
    · rw [same, length_reverse, length_map, size]
    · rw [same, mem_reverse] at member
      exact (lists.mem text).mp member
  · rw [if_neg (by omega)] at unions
    rw [result, unions]
    rfl

/-- A part of the set: nothing, what is left of the whole, or what is drawn in the end. -/
theorem replies_part (rep : SetType.Represents hash set s) (nonneg : 0 ≤ l.toInt) (few : l.toInt.toNat % 2 ^ 32 < s.card) :
    (∃ d, Drawn d s ∧ d.length = l.toInt.toNat % 2 ^ 32 ∧
        ∀ fuel, srandmemberWithCountCommand random set l fuel = some (.multibulk d.length (texts d))) ∨
      ∀ fuel, srandmemberWithCountCommand random set l fuel =
        (insertLoop random set (l.toInt.toNat % 2 ^ 32) fuel 0 []).map fun d => .multibulk ((l.toInt.toNat % 2 ^ 32 : Nat) : Int) (texts d) := by
  obtain ⟨elements, read, lists⟩ := setTypeElements_spec rep
  have size := lists.length
  have count := unsigned_toNat nonneg
  have signed : ((l.setWidth 32).setWidth 64).toInt = ((l.toInt.toNat % 2 ^ 32 : Nat) : Int) := by
    rw [toInt_small (by rw [count]; exact Nat.mod_lt _ (by decide)), count]
  have triple : (((l.setWidth 32).setWidth 64 : BitVec 64) * 3).toNat = l.toInt.toNat % 2 ^ 32 * 3 := by
    have three : (3 : BitVec 64).toNat = 3 := rfl
    rw [BitVec.toNat_mul, count, three]
    omega
  by_cases zero : (l.setWidth 32).setWidth 64 = (0 : BitVec 64)
  · rw [zero] at count
    refine .inl ⟨[], drawn_nil s, by rw [← count]; rfl, fun fuel => ?_⟩
    simp only [srandmemberWithCountCommand, slt_zero, decide_eq_false (Int.not_lt.mpr nonneg), Bool.not_false, if_true, zero]
    rfl
  by_cases close : s.card < l.toInt.toNat % 2 ^ 32 * 3
  · have filled := fillLoop_spec elements [] lists.distinct fun _ _ => not_mem_nil
    rw [append_nil] at filled
    have whole : Drawn (elements.map SetElement.object).reverse s := by
      have same : texts (elements.map SetElement.object).reverse = (elements.map elementText).reverse := by
        rw [texts, map_reverse, List.map_map]
        rfl
      refine ⟨by rw [same]; exact nodup_reverse.mpr lists.distinct, fun text member => ?_⟩
      rw [same, mem_reverse] at member
      exact (lists.mem text).mp member
    have total : (elements.map SetElement.object).reverse.length = s.card := by
      rw [length_reverse, length_map, size]
    obtain ⟨d, result, drawn, left⟩ := removeLoop_spec random (s.card - l.toInt.toNat % 2 ^ 32) 0 whole (by omega)
    have length : d.length = l.toInt.toNat % 2 ^ 32 := by omega
    refine .inl ⟨d, drawn, length, fun fuel => ?_⟩
    simp only [srandmemberWithCountCommand, slt_zero, decide_eq_false (Int.not_lt.mpr nonneg), Bool.not_false, if_true, zero, if_false,
      Bool.not_true, Bool.false_eq_true, count, signed, triple, rep.size, Nat.not_le.mpr few, close, read, filled, total, result,
      bind_eq_bind, bind_some, ne_eq, not_true_eq_false, length]
    rfl
  · refine .inr fun fuel => ?_
    simp only [srandmemberWithCountCommand, slt_zero, decide_eq_false (Int.not_lt.mpr nonneg), Bool.not_false, if_true, zero, if_false,
      Bool.not_true, Bool.false_eq_true, count, signed, triple, rep.size, Nat.not_le.mpr few, close, bind_eq_bind,
      map_eq_bind]
    rfl

end

/-- The condition on the count and the size of the set. A count that is not negative keeps its lower 32
bits, and these have to be enough; SUNION counts in an int. -/
def CountFits (n : Nat) (l : Int) : Prop :=
  l ≠ -2 ^ 63 ∧ (0 ≤ l → (l < 2 ^ 32 ∨ n ≤ l.toNat % 2 ^ 32) ∧ (n ≤ l.toNat % 2 ^ 32 → n < 2 ^ 31))

theorem few_fits {n : Nat} {l : Int} (nonneg : 0 ≤ l) (few : l.toNat % 2 ^ 32 < n) : CountFits n l ↔ min l.toNat n = l.toNat % 2 ^ 32 := by
  constructor
  · rintro ⟨-, enough⟩
    obtain ⟨short, -⟩ := enough nonneg
    omega
  · intro same
    exact ⟨by omega, fun _ => ⟨.inl (by omega), fun many => absurd few (Nat.not_lt.mpr many)⟩⟩

theorem many_fits {n : Nat} {l : Int} (nonneg : 0 ≤ l) (many : n ≤ l.toNat % 2 ^ 32) : CountFits n l ↔ n < 2 ^ 31 := by
  constructor
  · rintro ⟨-, enough⟩
    exact (enough nonneg).2 many
  · intro small
    exact ⟨by omega, fun _ => ⟨.inr many, fun _ => small⟩⟩

theorem drawn_replies (drawn : Drawn d s) (nonneg : 0 ≤ l.toInt) : Replies s l.toInt (.multibulk d.length (texts d)) ↔ d.length = min l.toInt.toNat s.card := by
  have length : (texts d).length = d.length := length_map _
  constructor
  · rintro ⟨members, same, -, count⟩
    obtain ⟨-, rfl⟩ := SetReply.multibulk.inj same
    rw [if_pos nonneg, length] at count
    exact count.2
  · intro count
    refine ⟨texts d, by rw [length], drawn.members, ?_⟩
    rw [if_pos nonneg, length]
    exact ⟨drawn.distinct, count⟩

def counting : Random where
  next i := i.unpair.1
  fair {n r} i small := ⟨Nat.pair r i, Nat.right_le_pair r i, by rw [Nat.unpair_pair]; exact Nat.mod_eq_of_lt small⟩

theorem represents_pair (hash : List UInt8 → BitVec 32) : SetType.Represents hash (.intset ⟨.int16, 2, [1, 0, 2, 0]⟩) (SetType.texts [1, 2]) := by
  refine ⟨[1, 2], ⟨by decide, ?_, rfl, by decide, by decide⟩, rfl⟩
  intro v member
  rcases mem_cons.mp member with rfl | member
  · exact ⟨by decide, by decide⟩
  · obtain rfl := mem_singleton.mp member
    exact ⟨by decide, by decide⟩

theorem nonempty_pair : (SetType.texts [1, 2]).Nonempty := ⟨numeral 1, by decide +kernel⟩

end Cplusplus.Redis.Srandmember
