import Cplusplus.Proofs.SortOrder

/-! SORT answers with a slice of the elements in the order that is asked for, and announces its length, unless the
bounds or the length leave their types or the error number is an old one. -/

namespace Cplusplus.Redis.Sort

open List

variable {libc : Libc} {db : Keyspace} {o : Options}
variable {n k len : Nat} {vector : List SortObject} {zobj : SortedSet}

def Collection.elements : Collection → List StringObject
  | .list elements => elements
  | .set elements => elements
  | .zset zobj => zobj.iterated

def Collection.native (desc : Bool) : Collection → List StringObject
  | .list elements => elements
  | .set elements => elements
  | .zset zobj => if desc then zobj.ranked.reverse else zobj.ranked

def Ordered (libc : Libc) (db : Keyspace) (o : Options) (c : Collection) (order : List StringObject) : Prop :=
  if o.dontsort then order = c.native o.desc
  else
    order.Perm c.elements ∧ order.Pairwise fun x y => sortCompare libc o (sortObject libc db o x) (sortObject libc db o y) ≤ 0

def slice (o : Options) (order : List StringObject) : List StringObject :=
  if o.limitCount.toInt < 0 then order.drop o.limitStart.toInt.toNat
  else (order.drop o.limitStart.toInt.toNat).take o.limitCount.toInt.toNat

def answer (db : Keyspace) (o : Options) (values : List (Option StringObject)) : Keyspace × Reply :=
  match o.storekey with
  | none => (db, .multiBulk values.length (values.map fun value => value.map getDecodedObject))
  | some storekey =>
    (Function.update db storekey
      (if values = [] then none else some (.collection (.list (values.map fun value => value.getD emptyString)))), .integer values.length)

def Convertible (libc : Libc) (db : Keyspace) (o : Options) (c : Collection) : Prop :=
  o.dontsort = false → o.alpha = false → ∀ x ∈ c.elements, ∀ value, byval db o x = some value → weightError libc false value = false

def Answers (libc : Libc) (db : Keyspace) (o : Options) (c : Collection) (result : Except Fault (Keyspace × Reply)) : Prop :=
  (Convertible libc db o c → ∃ order, Ordered libc db o c order ∧ result = .ok (answer db o ((slice o order).flatMap (outputs db o)))) ∧
  (¬ Convertible libc db o c → result = .ok (db, .notDouble))

def Overflows (o : Options) (n : Nat) : Prop :=
  max o.limitStart.toInt 0 < n ∧ 0 ≤ o.limitCount.toInt ∧ 2 ^ 63 ≤ max o.limitStart.toInt 0 + o.limitCount.toInt - 1

def getop (o : Options) : Nat := max o.operations.length 1

/-- An old ERANGE is taken for the one of a text. -/
def Stale (db : Keyspace) (o : Options) (c : Collection) : Prop :=
  o.erange = true ∧ o.dontsort = false ∧ o.alpha = false ∧ ∃ x ∈ c.elements, ∃ text, byval db o x = some (.sds text)

structure Fits (libc : Libc) (db : Keyspace) (o : Options) (c : Collection) : Prop where
  size : c.length < 2 ^ 31
  bounds : Convertible libc db o c → ¬ Overflows o c.length
  announced : Convertible libc db o c → getop o * (slice o c.elements).length < 2 ^ 32
  errno : Convertible libc db o c → ¬ Stale db o c

theorem weightError_stale (erange : Bool) (value : StringObject) :
    weightError libc erange value = true ↔ weightError libc false value = true ∨ erange = true ∧ ∃ text, value = .sds text := by
  cases value with
  | int value => simp [weightError]
  | sds text => cases erange <;> simp [weightError]

theorem errnoAfter_error {erange : Bool} {value : StringObject} (after : errnoAfter libc erange value = true) :
    erange = true ∨ weightError libc false value = true := by
  cases value with
  | int value => exact Or.inl after
  | sds text =>
    simp only [errnoAfter, Bool.or_eq_true] at after
    exact after.imp_right fun range => by simp [weightError, range]

theorem conversionError_iff (sorts : o.dontsort = false) (numbers : o.alpha = false) (erange : Bool) (vector : List StringObject) :
    conversionError libc db o erange vector = true ↔ (∃ x ∈ vector, ∃ value, byval db o x = some value ∧ weightError libc false value = true) ∨
        erange = true ∧ ∃ x ∈ vector, ∃ text, byval db o x = some (.sds text) := by
  have looks : ¬ (o.dontsort = true ∨ o.alpha = true) := by simp [sorts, numbers]
  induction vector generalizing erange with
  | nil => simp [conversionError]
  | cons x vector ih =>
    rw [conversionError, if_neg looks]
    cases found : byval db o x with
    | none => simp [ih, found]
    | some value =>
      simp only [Bool.or_eq_true, ih, exists_mem_cons_iff, found, Option.some.injEq, exists_eq_left']
      rw [weightError_stale]
      constructor
      · rintro ((bad | stale) | (later | ⟨after, text⟩))
        · exact Or.inl (Or.inl bad)
        · exact Or.inr ⟨stale.1, Or.inl stale.2⟩
        · exact Or.inl (Or.inr later)
        · exact (errnoAfter_error after).elim (fun old => Or.inr ⟨old, Or.inr text⟩) fun bad => Or.inl (Or.inl bad)
      · rintro ((bad | later) | ⟨old, (text | text)⟩)
        · exact Or.inl (Or.inl bad)
        · exact Or.inr (Or.inl later)
        · exact Or.inl (Or.inr ⟨old, text⟩)
        · refine Or.inr (Or.inr ⟨?_, text⟩)
          cases value with
          | int value => exact old
          | sds text => simp [errnoAfter, old]

theorem conversionError_skips (skips : o.dontsort = true ∨ o.alpha = true) (erange : Bool) (vector : List StringObject) :
    conversionError libc db o erange vector = false := by
  induction vector with
  | nil => rfl
  | cons x vector ih =>
    rw [conversionError, if_pos skips]
    exact ih

theorem conversionError_elements (libc : Libc) (db : Keyspace) (o : Options) (c : Collection) :
    conversionError libc db o o.erange c.elements = true ↔ ¬ Convertible libc db o c ∨ Stale db o c := by
  by_cases skips : o.dontsort = true ∨ o.alpha = true
  · rw [conversionError_skips skips]
    have fine : Convertible libc db o c := fun sorts numbers => by simp [sorts, numbers] at skips
    have fresh : ¬ Stale db o c := fun stale => by simp [stale.2.1, stale.2.2.1] at skips
    simp [fine, fresh]
  · rw [not_or, Bool.not_eq_true, Bool.not_eq_true] at skips
    rw [conversionError_iff skips.1 skips.2]
    simp [Convertible, Stale, skips.1, skips.2]

theorem sortObject_obj (x : StringObject) : (sortObject libc db o x).obj = x := by
  rw [sortObject]
  split
  next => rfl
  next =>
    split
    next => rfl
    next => split <;> rfl

theorem sortObject_numeric {c : Collection} (convertible : Convertible libc db o c) {x : StringObject} (mem : x ∈ c.elements) :
    Numeric (sortObject libc db o x) := by
  have zero : Binary64.zero.isNaN = false := by decide
  rw [Numeric, sortObject]
  split
  next => exact zero
  next sorts =>
    split
    next => exact zero
    next value found =>
      split
      next => exact zero
      next numbers =>
        have fine := convertible (Bool.eq_false_iff.mpr sorts) (Bool.eq_false_iff.mpr numbers) x mem value found
        cases value with
        | int value => exact libc.number value
        | sds text =>
          simp only [weightError, Bool.or_eq_false_iff] at fine
          exact fine.2

theorem int_small {x : Int} (low : -2 ^ 31 ≤ x) (high : x < 2 ^ 31) : int x = x := by
  apply Int.bmod_eq_of_le <;> omega

theorem long_small {x : Int} (low : -2 ^ 63 ≤ x) (high : x < 2 ^ 63) : long x = x := by
  apply Int.bmod_eq_of_le <;> omega

theorem long_sub (x : Int) : long (x - 2 ^ 64) = long x := by
  have shifted : x = x - 2 ^ 64 + (2 ^ 64 : Nat) * 1 := by omega
  calc
    long (x - 2 ^ 64) = long (x - 2 ^ 64 + (2 ^ 64 : Nat) * 1) := (Int.add_mul_bmod_self_left (x - 2 ^ 64) (2 ^ 64) 1).symm
    _ = long x := by rw [← shifted]

theorem long_wraps {x : Int} (low : 2 ^ 63 ≤ x) (high : x < 2 ^ 64 + 2 ^ 63) : long x = x - 2 ^ 64 := by
  rw [← long_sub]
  exact long_small (by omega) (by omega)

def sliceLen (o : Options) (n : Nat) : Nat :=
  if o.limitCount.toInt < 0 then n - o.limitStart.toInt.toNat else min o.limitCount.toInt.toNat (n - o.limitStart.toInt.toNat)

theorem slice_length (o : Options) (order : List StringObject) : (slice o order).length = sliceLen o order.length := by
  rw [slice, sliceLen]
  split
  next => rw [length_drop]
  next => rw [length_take, length_drop]

theorem slice_eq (o : Options) (order : List StringObject) :
    slice o order = (order.drop o.limitStart.toInt.toNat).take (sliceLen o order.length) := by
  rw [slice, sliceLen]
  split
  next => rw [take_of_length_le (Nat.le_of_eq length_drop)]
  next =>
    rw [Nat.min_comm, ← length_drop, take_eq_take_iff]
    omega

theorem int64_neg (x : Int64) : x < 0 ↔ x.toInt < 0 := Int64.lt_iff_toInt_lt

theorem int64_range (x : Int64) : -2 ^ 63 ≤ x.toInt ∧ x.toInt < 2 ^ 63 := ⟨Int64.le_toInt x, Int64.toInt_lt x⟩

structure Selects (o : Options) (n : Nat) (r : Range) : Prop where
  len : r.end_ - r.start + 1 = sliceLen o n
  start : 0 < sliceLen o n → r.start = o.limitStart.toInt.toNat
  low : -1 ≤ r.start
  high : r.end_ < n

theorem limit_eq (small : n < 2 ^ 31) : limit o n = if (n : Int) ≤ max o.limitStart.toInt 0 then ⟨n - 1, n - 2⟩
      else if o.limitCount.toInt < 0 then ⟨max o.limitStart.toInt 0, n - 1⟩
      else if (n : Int) ≤ long (max o.limitStart.toInt 0 + o.limitCount.toInt - 1) then ⟨max o.limitStart.toInt 0, n - 1⟩
      else ⟨max o.limitStart.toInt 0, long (max o.limitStart.toInt 0 + o.limitCount.toInt - 1)⟩ := by
  have last : int ((n : Int) - 1) = n - 1 := int_small (by omega) (by omega)
  have before : int ((n : Int) - 2) = n - 2 := int_small (by omega) (by omega)
  have start : (if o.limitStart.toInt < 0 then 0 else o.limitStart.toInt) = max o.limitStart.toInt 0 := by omega
  simp only [limit, int64_neg, last, before, start]
  by_cases out : (n : Int) ≤ max o.limitStart.toInt 0
  · rw [if_pos out, if_pos out, if_neg (by simp only; omega)]
  · rw [if_neg out, if_neg out]
    by_cases all : o.limitCount.toInt < 0
    · rw [if_pos all, if_pos all, if_neg (by simp only; omega)]
    · rw [if_neg all, if_neg all]

theorem limit_selects (small : n < 2 ^ 31) (fits : ¬ Overflows o n) : Selects o n (limit o n) := by
  have count := int64_range o.limitCount
  rw [Overflows] at fits
  rw [limit_eq small]
  split
  next out =>
    have none_ : sliceLen o n = 0 := by
      rw [sliceLen]
      split <;> omega
    exact ⟨by simp only [none_]; omega, by omega, by simp only; omega, by simp only; omega⟩
  next inside =>
    split
    next all =>
      have rest : sliceLen o n = n - o.limitStart.toInt.toNat := by rw [sliceLen, if_pos all]
      exact ⟨by simp only [rest]; omega, fun _ => by simp only; omega, by simp only; omega, by simp only; omega⟩
    next some_ =>
      have rest : sliceLen o n = min o.limitCount.toInt.toNat (n - o.limitStart.toInt.toNat) := by rw [sliceLen, if_neg some_]
      rw [long_small (by omega) (by omega)]
      split
      next more => exact ⟨by simp only [rest]; omega, fun _ => by simp only; omega, by simp only; omega, by simp only; omega⟩
      next fewer => exact ⟨by simp only [rest]; omega, fun _ => by simp only; omega, by simp only; omega, by simp only; omega⟩

theorem limit_overflows (small : n < 2 ^ 31) (overflows : Overflows o n) :
    limit o n = ⟨max o.limitStart.toInt 0, max o.limitStart.toInt 0 + o.limitCount.toInt - 1 - 2 ^ 64⟩ := by
  have count := int64_range o.limitCount
  have start := int64_range o.limitStart
  obtain ⟨inside, some_, far⟩ := overflows
  have wraps := long_wraps far (by omega)
  rw [limit_eq small, if_neg (by omega), if_neg (by omega), wraps, if_neg (by omega)]

theorem Overflows.some (overflows : Overflows o n) (small : n < 2 ^ 31) : 0 < sliceLen o n := by
  obtain ⟨inside, some_, far⟩ := overflows
  rw [sliceLen, if_neg (by omega)]
  omega

theorem elementsFrom_inside {j : Nat} (inside : j + k ≤ vector.length) :
    elementsFrom vector k j = .ok (((vector.drop j).take k).map (·.obj)) := by
  induction k generalizing j with
  | zero => rfl
  | succ k ih =>
    have here : j < vector.length := by omega
    rw [elementsFrom, getElem?_eq_getElem here, drop_eq_getElem_cons here, take_succ_cons, map_cons]
    simp only
    rw [ih (by omega)]
    rfl

theorem elementsFrom_outside {j : Nat} (outside : vector.length < j + k) (some_ : 0 < k) : ∃ fault, elementsFrom vector k j = .error fault := by
  induction k generalizing j with
  | zero => omega
  | succ k ih =>
    rw [elementsFrom]
    cases here : vector[j]? with
    | none => exact ⟨_, rfl⟩
    | some x =>
      have low : j < vector.length := (List.getElem?_eq_some_iff.mp here).1
      obtain ⟨fault, result⟩ := ih (j := j + 1) (by omega) (by omega)
      exact ⟨fault, by simp only [result]; rfl⟩

def rankAt (ranked : List StringObject) (desc : Bool) (i : Nat) : Int := if desc then (ranked.length : Int) - i else i + 1

theorem rank_element (ranked : List StringObject) (desc : Bool) (i : Nat) :
    zslGetElementByRank ranked (rankAt ranked desc i) = (if desc then ranked.reverse else ranked)[i]? := by
  rw [zslGetElementByRank, rankAt]
  cases desc with
  | false =>
    simp only [Bool.false_eq_true, if_false]
    rw [if_pos (by omega)]
    congr 1
    omega
  | true =>
    simp only [if_true]
    by_cases inside : i < ranked.length
    · rw [if_pos (by omega), getElem?_reverse inside]
      congr 1
      omega
    · rw [if_neg (by omega), getElem?_eq_none (by rw [length_reverse]; omega)]

theorem walk_inside (ranked : List StringObject) (desc : Bool) {i : Nat} (inside : i + k ≤ ranked.length) :
    walk ranked desc k (rankAt ranked desc i) = .ok (((if desc then ranked.reverse else ranked).drop i).take k) := by
  induction k generalizing i with
  | zero => rfl
  | succ k ih =>
    have here : i < (if desc then ranked.reverse else ranked).length := by
      split
      next => rw [length_reverse]; omega
      next => omega
    have next_ : (if desc then rankAt ranked desc i - 1 else rankAt ranked desc i + 1) = rankAt ranked desc (i + 1) := by
      simp only [rankAt]
      split <;> omega
    rw [walk, rank_element, getElem?_eq_getElem here, drop_eq_getElem_cons here, take_succ_cons, next_]
    simp only
    rw [ih (by omega)]
    rfl

theorem walk_length {ranked : List StringObject} {desc : Bool} {rank : Int} {elements : List StringObject}
    (walked : walk ranked desc k rank = .ok elements) : elements.length = k := by
  induction k generalizing rank elements with
  | zero =>
    obtain rfl := Except.ok.inj walked
    rfl
  | succ k ih =>
    rw [walk] at walked
    split at walked
    next => cases walked
    next ele _ =>
      cases rest : walk ranked desc k (if desc then rank - 1 else rank + 1) with
      | error fault =>
        rw [rest] at walked
        cases walked
      | ok elements' =>
        rw [rest] at walked
        obtain rfl := Except.ok.inj walked
        rw [length_cons, ih rest]

def LoadsAll (o : Options) : Collection → Prop
  | .zset _ => o.dontsort = false
  | _ => True

theorem elements_length (c : Collection) : c.elements.length = c.length := by
  cases c <;> rfl

theorem load_all {c : Collection} (all : LoadsAll o c) :
    load o c = (fill c.elements (int c.length)).map fun vector => ⟨vector, limit o (int c.length), int c.length⟩ := by
  cases c with
  | list elements => rfl
  | set elements => rfl
  | zset zobj =>
    simp only [load]
    rw [if_neg (by rw [show o.dontsort = false from all]; decide)]
    rfl

theorem fill_large (elements : List StringObject) (large : 2 ^ 31 ≤ elements.length) :
    ∃ fault, fill elements (int elements.length) = .error fault := by
  have below : int elements.length < elements.length := by
    have bound : (elements.length : Int).bmod (2 ^ 32) < ((2 ^ 32 : Nat) + 1) / 2 := Int.bmod_lt (by decide)
    have same : int elements.length = (elements.length : Int).bmod (2 ^ 32) := rfl
    omega
  rw [fill]
  split
  next => exact ⟨_, rfl⟩
  next => exact ⟨_, if_neg (by omega)⟩

theorem load_small {c : Collection} (all : LoadsAll o c) (small : c.length < 2 ^ 31) :
    load o c = .ok ⟨c.elements, limit o c.length, c.length⟩ := by
  have same : int c.length = c.length := int_small (by omega) (by omega)
  rw [load_all all, same, fill, if_neg (by omega), if_pos (by rw [elements_length])]
  rfl

theorem rank_start {start : Int} (low : 0 ≤ start) :
    (if o.desc then (if 0 < start then (zobj.iterated.length : Int) - start else zobj.iterated.length)
      else (if 0 < start then start + 1 else 1)) = rankAt zobj.ranked o.desc start.toNat := by
  have same : zobj.iterated.length = zobj.ranked.length := zobj.same.length_eq
  simp only [rankAt, same]
  split <;> split <;> omega

theorem load_nosort (sorts : o.dontsort = true) (small : zobj.iterated.length < 2 ^ 31) (fits : ¬ Overflows o zobj.iterated.length) :
    load o (.zset zobj) = .ok ⟨slice o (Collection.native o.desc (.zset zobj)),
      ⟨0, (sliceLen o zobj.iterated.length : Int) - 1⟩, sliceLen o zobj.iterated.length⟩ := by
  have same : zobj.iterated.length = zobj.ranked.length := zobj.same.length_eq
  have whole : (Collection.native o.desc (.zset zobj)).length = zobj.iterated.length := by
    rw [same, Collection.native]
    split
    next => exact length_reverse
    next => rfl
  obtain ⟨len, start, low, high⟩ := limit_selects small fits
  have fewer : sliceLen o zobj.iterated.length ≤ zobj.iterated.length := by
    rw [sliceLen]
    split <;> omega
  have size : int zobj.iterated.length = zobj.iterated.length := int_small (by omega) (by omega)
  have last : int ((zobj.iterated.length : Int) - 1) = zobj.iterated.length - 1 := int_small (by omega) (by omega)
  simp only [load, Collection.length, if_pos sorts, size, last]
  rw [slice_eq, whole]
  generalize limit o zobj.iterated.length = r at len start low high ⊢
  have vectorlen : (if r.start ≠ 0 ∨ r.end_ ≠ (zobj.iterated.length : Int) - 1 then int (long (r.end_ - r.start + 1)) else zobj.iterated.length) =
      (sliceLen o zobj.iterated.length : Int) := by
    rw [len, long_small (by omega) (by omega), int_small (by omega) (by omega)]
    split
    next => rfl
    next full => omega
  rw [vectorlen, if_neg (by omega), long_small (by omega) (by omega), Int.toNat_natCast]
  have end_ : r.end_ - r.start = (sliceLen o zobj.iterated.length : Int) - 1 := by omega
  rw [end_]
  by_cases none_ : sliceLen o zobj.iterated.length = 0
  · rw [none_]
    rfl
  · have begins := start (by omega)
    rw [rank_start (by omega), begins, Int.toNat_natCast, walk_inside _ _ (by rw [sliceLen] at none_ ⊢; split at none_ <;> split <;> omega)]
    rfl

theorem load_overflows (sorts : o.dontsort = true) (small : zobj.iterated.length < 2 ^ 31) (overflows : Overflows o zobj.iterated.length) :
    (∃ fault, load o (.zset zobj) = .error fault) ∨
      ∃ vector vectorlen, load o (.zset zobj) = .ok ⟨vector, ⟨0, o.limitCount.toInt - 1⟩, vectorlen⟩ ∧
        (vector.length : Int) < o.limitCount.toInt := by
  have count := int64_range o.limitCount
  have size : int zobj.iterated.length = zobj.iterated.length := int_small (by omega) (by omega)
  have last : int ((zobj.iterated.length : Int) - 1) = zobj.iterated.length - 1 := int_small (by omega) (by omega)
  simp only [load, Collection.length, if_pos sorts, size, last, limit_overflows small overflows]
  obtain ⟨inside, some_, far⟩ := overflows
  have partial_ : max o.limitStart.toInt 0 ≠ 0 ∨
      max o.limitStart.toInt 0 + o.limitCount.toInt - 1 - 2 ^ 64 ≠ (zobj.iterated.length : Int) - 1 := Or.inr (by omega)
  have back : max o.limitStart.toInt 0 + o.limitCount.toInt - 1 - 2 ^ 64 - max o.limitStart.toInt 0 = o.limitCount.toInt - 1 - 2 ^ 64 := by
    omega
  have rest : long (o.limitCount.toInt - 1 - 2 ^ 64) = o.limitCount.toInt - 1 := by
    rw [long_sub]
    exact long_small (by omega) (by omega)
  have more : long (o.limitCount.toInt - 1 - 2 ^ 64 + 1) = o.limitCount.toInt := by
    rw [show o.limitCount.toInt - 1 - 2 ^ 64 + 1 = o.limitCount.toInt - 2 ^ 64 by omega, long_sub]
    exact long_small (by omega) (by omega)
  rw [if_pos partial_, back, rest, more]
  split
  next => exact Or.inl ⟨_, rfl⟩
  next positive =>
    generalize (if o.desc then _ else _ : Int) = rank
    cases walked : walk zobj.ranked o.desc (int o.limitCount.toInt).toNat rank with
    | error fault => exact Or.inl ⟨fault, rfl⟩
    | ok vector =>
      refine Or.inr ⟨vector, _, rfl, ?_⟩
      have bound : o.limitCount.toInt.bmod (2 ^ 32) < ((2 ^ 32 : Nat) + 1) / 2 := Int.bmod_lt (by decide)
      have same : int o.limitCount.toInt = o.limitCount.toInt.bmod (2 ^ 32) := rfl
      rw [walk_length walked]
      omega

theorem outputs_length (x : StringObject) : (outputs db o x).length = getop o := by
  rw [outputs, getop]
  split
  next none_ => rw [none_]; rfl
  next some_ =>
    have positive := length_pos_of_ne_nil some_
    rw [length_map]
    omega

theorem values_length (db : Keyspace) (o : Options) (elements : List StringObject) : (elements.flatMap (outputs db o)).length = getop o * elements.length := by
  have same : elements.map (fun x => (outputs db o x).length) = replicate elements.length (getop o) := by
    rw [map_congr_left fun x _ => outputs_length x, map_const']
  rw [length_flatMap, same, sum_replicate_nat, Nat.mul_comm]

def told (db : Keyspace) (o : Options) (len : Nat) (values : List (Option StringObject)) : Keyspace × Reply :=
  match o.storekey with
  | none => (db, .multiBulk len (values.map fun value => value.map getDecodedObject))
  | some storekey =>
    (Function.update db storekey
      (if len ≠ 0 then some (.collection (.list (values.map fun value => value.getD emptyString))) else none), .integer len)

theorem answer_told (values : List (Option StringObject)) : answer db o values = told db o values.length values := by
  have empty : values = [] ↔ ¬ values.length ≠ 0 := by rw [not_not, length_eq_zero_iff]
  rw [answer, told]
  split
  next => rfl
  next => simp only [empty, ite_not]

theorem told_len {len' : Nat} {values values' : List (Option StringObject)} (same : told db o len values = told db o len' values') :
    len = len' := by
  simp only [told] at same
  split at same
  next => exact (Reply.multiBulk.inj (Prod.mk.inj same).2).1
  next => exact Reply.integer.inj (Prod.mk.inj same).2

theorem told_nothing {values : List (Option StringObject)} (same : told db o len [] = told db o values.length values) : values = [] := by
  have length := told_len same
  simp only [told] at same
  split at same
  next => exact map_eq_nil_iff.mp (Reply.multiBulk.inj (Prod.mk.inj same).2).2.symm
  next storekey _ =>
    have stored := congrFun (Prod.mk.inj same).1 storekey
    rw [Function.update_self, Function.update_self] at stored
    by_cases zero : values.length = 0
    · exact length_eq_zero_iff.mp zero
    · rw [length, if_pos zero, if_pos zero] at stored
      have lists := Collection.list.inj (Value.collection.inj (Option.some.inj stored))
      exact map_eq_nil_iff.mp lists.symm

theorem emit_part (db : Keyspace) (o : Options) {r : Range} (size : r.end_ - r.start + 1 = len)
    (inside : r.start.toNat + len ≤ vector.length) :
    emit db o r vector =
      .ok (told db o (getop o * len % 2 ^ 32) ((((vector.drop r.start.toNat).take len).map (·.obj)).flatMap (outputs db o))) := by
  have length : outputlen o r = getop o * len % 2 ^ 32 := by
    simp only [outputlen, size, getop]
    split
    next some_ =>
      rw [Nat.max_eq_left (by omega), ← Int.natCast_mul]
      omega
    next none_ =>
      rw [Nat.max_eq_right (by omega), Nat.one_mul]
      omega
  rw [emit, size, Int.toNat_natCast, elementsFrom_inside inside, length]
  simp only [told]
  cases o.storekey <;> rfl

theorem sortVector_perm (libc : Libc) (o : Options) (l : Loaded) (vector : List SortObject) :
    ∃ sorted, sortVector libc o l vector = .ok sorted ∧ sorted.Perm vector := by
  rw [sortVector]
  split
  next => exact ⟨vector, rfl, List.Perm.refl vector⟩
  next =>
    split
    next => exact partialSort_perm libc o vector l.range.start l.range.end_
    next => exact ⟨_, rfl, libc.permutes _ vector⟩

theorem sortVector_slice (libc : Libc) (sorts : o.dontsort = false) {l : Loaded} (numeric : ∀ x ∈ vector, Numeric x)
    (selects : Selects o vector.length l.range) :
    ∃ sorted, sortVector libc o l vector = .ok sorted ∧ sorted.Perm vector ∧
      ∃ order : List SortObject, order.Perm vector ∧ (order.Pairwise fun x y => sortCompare libc o x y ≤ 0) ∧
        (order.drop o.limitStart.toInt.toNat).take (sliceLen o vector.length) =
          (sorted.drop l.range.start.toNat).take (sliceLen o vector.length) := by
  have whole := libc.permutes (sortCompare libc o) vector
  have ascending := libc.sorts Numeric (sortCompare libc o) vector numeric (sortCompare_total libc o).1
  by_cases none_ : sliceLen o vector.length = 0
  · obtain ⟨sorted, result, perm⟩ := sortVector_perm libc o l vector
    exact ⟨sorted, result, perm, _, whole, ascending, by rw [none_, take_zero, take_zero]⟩
  · obtain ⟨len, start, low, high⟩ := selects
    have begins := start (by omega)
    rw [sortVector, if_neg (by rw [sorts]; decide)]
    split
    next =>
      have ends : l.range.end_ = (o.limitStart.toInt.toNat + sliceLen o vector.length - 1 : Nat) := by omega
      rw [begins, ends, Int.toNat_natCast]
      exact partialSort_slice libc o vector numeric (by omega) (by omega)
    next => exact ⟨_, rfl, whole, _, whole, ascending, by rw [begins, Int.toNat_natCast]⟩

/-- The vector that is sent from, and the elements in the order that is asked for. -/
theorem sorted_loaded {c : Collection} (all : LoadsAll o c) (convertible : Convertible libc db o c) {l : Loaded}
    (selects : Selects o c.length l.range) :
    ∃ sorted, sortVector libc o l (c.elements.map (sortObject libc db o)) = .ok sorted ∧ sorted.length = c.length ∧
      ∃ order, Ordered libc db o c order ∧ slice o order = ((sorted.drop l.range.start.toNat).take (sliceLen o c.length)).map (·.obj) := by
  have objects : (c.elements.map (sortObject libc db o)).map (·.obj) = c.elements := by
    rw [List.map_map]
    exact (map_congr_left fun x _ => sortObject_obj x).trans (List.map_id _)
  have length : (c.elements.map (sortObject libc db o)).length = c.length := by rw [length_map, elements_length]
  cases sorts : o.dontsort with
  | true =>
    have native : c.native o.desc = c.elements := by
      cases c with
      | list elements => rfl
      | set elements => rfl
      | zset zobj => exact absurd sorts (by rw [show o.dontsort = false from all]; decide)
    refine ⟨_, by rw [sortVector, if_pos sorts], length, c.elements, by rw [Ordered, if_pos sorts, native], ?_⟩
    rw [slice_eq, elements_length, map_take, map_drop, objects]
    by_cases none_ : sliceLen o c.length = 0
    · rw [none_, take_zero, take_zero]
    · rw [selects.start (by omega), Int.toNat_natCast]
  | false =>
    have numeric : ∀ x ∈ c.elements.map (sortObject libc db o), Numeric x := by
      intro x mem
      obtain ⟨obj, here, rfl⟩ := List.mem_map.mp mem
      exact sortObject_numeric convertible here
    rw [← length] at selects
    obtain ⟨sorted, result, perm, order, arranged, ascending, same⟩ := sortVector_slice libc sorts numeric selects
    rw [length] at same
    have weighed : ∀ x ∈ order, sortObject libc db o x.obj = x := by
      intro x mem
      obtain ⟨obj, -, rfl⟩ := List.mem_map.mp (arranged.subset mem)
      rw [sortObject_obj]
    refine ⟨sorted, result, perm.length_eq.trans length, order.map (·.obj), ?_, ?_⟩
    · rw [Ordered, if_neg (by rw [sorts]; decide)]
      refine ⟨?_, ?_⟩
      · have perm' := arranged.map (·.obj)
        rw [objects] at perm'
        exact perm'
      · rw [pairwise_map]
        apply List.Pairwise.imp_of_mem _ ascending
        intro x y first second le
        rw [weighed x first, weighed y second]
        exact le
    · rw [slice_eq, length_map, arranged.length_eq, length, ← map_drop, ← map_take, same]

variable {c : Collection} {result : Except Fault (Keyspace × Reply)}

theorem Ordered.length {order : List StringObject} (ordered : Ordered libc db o c order) : order.length = c.length := by
  rw [Ordered] at ordered
  split at ordered
  next =>
    rw [ordered]
    cases c with
    | list elements => rfl
    | set elements => rfl
    | zset zobj =>
      have same : zobj.iterated.length = zobj.ranked.length := zobj.same.length_eq
      simp only [Collection.native, Collection.length, same]
      split
      next => exact length_reverse
      next => rfl
  next => rw [ordered.1.length_eq, elements_length]

theorem answers_told {order : List StringObject} (ordered : Ordered libc db o c order) (convertible : Convertible libc db o c)
    (sent : result = .ok (told db o (getop o * sliceLen o c.length % 2 ^ 32) ((slice o order).flatMap (outputs db o)))) :
    Answers libc db o c result ↔ getop o * sliceLen o c.length < 2 ^ 32 := by
  have count : ∀ order', Ordered libc db o c order' → ((slice o order').flatMap (outputs db o)).length = getop o * sliceLen o c.length := by
    intro order' ordered'
    rw [values_length, slice_length, ordered'.length]
  constructor
  · rintro ⟨right_, -⟩
    obtain ⟨order', ordered', same⟩ := right_ convertible
    rw [sent, answer_told] at same
    have len := told_len (Except.ok.inj same)
    rw [count order' ordered'] at len
    rw [← len]
    exact Nat.mod_lt _ (by decide)
  · intro small
    refine ⟨fun _ => ⟨order, ordered, ?_⟩, fun not_ => absurd convertible not_⟩
    rw [sent, answer_told, count order ordered, Nat.mod_eq_of_lt small]

theorem answers_nothing (small : c.length < 2 ^ 31) (overflows : Overflows o c.length) (convertible : Convertible libc db o c)
    (sent : result = .ok (told db o len [])) : ¬ Answers libc db o c result := by
  rintro ⟨right_, -⟩
  obtain ⟨order, ordered, same⟩ := right_ convertible
  rw [sent, answer_told] at same
  have none_ := told_nothing (Except.ok.inj same)
  have length := values_length db o (slice o order)
  rw [none_, length_nil, slice_length, ordered.length] at length
  have positive : 0 < getop o * sliceLen o c.length := Nat.mul_pos (by rw [getop]; omega) (overflows.some small)
  omega

theorem answers_error {fault : Fault} (failed : result = .error fault) : ¬ Answers libc db o c result := by
  rintro ⟨right_, wrong⟩
  by_cases convertible : Convertible libc db o c
  · obtain ⟨order, -, same⟩ := right_ convertible
    rw [failed] at same
    cases same
  · have same := wrong convertible
    rw [failed] at same
    cases same

theorem answers_notDouble (refused : result = .ok (db, .notDouble)) : Answers libc db o c result ↔ ¬ Convertible libc db o c := by
  constructor
  · rintro ⟨right_, -⟩ convertible
    obtain ⟨order, -, same⟩ := right_ convertible
    rw [refused, answer] at same
    have replies := congrArg Prod.snd (Except.ok.inj same)
    split at replies <;> cases replies
  · exact fun not_ => ⟨fun convertible => absurd convertible not_, fun _ => refused⟩

theorem slices_all (libc : Libc) (db : Keyspace) (all : LoadsAll o c) : Answers libc db o c (sortCollection libc db o c) ↔ Fits libc db o c := by
  by_cases small : c.length < 2 ^ 31
  · have loaded := load_small all small
    obtain ⟨sorted, result, perm⟩ := sortVector_perm libc o ⟨c.elements, limit o c.length, c.length⟩
      (c.elements.map (sortObject libc db o))
    have errors := conversionError_elements libc db o c
    cases conversion : conversionError libc db o o.erange c.elements with
    | true =>
      have refused : sortCollection libc db o c = .ok (db, .notDouble) := by
        rw [sortCollection, loaded]
        simp only [Except.bind, bind, result, conversion, if_true]
      rw [answers_notDouble refused]
      constructor
      · intro not_
        exact ⟨small, fun yes => absurd yes not_, fun yes => absurd yes not_, fun yes => absurd yes not_⟩
      · intro fits convertible
        exact (errors.mp conversion).elim (fun not_ => not_ convertible) (fits.errno convertible)
    | false =>
      have convertible : Convertible libc db o c := by
        by_contra not_
        rw [errors.mpr (Or.inl not_)] at conversion
        cases conversion
      have fresh : ¬ Stale db o c := by
        intro stale
        rw [errors.mpr (Or.inr stale)] at conversion
        cases conversion
      have emitted : sortCollection libc db o c = emit db o (limit o c.length) sorted := by
        rw [sortCollection, loaded]
        simp only [Except.bind, bind, result, conversion, Bool.false_eq_true, if_false]
      by_cases overflows : Overflows o c.length
      · have nothing : sortCollection libc db o c = .ok (told db o (outputlen o (limit o c.length)) []) := by
          have none_ : ((limit o c.length).end_ - (limit o c.length).start + 1).toNat = 0 := by
            have count := int64_range o.limitCount
            rw [limit_overflows small overflows]
            simp only
            omega
          rw [emitted, emit, none_, elementsFrom]
          simp only [told]
          cases o.storekey <;> rfl
        exact iff_of_false (answers_nothing small overflows convertible nothing) fun fits => fits.bounds convertible overflows
      · have selects := limit_selects small overflows
        obtain ⟨sorted', result', length, order, ordered, same⟩ :=
          sorted_loaded (l := ⟨c.elements, limit o c.length, c.length⟩) all convertible selects
        obtain rfl : sorted = sorted' := Except.ok.inj (result.symm.trans result')
        have fewer : sliceLen o c.length ≤ c.length := by
          rw [sliceLen]
          split <;> omega
        have enough : (limit o c.length).start.toNat + sliceLen o c.length ≤ sorted.length := by
          have high := selects.high
          have len := selects.len
          omega
        have sent := emit_part db o selects.len enough
        rw [← same, ← emitted] at sent
        rw [answers_told ordered convertible sent]
        have count : (slice o c.elements).length = sliceLen o c.length := by rw [slice_length, elements_length]
        constructor
        · exact fun announced => ⟨small, fun _ => overflows, fun _ => by rw [count]; exact announced, fun _ => fresh⟩
        · intro fits
          rw [← count]
          exact fits.announced convertible
  · obtain ⟨fault, failed⟩ := fill_large c.elements (by rw [elements_length]; omega)
    have stopped : sortCollection libc db o c = .error fault := by
      rw [elements_length] at failed
      rw [sortCollection, load_all all, failed]
      rfl
    exact iff_of_false (answers_error stopped) fun fits => small fits.size

theorem slices_nosort (libc : Libc) (db : Keyspace) (sorts : o.dontsort = true) (small : zobj.iterated.length < 2 ^ 31) :
    Answers libc db o (.zset zobj) (sortCollection libc db o (.zset zobj)) ↔ Fits libc db o (.zset zobj) := by
  have convertible : Convertible libc db o (.zset zobj) := fun loads => by rw [sorts] at loads; cases loads
  have fresh : ¬ Stale db o (.zset zobj) := fun stale => Bool.noConfusion (sorts.symm.trans stale.2.1)
  by_cases overflows : Overflows o zobj.iterated.length
  · have failed : ∃ fault, sortCollection libc db o (.zset zobj) = .error fault := by
      rw [sortCollection]
      obtain ⟨fault, stops⟩ | ⟨vector, vectorlen, loaded, short⟩ := load_overflows sorts small overflows
      · exact ⟨fault, by rw [stops]; rfl⟩
      · have outside : (vector.map (sortObject libc db o)).length < 0 + (o.limitCount.toInt - 1 - 0 + 1).toNat := by
          rw [length_map]
          omega
        obtain ⟨fault, stops⟩ := elementsFrom_outside outside (by omega)
        refine ⟨fault, ?_⟩
        rw [loaded]
        simp only [Except.bind, bind, sortVector, if_pos sorts, conversionError_skips (Or.inl sorts), Bool.false_eq_true, if_false, emit,
          Int.toNat_zero, stops]
    obtain ⟨fault, stops⟩ := failed
    exact iff_of_false (answers_error stops) fun fits => fits.bounds convertible overflows
  · have loaded := load_nosort sorts small overflows
    have ordered : Ordered libc db o (.zset zobj) (Collection.native o.desc (.zset zobj)) := by rw [Ordered, if_pos sorts]
    have whole : (Collection.native o.desc (.zset zobj)).length = zobj.iterated.length := ordered.length
    have sent : sortCollection libc db o (.zset zobj) = .ok (told db o (getop o * sliceLen o zobj.iterated.length % 2 ^ 32)
        ((slice o (Collection.native o.desc (.zset zobj))).flatMap (outputs db o))) := by
      have objects : ((slice o (Collection.native o.desc (.zset zobj))).map (sortObject libc db o)).map (·.obj) =
          slice o (Collection.native o.desc (.zset zobj)) := by
        rw [List.map_map]
        exact (map_congr_left fun x _ => sortObject_obj x).trans (List.map_id _)
      have length : ((slice o (Collection.native o.desc (.zset zobj))).map (sortObject libc db o)).length = sliceLen o zobj.iterated.length := by
        rw [length_map, slice_length, whole]
      have part : emit db o ⟨0, (sliceLen o zobj.iterated.length : Int) - 1⟩
          ((slice o (Collection.native o.desc (.zset zobj))).map (sortObject libc db o)) = _ :=
        emit_part db o (show (sliceLen o zobj.iterated.length : Int) - 1 - 0 + 1 = sliceLen o zobj.iterated.length by omega) (by rw [length]; simp only [Int.toNat_zero]; omega)
      rw [Int.toNat_zero, drop_zero, take_of_length_le (Nat.le_of_eq length), objects] at part
      rw [sortCollection, loaded]
      simp only [Except.bind, bind, sortVector, if_pos sorts, conversionError_skips (Or.inl sorts), Bool.false_eq_true, if_false]
      exact part
    rw [answers_told ordered convertible sent]
    have count : (slice o (Collection.elements (.zset zobj))).length = sliceLen o zobj.iterated.length := by
      rw [slice_length, elements_length]
      rfl
    constructor
    · exact fun announced => ⟨small, fun _ => overflows, fun _ => by rw [count]; exact announced, fun _ => fresh⟩
    · intro fits
      have announced := fits.announced convertible
      rw [count] at announced
      exact announced

def plainLibc : Libc where
  strtod _ := ⟨.zero, 0, false⟩
  toDouble _ := .zero
  strcoll := compareStringObjects
  qsort cmp vector :=
    match vector with
    | [] => []
    | x :: rest => (List.range (rest.length + 1)).map (Pqsort.insertionSort cmp ⟨fun i => (x :: rest).getD i x⟩ 0 (rest.length + 1)).cell
  number _ := by decide
  collates := compareStringObjects_total
  permutes cmp vector := by
    cases vector with
    | nil => exact List.Perm.refl []
    | cons x rest =>
      have moved : Cells.Rearranged 0 (0 + (rest.length + 1)) ⟨fun i => (x :: rest).getD i x⟩
          (Pqsort.insertionSort cmp ⟨fun i => (x :: rest).getD i x⟩ 0 (rest.length + 1)) := Pqsort.insertionSort_rearranged _ 0 _
      rw [Nat.zero_add] at moved
      have perm := moved.perm
      rw [← length_cons (a := x), getD_range (x :: rest)] at perm
      exact perm
  sorts valid cmp vector holds total := by
    cases vector with
    | nil => exact List.Pairwise.nil
    | cons x rest =>
      have sorted := Pqsort.insertionSort_sorted total ⟨fun i => (x :: rest).getD i x⟩ 0 (rest.length + 1) fun i _ upper => by
        rw [Nat.zero_add] at upper
        apply holds
        simp only [getD_eq_getElem?_getD, getElem?_eq_getElem (show i < (x :: rest).length from upper), Option.getD_some]
        exact getElem_mem _
      rw [pairwise_map]
      apply List.Pairwise.imp_of_mem _ pairwise_lt_range
      intro i j _ second before
      exact sorted i j (Nat.zero_le i) before (by rw [Nat.zero_add]; exact mem_range.mp second)

def threeElements : Collection := .list [.sds [97], .sds [98], .sds [99]]

def oneKey : Keyspace := Function.update (fun _ => none) [108] (some (.collection threeElements))

/-- BY nosort LIMIT `start` `count` -/
def limited (start count : Bytes) : List Bytes :=
  [[98, 121], [110, 111, 115, 111, 114, 116], [108, 105, 109, 105, 116], start, count]

def nosort (start count : Int64) : Options := ⟨false, false, start, count, none, some [110, 111, 115, 111, 114, 116], true, [], false⟩

def longMax : Bytes := [57, 50, 50, 51, 51, 55, 50, 48, 51, 54, 56, 53, 52, 55, 55, 53, 56, 48, 55]

end Cplusplus.Redis.Sort
