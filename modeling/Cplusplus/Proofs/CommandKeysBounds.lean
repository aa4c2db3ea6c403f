import Cplusplus.CommandKeys

/-! The positions of keys lie among the arguments, unless a negative number of keys is given. -/

namespace Cplusplus.Redis.CommandKeys

open Option

def Filled (argc : Int) (keys : Keys) (count : Int) : Prop :=
  ∀ i < count.toNat, ∃ pos, keys[i]? = some (some pos) ∧ 1 ≤ pos ∧ pos ≤ argc - 1

structure KeysValid (argc : Int) (keys : Keys) (numkeys : Int) : Prop where
  nonneg : 0 ≤ numkeys
  inside : numkeys ≤ keys.length
  filled : Filled argc keys numkeys

/-- The function returns, with positions of arguments and without a write outside the array. -/
def Extracts (argc : Int) (result : Option (Keys × Int)) : Prop :=
  ∃ keys numkeys, result = some (keys, numkeys) ∧ KeysValid argc keys numkeys

variable {argc i pos : Int} {keys : Keys}

theorem extracts_none : Extracts argc (some ([], 0)) :=
  ⟨[], 0, rfl, Int.le_refl 0, Int.le_refl 0, fun i small => absurd small (Nat.not_lt_zero i)⟩

theorem Keys.write_spec (pos : Int) (nonneg : 0 ≤ i) (inside : i < keys.length) :
    ∃ written, keys.write i pos = some written ∧ written.length = keys.length ∧
      ∀ k : Nat, written[k]? = if k = i.toNat then some (some pos) else keys[k]? := by
  refine ⟨keys.set i.toNat (some pos), by rw [Keys.write, if_pos ⟨nonneg, inside⟩], List.length_set, fun k => ?_⟩
  rw [List.getElem?_set]
  split
  next same => rw [if_pos same.symm, if_pos (by omega)]
  next other => rw [if_neg (Ne.symm other)]

theorem Filled.write (filled : Filled argc keys i) (pos : Int) (nonneg : 0 ≤ i) (inside : i < keys.length) (first : 1 ≤ pos) (last : pos ≤ argc - 1) :
    ∃ written, keys.write i pos = some written ∧ written.length = keys.length ∧ Filled argc written (i + 1) := by
  obtain ⟨written, result, length, entries⟩ := Keys.write_spec pos nonneg inside
  refine ⟨written, result, length, fun k small => ?_⟩
  rw [entries]
  split
  next => exact ⟨pos, rfl, first, last⟩
  next other => exact filled k (by omega)

theorem zmallocInts_spec (count : Int) (nonneg : 0 ≤ count) (bound : count < 2 ^ 61) :
    ∃ keys, zmallocInts count = some keys ∧ (keys.length : Int) = count := by
  have size : (4 * count % 2 ^ 64).toNat = 4 * count.toNat := by omega
  refine ⟨_, by rw [zmallocInts, size, if_neg (by omega)], ?_⟩
  rw [List.length_replicate]
  omega

theorem zmallocInts_negative {count : Int} (low : -2 ^ 31 ≤ count) (negative : count < 0) : zmallocInts count = none := by
  have size : 2 ^ 63 ≤ (4 * count % 2 ^ 64).toNat := by omega
  simp only [zmallocInts]
  rw [if_pos size]

theorem tableLoop_extracts {last step : Int} (first : Int) (start : 1 ≤ first) (forward : 1 ≤ step) (inside : last ≤ argc - 1) (fuel : Nat)
    {j : Int} (nonneg : 0 ≤ i) (behind : i ≤ j - first) (size : keys.length = last - first + 1) (within : i ≤ keys.length)
    (filled : Filled argc keys i) (enough : (last - j + 1).toNat < fuel) : Extracts argc (tableLoop argc last step fuel j i keys) := by
  induction fuel generalizing i j keys with
  | zero => exact absurd enough (Nat.not_lt_zero _)
  | succ fuel ih =>
    rw [tableLoop]
    split
    next more =>
      obtain ⟨written, result, length, filled'⟩ := filled.write j nonneg (by omega) (by omega) (by omega)
      rw [if_pos (by omega), result, bind_some]
      exact ih (by omega) (by omega) (by rw [length, size]) (by omega) filled' (by omega)
    next => exact ⟨keys, i, rfl, nonneg, within, filled⟩

def ColumnsOk (columns : KeyColumns) (arity : Nat) : Prop :=
  columns.firstkey = 0 ∨ 1 ≤ columns.keystep ∧
    if columns.lastkey < 0 then (columns.firstkey : Int) ≤ arity + columns.lastkey + 1
    else columns.firstkey ≤ columns.lastkey + 1 ∧ columns.lastkey < arity

instance (columns : KeyColumns) (arity : Nat) : Decidable (ColumnsOk columns arity) := by
  unfold ColumnsOk
  infer_instance

theorem keyColumns_ok (cmd : Command) : ColumnsOk (keyColumns cmd) (redisCommandTable cmd).arity.natAbs := by
  cases cmd <;> decide

theorem getKeysUsingCommandTable_extracts {columns : KeyColumns} {argv : Argv} {arity : Nat} (ok : ColumnsOk columns arity)
    (enough : arity ≤ argv.length) (small : argv.length < 2 ^ 31) (large : columns.lastkey < 2 ^ 31) :
    Extracts argv.length (getKeysUsingCommandTable columns argv) := by
  unfold getKeysUsingCommandTable
  split
  next => exact extracts_none
  next present =>
    obtain absent | ⟨step, range⟩ := ok
    · exact absurd absent present
    · generalize last_eq : (if columns.lastkey < 0 then (argv.length : Int) + columns.lastkey else columns.lastkey) = last
      have bounds : (columns.firstkey : Int) ≤ last + 1 ∧ last ≤ argv.length - 1 ∧ last < 2 ^ 31 := by
        split at range <;> rename_i sign <;> simp only [sign, if_true, if_false] at last_eq <;> omega
      obtain ⟨keys, allocated, size⟩ := zmallocInts_spec (last - columns.firstkey + 1) (by omega) (by omega)
      simp only [allocated, bind_eq_bind, bind_some]
      exact tableLoop_extracts columns.firstkey (by omega) (by omega) bounds.2.1 _ (Int.le_refl 0) (by omega) size (by omega)
        (fun k small => absurd small (Nat.not_lt_zero k)) (by omega)

theorem fillKeys_spec (argc : Int) (left : Nat) (nonneg : 0 ≤ i) (size : i + left ≤ keys.length) (inside : i + left ≤ argc - 3) (filled : Filled argc keys i) :
    ∃ written, fillKeys left i keys = some written ∧ written.length = keys.length ∧ Filled argc written (i + left) := by
  induction left generalizing i keys with
  | zero =>
    rw [Int.natCast_zero, Int.add_zero]
    exact ⟨keys, rfl, rfl, filled⟩
  | succ left ih =>
    obtain ⟨written, result, length, filled'⟩ := filled.write (3 + i) nonneg (by omega) (by omega) (by omega)
    rw [fillKeys, result, bind_some]
    obtain ⟨after, result', length', filled''⟩ := ih (by omega) (by rw [length]; omega) (by omega) filled'
    refine ⟨after, result', length'.trans length, ?_⟩
    rwa [show i + (left + 1 : Nat) = i + 1 + left by omega]

theorem filled_zero (argc : Int) (keys : Keys) : Filled argc keys 0 := fun i small => absurd small (Nat.not_lt_zero i)

theorem atoi_low (s : List UInt8) : -2 ^ 31 ≤ atoi s := BitVec.le_toInt _

theorem atoi_high (s : List UInt8) : atoi s < 2 ^ 31 := BitVec.toInt_lt

variable {argv : Argv}

theorem zunionInterGetKeys_extracts_iff (enough : 3 ≤ argv.length) :
    Extracts argv.length (zunionInterGetKeys argv) ↔ 0 ≤ atoi (argv.getD 2 []) := by
  have low := atoi_low (argv.getD 2 [])
  have high := atoi_high (argv.getD 2 [])
  unfold zunionInterGetKeys
  generalize atoi (argv.getD 2 []) = num at low high
  simp only
  split
  next many => exact iff_of_true extracts_none (by omega)
  next fits =>
    by_cases nonneg : 0 ≤ num
    · refine iff_of_true ?_ nonneg
      obtain ⟨keys, allocated, size⟩ := zmallocInts_spec (num + 1) (by omega) (by omega)
      obtain ⟨written, filled, length, positions⟩ := fillKeys_spec argv.length num.toNat (Int.le_refl 0) (by omega) (by omega)
        (filled_zero _ keys)
      rw [Int.zero_add, Int.toNat_of_nonneg nonneg] at positions
      obtain ⟨after, result, length', positions'⟩ := positions.write 1 nonneg (by omega) (Int.le_refl 1) (by omega)
      simp only [allocated, filled, result, bind_eq_bind, bind_some]
      exact ⟨after, num + 1, rfl, by omega, by omega, positions'⟩
    · refine iff_of_false ?_ nonneg
      rintro ⟨keys, numkeys, result, -⟩
      by_cases last : num = -1
      · subst last
        cases result
      · rw [zmallocInts_negative (by omega) (by omega)] at result
        cases result

theorem evalGetKeys_extracts_iff (enough : 3 ≤ argv.length) : Extracts argv.length (evalGetKeys argv) ↔ 0 ≤ atoi (argv.getD 2 []) := by
  have low := atoi_low (argv.getD 2 [])
  have high := atoi_high (argv.getD 2 [])
  unfold evalGetKeys
  generalize atoi (argv.getD 2 []) = num at low high
  simp only
  split
  next many => exact iff_of_true extracts_none (by omega)
  next fits =>
    by_cases nonneg : 0 ≤ num
    · refine iff_of_true ?_ nonneg
      obtain ⟨keys, allocated, size⟩ := zmallocInts_spec num nonneg (by omega)
      obtain ⟨written, filled, length, positions⟩ := fillKeys_spec argv.length num.toNat (Int.le_refl 0) (by omega) (by omega)
        (filled_zero _ keys)
      rw [Int.zero_add, Int.toNat_of_nonneg nonneg] at positions
      simp only [allocated, filled, bind_eq_bind, bind_some]
      exact ⟨written, num, rfl, nonneg, by omega, positions⟩
    · refine iff_of_false ?_ nonneg
      rintro ⟨keys, numkeys, result, -⟩
      rw [zmallocInts_negative low (by omega)] at result
      cases result

def IsPosition (argc : Int) (entry : Option Int) : Prop := ∃ pos, entry = some pos ∧ 1 ≤ pos ∧ pos ≤ argc - 1

/-- The first entry stays, and the second one is a position once STORE was found. -/
theorem sortLoop_spec (argv : Argv) (first : Option Int) (fuel i : Nat) (foundStore : Bool) (second : Option Int) (positive : 0 < fuel)
    (behind : argv.length < i + fuel) (stored : foundStore = true → IsPosition argv.length second) :
    ∃ second' foundStore', sortLoop argv fuel i foundStore [first, second] = some ([first, second'], foundStore') ∧
      (foundStore' = true → IsPosition argv.length second') := by
  induction fuel generalizing i foundStore second with
  | zero => exact absurd positive (Nat.lt_irrefl 0)
  | succ fuel ih =>
    rw [sortLoop]
    split
    next more =>
      have onward : ∀ count, 0 < fuel ∧ argv.length < i + count + 1 + fuel := fun count => ⟨by omega, by omega⟩
      cases option : sortOption (argv.getD i []) (i + 1 < argv.length) skiplist with
      | skip count => exact ih _ _ _ (onward count).1 (onward count).2 stored
      | other => exact ih _ _ _ (onward 0).1 (onward 0).2 stored
      | store =>
        have next : i + 1 < argv.length := by
          by_contra final
          have never : ∀ list, sortOption (argv.getD i []) false list ≠ .store := by
            intro list
            induction list with
            | nil => exact fun same => by cases same
            | cons pair list ih =>
              rw [sortOption]
              split
              next => exact fun same => by cases same
              next => simpa using ih
          rw [decide_eq_false final] at option
          exact never _ option
        have written : Keys.write [first, second] 1 (i + 1) = some [first, some ((i : Int) + 1)] := rfl
        simp only [written, bind_some]
        exact ih _ _ _ (onward 0).1 (onward 0).2 fun _ => ⟨(i : Int) + 1, rfl, by omega, by omega⟩
    next => exact ⟨second, foundStore, rfl, stored⟩

theorem sortGetKeys_extracts (enough : 2 ≤ argv.length) : Extracts argv.length (sortGetKeys argv) := by
  have high : (1 : Int) ≤ argv.length - 1 := by omega
  obtain ⟨second, foundStore, result, stored⟩ := sortLoop_spec argv (some 1) argv.length 2 false none
    (by omega) (by omega) (fun impossible => by cases impossible)
  have allocated : zmallocInts 2 = some [none, none] := rfl
  have written : Keys.write [none, none] 0 1 = some [some 1, none] := rfl
  simp only [sortGetKeys, allocated, written, result, bind_eq_bind, bind_some]
  refine ⟨_, _, rfl, by split <;> omega, by split <;> simp, ?_⟩
  cases foundStore with
  | false =>
    intro k small
    obtain rfl : k = 0 := by
      simp at small
      omega
    exact ⟨1, rfl, Int.le_refl 1, high⟩
  | true =>
    obtain ⟨pos, rfl, low', high'⟩ := stored rfl
    intro k small
    have cases_ : k = 0 ∨ k = 1 := by
      simp at small
      omega
    rcases cases_ with rfl | rfl
    · exact ⟨1, rfl, Int.le_refl 1, high⟩
    · exact ⟨pos, rfl, low', high'⟩

def TakesNumkeys (cmd : Command) : Prop := cmd = .zunionstore ∨ cmd = .zinterstore ∨ cmd = .eval ∨ cmd = .evalsha

instance (cmd : Command) : Decidable (TakesNumkeys cmd) := by
  unfold TakesNumkeys
  infer_instance

theorem getkeysProc_cases (cmd : Command) : (keyColumns cmd).getkeysProc = none ∧ ¬ TakesNumkeys cmd ∧ (keyColumns cmd).lastkey < 2 ^ 31 ∨
      (keyColumns cmd).getkeysProc = some .sortGetKeys ∧ ¬ TakesNumkeys cmd ∧ 2 ≤ (redisCommandTable cmd).arity.natAbs ∨
      (keyColumns cmd).getkeysProc = some .zunionInterGetKeys ∧ TakesNumkeys cmd ∧ 3 ≤ (redisCommandTable cmd).arity.natAbs ∨
      (keyColumns cmd).getkeysProc = some .evalGetKeys ∧ TakesNumkeys cmd ∧ 3 ≤ (redisCommandTable cmd).arity.natAbs := by
  cases cmd <;> decide

/-- For every entry of the table and enough arguments, the keys are extracted exactly if the number of
keys that is given, if one is, is not negative. `argc` is an int. -/
theorem getKeysFromCommand_extracts_iff (cmd : Command) (argv : Argv) (enough : (redisCommandTable cmd).arity.natAbs ≤ argv.length)
    (small : argv.length < 2 ^ 31) :
    Extracts argv.length (getKeysFromCommand cmd argv) ↔ (TakesNumkeys cmd → 0 ≤ atoi (argv.getD 2 [])) := by
  unfold getKeysFromCommand
  obtain ⟨proc, other, large⟩ | ⟨proc, other, arity⟩ | ⟨proc, takes, arity⟩ | ⟨proc, takes, arity⟩ := getkeysProc_cases cmd
  · rw [proc]
    exact iff_of_true (getKeysUsingCommandTable_extracts (keyColumns_ok cmd) enough small large) fun takes => absurd takes other
  · rw [proc]
    exact iff_of_true (sortGetKeys_extracts (Nat.le_trans arity enough)) fun takes => absurd takes other
  · rw [proc]
    exact (zunionInterGetKeys_extracts_iff (Nat.le_trans arity enough)).trans ⟨fun nonneg _ => nonneg, fun nonneg => nonneg takes⟩
  · rw [proc]
    exact (evalGetKeys_extracts_iff (Nat.le_trans arity enough)).trans ⟨fun nonneg _ => nonneg, fun nonneg => nonneg takes⟩

/-- ZUNIONSTORE d 2 a b -/
theorem getKeysFromCommand_extracts_union :
    Extracts 5 (getKeysFromCommand .zunionstore [[122], [100], [50], [97], [98]]) ↔
      (TakesNumkeys .zunionstore → 0 ≤ atoi ([[122], [100], [50], [97], [98]].getD 2 [])) :=
  getKeysFromCommand_extracts_iff .zunionstore [[122], [100], [50], [97], [98]] (by decide) (by decide)

/-- ZUNIONSTORE d -1 a asks for an empty array and writes in front of it. -/
theorem getKeysFromCommand_negative :
    getKeysFromCommand .zunionstore [[122], [100], [45, 49], [97]] = none ∧
      ¬ Extracts 4 (getKeysFromCommand .zunionstore [[122], [100], [45, 49], [97]]) := by
  have none_ : getKeysFromCommand .zunionstore [[122], [100], [45, 49], [97]] = none := by decide
  refine ⟨none_, ?_⟩
  rintro ⟨keys, numkeys, result, -⟩
  rw [none_] at result
  cases result

end Cplusplus.Redis.CommandKeys
