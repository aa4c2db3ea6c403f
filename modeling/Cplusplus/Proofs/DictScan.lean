import Cplusplus.Library.BitReversal
import Cplusplus.Proofs.DictMap

/-! The guarantee of `dictScan`. A key that has not been returned yet lies at or
after the cursor in the reversed order of the hashes, whatever happened to the
tables in between. During a rehash the larger table is walked in the ordinary
order of its upper bits, which covers the rest of the interval only if the cursor
has, between the two masks, a block of ones below a block of zeros. -/

namespace Cplusplus.Redis
open BitReversal
open BitVec (getLsbD_and ofNat toNat_and)

variable {K V : Type}

private def partner (s i : Nat) : Nat := if i / s % 2 = 0 then i + s else i - s

private theorem swap_bit {s : Nat} {mask : BitVec 64} (pattern : ∀ i < 64, mask.getLsbD i = decide (i / s % 2 = 0)) (v : BitVec 64)
    (i : Nat) (inside : i < 64) : (((v >>> s) &&& mask) ||| ((v <<< s) &&& ~~~mask)).getLsbD i = v.getLsbD (partner s i) := by
  rw [BitVec.getLsbD_or, getLsbD_and, getLsbD_and, BitVec.getLsbD_not, pattern i inside,
    BitVec.getLsbD_ushiftRight, BitVec.getLsbD_shiftLeft, partner]
  by_cases even : i / s % 2 = 0
  · simp [even, Nat.add_comm s i]
  · have above : s ≤ i := by
      by_contra below
      exact even (by simp [Nat.div_eq_of_lt (show i < s by omega)])
    simp [even, inside, above]

theorem rev_eq_reverse (v : BitVec 64) : rev v = v.reverse := by
  apply BitVec.eq_of_getLsbD_eq
  intro i inside
  have bound : ∀ i < 64, partner 1 i < 64 ∧ partner 2 i < 64 ∧ partner 4 i < 64 ∧ partner 8 i < 64 ∧
      partner 16 i < 64 ∧ partner 32 i < 64 := by decide
  have mirrored : ∀ i < 64, partner 32 (partner 16 (partner 8 (partner 4 (partner 2 (partner 1 i))))) = 63 - i := by
    decide
  rw [BitVec.getLsbD_reverse, BitVec.getMsbD_eq_getLsbD]
  simp only [inside, decide_true, Bool.true_and]
  rw [show 64 - 1 - i = 63 - i by omega, ← mirrored i inside]
  have in1 := (bound i inside).1
  have in2 := (bound _ in1).2.1
  have in4 := (bound _ in2).2.2.1
  have in8 := (bound _ in4).2.2.2.1
  have in16 := (bound _ in8).2.2.2.2.1
  rw [rev, revLoop, revLoop, revLoop, revLoop, revLoop, revLoop, revLoop]
  rw [swap_bit (by decide) _ i inside, swap_bit (by decide) _ _ in1, swap_bit (by decide) _ _ in2, swap_bit (by decide) _ _ in4,
    swap_bit (by decide) _ _ in8, swap_bit (by decide) _ _ in16]

/-- The hash of a key as an unsigned long. -/
def wideHash (hash : K → BitVec 32) (key : K) : BitVec 64 := (hash key).setWidth 64

variable {hash : K → BitVec 32} {t : Dictht K V} {j : Nat}

section
variable (valid : TableValid hash t)
include valid

theorem mask_power (size : t.size = 2 ^ j) : t.mask = ofNat 64 (2 ^ j - 1) := by
  rw [Dictht.mask, valid.mask, size]

theorem keySlot_power (size : t.size = 2 ^ j) (key : K) : keySlot hash t key = (wideHash hash key).toNat % 2 ^ j := by
  have wide : (wideHash hash key).toNat = (hash key).toNat := by
    rw [wideHash, BitVec.toNat_setWidth, Nat.mod_eq_of_lt]
    have := (hash key).isLt
    omega
  rw [keySlot, valid.mask, size, Nat.and_two_pow_sub_one_eq_mod, wide]

theorem TableValid.power (nonempty : 0 < t.size) : ∃ j, j ≤ 60 ∧ t.size = 2 ^ j :=
  valid.shape.resolve_left (by omega)

theorem cursor_bucket (bound : j ≤ 60) (size : t.size = 2 ^ j) (v : BitVec 64) :
    t.bucket (v &&& t.mask).toNat = some (t.table (v.toNat % 2 ^ j)) := by
  rw [mask_power valid size, toNat_and_mask v (by omega)]
  exact Dictht.bucket_eq (by rw [size]; exact Nat.mod_lt _ (Nat.two_pow_pos j))

end

/-- After the call a position at or after the cursor is either in the interval of
the cursor's bucket or at or after the new cursor, which then is not zero. -/
theorem scanAdvance_cases (bound : j ≤ 60) {v v' h : BitVec 64}
    (low : v'.toNat % 2 ^ j = v.toNat % 2 ^ j) (ahead : position v ≤ position h) :
    h.toNat % 2 ^ j = v.toNat % 2 ^ j ∨ scanAdvance (ofNat 64 (2 ^ j - 1)) v' ≠ 0#64 ∧
        position (scanAdvance (ofNat 64 (2 ^ j - 1)) v') ≤ position h := by
  have advance : position (scanAdvance (ofNat 64 (2 ^ j - 1)) v') = (position v / 2 ^ (64 - j) + 1) * 2 ^ (64 - j) % 2 ^ 64 := by
    rw [scanAdvance, rev_eq_reverse, rev_eq_reverse]
    exact (position_next v' (by omega)).trans
      (by rw [(position_div_eq_iff v' v (by omega)).mpr low])
  have positive := Nat.two_pow_pos (64 - j)
  rcases Nat.lt_or_ge (position v / 2 ^ (64 - j)) (position h / 2 ^ (64 - j)) with before | after
  · right
    have reached : (position v / 2 ^ (64 - j) + 1) * 2 ^ (64 - j) ≤ position h :=
      (Nat.mul_le_mul_right _ before).trans (Nat.div_mul_le_self _ _)
    have inside : (position v / 2 ^ (64 - j) + 1) * 2 ^ (64 - j) < 2 ^ 64 := Nat.lt_of_le_of_lt reached (position_lt h)
    rw [Nat.mod_eq_of_lt inside] at advance
    refine ⟨fun zero => ?_, by rw [advance]; exact reached⟩
    rw [zero, position_zero] at advance
    exact absurd advance.symm (Nat.mul_pos (Nat.succ_pos _) positive).ne'
  · left
    have same : position h / 2 ^ (64 - j) = position v / 2 ^ (64 - j) := Nat.le_antisymm after (Nat.div_le_div_right ahead)
    exact (position_div_eq_iff h v (by omega)).mp same

/-- The loop over the larger table returns every chain whose upper bits are not
below those of the cursor, and leaves the lower bits of the cursor alone. -/
theorem scanExpansions_spec {t1 : Dictht K V} (valid : TableValid hash t1) {j k : Nat} (bound : j + k ≤ 60) (size : t1.size = 2 ^ (j + k))
    (fuel : Nat) (v : BitVec 64) (enough : 2 ^ k ≤ v.toNat / 2 ^ j % 2 ^ k + fuel) :
    ∃ v' emitted, scanExpansions t1 (ofNat 64 (2 ^ j - 1)) (ofNat 64 (2 ^ (j + k) - 1)) fuel v =
        some (v', emitted) ∧ v'.toNat % 2 ^ j = v.toNat % 2 ^ j ∧
      ∀ r < 2 ^ k, v.toNat / 2 ^ j % 2 ^ k ≤ r → ∀ e ∈ t1.table (r * 2 ^ j + v.toNat % 2 ^ j), e ∈ emitted := by
  have positive := Nat.two_pow_pos k
  have belowK := Nat.mod_lt (v.toNat / 2 ^ j) positive
  induction fuel generalizing v with
  | zero => omega
  | succ fuel ih =>
    have slot : v.toNat % 2 ^ (j + k) = v.toNat / 2 ^ j % 2 ^ k * 2 ^ j + v.toNat % 2 ^ j := by
      rw [Nat.pow_add, Nat.mod_mul, Nat.mul_comm]; omega
    have chain := cursor_bucket valid bound size v
    rw [mask_power valid size] at chain
    have high := toNat_count_high v (show j < 64 by omega)
    simp only [scanExpansions, chain, Option.bind_eq_bind, Option.bind_some]
    generalize (((v ||| ofNat 64 (2 ^ j - 1)) + 1#64) &&& ~~~ofNat 64 (2 ^ j - 1)) |||
      (v &&& ofNat 64 (2 ^ j - 1)) = next at high ⊢
    have lowPart := Nat.mod_lt v.toNat (Nat.two_pow_pos j)
    have low : next.toNat % 2 ^ j = v.toNat % 2 ^ j := by
      rw [high, Nat.mul_add_mod_self_right, Nat.mod_mod]
    have upper : next.toNat / 2 ^ j % 2 ^ k = (v.toNat / 2 ^ j % 2 ^ k + 1) % 2 ^ k := by
      rw [Nat.mod_add_mod, high, Nat.add_comm, Nat.add_mul_div_right _ _ (Nat.two_pow_pos j), Nat.div_eq_of_lt lowPart,
        Nat.zero_add, Nat.mod_mod_of_dvd _ (Nat.pow_dvd_pow 2 (by omega))]
    have ended := and_masks_eq_zero_iff next (show j + k ≤ 64 by omega)
    rw [upper] at ended
    generalize v.toNat / 2 ^ j % 2 ^ k = count at *
    rcases Nat.lt_or_ge (count + 1) (2 ^ k) with more | full
    · rw [Nat.mod_eq_of_lt more] at ended upper
      obtain ⟨v', rest, tail, lowTail, covers⟩ := ih next (by omega) (by omega)
      refine ⟨v', _, by rw [if_neg (fun zero => by simpa using ended.mp zero), tail]; rfl, lowTail.trans low, ?_⟩
      intro r inside above e member
      rw [List.mem_append]
      by_cases here : r = count
      · exact .inl (by rw [slot, ← here]; exact member)
      · exact .inr (covers r inside (by omega) e (by rw [low]; exact member))
    · have wrapped : (count + 1) % 2 ^ k = 0 := by
        rw [show count + 1 = 2 ^ k by omega, Nat.mod_self]
      refine ⟨next, _, by rw [if_pos (ended.mpr wrapped)]; rfl, low, ?_⟩
      intro r inside above e member
      rw [slot, show count = r by omega]
      exact member

/-- During a rehash, no entry of the larger table that the cursor's row still has to
return is in a bucket below the cursor's own. -/
def Dict.CursorAligned (hash : K → BitVec 32) (d : Dict K V) (v : BitVec 64) : Prop :=
  d.isRehashing = true →
    ∀ e ∈ (if d.ht1.size < d.ht0.size then d.ht0 else d.ht1).contents,
      (wideHash hash e.key).toNat % min d.ht0.size d.ht1.size = v.toNat % min d.ht0.size d.ht1.size →
      position v ≤ position (wideHash hash e.key) →
      v.toNat % max d.ht0.size d.ht1.size ≤ (wideHash hash e.key).toNat % max d.ht0.size d.ht1.size

def Passes (hash : K → BitVec 32) (v' : BitVec 64) (emitted : List (DictEntry K V)) (e : DictEntry K V) : Prop :=
  e ∈ emitted ∨ v' ≠ 0#64 ∧ position v' ≤ position (wideHash hash e.key)

theorem scanPair_spec {t0 t1 : Dictht K V} (small : TableValid hash t0) (large : TableValid hash t1) {j k : Nat}
    (bound : j + k ≤ 60) (size0 : t0.size = 2 ^ j) (size1 : t1.size = 2 ^ (j + k)) (v : BitVec 64)
    (aligned : ∀ e ∈ t1.contents, (wideHash hash e.key).toNat % t0.size = v.toNat % t0.size →
      position v ≤ position (wideHash hash e.key) → v.toNat % t1.size ≤ (wideHash hash e.key).toNat % t1.size) :
    ∃ v' rest, scanExpansions t1 t0.mask t1.mask t1.size v = some (v', rest) ∧
      ∀ e ∈ t0.contents + t1.contents, position v ≤ position (wideHash hash e.key) →
        Passes hash (scanAdvance t0.mask v') (t0.table (v.toNat % 2 ^ j) ++ rest) e := by
  rw [size0, size1] at aligned
  obtain ⟨v', rest, scan, low, covers⟩ := scanExpansions_spec large bound size1 t1.size v (by
    rw [size1]
    exact Nat.le_add_left_of_le (Nat.pow_le_pow_right (by decide) (by omega)))
  rw [mask_power small size0, mask_power large size1]
  refine ⟨v', rest, scan, fun e member ahead => ?_⟩
  rcases scanAdvance_cases (by omega) low ahead with here | later
  · left
    rw [List.mem_append]
    rcases Multiset.mem_add.mp member with inSmall | inLarge
    · left
      have slot := (small.mem_slot.mp inSmall).1
      rwa [keySlot_power small size0, here] at slot
    · right
      have slot := (large.mem_slot.mp inLarge).1
      have split : (wideHash hash e.key).toNat % 2 ^ (j + k) = (wideHash hash e.key).toNat / 2 ^ j % 2 ^ k * 2 ^ j + v.toNat % 2 ^ j := by
        rw [← here, Nat.pow_add, Nat.mod_mul, Nat.mul_comm]
        omega
      rw [keySlot_power large size1, split] at slot
      have upper := Nat.div_le_div_right (c := 2 ^ j) (aligned e inLarge here ahead)
      rw [Nat.pow_add, Nat.mod_mul_right_div_self, Nat.mod_mul_right_div_self] at upper
      exact covers _ (Nat.mod_lt _ (Nat.two_pow_pos k)) upper e slot
  · exact .inr later

theorem dictScan_spec {d : Dict K V} (valid : Valid hash d) (v : BitVec 64) (aligned : d.CursorAligned hash v) :
    ∃ v' emitted, dictScan d v = some (v', emitted) ∧
      ∀ e ∈ d.contents, position v ≤ position (wideHash hash e.key) → Passes hash v' emitted e := by
  by_cases empty : d.dictSize = 0
  · refine ⟨0#64, [], by simp [dictScan, empty], fun e member _ => ?_⟩
    have card : d.contents.card = 0 := by
      rw [Dict.contents, Multiset.card_add, ← valid.first.count, ← valid.second.count]
      exact empty
    rw [Multiset.card_eq_zero.mp card] at member
    exact absurd member (Multiset.notMem_zero e)
  · cases moving : d.rehashidx with
    | none =>
      have stopped : d.isRehashing = false := by simp [Dict.isRehashing, moving]
      have alone : d.contents = d.ht0.contents := by
        simp [Dict.contents, valid.idle moving, contents_empty (t := dictReset) rfl]
      have nonempty : 0 < d.ht0.size := by
        by_contra null
        have used := valid.first.count
        rw [Valid.contents_null (by omega)] at used
        simp [Dict.dictSize, used, valid.idle moving, dictReset] at empty
      obtain ⟨j, bound, size⟩ := valid.first.power nonempty
      refine ⟨scanAdvance d.ht0.mask v, d.ht0.table (v.toNat % 2 ^ j), ?_, fun e member ahead => ?_⟩
      · simp [-toNat_and, dictScan, empty, stopped, cursor_bucket valid.first bound size v]
      · rw [mask_power valid.first size]
        rcases scanAdvance_cases bound rfl ahead with here | later
        · left
          have slot := (valid.first.mem_slot.mp (alone ▸ member)).1
          rwa [keySlot_power valid.first size, here] at slot
        · exact .inr later
    | some idx =>
      have rehashing : d.isRehashing = true := by simp [Dict.isRehashing, moving]
      have shape := valid.moving idx moving
      obtain ⟨i, boundI, sizeI⟩ := valid.first.power shape.first
      obtain ⟨j, boundJ, sizeJ⟩ := valid.second.power shape.second
      have ahead := aligned rehashing
      by_cases shrinking : d.ht1.size < d.ht0.size
      · obtain ⟨k, rfl⟩ : ∃ k, i = j + k := ⟨i - j, by
          have := (Nat.pow_lt_pow_iff_right (by decide : 1 < 2)).mp (sizeI ▸ sizeJ ▸ shrinking)
          omega⟩
        rw [Nat.max_eq_left shrinking.le, Nat.min_eq_right shrinking.le, if_pos shrinking] at ahead
        obtain ⟨v', rest, scan, passes⟩ := scanPair_spec valid.second valid.first boundI sizeJ sizeI v ahead
        refine ⟨_, _, ?_, fun e member => passes e (add_comm d.ht0.contents _ ▸ member)⟩
        simp [-toNat_and, dictScan, empty, rehashing, shrinking, cursor_bucket valid.second boundJ sizeJ v, scan]
      · have growing : d.ht0.size ≤ d.ht1.size := by omega
        obtain ⟨k, rfl⟩ : ∃ k, j = i + k := ⟨j - i, by
          have := (Nat.pow_le_pow_iff_right (by decide : 1 < 2)).mp (sizeI ▸ sizeJ ▸ growing)
          omega⟩
        rw [Nat.max_eq_right growing, Nat.min_eq_left growing, if_neg shrinking] at ahead
        obtain ⟨v', rest, scan, passes⟩ := scanPair_spec valid.first valid.second boundJ sizeI sizeJ v ahead
        refine ⟨_, _, ?_, passes⟩
        simp [-toNat_and, dictScan, empty, rehashing, shrinking, cursor_bucket valid.first boundI sizeI v, scan]

/-- The caller of `dictScan`: the cursor that it passes next, what its callback has
received, and whether a call has returned 0. -/
structure ScanState (K V : Type) where
  dict : Dict K V
  cursor : BitVec 64
  emitted : List (DictEntry K V)
  finished : Bool

inductive ScanOp (K V : Type) where
  | scan
  | modify (op : DictOp K V)

def scanStart (d : Dict K V) : ScanState K V := { dict := d, cursor := 0#64, emitted := [], finished := false }

variable [DecidableEq K]

def scanStep (hash : K → BitVec 32) (s : ScanState K V) (op : ScanOp K V) : Option (ScanState K V × Unit) :=
  if s.finished then some (s, ()) else
  match op with
  | .scan => (dictScan s.dict s.cursor).map fun r =>
    ({ s with cursor := r.1, emitted := s.emitted ++ r.2, finished := r.1 = 0#64 }, ())
  | .modify op => (dictStep hash s.dict op).map fun r => ({ s with dict := r.1 }, ())

def ScanOp.Supported (hash : K → BitVec 32) (s : ScanState K V) : ScanOp K V → Prop
  | .scan => s.dict.CursorAligned hash s.cursor
  | .modify op => op.Supported hash s.dict

instance (hash : K → BitVec 32) (s : ScanState K V) (op : ScanOp K V) : Decidable (op.Supported hash s) :=
  match op with
  | .scan => inferInstanceAs (Decidable (_ → _))
  | .modify op => inferInstanceAs (Decidable (op.Supported hash s.dict))

/-- The iteration does not fault, and if the key is in the table from the first call
to the last one, its entry has been returned when the iteration is over. -/
def ScanReturns (hash : K → BitVec 32) (d : Dict K V) (ops : List (ScanOp K V)) (key : K) : Prop :=
  Run.Allowed (scanStep hash) (fun s _ => s.finished = false → s.dict.HasKey key) (scanStart d) ops →
    ∃ last results, Run.exec (scanStep hash) (scanStart d) ops = some (last, results) ∧
      (last.finished = true → ∃ e ∈ last.emitted, e.key = key)

structure ScanInvariant (hash : K → BitVec 32) (key : K) (s : ScanState K V) : Prop where
  valid : Valid hash s.dict
  pending : (∃ e ∈ s.emitted, e.key = key) ∨
    s.finished = false ∧ position s.cursor ≤ position (wideHash hash key)

theorem dictStep_valid {d : Dict K V} (valid : Valid hash d) (op : DictOp K V) (supported : op.Supported hash d) :
    ∃ d' reply, dictStep hash d op = some (d', reply) ∧ Valid hash d' := by
  obtain ⟨m, graph⟩ := valid.represented
  obtain ⟨d', step, rep⟩ := dictStep_simulates d m op ⟨valid, graph⟩ supported
  exact ⟨d', _, step, rep.1⟩

theorem scanStep_invariant (key : K) (s : ScanState K V) (op : ScanOp K V) (holds : ScanInvariant hash key s)
    (guard : s.finished = false → op.Supported hash s ∧ s.dict.HasKey key) :
    ∃ after, scanStep hash s op = some after ∧ ScanInvariant hash key after.1 := by
  cases finished : s.finished with
  | true => exact ⟨(s, ()), by simp [scanStep, finished], holds⟩
  | false =>
    obtain ⟨supported, present⟩ := guard finished
    cases op with
    | scan =>
      obtain ⟨v', emitted, scan, passes⟩ := dictScan_spec holds.valid s.cursor supported
      refine ⟨_, by simp only [scanStep, finished, scan]; rfl, holds.valid, ?_⟩
      rcases holds.pending with ⟨e, member, same⟩ | ⟨_, ahead⟩
      · exact .inl ⟨e, List.mem_append_left _ member, same⟩
      · obtain ⟨e, member, rfl⟩ := present
        rcases passes e member ahead with now | ⟨more, later⟩
        · exact .inl ⟨e, List.mem_append_right _ now, rfl⟩
        · exact .inr ⟨by simpa using more, later⟩
    | modify op =>
      obtain ⟨d', reply, step, valid⟩ := dictStep_valid holds.valid op supported
      exact ⟨_, by simp only [scanStep, finished, step]; rfl, valid, by simpa [finished] using holds.pending⟩

/-- A full iteration returns every key that stays in the table. -/
theorem dictScan_returns_keys {d : Dict K V} (valid : Valid hash d) (ops : List (ScanOp K V)) (key : K)
    (supported : Run.Allowed (scanStep hash) (fun s op => s.finished = false → op.Supported hash s)
      (scanStart d) ops) : ScanReturns hash d ops key := by
  intro present
  have begun : ScanInvariant hash key (scanStart d) := ⟨valid, .inr ⟨rfl, by simp [scanStart, position_zero]⟩⟩
  obtain ⟨last, results, run, holds⟩ := Run.exec_total (scanStep_invariant key) ops begun
    ((supported.and present).mono fun s op both open_ => ⟨both.1 open_, both.2 open_⟩)
  refine ⟨last, results, run, fun finished => ?_⟩
  exact holds.pending.resolve_right fun unfinished => by simp [finished] at unfinished

def dictOfKey (size key : Nat) : Dict Nat Unit :=
  { dictCreate with
    ht0 := Dictht.relink { table := fun _ => [], size, sizemask := size - 1, used := 0 } (key % size)
      [{ addr := 0, key, val := () }] 1 }

theorem dictOfKey_contents (j key : Nat) : (dictOfKey (2 ^ j) key).contents = {{ addr := 0, key, val := () }} := by
  have first := Dictht.contents_push (t := { table := fun _ => [], size := 2 ^ j, sizemask := 2 ^ j - 1, used := 0 })
    (Nat.mod_lt key (Nat.two_pow_pos j)) { addr := 0, key, val := () } 1
  rw [contents_empty (t := { table := fun _ => [], size := 2 ^ j, sizemask := 2 ^ j - 1, used := 0 }) rfl] at first
  simpa [Dict.contents, dictOfKey, dictCreate, contents_empty (t := dictReset) rfl] using first

theorem dictOfKey_valid (bound : j ≤ 32) (key : Nat) : Valid (ofNat 32) (dictOfKey (2 ^ j) key) := by
  have contents : (dictOfKey (2 ^ j) key).ht0.contents = {{ addr := 0, key, val := () }} := by
    rw [← dictOfKey_contents j]
    simp [Dict.contents, dictOfKey, dictCreate, contents_empty (t := dictReset) rfl]
  refine ⟨⟨.inr ⟨j, by omega, rfl⟩, rfl, ?_, by rw [contents]; rfl⟩, tableValid_reset, ?_, fun _ => rfl, by simp [dictOfKey, dictCreate]⟩
  · intro i _ e member
    by_cases here : i = key % 2 ^ j
    · simp only [dictOfKey, Dictht.relink_table, here, Function.update_self, List.mem_singleton] at member
      subst member
      rw [here, keySlot, dictOfKey, Dictht.relink_sizemask, Nat.and_two_pow_sub_one_eq_mod, BitVec.toNat_ofNat,
        Nat.mod_mod_of_dvd _ (Nat.pow_dvd_pow 2 bound)]
    · simp [dictOfKey, here] at member
  · simp [dictOfKey_contents]

/-- Key 1 stays in a table that grows from four to eight buckets during the iteration. -/
theorem dictScan_returns_keys_growing :
    ScanReturns (ofNat 32) (dictOfKey 4 1)
      [.scan, .modify (.expand 8), .scan, .modify (.rehash 1), .scan, .scan, .scan] 1 :=
  dictScan_returns_keys (dictOfKey_valid (j := 2) (by decide) 1) _ _ (by decide +kernel)

/-- A shrink from sixteen to four buckets when the cursor is 9: of the row 1, 5, 9, 13
the call returns 9 and 13, and bucket 5 is never visited. -/
theorem dictScan_skips_shrinking :
    Valid (ofNat 32) (dictOfKey 16 5) ∧
      ¬ ScanReturns (ofNat 32) (dictOfKey 16 5)
        (List.replicate 9 .scan ++ [.modify (.expand 4), .scan, .scan]) 5 := by
  refine ⟨dictOfKey_valid (j := 4) (by decide) 5, fun returns => ?_⟩
  obtain ⟨last, results, run, returned⟩ := returns (by decide +kernel)
  have final : (Run.exec (scanStep (ofNat 32)) (scanStart (dictOfKey 16 5))
      (List.replicate 9 .scan ++ [.modify (.expand 4), .scan, .scan])).map
        (fun r => (r.1.finished, r.1.emitted.isEmpty)) = some (true, true) := by decide +kernel
  rw [run] at final
  simp only [Option.map_some, Option.some.injEq, Prod.mk.injEq, List.isEmpty_iff] at final
  obtain ⟨e, member, _⟩ := returned final.1
  simp [final.2] at member

end Cplusplus.Redis
