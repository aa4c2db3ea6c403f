import Cplusplus.Proofs.DictScan

/-! Safe iterators. What an iterator still has to return is a list: the rest of
its chain and the buckets after it. `dictNext` returns the head of that list, and
while the iterator is running no other operation moves an entry of the table from
one side of it to the other, because the rehash is paused. -/

namespace Cplusplus.Redis

open List Option

variable {K V : Type}
variable {e : DictEntry K V} {chain : List (DictEntry K V)} {d d' : Dict K V} {second : Bool} {i : Nat}
variable {iter : DictIterator} {key : K} {rest : List (DictEntry K V)}

theorem chainFrom_suffix (distinct : (chain.map DictEntry.addr).Nodup) (suffix : e :: rest <:+ chain) :
    chainFrom e.addr chain = some (e :: rest) := by
  obtain ⟨pre, rfl⟩ := suffix
  induction pre with
  | nil => simp [chainFrom]
  | cons f pre ih =>
    simp only [cons_append, map_cons, nodup_cons] at distinct
    have other : f.addr ≠ e.addr := fun same => distinct.1 (by simp [same])
    simp only [cons_append, chainFrom, other, if_false]
    exact ih distinct.2

theorem chainFrom_none {addr : Nat} (absent : ∀ e ∈ chain, e.addr ≠ addr) : chainFrom addr chain = none := by
  induction chain with
  | nil => rfl
  | cons e chain ih =>
    simp only [chainFrom, absent e (by simp), if_false]
    exact ih fun f member => absent f (by simp [member])

theorem findSome_chainFrom {chains : List (List (DictEntry K V))} (distinct : (chains.flatten.map DictEntry.addr).Nodup)
    (listed : chain ∈ chains) (suffix : e :: rest <:+ chain) : chains.findSome? (chainFrom e.addr) = some (e :: rest) := by
  induction chains with
  | nil => cases listed
  | cons first chains ih =>
    simp only [flatten_cons, map_append] at distinct
    obtain ⟨here, there, apart⟩ := nodup_append.mp distinct
    cases listed with
    | head => simp [chainFrom_suffix here suffix]
    | tail _ listed =>
      have absent : ∀ f ∈ first, f.addr ≠ e.addr := by
        intro f member
        refine apart _ (List.mem_map_of_mem member) _ (List.mem_map_of_mem ?_)
        exact mem_flatten.mpr ⟨chain, listed, suffix.subset (by simp)⟩
      simp only [List.findSome?_cons, chainFrom_none absent]
      exact ih there listed

theorem Dictht.contents_flatten (t : Dictht K V) : t.contents = (((List.range t.size).map t.table).flatten : Multiset (DictEntry K V)) := by
  unfold contents
  induction t.size with
  | zero => rfl
  | succ size ih =>
    simp only [Finset.sum_range_succ, ih, range_succ, map_append, List.flatten_append, Multiset.coe_add,
      map_cons, map_nil, flatten_cons, flatten_nil, append_nil]

structure Dict.Addressed (d : Dict K V) : Prop where
  distinct : (d.contents.map DictEntry.addr).Nodup

theorem Dict.Addressed.congr (addressed : d.Addressed) (same : d'.contents = d.contents) : d'.Addressed := ⟨same ▸ addressed.distinct⟩

theorem follow_live (addressed : d.Addressed) (inside : i < (d.ht second).size)
    (suffix : e :: rest <:+ (d.ht second).table i) : d.follow e.addr = some (e :: rest) := by
  have flat : d.contents = (d.chains.flatten : Multiset (DictEntry K V)) := by
    simp [Dict.contents, Dict.chains, Dictht.contents_flatten]
  have listed : (d.ht second).table i ∈ d.chains := by
    cases second with
    | false => exact mem_append_left _ (List.mem_map.mpr ⟨i, mem_range.mpr inside, rfl⟩)
    | true => exact mem_append_right _ (List.mem_map.mpr ⟨i, mem_range.mpr inside, rfl⟩)
  apply findSome_chainFrom _ listed suffix
  simpa [flat] using addressed.distinct

def Dictht.bucketsFrom (t : Dictht K V) (i : Nat) : List (DictEntry K V) :=
  (List.range' i (t.size - i)).flatMap t.table

variable {t : Dictht K V}

theorem bucketsFrom_inside (inside : i < t.size) : t.bucketsFrom i = t.table i ++ t.bucketsFrom (i + 1) := by
  have left : t.size - i = (t.size - (i + 1)) + 1 := by omega
  simp only [Dictht.bucketsFrom, left, range'_succ, flatMap_cons]

theorem bucketsFrom_end (outside : t.size ≤ i) : t.bucketsFrom i = [] := by
  simp [Dictht.bucketsFrom, Nat.sub_eq_zero_of_le outside]

theorem mem_bucketsFrom : e ∈ t.bucketsFrom i ↔ ∃ j, i ≤ j ∧ j < t.size ∧ e ∈ t.table j := by
  simp only [Dictht.bucketsFrom, mem_flatMap, mem_range'_1]
  constructor
  · rintro ⟨j, bound, member⟩
    exact ⟨j, bound.1, by omega, member⟩
  · rintro ⟨j, low, high, member⟩
    exact ⟨j, by omega, member⟩

def Dict.later (d : Dict K V) (second : Bool) (i : Nat) : List (DictEntry K V) :=
  (d.ht second).bucketsFrom i ++ if second then [] else d.ht1.bucketsFrom 0

theorem mem_later : e ∈ d.later second i ↔ (∃ j, i ≤ j ∧ j < (d.ht second).size ∧ e ∈ (d.ht second).table j) ∨
      second = false ∧ ∃ j, j < (d.ht true).size ∧ e ∈ (d.ht true).table j := by
  cases second <;> simp [Dict.later, mem_bucketsFrom, Dict.ht]

theorem mem_contents_later : e ∈ d.contents ↔ e ∈ d.later false 0 := by
  simp [Dict.contents, mem_later, Dictht.mem_contents, Dict.ht]

theorem mem_contents_place : e ∈ d.contents ↔ ∃ second i, i < (d.ht second).size ∧ e ∈ (d.ht second).table i := by
  simp [Dict.contents, Dictht.mem_contents, Dict.ht]

theorem later_contents (member : e ∈ d.later second i) : e ∈ d.contents := by
  rcases mem_later.mp member with ⟨j, _, inside, chained⟩ | ⟨_, j, inside, chained⟩
  · exact mem_contents_place.mpr ⟨second, j, inside, chained⟩
  · exact mem_contents_place.mpr ⟨true, j, inside, chained⟩

private def Dict.left (d : Dict K V) (iter : DictIterator) : Nat :=
  ((d.ht iter.table).size - (iter.index + 1).toNat) + if iter.table then 0 else d.ht1.size

structure Inside (d : Dict K V) (iter : DictIterator) (post : List (DictEntry K V)) : Prop where
  iterating : d.iterators ≠ 0
  entered : 0 ≤ iter.index
  bound : iter.index.toNat < (d.ht iter.table).size
  suffix : post <:+ (d.ht iter.table).table iter.index.toNat
  entry : iter.entry.isSome = true
  nextEntry : iter.nextEntry = post.head?.map DictEntry.addr

/-- What `dictNext` may return at a given remaining list: its head and an iterator
with the tail, or NULL at its end. -/
def Advances (d : Dict K V) (remaining : List (DictEntry K V)) :
    Dict K V × DictIterator × Option (DictEntry K V) → Prop
  | (d', _, none) => d' = d ∧ remaining = []
  | (d', iter, some e) => d' = d ∧ ∃ post, Inside d iter post ∧
      remaining = e :: post ++ d.later iter.table (iter.index.toNat + 1) ∧
      e :: post <:+ (d.ht iter.table).table iter.index.toNat

variable {hash : K → BitVec 32}

theorem Advances.dict {remaining : List (DictEntry K V)} {result : Dict K V × DictIterator × Option (DictEntry K V)}
    (advances : Advances d remaining result) : result.1 = d := by
  obtain ⟨d', iter, returned⟩ := result
  cases returned <;> exact advances.1

private theorem enter_bucket (again : DictIterator → Option (Dict K V × DictIterator × Option (DictEntry K V))) (iter : DictIterator) (iterating : d.iterators ≠ 0) (entered : 0 ≤ iter.index)
    (bound : iter.index.toNat < (d.ht iter.table).size)
    (rest : ∃ result, again { iter with entry := none } = some result ∧ Advances d (d.later iter.table (iter.index.toNat + 1)) result) :
    ∃ result, dictNextReturn again d iter (some ((d.ht iter.table).table iter.index.toNat)) = some result ∧
      Advances d (d.later iter.table iter.index.toNat) result := by
  have remaining : d.later iter.table iter.index.toNat =
      (d.ht iter.table).table iter.index.toNat ++ d.later iter.table (iter.index.toNat + 1) := by
    simp only [Dict.later, bucketsFrom_inside bound, append_assoc]
  cases chain : (d.ht iter.table).table iter.index.toNat with
  | nil =>
    simpa only [remaining, chain, dictNextReturn, nil_append] using rest
  | cons e post =>
    have suffix : e :: post <:+ (d.ht iter.table).table iter.index.toNat := by simp [chain]
    refine ⟨_, rfl, rfl, post, ⟨iterating, entered, bound, ?_, rfl, rfl⟩, ?_, suffix⟩
    · exact (suffix_cons e post).trans suffix
    · simp only [remaining, chain]

private def Resumes (d : Dict K V) (fuel : Nat) : Prop :=
  ∀ iter : DictIterator, iter.entry = none → 0 ≤ iter.index → d.left iter < fuel →
    ∃ result, dictNextLoop fuel d iter = some result ∧
      Advances d (d.later iter.table (iter.index.toNat + 1)) result

private theorem nextBucket_advances (valid : Valid hash d) (iterating : d.iterators ≠ 0) {fuel : Nat}
    (resumes : Resumes d fuel) (iter : DictIterator) (entered : -1 ≤ iter.index) (enough : d.left iter ≤ fuel) :
    ∃ it chain result, nextBucket d iter = some (it, chain) ∧ dictNextReturn (dictNextLoop fuel d) d it chain = some result ∧
      Advances d (d.later iter.table (iter.index + 1).toNat) result := by
  obtain ⟨second, index, entry, nextEntry⟩ := iter
  simp only [Dict.left] at entered enough ⊢
  by_cases inside : (index + 1).toNat < (d.ht second).size
  · have more : ¬ ((d.ht second).size : Int) ≤ index + 1 := by omega
    obtain ⟨result, round, advances⟩ := enter_bucket (dictNextLoop fuel d) ⟨second, index + 1, entry, nextEntry⟩
      iterating (by simp only; omega) inside
      (resumes _ rfl (by simp only; omega) (by simp only [Dict.left]; omega))
    exact ⟨_, _, result, by simp [nextBucket, more, Dictht.bucket_eq inside], round, advances⟩
  · have ended : ((d.ht second).size : Int) ≤ index + 1 := by omega
    have passed : d.later second (index + 1).toNat = if second then [] else d.ht1.bucketsFrom 0 := by
      simp only [Dict.later, bucketsFrom_end (Nat.le_of_not_lt inside), nil_append]
    cases second with
    | true => exact ⟨_, none, _, by simp [nextBucket, ended]; rfl, rfl, rfl, passed⟩
    | false =>
      cases moving : d.rehashidx with
      | none =>
        refine ⟨_, none, _, by simp [nextBucket, ended, Dict.isRehashing, moving]; rfl, rfl, rfl, ?_⟩
        rw [passed, valid.idle moving]
        rfl
      | some idx =>
        have positive : 0 < (d.ht true).size := (valid.moving idx moving).second
        obtain ⟨result, round, advances⟩ := enter_bucket (dictNextLoop fuel d) ⟨true, 0, entry, nextEntry⟩
          iterating (by simp) positive (resumes _ rfl (by simp) (by
            simp only [Dict.left, Dict.ht] at positive enough ⊢
            simp at positive enough ⊢
            omega))
        refine ⟨_, some (d.ht1.table 0), result, ?_, round, ?_⟩
        · simp [nextBucket, ended, Dict.isRehashing, moving, Dictht.bucket_eq (t := d.ht1) positive]
        · rw [passed]
          simpa [Dict.later, Dict.ht] using advances

private theorem resumes (d : Dict K V) (valid : Valid hash d) (iterating : d.iterators ≠ 0) (fuel : Nat) : Resumes d fuel := by
  induction fuel with
  | zero => exact fun _ _ _ impossible => absurd impossible (Nat.not_lt_zero _)
  | succ fuel ih =>
    intro iter finished entered enough
    obtain ⟨it, chain, result, next, round, advances⟩ := nextBucket_advances valid iterating ih iter (by omega) (by omega)
    have started : ¬ (iter.index = -1 ∧ iter.table = false) := by omega
    have place : (iter.index + 1).toNat = iter.index.toNat + 1 := by omega
    refine ⟨result, ?_, place ▸ advances⟩
    simp [dictNextLoop, finished, started, next, round]

private theorem dictNextLoop_entry (fuel : Nat) (returned : iter.entry.isSome = true) :
    dictNextLoop (fuel + 1) d iter = match iter.nextEntry with
      | none => dictNextReturn (dictNextLoop fuel d) d iter (some [])
      | some addr => (d.follow addr).bind fun chain => dictNextReturn (dictNextLoop fuel d) d iter (some chain) := by
  obtain ⟨addr, entry⟩ := isSome_iff_exists.mp returned
  rw [dictNextLoop, entry]
  cases iter.nextEntry with
  | none => rfl
  | some next => cases d.follow next <;> rfl

def Dict.remaining (d : Dict K V) (iter : DictIterator) (post : List (DictEntry K V)) : List (DictEntry K V) :=
  post ++ d.later iter.table (iter.index.toNat + 1)

variable {post : List (DictEntry K V)}

theorem dictNext_inside (valid : Valid hash d) (addressed : d.Addressed) (inside : Inside d iter post) :
    ∃ result, dictNext d iter = some result ∧ Advances d (d.remaining iter post) result := by
  have step := dictNextLoop_entry (d := d) (d.ht0.size + d.ht1.size + 1) inside.entry
  rw [inside.nextEntry] at step
  cases post with
  | nil =>
    obtain ⟨result, resumed, advances⟩ := resumes d valid inside.iterating (d.ht0.size + d.ht1.size + 1)
      { iter with entry := none } rfl inside.entered (by
        simp only [Dict.left, Dict.ht]
        cases iter.table <;> simp <;> omega)
    exact ⟨result, step.trans resumed, advances⟩
  | cons e post =>
    have live := follow_live addressed inside.bound inside.suffix
    refine ⟨(d, { iter with entry := some e.addr, nextEntry := post.head?.map DictEntry.addr }, some e), ?_, rfl, post,
      ⟨inside.iterating, inside.entered, inside.bound, (suffix_cons e post).trans inside.suffix, rfl, rfl⟩, rfl,
      inside.suffix⟩
    simp only [head?_cons, map_some, live] at step
    exact step

theorem counted_contents (d : Dict K V) (iterators : Nat) : ({ d with iterators } : Dict K V).contents = d.contents := rfl

theorem Valid.counted (valid : Valid hash d) (iterators : Nat) : Valid hash { d with iterators } :=
  ⟨valid.first, valid.second, valid.distinct, valid.idle, fun idx moving =>
    ⟨(valid.moving idx moving).first, (valid.moving idx moving).second, (valid.moving idx moving).passed⟩⟩

theorem dictNext_start (valid : Valid hash d) : ∃ result, dictNext d dictGetSafeIterator = some result ∧
      Advances { d with iterators := d.iterators + 1 } (d.later false 0) result := by
  have counted := valid.counted (d.iterators + 1)
  obtain ⟨it, chain, result, next, round, advances⟩ := nextBucket_advances counted (by simp)
    (resumes _ counted (by simp) (d.ht0.size + d.ht1.size + 1)) dictGetSafeIterator (by decide) (by
      simp [Dict.left, dictGetSafeIterator, Dict.ht])
  refine ⟨result, ?_, advances⟩
  rw [dictNext, dictNextLoop]
  simp only [dictGetSafeIterator] at next ⊢
  simp [next, round]

theorem Valid.place_unique (valid : Valid hash d) {second' : Bool} {i' : Nat} (inside : i < (d.ht second).size)
    (here : e ∈ (d.ht second).table i) (inside' : i' < (d.ht second').size) (there : e ∈ (d.ht second').table i') :
    second = second' ∧ i = i' := by
  have tables : second = second' := by
    by_contra apart
    have other : second' = !second := by cases second <;> cases second' <;> simp_all
    subst other
    have distinct := valid.distinct
    rw [d.contents_ht second, Multiset.map_add, Multiset.nodup_add] at distinct
    exact Multiset.disjoint_left.mp distinct.2.2
      (Multiset.mem_map_of_mem _ (Dictht.mem_contents.mpr ⟨i, inside, here⟩))
      (Multiset.mem_map_of_mem _ (Dictht.mem_contents.mpr ⟨i', inside', there⟩))
  subst tables
  have table := valid.table d second
  exact ⟨rfl, (table.placed i inside e here).symm.trans (table.placed i' inside' e there)⟩

def Stays (d d' : Dict K V) (e : DictEntry K V) : Prop :=
  ∀ second i, i < (d'.ht second).size ∧ e ∈ (d'.ht second).table i ↔
    i < (d.ht second).size ∧ e ∈ (d.ht second).table i

theorem Stays.later (stays : Stays d d' e) (second : Bool) (i : Nat) : e ∈ d'.later second i ↔ e ∈ d.later second i := by
  simp only [mem_later, stays _ _]

theorem Stays.of_place (valid : Valid hash d) (valid' : Valid hash d') (before : i < (d.ht second).size ∧ e ∈ (d.ht second).table i)
    (after : i < (d'.ht second).size ∧ e ∈ (d'.ht second).table i) : Stays d d' e := by
  intro other j
  constructor
  · intro there
    obtain ⟨rfl, rfl⟩ := valid'.place_unique after.1 after.2 there.1 there.2
    exact before
  · intro here
    obtain ⟨rfl, rfl⟩ := valid.place_unique before.1 before.2 here.1 here.2
    exact after

structure Grown (d d' : Dict K V) : Prop where
  iterators : d'.iterators = d.iterators
  chain : ∀ second i, i < (d.ht second).size →
    i < (d'.ht second).size ∧ (d.ht second).table i <:+ (d'.ht second).table i

theorem Grown.refl (d : Dict K V) : Grown d d := ⟨rfl, fun _ _ inside => ⟨inside, suffix_rfl⟩⟩

theorem Grown.trans {d'' : Dict K V} (first : Grown d d') (second : Grown d' d'') : Grown d d'' := by
  refine ⟨second.iterators.trans first.iterators, fun table i inside => ?_⟩
  obtain ⟨inside', suffix⟩ := first.chain table i inside
  obtain ⟨inside'', suffix'⟩ := second.chain table i inside'
  exact ⟨inside'', suffix.trans suffix'⟩

theorem Grown.stays (grown : Grown d d') (valid : Valid hash d) (valid' : Valid hash d') (member : e ∈ d.contents) : Stays d d' e := by
  obtain ⟨second, i, inside, chained⟩ := mem_contents_place.mp member
  obtain ⟨inside', suffix⟩ := grown.chain second i inside
  exact .of_place valid valid' ⟨inside, chained⟩ ⟨inside', suffix.subset chained⟩

theorem Inside.grown (inside : Inside d iter post) (grown : Grown d d') : Inside d' iter post := by
  obtain ⟨bound, suffix⟩ := grown.chain iter.table iter.index.toNat inside.bound
  exact ⟨grown.iterators ▸ inside.iterating, inside.entered, bound, inside.suffix.trans suffix, inside.entry, inside.nextEntry⟩

theorem dictExpand_grown {size : Nat} {status : Status} (valid : Valid hash d)
    (step : dictExpand d size = some (d', status)) : Grown d d' := by
  unfold dictExpand at step
  simp only at step
  split at step
  next => cases step; exact .refl d
  next running =>
    have stopped : d.rehashidx = none := by simp_all [Dict.isRehashing]
    split at step
    next => cases step; exact .refl d
    next =>
      simp only [bind_eq_bind, bind_eq_some_iff] at step
      obtain ⟨n, _, step⟩ := step
      split at step <;> cases step <;> refine ⟨rfl, fun second i inside => ?_⟩
      next null => cases second <;> simp_all [Dict.ht, valid.idle stopped]
      next => cases second <;> simp_all [Dict.ht, valid.idle stopped, dictReset]

theorem dictExpandIfNeeded_grown {canResize : Bool} {status : Status} (valid : Valid hash d)
    (step : dictExpandIfNeeded canResize d = some (d', status)) : Grown d d' := by
  unfold dictExpandIfNeeded at step
  split at step
  next => cases step; exact .refl d
  next =>
    split at step
    next => exact dictExpand_grown valid step
    next =>
      split at step
      next => exact dictExpand_grown valid step
      next => cases step; exact .refl d

theorem relink_grown {idx used : Nat} (suffix : (d.ht second).table idx <:+ chain) :
    Grown d (d.setHt second ((d.ht second).relink idx chain used)) := by
  refine ⟨by simp, fun other i inside => ?_⟩
  by_cases same : i = idx
  · subst same
    cases second <;> cases other <;> simp_all [Dict.setHt, Dict.ht]
  · cases second <;> cases other <;> simp_all [Dict.setHt, Dict.ht]

theorem insertEntry_grown (d : Dict K V) (e : DictEntry K V) : Grown d (d.insertEntry hash e) := relink_grown (suffix_cons e _)

theorem suffix_eraseP {α : Type} {p : α → Bool} {post chain : List α} (suffix : post <:+ chain)
    (other : ∀ a ∈ post, p a = false) : post <:+ chain.eraseP p := by
  obtain ⟨pre, rfl⟩ := suffix
  by_cases found : ∃ a ∈ pre, p a = true
  · obtain ⟨a, member, holds⟩ := found
    rw [eraseP_append_left holds post member]
    exact suffix_append _ post
  · have absent : ∀ a ∈ pre, ¬ p a = true := fun a member holds => found ⟨a, member, holds⟩
    rw [eraseP_append_right post absent, eraseP_of_forall_not fun a member => by simp [other a member]]
    exact suffix_append pre post

section Keyed

variable [DecidableEq K]

theorem unlink_chain (d : Dict K V) (second : Bool) (idx : Nat) (key : K) (other : Bool) (i : Nat) :
    ((d.unlink second idx key).ht other).size = (d.ht other).size ∧ (((d.unlink second idx key).ht other).table i = (d.ht other).table i ∨
        ((d.unlink second idx key).ht other).table i = ((d.ht other).table i).eraseP fun e => e.key = key) := by
  by_cases same : i = idx
  · subst same
    cases second <;> cases other <;> simp [Dict.unlink, Dict.setHt, Dict.ht]
  · cases second <;> cases other <;> simp [Dict.unlink, Dict.setHt, Dict.ht, same]

theorem unlink_stays (valid : Valid hash d) {idx : Nat} (found : Found hash d key (some (second, idx)))
    (member : e ∈ (d.unlink second idx key).contents) : Stays d (d.unlink second idx key) e := by
  obtain ⟨other, i, inside, chained⟩ := mem_contents_place.mp member
  obtain ⟨size, chain⟩ := unlink_chain d second idx key other i
  refine .of_place valid (unlink_spec valid found).1 ⟨size ▸ inside, ?_⟩ ⟨inside, chained⟩
  cases chain with
  | inl same => exact same ▸ chained
  | inr erased => exact mem_of_mem_eraseP (erased ▸ chained)

theorem Inside.unlink (inside : Inside d iter post) (second : Bool) (idx : Nat)
    (gone : ∀ e ∈ post, e.key ≠ key) : Inside (d.unlink second idx key) iter post := by
  obtain ⟨size, chain⟩ := unlink_chain d second idx key iter.table iter.index.toNat
  refine ⟨by simpa [Dict.unlink] using inside.iterating, inside.entered, size ▸ inside.bound, ?_, inside.entry, inside.nextEntry⟩
  cases chain with
  | inl same => exact same ▸ inside.suffix
  | inr erased => exact erased ▸ suffix_eraseP inside.suffix fun e member => by simp [gone e member]

/-- The user of a safe iterator: the entries that it has been given, and whether it
has been given NULL. -/
structure IterState (K V : Type) where
  dict : Dict K V
  iter : DictIterator
  returned : List (DictEntry K V)
  finished : Bool

inductive IterOp (K V : Type) where
  | next
  | add (canResize : Bool) (addr : Nat) (key : K) (val : V)
  | find (key : K)
  | delete (key : K)

def iterStart (d : Dict K V) : IterState K V :=
  { dict := d, iter := dictGetSafeIterator, returned := [], finished := false }

def IterState.receive (s : IterState K V) (result : Dict K V × DictIterator × Option (DictEntry K V)) :
    IterState K V :=
  { dict := result.1, iter := result.2.1, returned := s.returned ++ result.2.2.toList,
    finished := result.2.2.isNone }

/-- After NULL the iteration is ended. -/
def iterStep (hash : K → BitVec 32) (s : IterState K V) (op : IterOp K V) :
    Option (IterState K V × Option (DictEntry K V)) :=
  if s.finished then some (s, none) else
  match op with
  | .next => (dictNext s.dict s.iter).map fun r => (s.receive r, r.2.2)
  | .add canResize addr key val =>
    (dictAdd hash canResize s.dict addr key val).map fun r => ({ s with dict := r.1 }, none)
  | .find key => (dictFind hash s.dict key).map fun r => ({ s with dict := r.1 }, none)
  | .delete key => (dictGenericDelete hash s.dict key).map fun r => ({ s with dict := r.1 }, none)

/-- What the claim allows the user: `zmalloc` does not return the address of a live
entry, and only the entry just returned is deleted. -/
def IterOp.Disciplined (s : IterState K V) : IterOp K V → Prop
  | .add _ addr _ _ => ∀ e ∈ s.dict.contents, e.addr ≠ addr
  | .delete key => s.returned.getLast?.map DictEntry.key = some key
  | _ => True

def IterOp.Supported (hash : K → BitVec 32) (s : IterState K V) : IterOp K V → Prop
  | .add canResize _ key _ => Addable hash canResize s.dict key
  | _ => True

instance (s : IterState K V) (op : IterOp K V) : Decidable (op.Disciplined s) :=
  match op with
  | .add _ addr _ _ => inferInstanceAs (Decidable (∀ e ∈ s.dict.contents, e.addr ≠ addr))
  | .delete key => inferInstanceAs (Decidable (s.returned.getLast?.map DictEntry.key = some key))
  | .next | .find _ => .isTrue trivial

instance (hash : K → BitVec 32) (s : IterState K V) (op : IterOp K V) : Decidable (op.Supported hash s) :=
  match op with
  | .add canResize _ key _ => inferInstanceAs (Decidable (Addable hash canResize s.dict key))
  | .next | .find _ | .delete _ => .isTrue trivial

inductive Place (s : IterState K V) : List (DictEntry K V) → Prop where
  | waiting (start : s.iter = dictGetSafeIterator) (none : s.returned = []) : Place s (s.dict.later false 0)
  | inside (post : List (DictEntry K V)) (inside : Inside s.dict s.iter post)
      (gone : ∀ e ∈ s.returned.getLast?, ∀ f ∈ post, f.key ≠ e.key) : Place s (s.dict.remaining s.iter post)
  | ended (finished : s.finished = true) : Place s []

structure IterInvariant (hash : K → BitVec 32) (s : IterState K V) (remaining : List (DictEntry K V)) : Prop where
  valid : Valid hash s.dict
  addressed : s.dict.Addressed
  place : Place s remaining

def IterState.count (s : IterState K V) (key : K) : Nat := s.returned.countP fun e => e.key = key

structure Tracks (key : K) (s : IterState K V) (remaining : List (DictEntry K V)) : Prop where
  ended : s.finished = true → s.count key = 1
  side : ∀ e ∈ s.dict.contents, e.key = key →
    (s.count key = 0 ∧ e ∈ remaining) ∨ (s.count key = 1 ∧ e ∉ remaining)

variable {s : IterState K V} {remaining : List (DictEntry K V)}

/-- An operation beside `dictNext` leaves what is still to be returned as it is. -/
private theorem beside (holds : IterInvariant hash s remaining)
    (unfinished : s.finished = false) (valid : Valid hash d') (addressed : d'.Addressed)
    (old : ∀ e ∈ d'.contents, s.dict.HasKey e.key → e ∈ s.dict.contents)
    (stays : s.dict.iterators ≠ 0 → ∀ e ∈ s.dict.contents, e ∈ d'.contents → Stays s.dict d' e)
    (inside : ∀ post, (∀ e ∈ s.returned.getLast?, ∀ f ∈ post, f.key ≠ e.key) → Inside s.dict s.iter post → Inside d' s.iter post) :
    ∃ remaining', IterInvariant hash { s with dict := d' } remaining' ∧
      ∀ key, s.dict.HasKey key → Tracks key s remaining → Tracks key { s with dict := d' } remaining' := by
  have tracks : ∀ remaining', (∀ e ∈ s.dict.contents, e ∈ d'.contents → (e ∈ remaining' ↔ e ∈ remaining)) →
      ∀ key, s.dict.HasKey key → Tracks key s remaining → Tracks key { s with dict := d' } remaining' := by
    intro remaining' same key present tracked
    refine ⟨tracked.ended, fun e member named => ?_⟩
    have before := old e member (named ▸ present)
    simpa only [IterState.count, same e before member] using tracked.side e before named
  cases holds.place with
  | ended finished => simp [finished] at unfinished
  | waiting start none =>
    refine ⟨_, ⟨valid, addressed, .waiting start none⟩, tracks _ fun e before after => ?_⟩
    simp only [← mem_contents_later, before, after]
  | inside post place gone =>
    refine ⟨_, ⟨valid, addressed, .inside post (inside post gone place) gone⟩, tracks _ fun e before after => ?_⟩
    simp only [Dict.remaining, mem_append, (stays place.iterating e before after).later]

omit [DecidableEq K] in
private theorem later_distinct (valid : Valid hash d) (second : Bool) (i : Nat) : ((d.later second i).map DictEntry.key).Nodup := by
  have buckets : ∀ t : Dictht K V, (t.bucketsFrom i).Sublist (t.bucketsFrom 0) := by
    intro t
    by_cases inside : i ≤ t.size
    · have split : List.range' 0 (t.size - 0) = List.range' 0 i ++ List.range' i (t.size - i) := by
        rw [range'_eq_append_iff]
        exact ⟨i, by omega, by simp, by simp⟩
      simp only [Dictht.bucketsFrom, split, flatMap_append]
      exact sublist_append_right _ _
    · simp [bucketsFrom_end (show t.size ≤ i by omega)]
  have all : (d.later second i).Sublist (d.later false 0) := by
    cases second with
    | false => exact (buckets d.ht0).append_right _
    | true => simpa [Dict.later, Dict.ht] using (buckets d.ht1).trans (sublist_append_right _ _)
  have whole : (d.later false 0 : Multiset (DictEntry K V)) = d.contents := by
    simp [Dict.later, Dict.ht, Dict.contents, Dictht.contents_flatten, Dictht.bucketsFrom, List.flatMap, range_eq_range']
  refine (all.map _).nodup ?_
  rw [← Multiset.coe_nodup, ← Multiset.map_coe, whole]
  exact valid.distinct

private theorem next_spec (valid : Valid hash d) (addressed : d.Addressed)
    (same : d.contents = s.dict.contents) (distinct : (remaining.map DictEntry.key).Nodup) (live : ∀ e ∈ remaining, e ∈ d.contents)
    {result : Dict K V × DictIterator × Option (DictEntry K V)} (advances : Advances d remaining result) :
    ∃ remaining', IterInvariant hash (s.receive result) remaining' ∧ (∀ e, result.2.2 = some e → e ∈ (s.receive result).dict.contents) ∧
      ∀ key, s.dict.HasKey key → Tracks key s remaining → Tracks key (s.receive result) remaining' := by
  obtain ⟨d', iter, returned⟩ := result
  cases returned with
  | none =>
    obtain ⟨rfl, rfl⟩ := advances
    refine ⟨[], ⟨valid, addressed, .ended rfl⟩, by simp, fun key present tracked => ⟨fun _ => ?_, ?_⟩⟩
    · obtain ⟨e, member, named⟩ := present
      have before := tracked.side e member named
      simpa [IterState.receive, IterState.count] using before
    · intro e member named
      have before := tracked.side e (same ▸ member) named
      simpa [IterState.receive, IterState.count] using before
  | some e =>
    obtain ⟨rfl, post, inside, rfl, suffix⟩ := advances
    simp only [cons_append, map_cons, nodup_cons] at distinct
    refine ⟨_, ⟨valid, addressed, .inside post inside ?_⟩, ?_, fun key _ tracked =>
      ⟨fun impossible => (by cases impossible), fun f member named => ?_⟩⟩
    · intro last isLast f member named
      simp only [IterState.receive, toList_some, getLast?_concat, mem_def, some.injEq] at isLast
      subst isLast
      exact distinct.1 (List.mem_map.mpr ⟨f, mem_append_left _ member, named⟩)
    · rintro _ ⟨⟩
      exact live e (by simp)
    · have before := tracked.side f (same ▸ member) named
      by_cases here : f = e
      · subst here
        have gone : f ∉ post ++ d'.later iter.table (iter.index.toNat + 1) := fun again =>
          distinct.1 (List.mem_map_of_mem again)
        simpa [IterState.receive, IterState.count, Dict.remaining, countP_append, named, gone] using before
      · have other : e.key ≠ key := fun clash =>
          here (valid.unique member (live e (by simp)) (named.trans clash.symm))
        simpa [IterState.receive, IterState.count, Dict.remaining, countP_append, other, here] using before

private theorem find_step
    (holds : IterInvariant hash s remaining) (unfinished : s.finished = false) (key : K) :
    ∃ d' found remaining', dictFind hash s.dict key = some (d', found) ∧ IterInvariant hash { s with dict := d' } remaining' ∧
      ∀ key, s.dict.HasKey key → Tracks key s remaining → Tracks key { s with dict := d' } remaining' := by
  obtain ⟨d', slot, find, kept, _⟩ := dictFindSlot_spec holds.valid key
  have paused : s.dict.iterators ≠ 0 → d' = s.dict := by
    intro iterating
    simp only [dictFindSlot, dictStepIfRehashing_paused iterating, bind_eq_bind, bind_some] at find
    split at find
    next => cases find; rfl
    next =>
      obtain ⟨place, _, find⟩ := bind_eq_some_iff.mp find
      cases place <;> cases find <;> rfl
  have addressed := holds.addressed.congr kept.contents
  obtain ⟨remaining', after, tracks⟩ := beside holds unfinished kept.valid addressed
    (fun e member _ => kept.contents ▸ member)
    (fun iterating e _ _ second i => by rw [paused iterating])
    (fun post _ inside => by rw [paused inside.iterating]; exact inside)
  exact ⟨d', _, remaining', by simp [dictFind, find]; rfl, after, tracks⟩

omit [DecidableEq K] in
private theorem started (valid : Valid hash d) (inside : i < (d.ht second).size) : 0 < d.ht0.size := by
  cases second with
  | false => exact Nat.zero_lt_of_lt inside
  | true =>
    cases moving : d.rehashidx with
    | none => simp [Dict.ht, valid.idle moving, dictReset] at inside
    | some idx => exact (valid.moving idx moving).first

private theorem delete_step
    (holds : IterInvariant hash s remaining) (unfinished : s.finished = false)
    (last : s.returned.getLast?.map DictEntry.key = some key) :
    ∃ d' status remaining', dictGenericDelete hash s.dict key = some (d', status) ∧ IterInvariant hash { s with dict := d' } remaining' ∧
      ∀ key, s.dict.HasKey key → Tracks key s remaining → Tracks key { s with dict := d' } remaining' := by
  obtain ⟨e, isLast, rfl⟩ := map_eq_some_iff.mp last
  obtain ⟨d₁, kept, step, effect⟩ := dictGenericDelete_spec holds.valid e.key
  have paused : s.dict.iterators ≠ 0 → 0 < s.dict.ht0.size → d₁ = s.dict := by
    intro iterating positive
    have same := step positive
    rw [dictStepIfRehashing_paused iterating] at same
    exact (some.inj same).symm
  have occupied : ∀ f ∈ s.dict.contents, 0 < s.dict.ht0.size := by
    intro f member
    obtain ⟨second, i, inside, _⟩ := mem_contents_place.mp member
    exact started holds.valid inside
  rcases effect with ⟨_, delete⟩ | ⟨second, idx, found, delete⟩
  · have addressed := holds.addressed.congr kept.contents
    obtain ⟨remaining', after, tracks⟩ := beside holds unfinished kept.valid addressed
      (fun f member _ => kept.contents ▸ member)
      (fun iterating f member _ second i => by rw [paused iterating (occupied f member)])
      (fun post _ inside => by rw [paused inside.iterating (started holds.valid inside.bound)]; exact inside)
    exact ⟨d₁, _, remaining', delete, after, tracks⟩
  · obtain ⟨valid, f, named, contents⟩ := unlink_spec kept.valid found
    rw [kept.contents] at contents
    have addressed : (d₁.unlink second idx e.key).Addressed := by
      have before := holds.addressed.distinct
      rw [contents, Multiset.map_cons, Multiset.nodup_cons] at before
      exact ⟨before.2⟩
    obtain ⟨remaining', after, tracks⟩ := beside holds unfinished valid addressed
      (fun g member _ => contents ▸ Multiset.mem_cons_of_mem member)
      (fun iterating g before member => by
        have same := paused iterating (occupied g before)
        subst same
        exact unlink_stays holds.valid found member)
      (fun post gone inside => by
        have same := paused inside.iterating (started holds.valid inside.bound)
        subst same
        exact inside.unlink second idx (gone e isLast))
    exact ⟨_, _, remaining', delete, after, tracks⟩

private theorem add_step
    (holds : IterInvariant hash s remaining) (unfinished : s.finished = false) {canResize : Bool} {addr : Nat}
    (val : V) (addable : Addable hash canResize s.dict key) (fresh : ∀ e ∈ s.dict.contents, e.addr ≠ addr) :
    ∃ d' status remaining', dictAdd hash canResize s.dict addr key val = some (d', status) ∧
      IterInvariant hash { s with dict := d' } remaining' ∧
      ∀ key, s.dict.HasKey key → Tracks key s remaining → Tracks key { s with dict := d' } remaining' := by
  obtain ⟨d₁, d₂, step, expand, kept, positive, effect⟩ := dictAddRaw_spec holds.valid addr key val addable
  have grown : s.dict.iterators ≠ 0 → Grown s.dict d₂ := by
    intro iterating
    rw [dictStepIfRehashing_paused iterating] at step
    cases step
    exact dictExpandIfNeeded_grown holds.valid expand
  have addressed := holds.addressed.congr kept.contents
  rcases effect with ⟨_, add⟩ | ⟨absent, add⟩
  · obtain ⟨remaining', after, tracks⟩ := beside holds unfinished kept.valid addressed
      (fun e member _ => kept.contents ▸ member)
      (fun iterating e before _ => (grown iterating).stays holds.valid kept.valid before)
      (fun post _ inside => inside.grown (grown inside.iterating))
    exact ⟨d₂, .err, remaining', by simp [dictAdd, add], after, tracks⟩
  · have new : ¬ d₂.HasKey key := fun present => absent ((kept.hasKey key).mp present)
    obtain ⟨valid, contents, _⟩ := insertEntry_spec kept.valid positive (e := ⟨addr, key, val⟩) new
    rw [kept.contents] at contents
    have both : s.dict.iterators ≠ 0 → Grown s.dict (d₂.insertEntry hash ⟨addr, key, val⟩) :=
      fun iterating => (grown iterating).trans (insertEntry_grown d₂ _)
    have distinct : (d₂.insertEntry hash ⟨addr, key, val⟩).Addressed := by
      refine ⟨?_⟩
      rw [contents, Multiset.map_cons, Multiset.nodup_cons, Multiset.mem_map]
      refine ⟨fun taken => ?_, holds.addressed.distinct⟩
      obtain ⟨e, member, same⟩ := taken
      exact fresh e member same
    obtain ⟨remaining', after, tracks⟩ := beside holds unfinished valid distinct
      (fun e member present => by
        rcases Multiset.mem_cons.mp (contents ▸ member) with rfl | member
        · exact absurd present absent
        · exact member)
      (fun iterating e before _ => (both iterating).stays holds.valid valid before)
      (fun post _ inside => inside.grown (both inside.iterating))
    exact ⟨_, .ok, remaining', by simp [dictAdd, add], after, tracks⟩

theorem iterStep_spec {op : IterOp K V}
    (holds : IterInvariant hash s remaining) (guard : s.finished = false → op.Supported hash s ∧ op.Disciplined s) :
    ∃ after remaining', iterStep hash s op = some after ∧ IterInvariant hash after.1 remaining' ∧
      (∀ e, after.2 = some e → e ∈ after.1.dict.contents) ∧
      ∀ key, (s.finished = false → s.dict.HasKey key) → Tracks key s remaining → Tracks key after.1 remaining' := by
  cases unfinished : s.finished with
  | true => exact ⟨(s, none), remaining, by simp [iterStep, unfinished], holds, by simp, fun _ _ tracked => tracked⟩
  | false =>
    obtain ⟨supported, disciplined⟩ := guard unfinished
    cases op with
    | next =>
      have distinct := later_distinct holds.valid
      cases holds.place with
      | ended finished => simp [unfinished] at finished
      | waiting start none =>
        obtain ⟨result, step, advances⟩ := dictNext_start holds.valid
        have same := counted_contents s.dict (s.dict.iterators + 1)
        obtain ⟨remaining', after, live, tracks⟩ := next_spec (s := s)
          (holds.valid.counted (s.dict.iterators + 1)) (holds.addressed.congr same) same
          (distinct false 0) (fun e member => by rw [same]; exact mem_contents_later.mpr member) advances
        refine ⟨(s.receive result, result.2.2), remaining', ?_, after, live, fun key present => tracks key (present rfl)⟩
        simp [iterStep, unfinished, start, step]
      | inside post inside gone =>
        obtain ⟨result, step, advances⟩ := dictNext_inside holds.valid holds.addressed inside
        have sub : (s.dict.remaining s.iter post).Sublist (s.dict.later s.iter.table s.iter.index.toNat) := by
          simp only [Dict.remaining, Dict.later, bucketsFrom_inside inside.bound, append_assoc]
          exact inside.suffix.sublist.append_right _
        obtain ⟨remaining', after, live, tracks⟩ := next_spec (s := s) holds.valid holds.addressed rfl
          ((sub.map _).nodup (distinct _ _)) (fun e member => later_contents (sub.subset member)) advances
        refine ⟨(s.receive result, result.2.2), remaining', ?_, after, live, fun key present => tracks key (present rfl)⟩
        simp [iterStep, unfinished, step]
    | add canResize addr key val =>
      obtain ⟨d', status, remaining', add, after, tracks⟩ := add_step holds unfinished val supported disciplined
      refine ⟨({ s with dict := d' }, none), remaining', ?_, after, by simp, fun key present => tracks key (present rfl)⟩
      simp [iterStep, unfinished, add]
    | find key =>
      obtain ⟨d', found, remaining', find, after, tracks⟩ := find_step holds unfinished key
      refine ⟨({ s with dict := d' }, none), remaining', ?_, after, by simp, fun key present => tracks key (present rfl)⟩
      simp [iterStep, unfinished, find]
    | delete key =>
      obtain ⟨d', status, remaining', delete, after, tracks⟩ := delete_step holds unfinished disciplined
      refine ⟨({ s with dict := d' }, none), remaining', ?_, after, by simp, fun key present => tracks key (present rfl)⟩
      simp [iterStep, unfinished, delete]

/-- No call faults, every entry is live when it is returned, and a key that is in the
table from the creation of the iterator to its end has been returned exactly once. -/
structure IteratesSafely (hash : K → BitVec 32) (d : Dict K V) (ops : List (IterOp K V)) : Prop where
  live : Run.Allowed (iterStep hash)
    (fun s op => ∀ after e, iterStep hash s op = some (after, some e) → e ∈ after.dict.contents) (iterStart d) ops
  once : ∃ last results, Run.exec (iterStep hash) (iterStart d) ops = some (last, results) ∧
    ∀ key, Run.Allowed (iterStep hash) (fun s _ => s.finished = false → s.dict.HasKey key) (iterStart d) ops →
      last.finished = true → last.count key = 1

omit [DecidableEq K] in
theorem iterStart_invariant (valid : Valid hash d) (addressed : d.Addressed) :
    IterInvariant hash (iterStart d) (d.later false 0) := ⟨valid, addressed, .waiting rfl rfl⟩

theorem dictNext_iterates_safely {d : Dict K V} (valid : Valid hash d) (addressed : d.Addressed)
    (ops : List (IterOp K V))
    (disciplined : Run.Allowed (iterStep hash) (fun s op => s.finished = false → op.Disciplined s) (iterStart d) ops)
    (supported : Run.Allowed (iterStep hash) (fun s op => s.finished = false → op.Supported hash s) (iterStart d) ops) :
    IteratesSafely hash d ops := by
  have allowed := supported.and disciplined
  have progress : ∀ (s : IterState K V) (op : IterOp K V), (∃ remaining, IterInvariant hash s remaining) →
      ((s.finished = false → op.Supported hash s) ∧ (s.finished = false → op.Disciplined s)) →
      ∃ after, iterStep hash s op = some after ∧ ∃ remaining, IterInvariant hash after.1 remaining := by
    rintro s op ⟨remaining, holds⟩ guard
    obtain ⟨after, remaining', step, kept, _⟩ :=
      iterStep_spec holds fun unfinished => ⟨guard.1 unfinished, guard.2 unfinished⟩
    exact ⟨after, step, remaining', kept⟩
  have begun : ∃ remaining, IterInvariant hash (iterStart d) remaining := ⟨_, iterStart_invariant valid addressed⟩
  constructor
  · apply Run.Allowed.of_progress progress _ ops begun allowed
    rintro s op ⟨remaining, holds⟩ guard after e taken
    obtain ⟨after', _, step, _, live, _⟩ :=
      iterStep_spec holds fun unfinished => ⟨guard.1 unfinished, guard.2 unfinished⟩
    rw [taken] at step
    cases step
    exact live e rfl
  · obtain ⟨last, results, run, _⟩ := Run.exec_total progress ops begun allowed
    refine ⟨last, results, run, fun key present finished => ?_⟩
    have tracks : ∀ (s : IterState K V) (op : IterOp K V),
        (∃ remaining, IterInvariant hash s remaining ∧ Tracks key s remaining) →
        (((s.finished = false → op.Supported hash s) ∧ (s.finished = false → op.Disciplined s)) ∧
          (s.finished = false → s.dict.HasKey key)) →
        ∃ after, iterStep hash s op = some after ∧
          ∃ remaining, IterInvariant hash after.1 remaining ∧ Tracks key after.1 remaining := by
      rintro s op ⟨remaining, holds, tracked⟩ guard
      obtain ⟨after, remaining', step, kept, _, tracks⟩ :=
        iterStep_spec holds fun unfinished => ⟨guard.1.1 unfinished, guard.1.2 unfinished⟩
      exact ⟨after, step, remaining', kept, tracks key guard.2 tracked⟩
    have ahead : Tracks key (iterStart d) (d.later false 0) :=
      ⟨fun impossible => (by cases impossible), fun e member _ => .inl ⟨rfl, mem_contents_later.mp member⟩⟩
    obtain ⟨last', results', run', remaining, _, tracked⟩ :=
      Run.exec_total tracks ops ⟨_, iterStart_invariant valid addressed, ahead⟩ (allowed.and present)
    rw [run] at run'
    cases run'
    exact tracked.ended finished

end Keyed

theorem dictOfKey_addressed (j key : Nat) : (dictOfKey (2 ^ j) key).Addressed := ⟨by simp [dictOfKey_contents]⟩

/-- An expansion during the iteration, and the deletion of the entry just returned. -/
theorem dictNext_iterates_safely_growing :
    IteratesSafely (BitVec.ofNat 32) (dictOfKey 4 1)
      [.add true 1 5 (), .add true 2 2 (), .next, .add true 3 3 (), .add true 4 9 (), .delete 5, .next, .next, .find 1,
        .next, .next, .next] :=
  dictNext_iterates_safely (dictOfKey_valid (j := 2) (by decide) 1) (dictOfKey_addressed 2 1) _ (by decide +kernel)
    (by decide +kernel)

/-- With 2^32 buckets, a key of hash 2^31 is linked in front of the table. -/
theorem dictNext_unsafe_index :
    Valid (BitVec.ofNat 32) (dictOfKey (2 ^ 32) 0) ∧ (dictOfKey (2 ^ 32) 0).Addressed ∧
      Run.Allowed (iterStep (BitVec.ofNat 32)) (fun s op => s.finished = false → op.Disciplined s)
        (iterStart (dictOfKey (2 ^ 32) 0)) [.next, .add true 1 (2 ^ 31) ()] ∧
      ¬ IteratesSafely (BitVec.ofNat 32) (dictOfKey (2 ^ 32) 0) [.next, .add true 1 (2 ^ 31) ()] := by
  have valid := dictOfKey_valid (j := 32) (by decide) 0
  refine ⟨valid, dictOfKey_addressed 32 0, ⟨fun _ => trivial, fun after taken => ⟨fun _ => ?_, fun _ _ => trivial⟩⟩,
    fun safe => ?_⟩
  · obtain ⟨result, step, advances⟩ := dictNext_start valid
    have same : result.1.contents = (dictOfKey (2 ^ 32) 0).contents := by rw [advances.dict, counted_contents]
    simp only [iterStep, iterStart, step, Bool.false_eq_true, if_false, map_some, some.injEq] at taken
    subst taken
    intro e member
    simp only [IterState.receive, same, dictOfKey_contents, Multiset.mem_singleton] at member
    subst member
    decide
  · obtain ⟨last, results, run, _⟩ := safe.once
    have fault : (Run.exec (iterStep (BitVec.ofNat 32)) (iterStart (dictOfKey (2 ^ 32) 0))
        [.next, .add true 1 (2 ^ 31) ()]).isNone = true := by decide +kernel
    rw [run] at fault
    cases fault

end Cplusplus.Redis
