import Cplusplus.ZunionInter
import Mathlib.Data.List.Sort

/-! The scores that ZUNIONSTORE and ZINTERSTORE compute for one element: a fold over the products of the
scores and the weights. The union replaces a product that is NaN by zero, and the intersection does so in
the smallest source only. -/

namespace Cplusplus.Redis.ZunionInter

open List Option Function
open OrderFree (combine)

section
variable {db : Keyspace} {aggregate : Aggregate} {ele : Bytes}

def Fine (elements : List (Bytes × Double)) : Prop := (elements.map Prod.fst).Nodup ∧ ∀ e ∈ elements, e.2 ≠ .nan

structure WellFormed (db : Keyspace) : Prop where
  members : ∀ key members, db key = some (.set members) → members.Nodup
  elements : ∀ key elements, db key = some (.zset elements) → Fine elements

variable {elements : List (Bytes × Double)}

theorem lookup_eq_none : elements.lookup ele = none ↔ ele ∉ elements.map Prod.fst := by
  induction elements with
  | nil => simp
  | cons first elements ih =>
    by_cases same : ele = first.1
    · subst same
      simp
    · rw [lookup_cons, beq_eq_false_iff_ne.mpr same, ih, map_cons, mem_cons, not_or, and_iff_right same]

theorem Fine.number (fine : Fine elements) {score : Double} (found : elements.lookup ele = some score) : score ≠ .nan := by
  obtain ⟨before, after, rfl, -⟩ := lookup_eq_some_iff.mp found
  exact fine.2 (ele, score) (mem_append_right _ mem_cons_self)

theorem zuiElements_nodup (wf : WellFormed db) (src : Source) : ((zuiElements db src).map Prod.fst).Nodup := by
  unfold zuiElements
  split
  · next members found =>
    rw [List.map_map, show Prod.fst ∘ (fun ele : Bytes => (ele, (Extended.one : Double))) = id from rfl, List.map_id]
    exact wf.members _ _ found
  · next elements found => exact (wf.elements _ _ found).1
  · exact nodup_nil

theorem zuiFind_eq (db : Keyspace) (src : Source) (ele : Bytes) : zuiFind db src ele = (zuiElements db src).lookup ele := by
  unfold zuiFind zuiElements
  split
  · next members found =>
    clear found
    induction members with
    | nil => rfl
    | cons member members ih =>
      by_cases same : ele = member
      · subst same
        simp
      · rw [map_cons, lookup_cons, beq_eq_false_iff_ne.mpr same, ← ih]
        simp [same]
  · rfl
  · rfl

def normal (d : Double) : Double := if d.isNaN then Extended.zero else d

theorem normal_number (d : Double) : normal d ≠ .nan := by
  cases d <;> simp [normal, Extended.isNaN, Extended.zero]

theorem normal_eq {d : Double} (number : d ≠ .nan) : normal d = d := by
  cases d <;> first | contradiction | rfl

theorem zunionInterAggregate_number (aggregate : Aggregate) {target : Double} (number : target ≠ .nan) (val : Double) :
    zunionInterAggregate aggregate target val ≠ .nan := by
  cases aggregate with
  | sum => exact normal_number (target.add val)
  | min => exact Extended.least_number number val
  | max => exact Extended.greatest_number number val

theorem zunionInterAggregate_commutes (aggregate : Aggregate) {products : List Double}
    (single : aggregate = .sum → ¬ (.posInf ∈ products ∧ .negInf ∈ products)) :
    ∃ P, OrderFree.Commutes (zunionInterAggregate aggregate) P ∧ ∀ score ∈ products.map normal, P score := by
  have numbers : ∀ score ∈ products.map normal, score ≠ .nan := by
    intro score mem
    obtain ⟨product, -, rfl⟩ := List.mem_map.mp mem
    exact normal_number product
  have infinity : ∀ d, d ≠ .finite 0 → d ∈ products.map normal → d ∈ products := by
    intro d nonzero mem
    obtain ⟨product, here, rfl⟩ := List.mem_map.mp mem
    cases product with
    | nan => exact absurd rfl nonzero
    | _ => exact here
  cases aggregate with
  | min => exact ⟨_, Extended.least_commutes, numbers⟩
  | max => exact ⟨_, Extended.greatest_commutes, numbers⟩
  | sum =>
    by_cases positive : .posInf ∈ products
    · have negative : .negInf ∉ products := fun negative => single rfl ⟨positive, negative⟩
      refine ⟨_, Extended.add_commutes_upper.congr fun x y hx hy => ?_, fun score mem => ⟨numbers score mem, ?_⟩⟩
      · exact normal_eq (Extended.add_commutes_upper.closed x y hx hy).1
      · rintro rfl
        exact negative (infinity _ (by simp) mem)
    · refine ⟨_, Extended.add_commutes_lower.congr fun x y hx hy => ?_, fun score mem => ⟨numbers score mem, ?_⟩⟩
      · exact normal_eq (Extended.add_commutes_lower.closed x y hx hy).1
      · rintro rfl
        exact positive (infinity _ (by simp) mem)

def products (db : Keyspace) (src : List Source) (ele : Bytes) : List Double :=
  src.filterMap fun s => (zuiFind db s ele).map s.weight.mul

theorem lookup_replace {target : Double} (found : elements.lookup ele = some target) (score : Double)
    (other : Bytes) :
    (elements.map fun e => if e.1 = ele then (ele, score) else e).lookup other = if other = ele then some score else elements.lookup other := by
  by_cases same : other = ele
  · subst same
    rw [if_pos rfl]
    induction elements with
    | nil => cases found
    | cons e elements ih =>
      by_cases here : e.1 = other
      · rw [map_cons, if_pos here, lookup_cons_self]
      · have differ : (other == e.1) = false := beq_eq_false_iff_ne.mpr (Ne.symm here)
        rw [lookup_cons, differ] at found
        rw [map_cons, if_neg here, lookup_cons, differ]
        exact ih found
  · rw [if_neg same]
    clear found
    induction elements with
    | nil => rfl
    | cons e elements ih =>
      by_cases here : e.1 = ele
      · rw [map_cons, if_pos here, lookup_cons, lookup_cons, here, beq_eq_false_iff_ne.mpr same]
        exact ih
      · rw [map_cons, if_neg here, lookup_cons, lookup_cons, ih]

theorem lookup_accumulate (aggregate : Aggregate) (accumulator : List (Bytes × Double)) (ele : Bytes) (score : Double) (other : Bytes) :
    (accumulate aggregate accumulator ele score).lookup other =
      if other = ele then combine (zunionInterAggregate aggregate) (accumulator.lookup ele) score else accumulator.lookup other := by
  unfold accumulate
  cases found : accumulator.lookup ele with
  | none =>
    rw [lookup_append]
    by_cases same : other = ele
    · subst same
      rw [found, if_pos rfl]
      exact lookup_cons_self
    · rw [if_neg same, lookup_cons, beq_eq_false_iff_ne.mpr same, lookup_nil, or_none]
  | some target =>
    exact lookup_replace found _ other

theorem lookup_source (aggregate : Aggregate) (src : Source) (distinct : (elements.map Prod.fst).Nodup)
    (accumulator : List (Bytes × Double)) (ele : Bytes) :
    (elements.foldl (fun accumulator e => accumulate aggregate accumulator e.1 (weightedScore src e.2)) accumulator).lookup ele =
      match elements.lookup ele with
      | none => accumulator.lookup ele
      | some score => combine (zunionInterAggregate aggregate) (accumulator.lookup ele) (weightedScore src score) := by
  induction elements generalizing accumulator with
  | nil => rfl
  | cons e elements ih =>
    obtain ⟨fresh, distinct⟩ := nodup_cons.mp distinct
    rw [foldl_cons, ih distinct, lookup_accumulate, lookup_cons]
    by_cases same : ele = e.1
    · subst same
      rw [lookup_eq_none.mpr fresh, if_pos rfl, beq_self_eq_true]
    · rw [if_neg same, beq_eq_false_iff_ne.mpr same]

theorem lookup_zunion (wf : WellFormed db) (aggregate : Aggregate) (src : List Source) (ele : Bytes) :
    (zunion db aggregate src).lookup ele = ((products db src ele).map normal).foldl (combine (zunionInterAggregate aggregate)) none := by
  suffices general : ∀ accumulator : List (Bytes × Double), (src.foldl (fun accumulator src =>
        (zuiElements db src).foldl (fun accumulator e => accumulate aggregate accumulator e.1 (weightedScore src e.2)) accumulator)
        accumulator).lookup ele =
      ((products db src ele).map normal).foldl (combine (zunionInterAggregate aggregate)) (accumulator.lookup ele) from general []
  intro accumulator
  induction src generalizing accumulator with
  | nil => rfl
  | cons s src ih =>
    rw [foldl_cons, ih, lookup_source aggregate s (zuiElements_nodup wf s), ← zuiFind_eq]
    unfold products
    rw [filterMap_cons]
    cases found : zuiFind db s ele with
    | none => rfl
    | some score => rfl

end

/-! ZUNIONSTORE and ZINTERSTORE on the elements that every source holds, and what they store. -/

section
variable {db : Keyspace} {aggregate : Aggregate} {ele : Bytes}

def InAll (db : Keyspace) (src : List Source) (ele : Bytes) : Prop := ∀ s ∈ src, (zuiFind db s ele).isSome = true

/-- Without an element that is missing the loop folds over the products as they are. -/
theorem interScore_eq {first : Source} {own : Double} (held : zuiFind db first ele = some own) {rest : List Source} (all : InAll db rest ele)
    (score : Double) :
    interScore db aggregate first ele own rest score = some ((products db rest ele).foldl (zunionInterAggregate aggregate) score) := by
  induction rest generalizing score with
  | nil => rfl
  | cons s rest ih =>
    obtain ⟨here, all⟩ := forall_mem_cons.mp all
    obtain ⟨value, found⟩ := isSome_iff_exists.mp here
    have next : ∀ score, interScore db aggregate first ele own rest score = some ((products db rest ele).foldl (zunionInterAggregate aggregate) score) :=
      ih all
    rw [interScore, products, filterMap_cons, found]
    by_cases same : s.key = first.key
    · -- The source the loop runs over is not searched.
      have value_eq : value = own := by
        rw [zuiFind, same] at found
        exact some.inj (found.symm.trans held)
      rw [if_pos same, next, value_eq, Extended.mul_comm]
      rfl
    · rw [if_neg same]
      simp only [next, Extended.mul_comm value]
      rfl

theorem lookup_filterMap {elements : List (Bytes × Double)} (distinct : (elements.map Prod.fst).Nodup) (score : Bytes × Double → Option Double)
    (ele : Bytes) :
    (elements.filterMap fun e => (score e).map fun s => (e.1, s)).lookup ele = (elements.lookup ele).bind fun own => score (ele, own) := by
  induction elements with
  | nil => rfl
  | cons e elements ih =>
    obtain ⟨fresh, distinct⟩ := nodup_cons.mp distinct
    rw [filterMap_cons, lookup_cons]
    by_cases same : ele = e.1
    · subst same
      rw [beq_self_eq_true, bind_some]
      cases score e with
      | none => rw [map_none, ih distinct, lookup_eq_none.mpr fresh, bind_none]
      | some s => exact lookup_cons_self
    · rw [beq_eq_false_iff_ne.mpr same]
      cases score e with
      | none => exact ih distinct
      | some s =>
        rw [map_some, lookup_cons, beq_eq_false_iff_ne.mpr same]
        exact ih distinct

variable {src : List Source}

theorem lookup_zinter (wf : WellFormed db) (aggregate : Aggregate) (some_ : src ≠ []) (all : InAll db src ele) :
    ∃ product rest, products db src ele = product :: rest ∧
      (zinter db aggregate src).lookup ele = some (rest.foldl (zunionInterAggregate aggregate) (normal product)) := by
  obtain ⟨first, others, rfl⟩ := exists_cons_of_ne_nil some_
  obtain ⟨here, all⟩ := forall_mem_cons.mp all
  obtain ⟨own, held⟩ := isSome_iff_exists.mp here
  have nonempty : ¬ zuiLength db first = 0 := by
    intro empty
    rw [zuiFind_eq, length_eq_zero_iff.mp empty] at held
    cases held
  refine ⟨first.weight.mul own, products db others ele, ?_, ?_⟩
  · rw [products, filterMap_cons, held]
    rfl
  · rw [zinter, if_neg nonempty, lookup_filterMap (zuiElements_nodup wf first), ← zuiFind_eq, held]
    exact interScore_eq held all _

theorem accumulate_fine {accumulator : List (Bytes × Double)} (fine : Fine accumulator) (aggregate : Aggregate) (ele : Bytes) {score : Double}
    (number : score ≠ .nan) : Fine (accumulate aggregate accumulator ele score) := by
  unfold accumulate
  cases found : accumulator.lookup ele with
  | none =>
    refine ⟨?_, fun e mem => ?_⟩
    · rw [map_append, nodup_append]
      refine ⟨fine.1, nodup_singleton _, fun other held new here same => ?_⟩
      obtain rfl := mem_singleton.mp here
      exact lookup_eq_none.mp found (same ▸ held)
    · obtain mem | mem := mem_append.mp mem
      · exact fine.2 e mem
      · obtain rfl := mem_singleton.mp mem
        exact number
  | some target =>
    refine ⟨?_, fun e mem => ?_⟩
    · rw [List.map_map]
      refine (map_congr_left fun e _ => ?_) ▸ fine.1
      simp only [comp_apply]
      split
      · next same => exact same
      · rfl
    · obtain ⟨old, held, rfl⟩ := List.mem_map.mp mem
      split
      · exact zunionInterAggregate_number aggregate (fine.number found) score
      · exact fine.2 old held

theorem zunion_fine (db : Keyspace) (aggregate : Aggregate) (src : List Source) : Fine (zunion db aggregate src) := by
  unfold zunion
  refine List.foldlRecOn src _ ⟨nodup_nil, fun e mem => by cases mem⟩ fun accumulator fine s _ => ?_
  refine List.foldlRecOn (zuiElements db s) _ fine fun accumulator fine e _ => ?_
  exact accumulate_fine fine aggregate e.1 (normal_number _)

theorem interScore_number {first : Source} {own : Double} {rest : List Source} {score result : Double} (number : score ≠ .nan)
    (done : interScore db aggregate first ele own rest score = some result) : result ≠ .nan := by
  induction rest generalizing score with
  | nil =>
    cases done
    exact number
  | cons s rest ih =>
    rw [interScore] at done
    split at done
    · exact ih (zunionInterAggregate_number aggregate number _) done
    · split at done
      · exact ih (zunionInterAggregate_number aggregate number _) done
      · cases done

theorem zinter_fine (wf : WellFormed db) (aggregate : Aggregate) (src : List Source) : Fine (zinter db aggregate src) := by
  cases src with
  | nil => exact ⟨nodup_nil, fun e mem => by cases mem⟩
  | cons first rest =>
    rw [zinter]
    split
    · exact ⟨nodup_nil, fun e mem => by cases mem⟩
    · refine ⟨?_, fun e mem => ?_⟩
      · refine List.Nodup.sublist ?_ (zuiElements_nodup wf first)
        induction zuiElements db first with
        | nil => exact .slnil
        | cons e elements ih =>
          rw [filterMap_cons]
          split
          · exact ih.cons _
          · next found =>
            obtain ⟨score, -, rfl⟩ := map_eq_some_iff.mp found
            exact ih.cons_cons _
      · obtain ⟨old, -, found⟩ := mem_filterMap.mp mem
        obtain ⟨score, done, rfl⟩ := map_eq_some_iff.mp found
        exact interScore_number (normal_number _) done

def storedScore (db : Keyspace) (key : Key) (ele : Bytes) : Option Double :=
  match db key with
  | some (.zset elements) => elements.lookup ele
  | _ => none

def dstzset (op : Op) (db : Keyspace) (aggregate : Aggregate) (src : List Source) : List (Bytes × Double) :=
  match op with
  | .inter => zinter db aggregate src
  | .union => zunion db aggregate src

theorem dstzset_fine (wf : WellFormed db) (op : Op) (aggregate : Aggregate) (src : List Source) : Fine (dstzset op db aggregate src) := by
  cases op with
  | inter => exact zinter_fine wf aggregate src
  | union => exact zunion_fine db aggregate src

theorem zunionInterStore_eq (qsort : Qsort) (op : Op) (db : Keyspace) (dstkey : Key) (src : List Source) (aggregate : Aggregate) :
    (zunionInterStore qsort op db dstkey src aggregate).1 = update db dstkey
        (let elements := dstzset op db aggregate (qsort.sort (zuiCompareByCardinality db) src)
         if elements = [] then none else some (.zset elements)) := by
  have result : zunionInterStore qsort op db dstkey src aggregate =
      (let elements := dstzset op db aggregate (qsort.sort (zuiCompareByCardinality db) src)
       if elements.length ≠ 0 then (update db dstkey (some (.zset elements)), .integer elements.length)
       else (update db dstkey none, .integer 0)) := by
    cases op <;> rfl
  rw [result]
  simp only
  by_cases empty : dstzset op db aggregate (qsort.sort (zuiCompareByCardinality db) src) = []
  · rw [if_pos empty, empty]
    rfl
  · rw [if_neg empty, if_pos fun zero => empty (length_eq_zero_iff.mp zero)]

theorem storedScore_eq (qsort : Qsort) (op : Op) (db : Keyspace) (dstkey : Key) (src : List Source) (aggregate : Aggregate) (ele : Bytes) :
    storedScore (zunionInterStore qsort op db dstkey src aggregate).1 dstkey ele =
      (dstzset op db aggregate (qsort.sort (zuiCompareByCardinality db) src)).lookup ele := by
  rw [zunionInterStore_eq, storedScore, update_self]
  simp only
  by_cases empty : dstzset op db aggregate (qsort.sort (zuiCompareByCardinality db) src) = []
  · rw [if_pos empty, empty]
    rfl
  · rw [if_neg empty]

theorem zunionInterStore_wellFormed (qsort : Qsort) (wf : WellFormed db) (op : Op) (dstkey : Key) (src : List Source) (aggregate : Aggregate) :
    WellFormed (zunionInterStore qsort op db dstkey src aggregate).1 := by
  rw [zunionInterStore_eq]
  constructor
  · intro key members found
    by_cases same : key = dstkey
    · subst same
      rw [update_self] at found
      simp only at found
      split at found <;> cases found
    · rw [update_of_ne same] at found
      exact wf.members key members found
  · intro key elements found
    by_cases same : key = dstkey
    · subst same
      rw [update_self] at found
      simp only at found
      split at found
      · cases found
      · cases found
        exact dstzset_fine wf op aggregate _
    · rw [update_of_ne same] at found
      exact wf.elements key elements found

def Weighted (count : Nat) (src : List Source) : Prop := src.length = count ∧ ∀ s ∈ src, s.weight ≠ .nan

theorem readSources_weighted {keys : List Key} (done : readSources db keys = some src) : Weighted keys.length src := by
  induction keys generalizing src with
  | nil =>
    cases done
    exact ⟨rfl, fun s mem => by cases mem⟩
  | cons key keys ih =>
    rw [readSources] at done
    split at done
    · cases done
    · obtain ⟨rest, read, rfl⟩ := map_eq_some_iff.mp done
      obtain ⟨length, numbers⟩ := ih read
      exact ⟨congrArg (· + 1) length, forall_mem_cons.mpr ⟨by simp [Extended.one], numbers⟩⟩

theorem readWeights_weighted {server : Server} {texts : List Bytes} {src after : List Source} (enough : src.length ≤ texts.length)
    (done : readWeights server texts src = some after) : Weighted src.length after := by
  induction src generalizing texts after with
  | nil =>
    have empty : after = [] := by
      cases texts <;> exact (some.inj done).symm
    subst empty
    exact ⟨rfl, fun s mem => by cases mem⟩
  | cons s src ih =>
    match texts, enough with
    | text :: texts, enough =>
      rw [readWeights] at done
      split at done
      · cases done
      · next weight _ =>
        obtain ⟨rest, read, rfl⟩ := map_eq_some_iff.mp done
        obtain ⟨length, numbers⟩ := ih (Nat.le_of_succ_le_succ enough) read
        exact ⟨congrArg (· + 1) length, forall_mem_cons.mpr ⟨weight.2, numbers⟩⟩

theorem readOptions_weighted {server : Server} {aggregate : Aggregate} {remaining : List Bytes} {after : List Source × Aggregate}
    {count : Nat} (weighted : Weighted count src) (done : readOptions server src aggregate remaining = .ok after) : Weighted count after.1 := by
  induction src, aggregate, remaining using readOptions.induct server with
  | case1 src aggregate =>
    rw [readOptions] at done
    obtain rfl := Except.ok.inj done
    exact weighted
  | case2 src aggregate word rest option refused =>
    rw [readOptions.eq_def] at done
    simp only [if_pos option, refused] at done
    cases done
  | case3 src aggregate word rest option weights read ih =>
    rw [readOptions.eq_def] at done
    simp only [if_pos option, read] at done
    obtain ⟨length, numbers⟩ := readWeights_weighted (Nat.le_of_succ_le_succ option.1) read
    exact ih ⟨length.trans weighted.1, numbers⟩ done
  | case4 src aggregate word other =>
    rw [readOptions, if_neg other] at done
    cases done
  | case5 src aggregate word name rest option unknown other =>
    rw [readOptions, if_neg other] at done
    simp only [if_pos option, unknown] at done
    cases done
  | case6 src aggregate word name rest option known read other ih =>
    rw [readOptions, if_neg other] at done
    simp only [if_pos option, read] at done
    exact ih weighted done
  | case7 src aggregate word name rest neither other =>
    rw [readOptions, if_neg other] at done
    simp only [if_neg neither] at done
    cases done

theorem zunionInterGenericCommand_cases (server : Server) (db : Keyspace) (argv : List Bytes) (op : Op) :
    (zunionInterGenericCommand server db argv op).1 = db ∨ ∃ src aggregate, src ≠ [] ∧ (∀ s ∈ src, s.weight ≠ .nan) ∧
        zunionInterGenericCommand server db argv op = zunionInterStore server.qsort op db (ReadOnlySlave.argument argv 1) src aggregate := by
  unfold zunionInterGenericCommand
  split
  · exact .inl rfl
  · next setnum _ =>
    split
    · exact .inl rfl
    · next positive =>
      split
      · exact .inl rfl
      · next enough =>
        split
        · exact .inl rfl
        · next src read =>
          split
          · exact .inl rfl
          · next src aggregate options =>
            obtain ⟨length, numbers⟩ := readOptions_weighted (readSources_weighted read) options
            refine .inr ⟨src, aggregate, fun empty => ?_, numbers, rfl⟩
            rw [empty, length_take, length_drop, length_nil] at length
            omega

theorem zunionInterGenericCommand_wellFormed (server : Server) (wf : WellFormed db) (argv : List Bytes) (op : Op) :
    WellFormed (zunionInterGenericCommand server db argv op).1 := by
  obtain same | ⟨src, aggregate, -, -, same⟩ := zunionInterGenericCommand_cases server db argv op
  · rw [same]
    exact wf
  · rw [same]
    exact zunionInterStore_wellFormed server.qsort wf op _ src aggregate

theorem requests_wellFormed (server : Server) (wf : WellFormed db) (requests : List (List Bytes × Op)) :
    WellFormed (requests.foldl (fun db request => (zunionInterGenericCommand server db request.1 request.2).1) db) := by
  induction requests generalizing db with
  | nil => exact wf
  | cons request _ ih => exact ih (zunionInterGenericCommand_wellFormed server wf request.1 request.2)

theorem products_perm (db : Keyspace) {src src' : List Source} (perm : src.Perm src') (ele : Bytes) :
    (products db src ele).Perm (products db src' ele) :=
  perm.filterMap _

/-- The order of the sources does not matter to the union, unless both infinities are summed. -/
theorem zunion_perm (wf : WellFormed db) {src src' : List Source} (perm : src.Perm src')
    (single : aggregate = .sum → ¬ (.posInf ∈ products db src ele ∧ .negInf ∈ products db src ele)) :
    (zunion db aggregate src).lookup ele = (zunion db aggregate src').lookup ele := by
  obtain ⟨P, laws, all⟩ := zunionInterAggregate_commutes aggregate single
  rw [lookup_zunion wf, lookup_zunion wf]
  exact laws.foldl_perm ((products_perm db perm ele).map normal) all none fun z mem => by cases mem

theorem zinter_zunion (wf : WellFormed db) (some_ : src ≠ []) (all : InAll db src ele)
    (numbers : ∀ product ∈ products db src ele, product ≠ .nan) :
    (zinter db aggregate src).lookup ele = (zunion db aggregate src).lookup ele := by
  obtain ⟨product, rest, are, found⟩ := lookup_zinter wf aggregate some_ all
  rw [are] at numbers
  have same : (product :: rest).map normal = product :: rest := by
    calc
      (product :: rest).map normal = (product :: rest).map id := map_congr_left fun d mem => normal_eq (numbers d mem)
      _ = product :: rest := List.map_id _
  rw [found, lookup_zunion wf, are, same, normal_eq (numbers product mem_cons_self), foldl_cons]
  exact (OrderFree.foldl_combine (zunionInterAggregate aggregate) product rest).symm

theorem dstzset_stored (wf : WellFormed db) (op : Op) (aggregate : Aggregate) (some_ : src ≠ []) (all : InAll db src ele) :
    ∃ score, (dstzset op db aggregate src).lookup ele = some score := by
  obtain ⟨product, rest, are, found⟩ := lookup_zinter wf aggregate some_ all
  cases op with
  | inter => exact ⟨_, found⟩
  | union =>
    refine ⟨(rest.map normal).foldl (zunionInterAggregate aggregate) (normal product), ?_⟩
    rw [dstzset, lookup_zunion wf, are, map_cons, foldl_cons]
    exact OrderFree.foldl_combine _ _ _

/-- No score is NaN. An element of all sources gets a score from both commands, the same one if none of
its products is NaN; and the order of the sources does not matter if a sum has one infinity only. -/
theorem zunionInter_agree (qsort : Qsort) {db : Keyspace} (wf : WellFormed db) (dstkey : Key) {src : List Source} (some_ : src ≠ [])
    (aggregate : Aggregate) :
    (∀ op ele score, storedScore (zunionInterStore qsort op db dstkey src aggregate).1 dstkey ele = some score → score ≠ .nan) ∧
      ∀ ele, InAll db src ele →
        (∀ op, ∃ score, storedScore (zunionInterStore qsort op db dstkey src aggregate).1 dstkey ele = some score) ∧
        ((∀ product ∈ products db src ele, product ≠ .nan) →
          storedScore (zunionInterStore qsort .inter db dstkey src aggregate).1 dstkey ele =
            storedScore (zunionInterStore qsort .union db dstkey src aggregate).1 dstkey ele) ∧
        ((aggregate = .sum → ¬ (.posInf ∈ products db src ele ∧ .negInf ∈ products db src ele)) → ∀ src', src'.Perm src →
          storedScore (zunionInterStore qsort .union db dstkey src' aggregate).1 dstkey ele =
              storedScore (zunionInterStore qsort .union db dstkey src aggregate).1 dstkey ele ∧
            ((∀ product ∈ products db src ele, product ≠ .nan) →
              storedScore (zunionInterStore qsort .inter db dstkey src' aggregate).1 dstkey ele =
                storedScore (zunionInterStore qsort .inter db dstkey src aggregate).1 dstkey ele)) := by
  simp only [storedScore_eq]
  have sorted : ∀ src, (qsort.sort (zuiCompareByCardinality db) src).Perm src := qsort.perm (zuiCompareByCardinality db)
  refine ⟨fun op ele score found => (dstzset_fine wf op aggregate _).number found, fun ele all => ?_⟩
  have some_of_perm : ∀ {other : List Source}, other.Perm src → other ≠ [] := fun perm empty =>
    some_ (List.Perm.eq_nil (empty ▸ perm.symm))
  have all_of_perm : ∀ {other : List Source}, other.Perm src → InAll db other ele := fun perm s mem => all s (perm.mem_iff.mp mem)
  -- The commands agree on every order of the sources.
  have agree : ∀ {other : List Source}, other.Perm src → (∀ product ∈ products db src ele, product ≠ .nan) →
      (dstzset .inter db aggregate other).lookup ele = (dstzset .union db aggregate other).lookup ele := fun perm numbers =>
    zinter_zunion wf (some_of_perm perm) (all_of_perm perm) fun product mem => numbers product ((products_perm db perm ele).mem_iff.mp mem)
  refine ⟨fun op => dstzset_stored wf op aggregate (some_of_perm (sorted src)) (all_of_perm (sorted src)), agree (sorted src),
    fun single src' perm => ?_⟩
  have union : ∀ {other : List Source}, other.Perm src →
      (dstzset .union db aggregate other).lookup ele = (dstzset .union db aggregate src).lookup ele := fun perm =>
    (zunion_perm wf perm.symm single).symm
  have order := (sorted src').trans perm
  refine ⟨(union order).trans (union (sorted src)).symm, fun numbers => ?_⟩
  rw [agree order numbers, agree (sorted src) numbers, union order, union (sorted src)]

def stableQsort : Qsort where
  sort compare src := src.insertionSort fun s1 s2 => compare s1 s2 ≤ 0
  perm compare src := perm_insertionSort _ src
  sorted length src := by
    have total : Std.Total fun s1 s2 : Source => (length s1 : Int) - length s2 ≤ 0 := ⟨fun s1 s2 => by omega⟩
    have trans : IsTrans Source fun s1 s2 => (length s1 : Int) - length s2 ≤ 0 := ⟨fun s1 s2 s3 first second => by omega⟩
    refine (pairwise_insertionSort _ src).imp fun le => ?_
    simp only at le
    omega

def oneElement (ele : Bytes) (scores : List (Key × Double)) : Keyspace := fun key =>
  (scores.lookup key).map fun score => .zset [(ele, score)]

theorem oneElement_wellFormed (ele : Bytes) {scores : List (Key × Double)} (numbers : ∀ e ∈ scores, e.2 ≠ .nan) :
    WellFormed (oneElement ele scores) := by
  constructor
  · intro key members found
    obtain ⟨_, -, same⟩ := map_eq_some_iff.mp found
    cases same
  · intro key elements found
    obtain ⟨score, held, same⟩ := map_eq_some_iff.mp found
    cases same
    obtain ⟨_, _, rfl, -⟩ := lookup_eq_some_iff.mp held
    refine ⟨nodup_singleton _, fun e mem => ?_⟩
    obtain rfl := mem_singleton.mp mem
    exact numbers (key, score) (mem_append_right _ mem_cons_self)

theorem requests_wellFormed_two :
    WellFormed ([([[0], [98], [49], [97]], .union), ([[0], [97], [49], [98]], .inter)].foldl
      (fun db request => (zunionInterGenericCommand ⟨stableQsort, fun _ => none⟩ db request.1 request.2).1)
      (oneElement [120] [([97], .finite 5)])) :=
  requests_wellFormed _ (oneElement_wellFormed _ (by decide)) _

theorem zunionInter_agree_five :
    let db := oneElement [120] [([97], .finite 5), ([98], .posInf)]
    let src := [{ key := [97], weight := Extended.one }, { key := [98], weight := Extended.one }]
    storedScore (zunionInterStore stableQsort .inter db [100] src .sum).1 [100] [120] =
      storedScore (zunionInterStore stableQsort .union db [100] src .sum).1 [100] [120] := by
  intro db src
  have wf : WellFormed db := oneElement_wellFormed [120] (by decide)
  have some_ : src ≠ [] := cons_ne_nil _ _
  have all : InAll db src [120] := by
    unfold InAll
    decide
  have numbers : ∀ product ∈ products db src [120], product ≠ .nan := by decide +kernel
  exact ((zunionInter_agree stableQsort wf [100] some_ .sum).2 [120] all).2.1 numbers

/-- x has the score of +inf, -inf and 5. The sum of the union is 5, and 0 when the last two change places. -/
theorem zunion_order :
    let db := oneElement [120] [([97], .posInf), ([98], .negInf), ([99], .finite 5)]
    let a := { key := [97], weight := Extended.one }
    let b := { key := [98], weight := Extended.one }
    let c := { key := [99], weight := Extended.one }
    storedScore (zunionInterStore stableQsort .union db [100] [a, b, c] .sum).1 [100] [120] = some (.finite 5) ∧
      storedScore (zunionInterStore stableQsort .union db [100] [a, c, b] .sum).1 [100] [120] = some Extended.zero := by
  decide +kernel

end

end Cplusplus.Redis.ZunionInter
