import Cplusplus.Proofs.LexSkiplist
import Cplusplus.Proofs.ZiplistRead
import Cplusplus.Proofs.ZslRun

/-! Lexicographic ranges of a ziplist that holds a sorted set: an element and its score are
two entries. -/

namespace Cplusplus.Redis.Lex
open SortedCut Ziplist List Option

section
structure ZzlPair where
  obj : List UInt8
  element : List UInt8
  score : List UInt8
  stored : bodyValue element = some obj

def pairBodies (pairs : List ZzlPair) : List (List UInt8) := pairs.flatMap fun p => [p.element, p.score]

structure ZzlHolds (zl : List UInt8) (nodes : List Node) (pairs : List ZzlPair) : Prop where
  rep : Ziplist.Represents zl nodes
  bodies : nodes.map Node.body = pairBodies pairs

def located : List Node → List Node → List ZzlPair → List (Nat × ZzlPair)
  | before, m :: n :: nodes, p :: pairs => (pointer before, p) :: located (before ++ [m, n]) nodes pairs
  | _, _, _ => []

variable {zl : List UInt8} {before nodes : List Node} {pairs : List ZzlPair} {p : ZzlPair} {range : Zlexrangespec}

theorem nodes_nil (bodies : nodes.map Node.body = pairBodies []) : nodes = [] := map_eq_nil_iff.mp bodies

theorem split_append {ps qs : List ZzlPair} (bodies : nodes.map Node.body = pairBodies (ps ++ qs)) :
    ∃ left right, nodes = left ++ right ∧ left.map Node.body = pairBodies ps ∧ right.map Node.body = pairBodies qs := by
  rw [pairBodies, flatMap_append] at bodies
  exact map_eq_append_iff.mp bodies

theorem split_pair (bodies : nodes.map Node.body = pairBodies (p :: pairs)) :
    ∃ m n rest, nodes = m :: n :: rest ∧ m.body = p.element ∧ rest.map Node.body = pairBodies pairs := by
  obtain ⟨m, rest, rfl, element, more⟩ := map_eq_cons_iff.mp bodies
  obtain ⟨n, rest, rfl, _, more⟩ := map_eq_cons_iff.mp more
  exact ⟨m, n, rest, rfl, element, more⟩

theorem split_last (bodies : nodes.map Node.body = pairBodies (pairs ++ [p])) :
    ∃ init m n, nodes = init ++ [m, n] ∧ m.body = p.element ∧ init.map Node.body = pairBodies pairs := by
  obtain ⟨init, last, rfl, front, back⟩ := split_append bodies
  obtain ⟨m, n, rest, rfl, element, none_⟩ := split_pair back
  exact ⟨init, m, n, by rw [nodes_nil none_], element, front⟩

theorem located_append {left : List Node} (right : List Node) (bodies : left.map Node.body = pairBodies pairs) (pairs' : List ZzlPair) :
    located before (left ++ right) (pairs ++ pairs') = located before left pairs ++ located (before ++ left) right pairs' := by
  induction pairs generalizing before left with
  | nil => rw [nodes_nil bodies]; simp [located]
  | cons q pairs ih =>
    obtain ⟨k, l, rest, rfl, _, more⟩ := split_pair bodies
    simp only [cons_append, located, ih more, append_assoc, nil_append]

theorem located_concat {m n : Node} (init : List Node) (bodies : init.map Node.body = pairBodies pairs) :
    located before (init ++ [m, n]) (pairs ++ [p]) = located before init pairs ++ [(pointer (before ++ init), p)] :=
  located_append [m, n] bodies [p]

theorem located_pairs (before : List Node) (bodies : nodes.map Node.body = pairBodies pairs) : (located before nodes pairs).map Prod.snd = pairs := by
  induction pairs generalizing before nodes with
  | nil => rw [nodes_nil bodies]; rfl
  | cons p pairs ih =>
    obtain ⟨m, n, rest, rfl, _, more⟩ := split_pair bodies
    rw [located, map_cons, ih _ more]

theorem located_head (bodies : nodes.map Node.body = pairBodies pairs) :
    (located before nodes pairs).head?.map Prod.fst = if nodes = [] then none else some (pointer before) := by
  cases pairs with
  | nil => rw [nodes_nil bodies]; rfl
  | cons p pairs =>
    obtain ⟨m, n, rest, rfl, _, _⟩ := split_pair bodies
    rfl

theorem located_cuts (before : List Node) (bodies : nodes.map Node.body = pairBodies pairs) (sorted : pairs.Pairwise fun a b => a.obj < b.obj)
    (range : Zlexrangespec) :
    Suffix (fun x => aboveMin range x.2.obj) (located before nodes pairs) ∧
      Prefix (fun x => belowMax range x.2.obj) (located before nodes pairs) := by
  rw [← located_pairs before bodies, pairwise_map] at sorted
  exact range_cuts (fun x : Nat × ZzlPair => x.2.obj) sorted range

theorem get_pair {m : Node} {rest : List Node} (rep : Ziplist.Represents zl (before ++ m :: rest)) (element : m.body = p.element) :
    ziplistGetObject zl (pointer before) = some p.obj :=
  rep.get (by rw [element, p.stored])

theorem located_mem (bodies : nodes.map Node.body = pairBodies pairs) {x : Nat × ZzlPair}
    (member : x ∈ located before nodes pairs) : x.2 ∈ pairs := by
  rw [← located_pairs before bodies]
  exact List.mem_map_of_mem member

theorem located_filter_nil (before : List Node) (bodies : nodes.map Node.body = pairBodies pairs) {p : ZzlPair → Bool} (none_ : pairs.filter p = []) :
    (located before nodes pairs).filter (fun x => p x.2) = [] := by
  apply filter_eq_nil_iff.mpr
  intro x member
  exact filter_eq_nil_iff.mp none_ x.2 (located_mem bodies member)

theorem pairBodies_length (pairs : List ZzlPair) : (pairBodies pairs).length = 2 * pairs.length := by
  simp only [pairBodies, length_flatMap, length_cons, length_nil, map_const', sum_replicate_nat]
  omega

theorem pairs_length (holds : ZzlHolds zl nodes pairs) : pairs.length < zl.length + 1 := by
  have total := holds.rep.length_eq
  have count := congrArg List.length holds.bodies
  have lower := length_le_sizes nodes
  rw [length_map, pairBodies_length] at count
  unfold pointer at total
  omega

theorem zzlIsInLexRange_spec (holds : ZzlHolds zl nodes pairs) (range : Zlexrangespec) :
    zzlIsInLexRange zl range = some (!lexRangeEmpty range &&
      (pairs.getLast?.any (fun p => aboveMin range p.obj) && pairs.head?.any fun p => belowMax range p.obj)) := by
  obtain ⟨rep, bodies⟩ := holds
  unfold zzlIsInLexRange
  cases lexRangeEmpty range with
  | true => rfl
  | false =>
    cases pairs.eq_nil_or_concat with
    | inl empty =>
      subst empty
      obtain rfl := nodes_nil bodies
      rw [rep.index_empty]
      rfl
    | inr more =>
      obtain ⟨init, p, rfl⟩ := more
      rw [concat_eq_append] at bodies ⊢
      obtain ⟨front, m, n, rfl, element, _⟩ := split_last bodies
      have last := get_pair rep element
      obtain ⟨q, rest, order⟩ : ∃ q rest, init ++ [p] = q :: rest := exists_cons_of_ne_nil (by simp)
      have index := rep.index_second_last
      have first := rep.index_first
      rw [order] at bodies
      obtain ⟨k, l, more, nodes', element', _⟩ := split_pair bodies
      rw [nodes'] at rep first
      rw [← nil_append (k :: l :: more)] at rep
      have obj := get_pair rep element'
      rw [if_neg (cons_ne_nil _ _)] at first
      have head : (init ++ [p]).head? = some q := by rw [order]; rfl
      simp only [index, last, first, obj, head, zslLexValueGteMin_eq, zslLexValueLteMax_eq, bind_eq_bind,
        bind_some, Option.pure_def, Bool.false_eq_true, if_false, any_some, getLast?_concat]
      cases aboveMin range p.obj <;> rfl

theorem zzlFirstFrom_spec (range : Zlexrangespec) {fuel : Nat} (rep : Ziplist.Represents zl (before ++ nodes))
    (bodies : nodes.map Node.body = pairBodies pairs) (sorted : pairs.Pairwise fun a b => a.obj < b.obj) (enough : pairs.length < fuel) :
    zzlFirstFrom zl range fuel ((located before nodes pairs).head?.map Prod.fst) =
      some (((located before nodes pairs).filter fun x => inLexRange range x.2.obj).head?.map Prod.fst) := by
  induction pairs generalizing before nodes fuel with
  | nil =>
    rw [nodes_nil bodies]
    cases fuel <;> rfl
  | cons p pairs ih =>
    cases fuel with
    | zero => cases enough
    | succ fuel =>
      obtain ⟨low, high⟩ := located_cuts before bodies sorted range
      obtain ⟨m, n, rest, rfl, element, more⟩ := split_pair bodies
      have obj := get_pair rep element
      have next := rep.next
      rw [if_neg (cons_ne_nil n rest)] at next
      rw [append_cons] at rep
      have next' := rep.next
      rw [append_cons, append_assoc _ [m], singleton_append] at rep
      rw [append_assoc, singleton_append] at next'
      rw [located] at low high ⊢
      simp only [head?_cons, map_some, zzlFirstFrom, obj, zslLexValueGteMin_eq, zslLexValueLteMax_eq, bind_eq_bind, bind_some]
      cases above : aboveMin range p.obj with
      | false =>
        have out : inLexRange range p.obj = false := by simp [inLexRange, above]
        have onward := ih rep more sorted.of_cons (Nat.lt_of_succ_lt_succ enough)
        rw [located_head more] at onward
        simp only [List.filter_cons, out, next, Bool.false_eq_true, if_false, bind_some]
        rw [← onward, next', bind_some]
      | true =>
        cases below : belowMax range p.obj with
        | false =>
          have none_ := high.filter_cons below fun x => aboveMin range x.2.obj
          simp only [inLexRange, Bool.and_comm (aboveMin _ _), none_]
          rfl
        | true =>
          have inside : inLexRange range p.obj = true := by simp [inLexRange, above, below]
          simp only [List.filter_cons, inside, if_true]
          rfl

theorem zzlFirstInLexRange_spec (holds : ZzlHolds zl nodes pairs) (sorted : pairs.Pairwise fun a b => a.obj < b.obj)
    (range : Zlexrangespec) :
    zzlFirstInLexRange zl range = some (if lexRangeEmpty range then none else
      ((located [] nodes pairs).filter fun x => inLexRange range x.2.obj).head?.map Prod.fst) := by
  have isIn := zzlIsInLexRange_spec holds range
  have index := holds.rep.index_first
  have rep : Ziplist.Represents zl ([] ++ nodes) := holds.rep
  have search := zzlFirstFrom_spec range rep holds.bodies sorted (pairs_length holds)
  rw [located_head holds.bodies] at search
  unfold zzlFirstInLexRange
  cases empty : lexRangeEmpty range with
  | true =>
    rw [empty] at isIn
    simp only [index, isIn, bind_eq_bind, bind_some]
    rfl
  | false =>
    rw [empty, Bool.not_false, Bool.true_and] at isIn
    simp only [index, isIn, search, bind_eq_bind, bind_some]
    cases within : pairs.getLast?.any (fun p => aboveMin range p.obj) && pairs.head?.any fun p => belowMax range p.obj with
    | true => rfl
    | false =>
      obtain ⟨low, high⟩ := range_cuts ZzlPair.obj sorted range
      have none_ := located_filter_nil [] holds.bodies (range_eq_nil low high within)
      simp only [inLexRange, none_]
      rfl

theorem prev_pair {init after : List Node} {k l m : Node} (rep : Ziplist.Represents zl (init ++ [k, l] ++ m :: after)) :
    ∃ sptr, ziplistPrev zl (pointer (init ++ [k, l])) = some (some sptr) ∧ ziplistPrev zl sptr = some (some (pointer init)) := by
  rw [append_cons init k [l], append_assoc, singleton_append] at rep
  have first := rep.prev
  rw [append_assoc, singleton_append] at rep
  have second := rep.prev
  rw [append_cons init k [l]]
  exact ⟨_, first, second⟩

theorem zzlLastFrom_spec (range : Zlexrangespec) {fuel : Nat} {after : List Node} (rep : Ziplist.Represents zl (nodes ++ after))
    (bodies : nodes.map Node.body = pairBodies pairs) (sorted : pairs.Pairwise fun a b => a.obj < b.obj) (enough : pairs.length < fuel) :
    zzlLastFrom zl range fuel ((located [] nodes pairs).getLast?.map Prod.fst) =
      some (((located [] nodes pairs).filter fun x => inLexRange range x.2.obj).getLast?.map Prod.fst) := by
  induction pairs using List.reverseRecOn generalizing nodes after fuel with
  | nil =>
    rw [nodes_nil bodies]
    cases fuel <;> rfl
  | append_singleton pairs p ih =>
    cases fuel with
    | zero => cases enough
    | succ fuel =>
      obtain ⟨low, high⟩ := located_cuts [] bodies sorted range
      have last := last_range low high
      obtain ⟨init, m, n, rfl, element, front⟩ := split_last bodies
      rw [append_assoc, cons_append, cons_append, nil_append] at rep
      have obj := get_pair rep element
      rw [located_concat init front, nil_append] at last ⊢
      simp only [getLast?_concat, map_some, zzlLastFrom, obj, zslLexValueGteMin_eq, zslLexValueLteMax_eq, bind_eq_bind, bind_some]
      cases below : belowMax range p.obj with
      | true =>
        have arrived : ((located [] init pairs ++ [(pointer init, p)]).filter fun x => belowMax range x.2.obj).getLast? =
            some (pointer init, p) := by
          simp [filter_append, below]
        simp only [inLexRange, last, arrived, Option.filter, if_true]
        split <;> rfl
      | false =>
        have out : inLexRange range p.obj = false := by simp [inLexRange, below]
        have less : pairs.length < fuel := by
          rw [length_append, length_singleton] at enough
          omega
        have onward := ih rep front (pairwise_append.mp sorted).1 less
        simp only [filter_append, List.filter_cons, filter_nil, out, Bool.false_eq_true, if_false, append_nil, ← onward]
        cases pairs.eq_nil_or_concat with
        | inl empty =>
          subst empty
          obtain rfl := nodes_nil front
          rw [rep.prev_first]
          cases fuel <;> rfl
        | inr more =>
          obtain ⟨pairs', q, rfl⟩ := more
          rw [concat_eq_append] at front
          obtain ⟨init', k, l, rfl, _, front'⟩ := split_last front
          obtain ⟨sptr, first, second⟩ := prev_pair rep
          rw [concat_eq_append, located_concat init' front', getLast?_concat, nil_append, first]
          simp only [bind_some, second, map_some]

theorem located_last (rep : Ziplist.Represents zl nodes) (bodies : nodes.map Node.body = pairBodies pairs) :
    ziplistIndex zl (-2) = some ((located [] nodes pairs).getLast?.map Prod.fst) := by
  cases pairs.eq_nil_or_concat with
  | inl empty =>
    subst empty
    obtain rfl := nodes_nil bodies
    exact rep.index_empty
  | inr more =>
    obtain ⟨pairs', p, rfl⟩ := more
    rw [concat_eq_append] at bodies
    obtain ⟨init, m, n, rfl, _, front⟩ := split_last bodies
    rw [concat_eq_append, located_concat init front, getLast?_concat]
    exact rep.index_second_last

theorem zzlLastInLexRange_spec (holds : ZzlHolds zl nodes pairs) (sorted : pairs.Pairwise fun a b => a.obj < b.obj)
    (range : Zlexrangespec) :
    zzlLastInLexRange zl range = some (if lexRangeEmpty range then none else
      ((located [] nodes pairs).filter fun x => inLexRange range x.2.obj).getLast?.map Prod.fst) := by
  have isIn := zzlIsInLexRange_spec holds range
  have index := located_last holds.rep holds.bodies
  have rep := holds.rep
  rw [← append_nil nodes] at rep
  have search := zzlLastFrom_spec range rep holds.bodies sorted (pairs_length holds)
  unfold zzlLastInLexRange
  cases empty : lexRangeEmpty range with
  | true =>
    rw [empty] at isIn
    simp only [index, isIn, bind_eq_bind, bind_some]
    rfl
  | false =>
    rw [empty, Bool.not_false, Bool.true_and] at isIn
    simp only [index, isIn, search, bind_eq_bind, bind_some]
    cases within : pairs.getLast?.any (fun p => aboveMin range p.obj) && pairs.head?.any fun p => belowMax range p.obj with
    | true => rfl
    | false =>
      obtain ⟨low, high⟩ := range_cuts ZzlPair.obj sorted range
      have none_ := located_filter_nil [] holds.bodies (range_eq_nil low high within)
      simp only [inLexRange, none_]
      rfl

end

/-! Lexicographic ranges of the two encodings: the ends of a range and the deletion of its
elements. -/

section
variable (junk : List UInt8 → Nat → UInt8)
variable {zl : List UInt8} {before nodes : List Node} {pairs : List ZzlPair} {p : ZzlPair} {range : Zlexrangespec}

/-- The loop deletes the pairs up to the first one that is above the range, unless a list on
the way would be too large. -/
theorem zzlDeleteWhileLex_spec (range : Zlexrangespec) {fuel : Nat} (rep : Ziplist.Represents zl (before ++ nodes))
    (bodies : nodes.map Node.body = pairBodies pairs) (enough : pairs.length < fuel) :
    (DeletesFit before (2 * (pairs.takeWhile fun p => belowMax range p.obj).length) nodes →
      ∃ zl' nodes', zzlDeleteWhileLex junk range fuel zl (pointer before) = some (zl', (pairs.takeWhile fun p => belowMax range p.obj).length) ∧
        Ziplist.Represents zl' (before ++ nodes') ∧
        nodes'.map Node.body = pairBodies (pairs.dropWhile fun p => belowMax range p.obj)) ∧
    (¬ DeletesFit before (2 * (pairs.takeWhile fun p => belowMax range p.obj).length) nodes →
      zzlDeleteWhileLex junk range fuel zl (pointer before) = none) := by
  induction pairs generalizing zl nodes fuel with
  | nil =>
    cases fuel with
    | zero => cases enough
    | succ fuel =>
      obtain rfl := nodes_nil bodies
      rw [append_nil] at rep
      refine ⟨fun _ => ⟨zl, [], ?_, by rwa [append_nil], rfl⟩, fun large => absurd trivial large⟩
      simp only [zzlDeleteWhileLex, rep.next_end, bind_eq_bind, bind_some]
      rfl
  | cons p pairs ih =>
    cases fuel with
    | zero => cases enough
    | succ fuel =>
      obtain ⟨m, n, rest, rfl, element, more⟩ := split_pair bodies
      have next := rep.next
      rw [if_neg (cons_ne_nil n rest)] at next
      have obj := get_pair rep element
      cases below : belowMax range p.obj with
      | false =>
        simp only [takeWhile_cons, dropWhile_cons, below, Bool.false_eq_true, if_false]
        refine ⟨fun _ => ⟨zl, _, ?_, rep, bodies⟩, fun large => absurd trivial large⟩
        simp only [zzlDeleteWhileLex, next, obj, zslLexValueLteMax_eq, below, Bool.false_eq_true, if_false, bind_eq_bind, bind_some]
        rfl
      | true =>
        simp only [takeWhile_cons, dropWhile_cons, below, if_true, length_cons, Nat.mul_succ, DeletesFit, tail_cons]
        obtain ⟨deleted, failed⟩ := rep.delete junk
        obtain ⟨n', rest', relinked, more'⟩ : ∃ n' rest', relink (lastSize 0 before) (n :: rest) = n' :: rest' ∧
            rest'.map Node.body = pairBodies pairs :=
          ⟨_, _, rfl, (cascade_bodies _ rest).trans more⟩
        rw [relinked] at deleted failed ⊢
        rw [tail_cons]
        by_cases first : pointer (before ++ n' :: rest') + 1 < 2 ^ 32
        · obtain ⟨zl₁, run₁, rep₁⟩ := deleted first
          obtain ⟨deleted', failed'⟩ := rep₁.delete junk
          by_cases second : pointer (before ++ relink (lastSize 0 before) rest') + 1 < 2 ^ 32
          · obtain ⟨zl₂, run₂, rep₂⟩ := deleted' second
            obtain ⟨onward, stuck⟩ := ih rep₂ ((relink_bodies _ rest').trans more') (Nat.lt_of_succ_lt_succ enough)
            refine ⟨fun fits => ?_, fun large => ?_⟩
            · obtain ⟨zl', nodes', run, rep', bodies'⟩ := onward fits.2.2
              refine ⟨zl', nodes', ?_, rep', bodies'⟩
              simp only [zzlDeleteWhileLex, next, obj, zslLexValueLteMax_eq, below, run₁, run₂, run, if_true, bind_eq_bind, bind_some]
              rfl
            · have run := stuck fun fits => large ⟨first, second, fits⟩
              simp only [zzlDeleteWhileLex, next, obj, zslLexValueLteMax_eq, below, run₁, run₂, run, if_true,
                bind_eq_bind, bind_some, bind_none]
          · refine ⟨fun fits => absurd fits.2.1 second, fun _ => ?_⟩
            simp only [zzlDeleteWhileLex, next, obj, zslLexValueLteMax_eq, below, run₁, failed' (Nat.le_of_not_lt second),
              if_true, bind_eq_bind, bind_some, bind_none]
        · refine ⟨fun fits => absurd fits.1 first, fun _ => ?_⟩
          simp only [zzlDeleteWhileLex, next, obj, zslLexValueLteMax_eq, below, failed (Nat.le_of_not_lt first), if_true,
            bind_eq_bind, bind_some, bind_none]

def lexFront (range : Zlexrangespec) (pairs : List ZzlPair) : List ZzlPair := pairs.filter fun p => !aboveMin range p.obj

def lexPairs (range : Zlexrangespec) (pairs : List ZzlPair) : List ZzlPair := pairs.filter fun p => inLexRange range p.obj

def LexDeletesFit (range : Zlexrangespec) (nodes : List Node) (pairs : List ZzlPair) : Prop :=
  DeletesFit (nodes.take (2 * (lexFront range pairs).length)) (2 * (lexPairs range pairs).length)
    (nodes.drop (2 * (lexFront range pairs).length))

theorem zzlDeleteRangeByLex_none (first : zzlFirstInLexRange zl range = some none) : zzlDeleteRangeByLex junk zl range = some (zl, 0) := by
  simp only [zzlDeleteRangeByLex, first, bind_eq_bind, bind_some]
  rfl

theorem keep_all (none_ : lexPairs range pairs = []) : pairs.filter (fun p => !inLexRange range p.obj) = pairs := by
  rw [filter_eq_self]
  intro p member
  simpa using filter_eq_nil_iff.mp none_ p member

theorem first_located {left right : List Node} {front back : List ZzlPair}
    (bodies : left.map Node.body = pairBodies front) (bodies' : right.map Node.body = pairBodies back)
    (out : ∀ p ∈ front, aboveMin range p.obj = false) (inside : ∀ p ∈ back, aboveMin range p.obj = true) :
    (located [] (left ++ right) (front ++ back)).filter (fun x => aboveMin range x.2.obj) = located left right back := by
  rw [located_append right bodies, filter_append, nil_append]
  have none_ : (located [] left front).filter (fun x => aboveMin range x.2.obj) = [] := by
    apply filter_eq_nil_iff.mpr
    intro x member
    simp [out x.2 (located_mem bodies member)]
  rw [none_, nil_append, filter_eq_self]
  exact fun x member => inside x.2 (located_mem bodies' member)

theorem zzlDeleteRangeByLex_spec (holds : ZzlHolds zl nodes pairs) (sorted : pairs.Pairwise fun a b => a.obj < b.obj)
    (judged : lexRangeEmpty range = false) :
    (LexDeletesFit range nodes pairs → ∃ zl' nodes', zzlDeleteRangeByLex junk zl range = some (zl', (lexPairs range pairs).length) ∧
      ZzlHolds zl' nodes' (pairs.filter fun p => !inLexRange range p.obj)) ∧
    (¬ LexDeletesFit range nodes pairs → zzlDeleteRangeByLex junk zl range = none) := by
  have first := zzlFirstInLexRange_spec holds sorted range
  obtain ⟨low, high⟩ := range_cuts ZzlPair.obj sorted range
  obtain ⟨low', high'⟩ := located_cuts [] holds.bodies sorted range
  have split : lexFront range pairs ++ pairs.filter (fun p => aboveMin range p.obj) = pairs := low.split
  obtain ⟨left, right, rfl, bodies, bodies'⟩ := split_append (split ▸ holds.bodies)
  have count : 2 * (lexFront range pairs).length = left.length := by
    rw [← pairBodies_length, ← bodies, length_map]
  have range_ : lexPairs range pairs = (pairs.filter fun p => aboveMin range p.obj).takeWhile fun p => belowMax range p.obj := by
    rw [(high.sublist filter_sublist).takeWhile_eq, List.filter_filter]
    simp only [lexPairs, inLexRange, Bool.and_comm]
  have rest : pairs.filter (fun p => !inLexRange range p.obj) = lexFront range pairs ++
      (pairs.filter fun p => aboveMin range p.obj).dropWhile fun p => belowMax range p.obj := by
    rw [(high.sublist filter_sublist).dropWhile_eq]
    exact low.filter_not_range _
  have located_ := first_located bodies bodies'
    (fun p member => by simpa using (mem_filter.mp member).2) (fun p member => (mem_filter.mp member).2)
  rw [split] at located_
  rw [judged, if_neg Bool.false_ne_true] at first
  simp only [inLexRange] at first
  rw [head_range low' high', located_] at first
  rw [LexDeletesFit, count, take_left, drop_left]
  have rep := holds.rep
  have fuel : (pairs.filter fun p => aboveMin range p.obj).length < zl.length + 1 :=
    Nat.lt_of_le_of_lt (length_filter_le _ _) (pairs_length holds)
  have nothing : lexPairs range pairs = [] → zzlFirstInLexRange zl range = some none →
      (DeletesFit left (2 * (lexPairs range pairs).length) right → ∃ zl' nodes', zzlDeleteRangeByLex junk zl range =
          some (zl', (lexPairs range pairs).length) ∧
        ZzlHolds zl' nodes' (pairs.filter fun p => !inLexRange range p.obj)) ∧
      (¬ DeletesFit left (2 * (lexPairs range pairs).length) right → zzlDeleteRangeByLex junk zl range = none) := by
    intro none_ found
    rw [none_, keep_all none_]
    exact ⟨fun _ => ⟨zl, _, zzlDeleteRangeByLex_none junk found, holds⟩, fun large => absurd trivial large⟩
  cases back : pairs.filter fun p => aboveMin range p.obj with
  | nil =>
    rw [back] at first range_ bodies'
    obtain rfl := nodes_nil bodies'
    exact nothing range_ first
  | cons q back' =>
    rw [back] at first range_ rest bodies' fuel
    obtain ⟨m, n, right', rfl, _, _⟩ := split_pair bodies'
    rw [located, head?_cons, Option.filter] at first
    cases below : belowMax range q.obj with
    | false =>
      rw [takeWhile_cons_of_neg (by simp [below])] at range_
      rw [if_neg (by simp [below])] at first
      exact nothing range_ first
    | true =>
      rw [if_pos below] at first
      obtain ⟨deleted, failed⟩ := zzlDeleteWhileLex_spec junk range rep bodies' fuel
      rw [← range_] at deleted failed
      have run : zzlDeleteRangeByLex junk zl range = zzlDeleteWhileLex junk range (zl.length + 1) zl (pointer left) := by
        simp only [zzlDeleteRangeByLex, first, map_some, bind_eq_bind, bind_some]
      rw [run]
      refine ⟨fun fits => ?_, failed⟩
      obtain ⟨zl', nodes', done, rep', kept⟩ := deleted fits
      refine ⟨zl', left ++ nodes', done, rep', ?_⟩
      rw [map_append, bodies, kept, rest, pairBodies, pairBodies, pairBodies, flatMap_append]

/-- The functions for the ends of a range point to its first and its last element, and the
deleters remove its elements and no others. -/
structure DelimitsRange (range : Zlexrangespec) (zsl : Zskiplist) (entries : List Zsl.Entry) (zl : List UInt8)
    (nodes : List Node) (pairs : List ZzlPair) : Prop where
  zslFirst : zslFirstInLexRange zsl range = some ((lexEntries range entries).head?.map Zsl.Entry.addr)
  zslLast : zslLastInLexRange zsl range = some ((lexEntries range entries).getLast?.map Zsl.Entry.addr)
  zzlFirst : zzlFirstInLexRange zl range =
    some (((located [] nodes pairs).filter fun x => inLexRange range x.2.obj).head?.map Prod.fst)
  zzlLast : zzlLastInLexRange zl range =
    some (((located [] nodes pairs).filter fun x => inLexRange range x.2.obj).getLast?.map Prod.fst)
  zslDelete : ∃ zsl', zslDeleteRangeByLex zsl range = some (zsl', (lexEntries range entries).map Zsl.Entry.obj) ∧
    Zsl.Linked zsl' (entries.filter fun e => !inLexRange range e.obj)
  zzlDelete : ∃ zl' nodes', zzlDeleteRangeByLex junk zl range = some (zl', (lexPairs range pairs).length) ∧
    ZzlHolds zl' nodes' (pairs.filter fun p => !inLexRange range p.obj)

structure SameScore (zsl : Zskiplist) (entries : List Zsl.Entry) (zl : List UInt8) (nodes : List Node)
    (pairs : List ZzlPair) : Prop where
  linked : Zsl.Linked zsl entries
  ordered : Zsl.Ordered entries
  score : ∃ key, ∀ e ∈ entries, e.score.key = key
  holds : ZzlHolds zl nodes pairs
  same : pairs.map ZzlPair.obj = entries.map Zsl.Entry.obj

variable {zsl : Zskiplist} {entries : List Zsl.Entry}

theorem SameScore.sorted (set : SameScore zsl entries zl nodes pairs) : pairs.Pairwise fun a b => a.obj < b.obj := by
  obtain ⟨key, score⟩ := set.score
  have sorted := sorted_by_obj set.ordered score
  rw [← pairwise_map (R := (· < ·)), ← set.same, pairwise_map] at sorted
  exact sorted

theorem range_empty (none_ : ∀ x ∈ entries.map Zsl.Entry.obj, inLexRange range x = false) : lexEntries range entries = [] := by
  apply filter_eq_nil_iff.mpr
  intro e member
  simp [none_ e.obj (List.mem_map_of_mem member)]

theorem pairs_empty (none_ : ∀ x ∈ pairs.map ZzlPair.obj, inLexRange range x = false) : lexPairs range pairs = [] := by
  apply filter_eq_nil_iff.mpr
  intro p member
  simp [none_ p.obj (List.mem_map_of_mem member)]

theorem none_inside {min max : RangeObject} {objs : List (List UInt8)} (parsed : zslParseLexRange min max = some range)
    (fair : ¬ Misjudged range objs) (empty : lexRangeEmpty range = true) : ∀ x ∈ objs, inLexRange range x = false := by
  intro x member
  cases inside : inLexRange range x with
  | false => rfl
  | true => exact absurd (lexRangeEmpty_sound (zslParseLexRange_ok parsed) empty member inside) fair

def singlePair : ZzlPair where
  obj := [97]
  element := zipBody [97]
  score := zipBody [48]
  stored := bodyValue_zipBody (by decide)

def singleNodes : List Node := [⟨false, zipBody [97]⟩, ⟨false, zipBody [48]⟩]

def singleEntry : Zsl.Entry where
  addr := 1
  score := Binary64.zero
  obj := [97]
  height := 1

theorem single_set : ∃ zsl, SameScore zsl [singleEntry] (image 2 singleNodes) singleNodes [singlePair] := by
  have proper : Zsl.ZslOp.Proper (zslCreate 0) (.insert 1 1 Binary64.zero [97]) := by decide
  obtain ⟨zsl, _, _, linked, ordered⟩ := (Zsl.represents_create 0).insert proper (by decide)
  have element : BodyOk (zipBody [97]) := zipBody_ok (by decide)
  have score : BodyOk (zipBody [48]) := zipBody_ok (by decide)
  have rep : Ziplist.Represents (image 2 singleNodes) singleNodes :=
    ⟨⟨fun _ => by decide, element, fun _ => by decide, score, trivial⟩, by decide, 2, rfl, by decide, fun _ => rfl⟩
  exact ⟨zsl, linked, ordered, ⟨0, by decide⟩, ⟨rep, rfl⟩, rfl⟩

end

end Cplusplus.Redis.Lex
