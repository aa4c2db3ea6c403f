import Cplusplus.Minicrt

/-! `main` gets the words of a line of at most 16 words that begins with one, and of no other line.
At the end every handler that was registered before is called, the latest first; a handler that is
registered by another one is not called, and every link is read from a node that was freed. -/

namespace Cplusplus.Minicrt

open List Option

def firstWord (text : List UInt8) : List (List UInt8) := if wordStarts text then [text.takeWhile (· ≠ 32)] else []

def laterWords : List UInt8 → List (List UInt8)
  | [] => []
  | c :: rest => (if c = 32 then firstWord rest else []) ++ laterWords rest

theorem splitOnP_cut (text : List UInt8) :
    ∃ rest, text.splitOnP (· = 32) = text.takeWhile (· ≠ 32) :: rest ∧ rest.filter (· ≠ []) = laterWords text := by
  induction text with
  | nil => exact ⟨[], rfl, rfl⟩
  | cons c text ih =>
    obtain ⟨rest, same, later⟩ := ih
    by_cases blank : c = 32
    · refine ⟨text.takeWhile (· ≠ 32) :: rest, by simp [splitOnP_cons_eq_if_modifyHead, blank, same], ?_⟩
      rw [laterWords, if_pos blank, ← later, firstWord]
      cases text with
      | nil => rfl
      | cons d text => by_cases other : d = 32 <;> simp [wordStarts, other]
    · refine ⟨rest, by simp [splitOnP_cons_eq_if_modifyHead, blank, same], ?_⟩
      rw [laterWords, if_neg blank, later, nil_append]

theorem words_cut (line : List UInt8) : words line = firstWord (unquote line) ++ laterWords (unquote line) := by
  obtain ⟨rest, same, later⟩ := splitOnP_cut (unquote line)
  rw [words, same, ← later, firstWord]
  cases unquote line with
  | nil => rfl
  | cons c text => by_cases blank : c = 32 <;> simp [wordStarts, blank]

def cutLine (text : List UInt8) : List UInt8 := text.map fun c => if c = 32 then 0 else c

theorem cString_cut (done text : List UInt8) (plain : 0 ∉ text) : cString (done ++ cutLine text) done.length = text.takeWhile (· ≠ 32) := by
  rw [cString, drop_left]
  induction text with
  | nil => rfl
  | cons c text ih =>
    rw [mem_cons, not_or] at plain
    have rest := ih plain.2
    by_cases blank : c = 32
    · simp [cutLine, blank]
    · have other : c ≠ 0 := fun zero => plain.1 zero.symm
      simpa [cutLine, blank, other] using rest

/-- The pointers that the loop adds point to the words behind blanks, if there is room for them. -/
theorem splitLoop_words (text done : List UInt8) (plain : 0 ∉ text) :
    ∃ args, args.map (cString (done ++ cutLine text)) = laterWords text ∧ ∀ argv, argv.length ≤ 16 →
      splitLoop text done argv = if argv.length + args.length ≤ 16 then some (done ++ cutLine text, argv ++ args) else none := by
  induction text generalizing done with
  | nil => exact ⟨[], rfl, fun argv room => by simp [splitLoop, cutLine, room]⟩
  | cons c text ih =>
    rw [mem_cons, not_or] at plain
    obtain ⟨args, same, loop⟩ := ih (done ++ [if c = 32 then 0 else c]) plain.2
    have word := cString_cut (done ++ [if c = 32 then 0 else c]) text plain.2
    rw [show done ++ cutLine (c :: text) = done ++ [if c = 32 then 0 else c] ++ cutLine text by simp [cutLine]]
    by_cases blank : c = 32
    · simp only [splitLoop, laterWords, firstWord, if_pos blank, length_append, length_singleton] at same loop word ⊢
      cases starts : wordStarts text with
      | false => exact ⟨args, by simpa using same, by simpa using loop⟩
      | true =>
        refine ⟨(done.length + 1) :: args, by simp only [map_cons, word, same, if_true, singleton_append], ?_⟩
        intro argv room
        rw [if_pos rfl, storeArg]
        split
        next fits =>
          rw [bind_some, loop _ (by rw [length_append, length_singleton]; omega)]
          simp only [length_append, length_cons, length_nil, append_assoc, singleton_append, Nat.add_assoc, Nat.add_comm 1]
        next full => rw [bind_none, if_neg (by rw [length_cons]; omega)]
    · simp only [splitLoop, laterWords, if_neg blank] at same loop ⊢
      exact ⟨args, same, loop⟩

theorem unquote_plain {line : List UInt8} (plain : 0 ∉ line) : 0 ∉ unquote line := by
  intro member
  obtain ⟨c, present, same⟩ := List.mem_map.mp member
  split at same
  next => cases same
  next => exact plain (same ▸ present)

def BeginsWord (line : List UInt8) : Prop := wordStarts (unquote line) = true ∧ (words line).length ≤ 16

theorem mini_crt_entry_words_iff (line : List UInt8) (plain : 0 ∉ line) : ArgvRight line ↔ BeginsWord line := by
  obtain ⟨args, same, loop⟩ := splitLoop_words (unquote line) [] (unquote_plain plain)
  have first := cString_cut [] (unquote line) (unquote_plain plain)
  rw [length_nil, nil_append] at first
  rw [nil_append] at same loop
  have count := congrArg List.length same
  rw [length_map] at count
  unfold ArgvRight BeginsWord
  rw [miniCrtEntry, loop [0] (by decide), words_cut, firstWord]
  simp only [length_singleton, singleton_append]
  cases starts : wordStarts (unquote line) with
  | false =>
    refine iff_of_false ?_ (fun both => Bool.false_ne_true both.1)
    rintro ⟨mem, argv, result, right⟩
    split at result
    next =>
      cases result
      have lengths := congrArg List.length right
      simp [← same] at lengths
    next => cases result
  | true =>
    simp only [if_true, singleton_append, length_cons, true_and]
    constructor
    · rintro ⟨mem, argv, result, right⟩
      split at result
      next fits => omega
      next => cases result
    · intro fits
      exact ⟨_, _, if_pos (by omega), by rw [map_cons, first, same]⟩

theorem mini_crt_entry_words_ok : ArgvRight [97, 34, 98] ↔ BeginsWord [97, 34, 98] := mini_crt_entry_words_iff _ (by decide)

/-- The quote in front of the program's name makes an empty word. -/
theorem mini_crt_entry_quoted : ¬ ArgvRight [34, 97, 34] := by
  rintro ⟨mem, argv, result, right⟩
  cases result
  revert right
  decide

variable {program : Program} {nodes : Nat → Option FuncNode} {blocks : List Nat} {rs rest : List Registration} {s : Exit} {p ptr : Nat}

inductive Chain (nodes : Nat → Option FuncNode) : List Nat → Nat → List Registration → Prop
  | nil {blocks : List Nat} : Chain nodes blocks 0 []
  | cons {blocks : List Nat} {p : Nat} {rest : List Registration} {node : FuncNode} : p ∈ blocks → p ≠ 0 → nodes p = some node →
      Chain nodes (blocks.erase p) node.next rest → Chain nodes blocks p (node.registration :: rest)

theorem Chain.update (chain : Chain nodes blocks p rest) (fresh : ptr ∉ blocks) (node : FuncNode) :
    Chain (Function.update nodes ptr (some node)) blocks p rest := by
  induction chain with
  | nil => exact .nil
  | cons member present held _ ih =>
    have other : _ ≠ ptr := fun same => fresh (same ▸ member)
    exact .cons member present (by rwa [Function.update_of_ne other]) (ih fun inside => fresh (mem_of_mem_erase inside))

theorem Chain.more (chain : Chain nodes blocks p rest) (fresh : ptr ∉ blocks) : Chain nodes (ptr :: blocks) p rest := by
  induction chain with
  | nil => exact .nil
  | cons member present held _ ih =>
    refine .cons (mem_cons_of_mem _ member) present held ?_
    rw [erase_cons_tail (by simpa using fun same : ptr = _ => fresh (same ▸ member))]
    exact ih fun inside => fresh (mem_of_mem_erase inside)

def owed : Events → Int
  | [] => 0
  | .register _ _ :: events => owed events + 1
  | .call _ :: events => owed events - 1
  | _ :: events => owed events

theorem owed_le (events : Events) : owed events ≤ events.length := by
  induction events with
  | nil => exact Int.le_refl 0
  | cons event events ih => cases event <;> simp only [owed, length_cons] <;> omega

theorem pending_owed {events : Events} (asked : pending events = some rs) : owed events = rs.length := by
  induction events generalizing rs with
  | nil =>
    cases asked
    rfl
  | cons event events ih =>
    cases event with
    | register r node =>
      obtain ⟨before, earlier, rfl⟩ := map_eq_some_iff.mp asked
      rw [owed, ih earlier, length_cons]
      omega
    | call r =>
      obtain ⟨before, earlier, called⟩ := bind_eq_some_iff.mp asked
      cases before with
      | nil => cases called
      | cons latest before =>
        split at called
        next =>
          cases called
          rw [owed, ih earlier, length_cons, tail_cons]
          omega
        next => cases called
    | free node => exact ih asked
    | next node => exact ih asked

theorem register_eq (r : Registration) (ok : r.func ≠ 0) (made : program.malloc s.events ≠ 0) :
    ∃ node : FuncNode, node.next = s.atexitList ∧ node.registration = r ∧ register program s r =
      ⟨program.malloc s.events, Function.update s.nodes (program.malloc s.events) (some node), .register r (program.malloc s.events) :: s.events⟩ := by
  cases r with
  | atexit func =>
    have present : func ≠ 0 := ok
    exact ⟨_, rfl, rfl, by simp only [register, registerAtexit, if_neg present, if_neg made]; rfl⟩
  | cxaAtexit func arg =>
    have present : func ≠ 0 := ok
    exact ⟨_, rfl, rfl, by simp only [register, registerAtexit, if_neg present, if_neg made]; rfl⟩

structure Registered (rs : List Registration) (s t : Exit) : Prop where
  distinct : (live t.events).Nodup
  asked : pending t.events = (pending s.events).map (rs.reverse ++ ·)
  owed : owed t.events = owed s.events + rs.length
  links : LinksLive t.events ↔ LinksLive s.events
  keeps : ∀ p rest, Chain s.nodes (live s.events) p rest → Chain t.nodes (live t.events) p rest
  front : ∀ rest, Chain s.nodes (live s.events) s.atexitList rest → Chain t.nodes (live t.events) t.atexitList (rs.reverse ++ rest)

theorem registers_spec (fresh : ∀ events, program.malloc events ≠ 0 ∧ program.malloc events ∉ live events) (ok : ∀ r ∈ rs, r.func ≠ 0)
    (distinct : (live s.events).Nodup) : Registered rs s (rs.foldl (register program) s) := by
  induction rs generalizing s with
  | nil => exact ⟨distinct, by simp, by simp, Iff.rfl, fun _ _ chain => chain, fun _ chain => chain⟩
  | cons r rs ih =>
    obtain ⟨some, unused⟩ := fresh s.events
    obtain ⟨node, next, rfl, done⟩ := register_eq r (ok r mem_cons_self) some
    have onward := @ih (register program s node.registration) (fun r member => ok r (mem_cons_of_mem _ member))
    rw [foldl_cons]
    rw [done] at onward ⊢
    obtain ⟨distinct', asked, owed', links, keeps, front⟩ := onward (nodup_cons.mpr ⟨unused, distinct⟩)
    refine ⟨distinct', ?_, ?_, links, fun p rest chain => keeps p rest ((chain.update unused node).more unused), fun rest chain => ?_⟩
    · rw [asked, pending, Option.map_map]
      simp [Function.comp_def]
    · rw [owed', owed, length_cons]
      omega
    · rw [reverse_cons, append_assoc]
      refine front _ (.cons mem_cons_self some (Function.update_self _ _ _) ?_)
      rw [live, erase_cons_head, next]
      exact chain.update unused node

/-- The walk calls the handlers of the nodes that were there, and frees each node before it reads the link. -/
theorem exitLoop_spec (ok : Successful program rs) (calls : List Registration) (fuel : Nat) (distinct : (live s.events).Nodup)
    (chain : Chain s.nodes (live s.events) p rest) (enough : rest.length < fuel) :
    ∃ t, exitLoop program fuel calls s p = some t ∧ (LinksLive t.events ↔ rest = [] ∧ LinksLive s.events) ∧
      owed s.events ≤ owed t.events + rest.length ∧ (owed s.events = owed t.events + rest.length → QuietFrom program calls rest) ∧
      (QuietFrom program calls rest → pending s.events = some rest → pending t.events = some []) := by
  obtain ⟨fuel, rfl⟩ : ∃ less, fuel = less + 1 := ⟨fuel - 1, by omega⟩
  induction rest generalizing s p calls fuel with
  | nil =>
    cases chain
    exact ⟨{ s with atexitList := 0 }, if_pos rfl, by simp, by simp, fun _ => trivial, fun _ same => same⟩
  | cons r rest ih =>
    rw [length_cons] at enough
    obtain ⟨fuel, rfl⟩ : ∃ less, fuel = less + 1 := ⟨fuel - 1, by omega⟩
    cases chain with
    | @cons _ _ _ node member present held chain =>
      have spec := @registers_spec program (program.body (calls ++ [node.registration]))
        { s with events := .call node.registration :: s.events } ok.fresh (ok.later _) distinct
      have walk := spec.keeps p _ (.cons member present held chain)
      have owes := spec.owed
      rw [exitLoop, if_neg present, held, bind_some]
      generalize eq : (program.body (calls ++ [node.registration])).foldl _ _ = u at spec walk owes
      simp only [eq]
      generalize same : node.registration = r at walk owes ⊢
      cases walk with
      | @cons _ _ _ other member _ held chain =>
        rw [held, bind_some]
        obtain ⟨t, done, links, most, even, quiet⟩ := @ih { u with events := .next p :: .free p :: u.events } other.next
          (calls ++ [other.registration]) (spec.distinct.erase p) chain fuel (by omega)
        refine ⟨t, done, ?_, ?_, ?_, ?_⟩
        · refine links.trans (iff_of_false (fun both => spec.distinct.not_mem_erase both.2.1) (by simp))
        · simp only [owed, length_cons] at most owes ⊢
          omega
        · intro all
          simp only [owed, length_cons] at most owes all even
          exact ⟨eq_nil_of_length_eq_zero (by omega), even (by omega)⟩
        · rintro ⟨nothing, others⟩ asked
          refine quiet others ?_
          have now := spec.asked
          rw [same, nothing] at now
          simpa [pending, asked] using now

/-- Every handler is called once, the latest first, if and only if no handler registers another one.
No link of a freed node is followed if and only if there is no handler at all. -/
theorem exit_handlers_iff (rs : List Registration) (ok : Successful program rs) :
    ∃ s, exitRun program rs = some s ∧ (pending s.events = some [] ∧ LinksLive s.events ↔ rs = []) ∧
      (pending s.events = some [] ↔ Quiet program rs) ∧ (LinksLive s.events ↔ rs = []) := by
  obtain ⟨distinct, asked, owes, links, -, front⟩ :=
    @registers_spec program rs ⟨0, fun _ => none, []⟩ ok.fresh ok.some nodup_nil
  have chain := front [] .nil
  have bound := owed_le (rs.foldl (register program) ⟨0, fun _ => none, []⟩).events
  rw [exitRun, miniCrtCallExitRoutine]
  generalize rs.foldl (register program) ⟨0, fun _ => none, []⟩ = s at *
  simp only [pending, owed, map_some, append_nil] at asked owes chain
  obtain ⟨t, done, follows, most, even, quiet⟩ := exitLoop_spec ok [] (s.events.length + 1) distinct chain
    (by rw [length_reverse]; omega)
  rw [length_reverse] at even
  have called : pending t.events = some [] ↔ Quiet program rs := by
    refine ⟨fun all => even ?_, fun none => quiet none asked⟩
    rw [owes, pending_owed all, length_nil]
    omega
  have linked : LinksLive t.events ↔ rs = [] := by
    rw [follows, links, reverse_eq_nil_iff]
    exact and_iff_left trivial
  refine ⟨t, done, ?_, called, linked⟩
  rw [linked, called]
  exact ⟨And.right, fun none => ⟨none ▸ trivial, none⟩⟩

def twoHandlers : Program :=
  ⟨fun events => (live events).foldr max 0 + 56, fun calls => if calls.getLast? = some (.atexit 2) then [.atexit 3] else []⟩

theorem le_highest {block : Nat} {blocks : List Nat} (member : block ∈ blocks) : block ≤ blocks.foldr max 0 := by
  induction blocks with
  | nil => cases member
  | cons other blocks ih =>
    rw [foldr_cons]
    obtain rfl | member := mem_cons.mp member
    · exact Nat.le_max_left _ _
    · exact Nat.le_trans (ih member) (Nat.le_max_right _ _)

theorem twoHandlers_successful : Successful twoHandlers [.atexit 1, .atexit 2] := by
  refine ⟨by decide, fun calls r member => ?_, fun events => ⟨Nat.succ_ne_zero _, fun used => ?_⟩⟩
  · simp only [twoHandlers] at member
    split at member
    next =>
      cases mem_singleton.mp member
      decide
    next => cases member
  · have low := le_highest used
    simp only [twoHandlers] at low
    omega

theorem exit_handlers_two : ∃ s, exitRun twoHandlers [.atexit 1, .atexit 2] = some s ∧
    (pending s.events = some [] ∧ LinksLive s.events ↔ [Registration.atexit 1, .atexit 2] = []) ∧
    (pending s.events = some [] ↔ Quiet twoHandlers [.atexit 1, .atexit 2]) ∧
    (LinksLive s.events ↔ [Registration.atexit 1, .atexit 2] = []) :=
  exit_handlers_iff _ twoHandlers_successful

/-- The handler 3 is never called, and the link of a node is read when it was freed. -/
theorem exit_handlers_lost : ∃ s, exitRun twoHandlers [.atexit 1, .atexit 2] = some s ∧
    .call (.atexit 3) ∉ s.events ∧ pending s.events ≠ some [] ∧ ¬ LinksLive s.events := by
  refine ⟨_, rfl, by decide, by decide, ?_⟩
  intro links
  exact absurd (And.left links) (by decide)

end Cplusplus.Minicrt
