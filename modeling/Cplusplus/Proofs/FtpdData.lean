import Cplusplus.FtpdData
import Cplusplus.Proofs.IntegerText
import Mathlib.Order.Lattice.Nat

/-! The argument of PORT: which texts are accepted, and what is made of their fields. -/

namespace Cplusplus.Ftpd

section
open List Decimal Redis.CheckAof Redis.CommandKeys

theorem strtolSign_comma (text rest : List UInt8) :
    strtolSign (text ++ 44 :: rest) = ((strtolSign text).1, (strtolSign text).2 ++ 44 :: rest) := by
  cases text with
  | nil => rfl
  | cons c text =>
    simp only [cons_append, strtolSign]
    split
    · rfl
    · split <;> rfl

/-- A number ends at the comma. -/
theorem strtol_comma (text rest : List UInt8) : (strtol (text ++ 44 :: rest)).1 = (strtol text).1 := by
  have blanks : (text ++ 44 :: rest).dropWhile isspace = text.dropWhile isspace ++ 44 :: rest := by
    rw [dropWhile_append]
    split
    next none => rw [isEmpty_iff.mp none, nil_append]; rfl
    next => rfl
  have digits : ∀ text : List UInt8, (text ++ 44 :: rest).takeWhile Redis.isDigit = text.takeWhile Redis.isDigit := by
    intro text
    rw [takeWhile_append]
    split
    next all =>
      rw [show (44 :: rest).takeWhile Redis.isDigit = [] from rfl, append_nil]
      exact (( takeWhile_prefix _).eq_of_length all).symm
    next => rfl
  simp only [strtol, blanks, strtolSign_comma, digits]
  split <;> rfl

theorem portByte_comma (field rest : List UInt8) : portByte (field ++ 44 :: rest) = portByte field := by
  rw [portByte, portByte, atoi, atoi, strtol_comma]

theorem portByte_decimal (c : UInt8) : portByte (decimal c.toNat) = c := by
  have small := c.toNat_lt
  have value := digitsValue_decimal c.toNat
  have number := @strtol_digits _ [] (decimal_digits c.toNat) (decimal_ne_nil _) (by simp) (by omega)
  rw [append_nil, value] at number
  rw [portByte, atoi, number, BitVec.toInt_ofInt, Int.bmod_eq_of_le (by omega) (by omega)]
  apply UInt8.toNat_inj.mp
  rw [UInt8.ofInt, UInt8.toNat_ofNat']
  omega

theorem portLoop_fields (cmd buff : List UInt8) {left cp : Nat} (inside : cp ≤ cmd.length) :
    portLoop cmd left cp buff = some (if left ≤ ((cmd.drop cp).splitOn 44).length then
      some (buff ++ (((cmd.drop cp).splitOn 44).take left).map portByte) else none) := by
  induction left generalizing cp buff with
  | zero => simp [portLoop]
  | succ left ih =>
    rw [portLoop, if_neg (by omega), strchr, if_neg (by omega), Option.bind_some]
    by_cases comma : 44 ∈ cmd.drop cp
    · obtain ⟨field, rest, text, absent⟩ := eq_append_cons_of_mem comma
      have place : (cmd.drop cp).idxOf 44 = field.length := by
        rw [text, idxOf_append, if_neg absent, idxOf_cons_self, Nat.zero_add]
      have after : cmd.drop (cp + field.length + 1) = rest := by
        rw [Nat.add_assoc, ← drop_drop, text]
        simp
      have fields : (field ++ 44 :: rest).splitOn 44 = field :: rest.splitOn 44 := by
        rw [splitOn_eq_splitOnP, splitOn_eq_splitOnP]
        exact splitOnP_append_cons_of_forall_mem (fun c member => beq_false_of_ne (by rintro rfl; exact absent member)) 44 rfl rest
      have bound := congrArg List.length text
      rw [length_drop, length_append, length_cons] at bound
      simp only [if_pos comma, place]
      rw [ih _ (by omega), after, text, fields, portByte_comma]
      simp
    · have single : (cmd.drop cp).splitOn 44 = [cmd.drop cp] :=
        splitOn_eq_singleton_of_beq_eq_false fun c member => beq_false_of_ne (by rintro rfl; exact comma member)
      simp only [if_neg comma, single, length_singleton]
      cases left with
      | zero => simp
      | succ left => rw [if_pos (by omega), if_neg (by omega)]

/-- No byte behind the command is read. What is accepted, with which bytes, is a matter of the fields;
six decimal numbers below 256 give just these bytes. -/
theorem ftpd_get_port_mode_ipport_fields (cmd : List UInt8) :
    ftpdGetPortModeIpport cmd = some (acceptedPort cmd) ∧
      ∀ fields, SixNumbers cmd fields → acceptedPort cmd = some (fields.take 4, fields.drop 4) := by
  constructor
  · rw [ftpdGetPortModeIpport, strchr, if_neg (by omega), Option.bind_some, acceptedPort, argumentText, drop_zero, Nat.zero_add]
    by_cases blank : 32 ∈ cmd
    · have inside := idxOf_lt_length_iff.mpr blank
      simp only [if_pos blank, portLoop_fields cmd [] (by omega : cmd.idxOf 32 + 1 ≤ cmd.length), Option.map_some, Option.bind_some,
        nil_append]
      split
      · simp only [Option.map_some, ← map_take, ← map_drop, take_take, drop_take]
        rfl
      · rfl
    · simp only [if_neg blank, Option.bind_none]
  · rintro fields ⟨six, same⟩
    have split : ([44].intercalate (fields.map fun field => decimal field.toNat)).splitOn 44 = fields.map fun field => decimal field.toNat := by
      refine splitOn_intercalate 44 ?_ (by simpa using ne_nil_of_length_pos (by omega))
      intro text member
      obtain ⟨field, -, rfl⟩ := mem_map.mp member
      intro comma
      exact absurd (decimal_between _ _ comma).1 (by decide)
    have bytes : ∀ texts : List UInt8, (texts.map fun field => decimal field.toNat).map portByte = texts := by
      intro texts
      rw [map_map]
      exact (map_congr_left fun c _ => portByte_decimal c).trans (map_id _)
    rw [acceptedPort, same, Option.bind_some, split]
    simp only [length_map, six, le_refl, if_true, ← map_take, ← map_drop, bytes]
    rw [take_of_length_le (l := fields.drop 4) (by rw [length_drop, six])]

/-- PORT with five commas and nothing else. -/
theorem ftpd_get_port_mode_ipport_commas :
    ftpdGetPortModeIpport [80, 79, 82, 84, 32, 44, 44, 44, 44, 44] = some (some ([0, 0, 0, 0], [0, 0])) ∧
      ¬ ∃ fields, SixNumbers [80, 79, 82, 84, 32, 44, 44, 44, 44, 44] fields := by
  refine ⟨by decide, ?_⟩
  rintro ⟨fields, six, same⟩
  cases fields with
  | nil => cases six
  | cons first fields =>
    cases number : decimal first.toNat with
    | nil => exact decimal_ne_nil _ number
    | cons c digits =>
      have low := (decimal_between first.toNat c (number ▸ mem_cons_self)).1
      rw [show argumentText [80, 79, 82, 84, 32, 44, 44, 44, 44, 44] = some [44, 44, 44, 44, 44] from rfl] at same
      cases fields <;> simp [number, intercalate] at same <;> simp [← same.1] at low

end

/-! The listing of a directory stays in its buffer as long as its lines fit. -/

section
open List

variable {len : UInt64} {base off : Int}

def prints (base : Int) (len : UInt64) : Int → List (List UInt8) → List Print
  | _, [] => []
  | off, text :: texts => ⟨base + off, UInt64.ofInt (len.toNat - off), text⟩ :: prints base len (off + text.length) texts

theorem getFileInfo_eq (file : Dirent) (base : Int) (len : UInt64) :
    getFileInfo file base len = (prints base len 0 file.pieces, file.advance) := by
  unfold getFileInfo Dirent.advance Dirent.width Dirent.examined Dirent.pieces
  cases file.stat with
  | none => rfl
  | some st =>
    obtain ⟨mode, user, group, size, time⟩ := st
    cases user with
    | none => rfl
    | some user =>
      cases group with
      | none => rfl
      | some group =>
        cases time with
        | none => rfl
        | some time => simp [snprintf, prints, Int.add_assoc]

theorem size_toNat (low : 0 ≤ off) (high : off ≤ len.toNat) : ((UInt64.ofInt (len.toNat - off)).toNat : Int) = len.toNat - off := by
  have bound := len.toNat_lt
  rw [UInt64.ofInt, UInt64.toNat_ofNat']
  omega

/-- The calls stay inside if and only if the last one does. -/
theorem prints_inside_iff (texts : List (List UInt8)) (baseLow : 0 ≤ base) (low : 0 ≤ off) (room : UInt64) (size : (room.toNat : Int) = len.toNat - base) :
    (∀ call ∈ prints base room off texts, call.Inside len) ↔ (texts = [] ∨ base + off + (texts.map length).sum < len.toNat) := by
  induction texts generalizing off with
  | nil => simp [prints]
  | cons text texts ih =>
    rw [prints, forall_mem_cons, ih (by omega), map_cons, sum_cons]
    have first : (⟨base + off, UInt64.ofInt (room.toNat - off), text⟩ : Print).Inside len ↔ base + off + text.length < len.toNat := by
      unfold Print.Inside
      simp only
      constructor
      · rintro ⟨_, _, same, short⟩
        omega
      · intro short
        have left := @size_toNat room off low (by omega)
        omega
    rw [first]
    cases texts with
    | nil => simp
    | cons next texts =>
      simp only [reduceCtorEq, false_or, map_cons, sum_cons]
      omega

theorem listLoop_shown (dir : List Dirent) (calls : List Print) (off : Int) :
    listLoop len dir calls off = listLoop len (shown dir) calls off := by
  induction dir generalizing calls off with
  | nil => rfl
  | cons file dir ih =>
    by_cases hidden : file.name.head? = some 46
    · rw [shown, filter_cons_of_neg (by simpa using hidden), listLoop, if_pos hidden]
      exact ih calls off
    · rw [shown, filter_cons_of_pos (by simpa using hidden), listLoop, if_neg hidden, listLoop, if_neg hidden]
      exact ih _ _

theorem Dirent.pieces_width (file : Dirent) : file.pieces = [] ∧ file.advance = -1 ∨ file.pieces ≠ [] ∧ file.width ≠ 0 := by
  unfold Dirent.width Dirent.advance Dirent.examined Dirent.pieces
  cases file.stat with
  | none => exact .inl ⟨rfl, rfl⟩
  | some st => exact .inr ⟨cons_ne_nil _ _, by simp [modeText]⟩

theorem split_cons {α : Type} {P : List α → α → Prop} (x : α) (xs : List α) : (∀ before y after, x :: xs = before ++ y :: after → P before y) ↔
      P [] x ∧ ∀ before y after, xs = before ++ y :: after → P (x :: before) y := by
  constructor
  · exact fun all => ⟨all [] x xs rfl, fun before y after same => all (x :: before) y after (by rw [same, cons_append])⟩
  · rintro ⟨first, others⟩ before y after same
    cases before with
    | nil =>
      cases same
      exact first
    | cons z before =>
      cases same
      exact others before y after rfl

/-- The calls for one entry stay inside exactly when it fits, unless there are none. -/
theorem entry_inside_iff (file : Dirent) (after : 0 ≤ off + file.advance) :
    (∀ call ∈ prints off (UInt64.ofInt (len.toNat - off)) 0 file.pieces, call.Inside len) ↔
      0 ≤ off ∧ (file.width ≠ 0 → off + file.width < (len.toNat : Int)) := by
  obtain ⟨none, back⟩ | ⟨pieces, width⟩ := file.pieces_width
  · rw [none, Dirent.width, none]
    simp only [prints, not_mem_nil, false_imp_iff, implies_true, map_nil, sum_nil, ne_eq, not_true, and_true, true_iff]
    omega
  · have exactly := fun low : 0 ≤ off ∧ off ≤ len.toNat =>
      prints_inside_iff file.pieces low.1 (le_refl 0) _ (size_toNat low.1 low.2)
    simp only [pieces, false_or, Int.add_zero, show (file.pieces.map length).sum = file.width from rfl] at exactly
    rw [forall_prop_of_true width]
    constructor
    · intro inside
      obtain ⟨text, texts, cut⟩ := exists_cons_of_ne_nil pieces
      have first := inside ⟨off + 0, UInt64.ofInt ((UInt64.ofInt (len.toNat - off)).toNat - 0), text⟩ (by rw [cut, prints]; exact mem_cons_self)
      have low : 0 ≤ off ∧ off ≤ len.toNat := ⟨by simpa using first.1, by simpa using first.2.1⟩
      exact ⟨low.1, (exactly low).mp inside⟩
    · rintro ⟨low, short⟩
      exact (exactly ⟨low, by omega⟩).mpr short

theorem advances_cons (file : Dirent) (files : List Dirent) : advances (file :: files) = file.advance + advances files := rfl

/-- The same loop over entries that are all shown. -/
theorem listLoop_inside_iff (files : List Dirent) (visible : ∀ file ∈ files, file.name.head? ≠ some 46) (calls : List Print) (off : Int) :
    ((∀ call ∈ (listLoop len files calls off).1, call.Inside len) ∧ 0 ≤ (listLoop len files calls off).2 ∧
        (listLoop len files calls off).2 ≤ len.toNat) ↔
      (∀ call ∈ calls, call.Inside len) ∧ (∀ before file after, files = before ++ file :: after →
          0 ≤ off + advances before ∧ (file.width ≠ 0 → off + advances before + file.width < (len.toNat : Int))) ∧
        0 ≤ off + advances files ∧ off + advances files ≤ len.toNat := by
  induction files generalizing calls off with
  | nil => simp [listLoop, advances]
  | cons file files ih =>
    obtain ⟨here, visible⟩ := forall_mem_cons.mp visible
    rw [listLoop, if_neg here, getFileInfo_eq, ih visible, forall_mem_append, split_cons]
    simp only [advances_cons, ← Int.add_assoc, and_assoc, show advances [] = 0 from rfl, Int.add_zero]
    refine and_congr_right fun _ => ?_
    constructor
    · rintro ⟨inside, others, low, high⟩
      have after : 0 ≤ off + file.advance := by
        cases files with
        | nil => simpa [advances] using low
        | cons next files => simpa [advances] using (others [] next files rfl).1
      obtain ⟨start, short⟩ := (entry_inside_iff file after).mp inside
      exact ⟨start, short, others, low, high⟩
    · rintro ⟨start, short, others, low, high⟩
      have after : 0 ≤ off + file.advance := by
        cases files with
        | nil => simpa [advances] using low
        | cons next files => simpa [advances] using (others [] next files rfl).1
      exact ⟨(entry_inside_iff file after).mpr ⟨start, short⟩, others, low, high⟩

/-- The listing stays in its buffer if and only if its lines fit. -/
theorem ftpd_list_inside_iff (dir : List Dirent) (len : UInt64) : ListsInside dir len ↔ Fits len (shown dir) := by
  have visible : ∀ file ∈ shown dir, file.name.head? ≠ some 46 := fun file member => by simpa using (mem_filter.mp member).2
  unfold ListsInside Fits ftpdGetListStuff
  rw [listLoop_shown, listLoop_inside_iff _ visible]
  simp only [not_mem_nil, false_imp_iff, implies_true, true_and, Int.zero_add]

/-- The first entry cannot be examined: the line of the second one begins in front of the buffer. -/
theorem ftpd_list_before_buffer :
    ¬ ListsInside [⟨[97], none⟩, ⟨[98], some ⟨0o100644, some [114], some [114], 5, some [32]⟩⟩] 8192 := by
  rintro ⟨inside, -⟩
  have first := inside ⟨-1, 8193, modeText 0o100644⟩ (Mem.head _)
  exact absurd first.1 (by decide)

end

/-! A transfer obtains the connection of a PASV command, and never that of a PORT command. -/

section
variable {descriptors : Descriptors} {table rest : OpenFiles} {s : Data} {done : List DataCommand} {fd other : Int} {channel : Channel}

theorem unset : (-1 : Int) < 0 := by decide

theorem not_set : ¬ (0 : Int) ≤ -1 := by decide

def Usable (table : OpenFiles) (fd : Int) (kind : Nat → Channel) : Prop := fd < 0 ∨ ∃ n, table.lookup fd = some (kind n)

variable {kind : Nat → Channel}

theorem closeFd_usable (usable : Usable table fd kind) :
    ∃ rest, closeFd table fd = some rest ∧ ∀ other, (0 ≤ fd → other ≠ fd) → rest.lookup other = table.lookup other := by
  unfold closeFd
  by_cases set : 0 ≤ fd
  · obtain unset | ⟨n, found⟩ := usable
    · exact absurd set (by omega)
    · have present : fd ∈ table := Finmap.mem_of_lookup_eq_some found
      exact ⟨table.erase fd, by rw [if_pos set, if_pos present], fun other differs => Finmap.lookup_erase_ne (differs set)⟩
  · exact ⟨table, if_neg set, fun _ _ => rfl⟩

/-- A new descriptor is different from those in use. -/
theorem fresh_ne (found : table.lookup other = some channel) : other ≠ (descriptors table).1 := by
  intro same
  exact (descriptors table).2.2 (same ▸ Finmap.mem_of_lookup_eq_some found)

theorem lookup_new (found : table.lookup other = some channel) (new : Channel) :
    (table.insert (descriptors table).1 new).lookup other = some channel := by
  rw [Finmap.lookup_insert_of_ne _ (fresh_ne found), found]

structure Kept (s : Data) (done : List DataCommand) : Prop where
  connfd : s.pasvConnfd = -1
  pasv : Usable s.table s.pasvFd .listener
  port : Usable s.table s.portFd .connected
  expects : ∀ n, expected done = some (.accepted n) → 0 ≤ s.pasvFd ∧ s.table.lookup s.pasvFd = some (.listener n)

theorem Kept.apart (kept : Kept s done) (pasv : 0 ≤ s.pasvFd) (_ : 0 ≤ s.portFd) : s.pasvFd ≠ s.portFd := by
  intro same
  obtain unset | ⟨n, listens⟩ := kept.pasv
  · omega
  · obtain unset | ⟨m, connected⟩ := kept.port
    · omega
    · rw [same, connected] at listens
      cases listens

theorem Usable.insert (usable : Usable table fd kind) (new : Channel) : Usable (table.insert (descriptors table).1 new) fd kind :=
  usable.imp_right fun ⟨n, found⟩ => ⟨n, lookup_new found new⟩

/-- Closing a descriptor leaves the other ones alone. -/
theorem Usable.closed (usable : Usable table fd kind) (same : ∀ fd, (0 ≤ other → fd ≠ other) → rest.lookup fd = table.lookup fd)
    (apart : 0 ≤ fd → 0 ≤ other → fd ≠ other) : Usable rest fd kind := by
  by_cases set : 0 ≤ fd
  · exact usable.imp_right fun ⟨n, found⟩ => ⟨n, by rw [same fd (apart set), found]⟩
  · exact .inl (by omega)

theorem pasv_kept (kept : Kept s done) : ∃ t, ftpdDoPasv descriptors done.length s = some t ∧ Kept t (.pasv :: done) := by
  obtain ⟨rest, closed, same⟩ := closeFd_usable kept.pasv
  have listens : (rest.insert (descriptors rest).1 (.listener done.length)).lookup (descriptors rest).1 = some (.listener done.length) :=
    Finmap.lookup_insert _
  refine ⟨{ s with table := rest.insert (descriptors rest).1 (.listener done.length), pasvFd := (descriptors rest).1 },
    by rw [ftpdDoPasv, closed, Option.map_some], kept.connfd, .inr ⟨_, listens⟩,
    (kept.port.closed same fun port pasv => (kept.apart pasv port).symm).insert _, fun n asked => ⟨(descriptors rest).2.1, ?_⟩⟩
  cases asked
  exact listens

theorem port_kept (cmd : List UInt8) (kept : Kept s done) :
    ∃ t, ftpdDoPort descriptors done.length cmd s = some t ∧ Kept t (.port cmd :: done) := by
  obtain ⟨rest, closed, same⟩ := closeFd_usable kept.port
  have pasv := kept.pasv.closed same kept.apart
  rw [ftpdDoPort, closed, Option.bind_some]
  simp only
  cases accepted : portAccepted cmd with
  | true =>
    rw [if_pos rfl, Finmap.insert_insert]
    refine ⟨_, rfl, kept.connfd, pasv.insert _, .inr ⟨_, Finmap.lookup_insert _⟩, fun n asked => ?_⟩
    rw [expected, accepted, if_pos rfl] at asked
    cases asked
  | false =>
    have opened : Usable (rest.insert (descriptors rest).1 (.unconnected done.length)) (descriptors rest).1 .unconnected :=
      .inr ⟨_, Finmap.lookup_insert _⟩
    obtain ⟨last, gone, others⟩ := closeFd_usable opened
    rw [if_neg Bool.false_ne_true, gone]
    refine ⟨_, rfl, kept.connfd, (pasv.insert _).closed others fun set _ => ?_, .inl unset, fun n asked => ?_⟩
    · obtain unset | ⟨m, found⟩ := pasv
      · omega
      · exact fresh_ne found
    · rw [expected, accepted, if_neg Bool.false_ne_true] at asked
      cases asked

theorem closeAll_kept (asks : Bool) (pasv : Usable s.table s.pasvFd .listener)
    (connfd : Usable s.table s.pasvConnfd kind) (port : Usable s.table s.portFd .connected)
    (apart : 0 ≤ s.pasvFd → 0 ≤ s.pasvConnfd → s.pasvFd ≠ s.pasvConnfd) (pasvPort : 0 ≤ s.pasvFd → 0 ≤ s.portFd → s.pasvFd ≠ s.portFd)
    (connfdPort : 0 ≤ s.pasvConnfd → 0 ≤ s.portFd → s.pasvConnfd ≠ s.portFd) :
    ∃ t, ftpdCloseAllFds s = some t ∧ Kept t (.transfer asks :: done) := by
  obtain ⟨first, closed, same⟩ := closeFd_usable pasv
  obtain ⟨second, closed', same'⟩ := closeFd_usable (connfd.closed same fun one two => (apart two one).symm)
  have left := (port.closed same fun one two => (pasvPort two one).symm).closed same' fun one two => (connfdPort two one).symm
  obtain ⟨third, closed'', -⟩ := closeFd_usable left
  exact ⟨⟨third, -1, -1, -1⟩, by rw [ftpdCloseAllFds, closed, Option.bind_some, closed', Option.bind_some, closed'', Option.map_some],
    rfl, .inl unset, .inl unset, fun n asked => by cases asked⟩

/-- A transfer that asks obtains a connection of the passive socket, if there is one. -/
theorem connfd_spec (kept : Kept s done) : ∃ t got, ftpdGetConnfd descriptors s = some (t, got) ∧
    (∃ u, ftpdCloseAllFds t = some u ∧ Kept u (.transfer true :: done)) ∧ (∀ n, got ≠ some (.connected n)) ∧
    ∀ n, expected done = some (.accepted n) → got = some (.accepted n) := by
  by_cases set : 0 ≤ s.pasvFd
  · obtain unset | ⟨n, listens⟩ := kept.pasv
    · omega
    · have usable : Usable (s.table.insert (descriptors s.table).1 (.accepted n)) s.pasvFd .listener := .inr ⟨n, lookup_new listens _⟩
      obtain ⟨rest, closed, same⟩ := closeFd_usable usable
      have differs := @fresh_ne descriptors _ _ _ listens
      have got : rest.lookup (descriptors s.table).1 = some (.accepted n) := (same _ fun _ => differs.symm).trans (Finmap.lookup_insert _)
      have port : Usable rest s.portFd .connected := (kept.port.insert _).closed same fun one two => (kept.apart two one).symm
      refine ⟨⟨rest, -1, (descriptors s.table).1, s.portFd⟩, some (.accepted n), ?_, ?_, fun m => by simp, fun m asked => ?_⟩
      · simp only [ftpdGetConnfd, if_pos set, listens, closed, Option.map_some]
      · refine closeAll_kept true (.inl unset) (.inr ⟨n, got⟩) port (fun no => absurd no not_set) (fun no => absurd no not_set)
          fun _ some => ?_
        obtain unset | ⟨m, connected⟩ := port
        · exact absurd some (by simpa using unset)
        · intro equal
          rw [← equal, got] at connected
          cases connected
      · rw [(kept.expects m asked).2] at listens
        cases listens
        rfl
  · refine ⟨s, none, ?_, @closeAll_kept s done .accepted true kept.pasv (.inl (kept.connfd ▸ unset)) kept.port
      (fun no => absurd no set) kept.apart (fun no => absurd no (kept.connfd ▸ not_set)), fun n => by simp, fun n asked => ?_⟩
    · rw [ftpdGetConnfd, if_neg set, if_neg (kept.connfd ▸ not_set)]
    · exact absurd (kept.expects n asked).1 set

theorem expected_kinds (done : List DataCommand) :
    expected done = none ∨ (∃ n, expected done = some (.accepted n)) ∨ ∃ n, expected done = some (.connected n) := by
  induction done with
  | nil => exact .inl rfl
  | cons c done ih =>
    cases c with
    | pasv => exact .inr (.inl ⟨_, rfl⟩)
    | port cmd =>
      rw [expected]
      split
      · exact .inr (.inr ⟨_, rfl⟩)
      · exact .inl rfl
    | transfer asks => exact .inl rfl
    | other => exact ih

theorem step_kept (kept : Kept s done) (c : DataCommand) : ∃ t got, step descriptors done.length s c = some (t, got) ∧ Kept t (c :: done) ∧
    ((c = .transfer true → expected done = none ∨ got = expected done) ↔ (c = .transfer true → ∀ n, expected done ≠ some (.connected n))) := by
  have trivially : ∀ {P Q : Prop}, c ≠ .transfer true → ((c = .transfer true → P) ↔ (c = .transfer true → Q)) :=
    fun differs => iff_of_true (fun same => absurd same differs) (fun same => absurd same differs)
  cases c with
  | pasv =>
    obtain ⟨t, result, next⟩ := @pasv_kept descriptors _ _ kept
    exact ⟨t, none, by rw [step, result, Option.map_some], next, trivially (by simp)⟩
  | port cmd =>
    obtain ⟨t, result, next⟩ := @port_kept descriptors _ _ cmd kept
    exact ⟨t, none, by rw [step, result, Option.map_some], next, trivially (by simp)⟩
  | transfer asks =>
    cases asks with
    | true =>
      obtain ⟨t, got, result, ⟨u, closed, next⟩, never, passive⟩ := @connfd_spec descriptors _ _ kept
      refine ⟨u, got, by simp only [step, if_true, result, closed, Option.bind_some, Option.map_some], next, ?_⟩
      refine imp_congr_right fun _ => ?_
      obtain none | ⟨n, asked⟩ | ⟨n, asked⟩ := expected_kinds done
      · simp [none]
      · simp [asked, passive n asked]
      · simp [asked, never n]
    | false =>
      obtain ⟨t, closed, next⟩ := @closeAll_kept s done .accepted false kept.pasv (.inl (kept.connfd ▸ unset))
        kept.port (fun _ no => absurd no (kept.connfd ▸ not_set)) kept.apart (fun no => absurd no (kept.connfd ▸ not_set))
      exact ⟨t, none, by simp [step, closed], next, trivially (by simp)⟩
  | other => exact ⟨s, none, rfl, ⟨kept.connfd, kept.pasv, kept.port, kept.expects⟩, trivially (by simp)⟩

theorem kept_initial : Kept ⟨∅, -1, -1, -1⟩ [] := ⟨rfl, .inl unset, .inl unset, fun n asked => by cases asked⟩

/-- Every transfer of a run obtains the connection that belongs to it if and only if none of them needs that of a PORT command. -/
theorem ftpd_get_connfd_iff (descriptors : Descriptors) (commands : List DataCommand) : Obtains descriptors commands ↔ Passive [] commands := by
  have loop : ∀ commands done s, Kept s done → (ObtainsFrom descriptors done s commands ↔ Passive done commands) := by
    intro commands
    induction commands with
    | nil => exact fun _ _ _ => Iff.rfl
    | cons c commands ih =>
      intro done s kept
      obtain ⟨t, got, result, next, right⟩ := @step_kept descriptors _ _ kept c
      rw [ObtainsFrom, Passive, ← right, ← ih _ t next, result]
      constructor
      · rintro ⟨u, other, same, obtained, onward⟩
        cases same
        exact ⟨obtained, onward⟩
      · exact fun both => ⟨t, got, rfl, both.1, both.2⟩
  exact loop commands [] _ kept_initial

def nextDescriptor : Descriptors := fun table => ⟨(table.keys.sup Int.natAbs : Nat) + 1, by omega, fun present => by
  have low := Finset.le_sup (f := Int.natAbs) (Finmap.mem_keys.mpr present)
  omega⟩

def portCommand : DataCommand := .port [80, 79, 82, 84, 32, 49, 44, 50, 44, 51, 44, 52, 44, 53, 44, 54]

/-- After `PORT 1,2,3,4,5,6` a listing has no connection. -/
theorem ftpd_get_connfd_port : ¬ Obtains nextDescriptor [portCommand, .transfer true] := by
  rintro ⟨t, nothing, first, -, u, got, second, obtained, -⟩
  obtain ⟨t', got', result, kept, -⟩ := @step_kept nextDescriptor _ _ kept_initial portCommand
  cases first.symm.trans result
  obtain ⟨u', other, result, -, right⟩ := @step_kept nextDescriptor _ _ kept (.transfer true)
  cases second.symm.trans result
  exact right.mp obtained rfl 0 rfl

end

end Cplusplus.Ftpd
