import Cplusplus.AofFeed
import Cplusplus.HashType

/-! The commands that `rewriteAppendOnlyFile` of `aof.c` writes for a dataset, with the writers of
`rio.c`. Writes do not fail, and an iterator gives the entries of a table in the order of
`dictNext`. A result of none is a failed assertion. -/

namespace Cplusplus.Redis.Rewrite

section
open AofFeed (Value Dbs)
open CheckAof (strcasecmp)

abbrev Bytes := List UInt8

def nxName : Bytes := [110, 120]

def xxName : Bytes := [120, 120]

def chName : Bytes := [99, 104]

def incrName : Bytes := [105, 110, 99, 114]

/-- An option of ZADD. -/
def isOption (text : Bytes) : Bool :=
  strcasecmp text nxName || strcasecmp text xxName || strcasecmp text chName || strcasecmp text incrName

/-- The scores, which are no NaN. `print` is `%.17g`, of at most 127 bytes, and `parse` is
`getDoubleFromObject`, which takes no option for a number. `add` is none for a NaN. -/
structure Doubles (D : Type) where
  print : D → Bytes
  parse : Bytes → Option D
  zzlGetScore : ZiplistValue → D
  add : D → D → Option D
  differ : D → D → Bool
  exact : ∀ d, parse (print d) = some d
  short : ∀ d, (print d).length < 128
  option : ∀ text, isOption text = true → parse text = none

variable {D : Type}

/-- `count` is an int. -/
def rioWriteBulkCount (mark : UInt8) (count : Int) : Bytes := mark :: ll2string 127 (BitVec.ofInt 32 count).toInt ++ [13, 10]

def rioWriteBulkString (buf : Bytes) : Bytes := rioWriteBulkCount 36 buf.length ++ buf ++ [13, 10]

def rioWriteBulkLongLong (l : Int) : Bytes := rioWriteBulkString (ll2string 32 l)

def rioWriteBulkDouble (doubles : Doubles D) (d : D) : Bytes := rioWriteBulkString (doubles.print d)

def rioWriteBulkObject : StringObject → Bytes
  | .int value => rioWriteBulkLongLong value.toInt
  | .sds text => rioWriteBulkString text

def writeEntry : ZiplistValue → Bytes
  | .str vstr => rioWriteBulkString vstr
  | .int vlong => rioWriteBulkLongLong vlong

inductive ListEncoding where
  | ziplist (zl : Entries)
  | linkedlist (l : List StringObject)

inductive ZsetEncoding (D : Type) where
  | ziplist (zl : Entries)
  | skiplist (length : Nat) (dict : Dict Bytes D)

inductive Object (D : Type) where
  | string (o : StringObject)
  | list (o : ListEncoding)
  | set (o : SetObject)
  | zset (o : ZsetEncoding D)
  | hash (o : HashObject)

def listTypeLength : ListEncoding → Nat
  | .ziplist zl => zl.length
  | .linkedlist l => l.length

/-- The length is an int that is returned as an unsigned int. -/
def zsetLength : ZsetEncoding D → Nat
  | .ziplist zl => zl.length / 2
  | .skiplist length _ => length % 2 ^ 32

/-- REDIS_AOF_REWRITE_ITEMS_PER_CMD -/
def itemsPerCmd : Nat := 64

def cmdItems (items : Int) : Int := if itemsPerCmd < items then itemsPerCmd else items

def emitHeader (name key : Bytes) (width : Nat) (items : Int) : Bytes :=
  rioWriteBulkCount 42 (2 + cmdItems items * width) ++ rioWriteBulkString name ++ rioWriteBulkString key

def emitItems (name key : Bytes) (width : Nat) : (count : Nat) → (items : Int) → List Bytes → Bytes
  | _, _, [] => []
  | count, items, item :: rest =>
    (if count = 0 then emitHeader name key width items else []) ++ item ++
      emitItems name key width (if count + 1 = itemsPerCmd then 0 else count + 1) (items - 1) rest

def rpushName : Bytes := [82, 80, 85, 83, 72]

def saddName : Bytes := [83, 65, 68, 68]

def zaddName : Bytes := [90, 65, 68, 68]

def hmsetName : Bytes := [72, 77, 83, 69, 84]

def listItems : ListEncoding → List Bytes
  | .ziplist zl => zl.map writeEntry
  | .linkedlist l => l.map rioWriteBulkObject

def rewriteListObject (key : Bytes) (o : ListEncoding) : Bytes := emitItems rpushName key 1 0 (listTypeLength o) (listItems o)

def writeSetElement : SetElement → Bytes
  | .intset llval => rioWriteBulkLongLong llval
  | .ht eleobj => rioWriteBulkObject eleobj

def rewriteSetObject (key : Bytes) (o : SetObject) : Option Bytes :=
  (setTypeElements o).map fun elements => emitItems saddName key 1 0 (setTypeSize o) (elements.map writeSetElement)

def dictEntries {K V : Type} (d : Dict K V) : List (DictEntry K V) :=
  (List.range d.ht0.size).flatMap d.ht0.table ++ if d.isRehashing then (List.range d.ht1.size).flatMap d.ht1.table else []

/-- A score is written before its element. The pointer behind an element is not NULL. -/
def zzlItems (doubles : Doubles D) : Entries → Option (List Bytes)
  | [] => some []
  | [_] => none
  | eptr :: sptr :: zl => do
    let rest ← zzlItems doubles zl
    some ((rioWriteBulkDouble doubles (doubles.zzlGetScore sptr) ++ writeEntry eptr) :: rest)

def zsetItems (doubles : Doubles D) : ZsetEncoding D → Option (List Bytes)
  | .ziplist zl => if zl.isEmpty then none else zzlItems doubles zl
  | .skiplist _ dict => some ((dictEntries dict).map fun de => rioWriteBulkDouble doubles de.val ++ rioWriteBulkString de.key)

def rewriteSortedSetObject (doubles : Doubles D) (key : Bytes) (o : ZsetEncoding D) : Option Bytes :=
  (zsetItems doubles o).map (emitItems zaddName key 2 0 (zsetLength o))

def hashZiplistItems : Entries → Option (List Bytes)
  | [] => some []
  | [_] => none
  | fptr :: vptr :: zl => do
    let rest ← hashZiplistItems zl
    some ((writeEntry fptr ++ writeEntry vptr) :: rest)

def hashItems : HashObject → Option (List Bytes)
  | .ziplist zl => hashZiplistItems zl
  | .ht ptr => some ((dictEntries ptr).map fun de => rioWriteBulkString de.key ++ rioWriteBulkObject de.val)

def rewriteHashObject (key : Bytes) (o : HashObject) : Option Bytes :=
  (hashItems o).map (emitItems hmsetName key 2 0 (hashTypeLength o))

/-- "*3\r\n$3\r\nSET\r\n" -/
def setHeader : Bytes := [42, 51, 13, 10, 36, 51, 13, 10, 83, 69, 84, 13, 10]

/-- "*3\r\n$9\r\nPEXPIREAT\r\n" -/
def pexpireatHeader : Bytes := [42, 51, 13, 10, 36, 57, 13, 10, 80, 69, 88, 80, 73, 82, 69, 65, 84, 13, 10]

/-- "*2\r\n$6\r\nSELECT\r\n" -/
def selectHeader : Bytes := [42, 50, 13, 10, 36, 54, 13, 10, 83, 69, 76, 69, 67, 84, 13, 10]

def rewriteObject (doubles : Doubles D) (key : Bytes) : Object D → Option Bytes
  | .string o => some (setHeader ++ rioWriteBulkString key ++ rioWriteBulkObject o)
  | .list o => some (rewriteListObject key o)
  | .set o => rewriteSetObject key o
  | .zset o => rewriteSortedSetObject doubles key o
  | .hash o => rewriteHashObject key o

def rewriteKey (doubles : Doubles D) (now expiretime : Int) (key : Bytes) (o : Object D) : Option Bytes :=
  if expiretime ≠ -1 ∧ expiretime < now then some []
  else do
    let written ← rewriteObject doubles key o
    let expire := pexpireatHeader ++ rioWriteBulkString key ++ rioWriteBulkLongLong expiretime
    some (written ++ if expiretime ≠ -1 then expire else [])

def rewriteEntries (doubles : Doubles D) (now : Int) (getExpire : Key → Int) : List (Key × Object D) → Option Bytes
  | [] => some []
  | (key, o) :: entries => do
    let written ← rewriteKey doubles now (getExpire key) key o
    let rest ← rewriteEntries doubles now getExpire entries
    some (written ++ rest)

def rewriteDb (doubles : Doubles D) (now : Int) (j : Nat) (getExpire : Key → Int) (entries : List (Key × Object D)) : Option Bytes :=
  if entries.isEmpty then some []
  else (rewriteEntries doubles now getExpire entries).map fun written => selectHeader ++ rioWriteBulkLongLong j ++ written

end

/-! The commands of a rewrite on the values that the objects stand for: what RPUSH, SADD, ZADD and
HMSET do to a dataset, whatever the encodings. The other commands are those of the loader. -/

section
open AofFeed (Value Dbs Others)
open CheckAof (Argv strcasecmp)
open ReadOnlySlave (argument)

inductive Collection (D : Type) where
  | list (elements : List Bytes)
  | set (members : Finset Bytes)
  | zset (scores : Finmap fun _ : Bytes => D)
  | hash (fields : Finmap fun _ : Bytes => Bytes)

variable {D : Type}

/-! Each command gives the database that it leaves, or none if `server.dirty` stays. -/

def rpushCommand (argv : Argv) (db : Db (Value (Collection D))) : Option (Db (Value (Collection D))) :=
  let key := argument argv 1
  let values := argv.drop 2
  if values.isEmpty then none
  else
    match db.lookupKey key with
    | none => db.add key (.object (.list values))
    | some (.object (.list elements)) => db.overwrite key (.object (.list (elements ++ values)))
    | some _ => none

def saddCommand (argv : Argv) (db : Db (Value (Collection D))) : Option (Db (Value (Collection D))) :=
  let key := argument argv 1
  let values := argv.drop 2
  match db.lookupKey key with
  | none => if values.isEmpty then none else db.add key (.object (.set values.toFinset))
  | some (.object (.set members)) =>
    if values.all (· ∈ members) then none else db.overwrite key (.object (.set (members ∪ values.toFinset)))
  | some _ => none

structure ZaddFlags where
  incr : Bool := false
  nx : Bool := false
  xx : Bool := false

def zaddOptions (flags : ZaddFlags) : List Bytes → ZaddFlags × List Bytes
  | [] => (flags, [])
  | opt :: args =>
    if strcasecmp opt nxName then zaddOptions { flags with nx := true } args
    else if strcasecmp opt xxName then zaddOptions { flags with xx := true } args
    else if strcasecmp opt chName then zaddOptions flags args
    else if strcasecmp opt incrName then zaddOptions { flags with incr := true } args
    else (flags, opt :: args)

/-- Every score with its element, or none for a syntax error. -/
def zaddScores (doubles : Doubles D) : List Bytes → Option (List (D × Bytes))
  | [] => some []
  | [_] => none
  | score :: ele :: args => do
    let score ← doubles.parse score
    let rest ← zaddScores doubles args
    some ((score, ele) :: rest)

def zaddElement (doubles : Doubles D) (flags : ZaddFlags) (z : Finmap fun _ : Bytes => D) (score : D) (ele : Bytes) :
    (Finmap fun _ : Bytes => D) × Bool :=
  match z.lookup ele with
  | some curscore =>
    if flags.nx then (z, false)
    else
      match if flags.incr then doubles.add score curscore else some score with
      | none => (z, false)
      | some score => if doubles.differ score curscore then (z.insert ele score, true) else (z, false)
  | none => if flags.xx then (z, false) else (z.insert ele score, true)

def zaddElements (doubles : Doubles D) (flags : ZaddFlags) : List (D × Bytes) → (Finmap fun _ : Bytes => D) × Bool →
    (Finmap fun _ : Bytes => D) × Bool
  | [], state => state
  | (score, ele) :: rest, (z, changed) =>
    let (z, now) := zaddElement doubles flags z score ele
    zaddElements doubles flags rest (z, changed || now)

/-- A command without an element is left out. -/
def zaddCommand (doubles : Doubles D) (argv : Argv) (db : Db (Value (Collection D))) : Option (Db (Value (Collection D))) :=
  let key := argument argv 1
  let (flags, args) := zaddOptions {} (argv.drop 2)
  match zaddScores doubles args with
  | none => none
  | some elements =>
    if elements.isEmpty || (flags.nx && flags.xx) || (flags.incr && 1 < elements.length) then none
    else
      match db.lookupKey key with
      | none => if flags.xx then none else db.add key (.object (.zset (zaddElements doubles flags elements (∅, false)).1))
      | some (.object (.zset z)) =>
        let (z, changed) := zaddElements doubles flags elements (z, false)
        if changed then db.overwrite key (.object (.zset z)) else none
      | some _ => none

/-- The pairs of HMSET, after the number of arguments was checked. -/
def hmsetPairs : List Bytes → (Finmap fun _ : Bytes => Bytes) → Finmap fun _ : Bytes => Bytes
  | field :: value :: args, m => hmsetPairs args (m.insert field value)
  | _, m => m

def hmsetCommand (argv : Argv) (db : Db (Value (Collection D))) : Option (Db (Value (Collection D))) :=
  let key := argument argv 1
  if argv.length % 2 = 1 then none
  else
    match db.lookupKey key with
    | none => db.add key (.object (.hash (hmsetPairs (argv.drop 2) ∅)))
    | some (.object (.hash m)) => db.overwrite key (.object (.hash (hmsetPairs (argv.drop 2) m)))
    | some _ => none

def collectionCommand (doubles : Doubles D) : Command → Option (Argv → Db (Value (Collection D)) → Option (Db (Value (Collection D))))
  | .rpush => some rpushCommand
  | .sadd => some saddCommand
  | .zadd => some (zaddCommand doubles)
  | .hmset => some hmsetCommand
  | _ => none

theorem sound_add {V : Type} {db db' : Db V} (sound : db.Sound) {key : Key} {val : V} (done : db.add key val = some db') : db'.Sound := by
  rw [Db.add] at done
  split at done
  next => exact absurd done (Option.some_ne_none _).symm
  next => exact Option.some.inj done ▸ sound.insert key val

theorem sound_overwrite {V : Type} {db db' : Db V} (sound : db.Sound) {key : Key} {val : V} (done : db.overwrite key val = some db') :
    db'.Sound := by
  rw [Db.overwrite] at done
  split at done
  next => exact Option.some.inj done ▸ sound.insert key val
  next => exact absurd done (Option.some_ne_none _).symm

theorem collectionCommand_sound {doubles : Doubles D} {cmd : Command}
    {run : Argv → Db (Value (Collection D)) → Option (Db (Value (Collection D)))} (found : collectionCommand doubles cmd = some run)
    {argv : Argv} {db db' : Db (Value (Collection D))} (sound : db.Sound) (done : run argv db = some db') : db'.Sound := by
  unfold collectionCommand at found
  split at found
  case h_5 => exact absurd found (Option.some_ne_none _).symm
  all_goals
    cases found
    simp only [rpushCommand, saddCommand, zaddCommand, hmsetCommand] at done
    repeat' split at done
    all_goals first | exact sound_add sound done | exact sound_overwrite sound done | cases done

def collectionEffect (doubles : Doubles D) (rest : Others (Collection D)) (cmd : Command) (argv : Argv) (dbs : Dbs (Collection D))
    (dbid : Nat) : Option (Dbs (Collection D)) :=
  match collectionCommand doubles cmd with
  | some run => (run argv (dbs dbid)).map (Function.update dbs dbid)
  | none => rest.effect cmd argv dbs dbid

/-- The commands that are not modelled stay a parameter. -/
def withCollections (doubles : Doubles D) (rest : Others (Collection D)) : Others (Collection D) :=
  { rest with
    effect := collectionEffect doubles rest
    effect_sound := by
      intro cmd argv dbs dbid dbs' sound done i
      unfold collectionEffect at done
      split at done
      next run found =>
        obtain ⟨db, ran, rfl⟩ := Option.map_eq_some_iff.mp done
        by_cases here : i = dbid
        · subst here
          rw [Function.update_self]
          exact collectionCommand_sound found (sound i) ran
        · rw [Function.update_of_ne here]
          exact sound i
      next => exact rest.effect_sound cmd argv dbs dbid dbs' sound done i }

end

end Cplusplus.Redis.Rewrite
