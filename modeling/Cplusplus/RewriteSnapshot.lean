import Cplusplus.AofLoad
import Cplusplus.Proofs.HashTypeMap
import Cplusplus.Proofs.RewriteFile
import Cplusplus.Proofs.SetLoops

/-! The dataset that a rewrite finds, and the one that its commands give when they are loaded. -/

namespace Cplusplus.Redis.Rewrite
open AofFeed (Value Dbs Others Config setName pexpireatName selectName delName)
open CheckAof (loadAppendOnlyFile)

variable {D : Type}

def entryText : ZiplistValue → Bytes
  | .str vstr => vstr
  | .int vlong => ll2string 32 vlong

structure Pairs {V : Type} (pairs : List (Bytes × V)) (m : Finmap fun _ : Bytes => V) : Prop where
  distinct : (pairs.map Prod.fst).Nodup
  graph : ∀ text value, m.lookup text = some value ↔ (text, value) ∈ pairs

def zzlPairs (doubles : Doubles D) : Entries → Option (List (Bytes × D))
  | [] => some []
  | [_] => none
  | eptr :: sptr :: zl => (zzlPairs doubles zl).map ((entryText eptr, doubles.zzlGetScore sptr) :: ·)

def listTexts : ListEncoding → List Bytes
  | .ziplist zl => zl.map entryText
  | .linkedlist l => l.map getDecodedObject

def ZsetEncoding.StandsFor (doubles : Doubles D) (hash : Bytes → BitVec 32) : ZsetEncoding D → (Finmap fun _ : Bytes => D) → Prop
  | .ziplist zl, z => ∃ pairs, zzlPairs doubles zl = some pairs ∧ Pairs pairs z
  | .skiplist length dict, z => length = dict.dictSize ∧ MapRep hash dict fun ele => z.lookup ele

def Object.StandsFor (doubles : Doubles D) (hash : Bytes → BitVec 32) : Object D → Value (Collection D) → Prop
  | .string o, .string text => getDecodedObject o = text
  | .list o, .object (.list elements) => listTexts o = elements ∧ elements ≠ []
  | .set o, .object (.set members) => SetType.Represents hash o members ∧ members ≠ ∅
  | .zset o, .object (.zset scores) => o.StandsFor doubles hash scores ∧ scores ≠ ∅
  | .hash o, .object (.hash fields) => HashType.Represents hash o fields ∧ fields ≠ ∅
  | _, _ => False

def Texts (p : Bytes → Prop) : Value (Collection D) → Prop
  | .string text => p text
  | .object (.list elements) => ∀ text ∈ elements, p text
  | .object (.set members) => ∀ text ∈ members, p text
  | .object (.zset scores) => ∀ text ∈ scores, p text
  | .object (.hash fields) => ∀ field value, fields.lookup field = some value → p field ∧ p value

/-- The length of a sorted set is an unsigned int. -/
def Object.Counted : Object D → Prop
  | .zset (.skiplist length _) => length < 2 ^ 32
  | _ => True

structure StoredKey (doubles : Doubles D) (hash : Bytes → BitVec 32) where
  key : Key
  object : Object D
  value : Value (Collection D)
  standsFor : object.StandsFor doubles hash value
  /-- The length of a string is an unsigned int. -/
  sds : Sds key ∧ Texts Sds value

structure StoredDb (doubles : Doubles D) (hash : Bytes → BitVec 32) where
  db : Db (Value (Collection D))
  entries : List (StoredKey doubles hash)
  distinct : (entries.map StoredKey.key).Nodup
  stored : ∀ key value, db.dict.lookup key = some value ↔ ∃ e ∈ entries, e.key = key ∧ e.value = value
  sound : db.Sound
  times : ∀ key when, db.expires.lookup key = some when → -2 ^ 63 ≤ when ∧ when < 2 ^ 63

structure Snapshot (D : Type) where
  doubles : Doubles D
  hash : Bytes → BitVec 32
  config : Config
  select : config.commands selectName = some .select
  set : config.commands setName = some .set
  del : config.commands delName = some .del
  pexpireat : config.commands pexpireatName = some .pexpireat
  rpush : config.commands rpushName = some .rpush
  sadd : config.commands saddName = some .sadd
  zadd : config.commands zaddName = some .zadd
  hmset : config.commands hmsetName = some .hmset
  dbs : Nat → StoredDb doubles hash
  inside : ∀ j, (dbs j).entries ≠ [] → config.hasDb j = true
  others : Others (Collection D)
  now : Nat

namespace Snapshot

def live (s : Snapshot D) : Dbs (Collection D) := fun j => (s.dbs j).db

def rewriteDbs (s : Snapshot D) : List Nat → Option Bytes
  | [] => some []
  | j :: js => do
    let written ← rewriteDb s.doubles s.now j (s.dbs j).db.getExpire ((s.dbs j).entries.map fun e => (e.key, e.object))
    let rest ← s.rewriteDbs js
    some (written ++ rest)

def rewriteAppendOnlyFile (s : Snapshot D) : Option Bytes := s.rewriteDbs (List.range s.config.dbnum)

structure Same (s : Snapshot D) (loaded : Dbs (Collection D)) : Prop where
  agree : AofFeed.Agree s.now s.live loaded
  only : ∀ j key value, (loaded j).dict.lookup key = some value → (s.live j).dict.lookup key = some value

/-- The file is a sequence of commands, each with a header that counts its arguments. The loader
reads these commands, and running them on an empty server, at any time, gives the dataset. -/
def Rebuilds (s : Snapshot D) : Prop :=
  ∃ file argvs loaded selected, s.rewriteAppendOnlyFile = some file ∧ file = AofLoad.written argvs ∧
    loadAppendOnlyFile file = .ok argvs ∧ s.Same loaded ∧
      ∀ clock masterhost, AofFeed.replay s.config (withCollections s.doubles s.others) clock masterhost argvs
        (fun _ => Db.empty, 0) = some (loaded, selected)

def Rewritten (s : Snapshot D) (j : Nat) (key : Key) : Prop :=
  (s.dbs j).db.getExpire key = -1 ∨ (s.now : Int) ≤ (s.dbs j).db.getExpire key

instance (s : Snapshot D) (j : Nat) (key : Key) : Decidable (s.Rewritten j key) := inferInstanceAs (Decidable (_ ∨ _))

/-- The length of every string that is written is an int, and that of every sorted set an unsigned
int. -/
def Countable (s : Snapshot D) : Prop :=
  ∀ j, ∀ e ∈ (s.dbs j).entries, s.Rewritten j e.key → Short e.key ∧ Texts Short e.value ∧ e.object.Counted

end Snapshot

end Cplusplus.Redis.Rewrite
