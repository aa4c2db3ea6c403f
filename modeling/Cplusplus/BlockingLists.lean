import Mathlib.Data.Finset.Erase
import Mathlib.Data.Finset.Insert
import Mathlib.Data.List.AList

/-! Blocking operations on lists: the second half of `t_list.c`, `signalListAsReady` and
its callers in `db.c`, and SORT with STORE. A key of a database is a pair. Expiration is a
deletion. What SORT computes is a parameter. -/

namespace Cplusplus.Redis

/-- `REDIS_HEAD` and `REDIS_TAIL` -/
inductive ListEnd where
  | head | tail
deriving DecidableEq

inductive ObjectType where
  | string | set | zset | hash
deriving DecidableEq

inductive ListObject (α : Type) where
  | list (elements : List α)
  | other (type : ObjectType)

def listTypePush {α : Type} (elements : List α) (value : α) : ListEnd → List α
  | .head => value :: elements
  | .tail => elements ++ [value]

def listTypePop {α : Type} : List α → ListEnd → Option (α × List α)
  | [], _ => none
  | value :: elements, .head => some (value, elements)
  | value :: elements, .tail => some ((value :: elements).getLastD value, (value :: elements).dropLast)

inductive BlockingReply (κ α : Type) where
  | ok | czero | cone | cnegone | nullbulk | nullmultibulk | nokeyerr | sameobjecterr | outofrangeerr | wrongtypeerr
  | integer (n : Nat)
  | bulk (value : α)
  /-- The reply of BLPOP and BRPOP. -/
  | multiBulk (key : κ) (value : α)
deriving DecidableEq

structure BlockingClient (κ : Type) where
  db : Nat := 0
  /-- `REDIS_BLOCKED`, with `REDIS_BLOCKED_LIST` -/
  blocked : Bool := false
  keys : List κ := []
  target : Option κ := none
  blpop : Bool := false
  since : Nat := 0

structure Delivery (κ α : Type) where
  client : Nat
  value : α
  since : Nat
  rivals : List Nat
deriving DecidableEq

variable {κ α : Type} [DecidableEq κ]

/-- The last three fields are history: the source does not have them. -/
structure BlockingServer (κ α : Type) [DecidableEq κ] where
  dbnum : Nat
  dict : AList fun _ : Nat × κ => ListObject α
  blockingKeys : AList fun _ : Nat × κ => List Nat
  dbReadyKeys : Finset (Nat × κ)
  readyKeys : List (Nat × κ)
  clients : List Nat
  client : Nat → BlockingClient κ
  replies : List (Nat × BlockingReply κ α)
  clock : Nat
  pushed : List α
  deliveries : List (Delivery κ α)

namespace BlockingServer

def modify (s : BlockingServer κ α) (id : Nat) (f : BlockingClient κ → BlockingClient κ) : BlockingServer κ α :=
  { s with client := Function.update s.client id (f (s.client id)) }

def addReply (s : BlockingServer κ α) (id : Nat) (reply : BlockingReply κ α) : BlockingServer κ α :=
  { s with replies := s.replies ++ [(id, reply)] }

def setList (s : BlockingServer κ α) (key : Nat × κ) (elements : List α) : BlockingServer κ α :=
  { s with dict := s.dict.insert key (.list elements) }

def waitsFor (s : BlockingServer κ α) (key : Nat × κ) (id : Nat) : Bool := (s.client id).db = key.1 && key.2 ∈ (s.client id).keys

def record (s : BlockingServer κ α) (id : Nat) (key : Nat × κ) (value : α) (since : Nat) : BlockingServer κ α :=
  let rivals := (s.clients.filter (s.waitsFor key)).map fun other => (s.client other).since
  { s with deliveries := s.deliveries ++ [⟨id, value, since, rivals⟩] }

def recordPush (s : BlockingServer κ α) (value : α) : BlockingServer κ α := { s with pushed := s.pushed ++ [value] }

end BlockingServer

open BlockingServer

def blockForKey (id : Nat) (s : BlockingServer κ α) (key : κ) : BlockingServer κ α :=
  let c := s.client id
  if key ∈ c.keys then s
  else
    let s := s.modify id ({ · with keys := c.keys ++ [key] })
    match s.blockingKeys.lookup (c.db, key) with
    | none => { s with blockingKeys := s.blockingKeys.insert (c.db, key) [id] }
    | some l => { s with blockingKeys := s.blockingKeys.insert (c.db, key) (l ++ [id]) }

def blockForKeys (s : BlockingServer κ α) (id : Nat) (keys : List κ) (target : Option κ) : BlockingServer κ α :=
  let s := s.modify id ({ · with target := target, since := s.clock })
  let s := keys.foldl (blockForKey id) s
  { s.modify id ({ · with blocked := true }) with clock := s.clock + 1 }

def unblockForKey (id db : Nat) (blockingKeys : AList fun _ : Nat × κ => List Nat) (key : κ) :
    AList fun _ : Nat × κ => List Nat :=
  match blockingKeys.lookup (db, key) with
  | none => blockingKeys
  | some l => if l.erase id = [] then blockingKeys.erase (db, key) else blockingKeys.insert (db, key) (l.erase id)

def unblockClientWaitingData (s : BlockingServer κ α) (id : Nat) : BlockingServer κ α :=
  let c := s.client id
  { s.modify id ({ · with blocked := false, keys := [], target := none }) with
    blockingKeys := c.keys.foldl (unblockForKey id c.db) s.blockingKeys }

def signalListAsReady (s : BlockingServer κ α) (key : Nat × κ) : BlockingServer κ α :=
  if s.blockingKeys.lookup key = none then s
  else if key ∈ s.dbReadyKeys then s
  else { s with readyKeys := s.readyKeys ++ [key], dbReadyKeys := insert key s.dbReadyKeys }

def dbAdd (s : BlockingServer κ α) (key : Nat × κ) (value : ListObject α) : BlockingServer κ α :=
  let s := { s with dict := s.dict.insert key value }
  match value with
  | .list _ => signalListAsReady s key
  | .other _ => s

def dbOverwrite (s : BlockingServer κ α) (key : Nat × κ) (value : ListObject α) : BlockingServer κ α :=
  { s with dict := s.dict.insert key value }

def setKey (s : BlockingServer κ α) (key : Nat × κ) (value : ListObject α) : BlockingServer κ α :=
  match s.dict.lookup key with
  | none => dbAdd s key value
  | some _ => dbOverwrite s key value

def dbDelete (s : BlockingServer κ α) (key : Nat × κ) : BlockingServer κ α := { s with dict := s.dict.erase key }

def dbDeleteEmpty (s : BlockingServer κ α) (key : Nat × κ) : BlockingServer κ α :=
  match s.dict.lookup key with
  | some (.list []) => dbDelete s key
  | _ => s

def pushValue (key : Nat × κ) (where_ : ListEnd) (s : BlockingServer κ α) (value : α) : BlockingServer κ α :=
  match s.dict.lookup key with
  | none => ((dbAdd s key (.list [])).setList key (listTypePush [] value where_)).recordPush value
  | some (.list elements) => (s.setList key (listTypePush elements value where_)).recordPush value
  | some (.other _) => s

def listTypeLength (s : BlockingServer κ α) (key : Nat × κ) : Nat :=
  match s.dict.lookup key with
  | some (.list elements) => elements.length
  | _ => 0

def pushGenericCommand (s : BlockingServer κ α) (id : Nat) (key : κ) (values : List α) (where_ : ListEnd) : BlockingServer κ α :=
  let key := ((s.client id).db, key)
  match s.dict.lookup key with
  | some (.other _) => s.addReply id .wrongtypeerr
  | _ =>
    let s := values.foldl (pushValue key where_) s
    s.addReply id (.integer (listTypeLength s key))

/-- LINSERT: the elements, with the value beside the first `refval`. -/
def listTypeInsert [DecidableEq α] (refval value : α) (where_ : ListEnd) : List α → Option (List α)
  | [] => none
  | element :: elements =>
    if element = refval then
      match where_ with
      | .head => some (value :: element :: elements)
      | .tail => some (element :: value :: elements)
    else (listTypeInsert refval value where_ elements).map (element :: ·)

def pushxGenericCommand [DecidableEq α] (s : BlockingServer κ α) (id : Nat) (key : κ) (refval : Option α) (value : α) (where_ : ListEnd) :
    BlockingServer κ α :=
  let key := ((s.client id).db, key)
  match s.dict.lookup key with
  | none => s.addReply id .czero
  | some (.other _) => s.addReply id .wrongtypeerr
  | some (.list elements) =>
    let inserted := match refval with
      | none => some (listTypePush elements value where_)
      | some refval => listTypeInsert refval value where_ elements
    match inserted with
    | none => s.addReply id .cnegone
    | some elements => ((s.setList key elements).recordPush value).addReply id (.integer elements.length)

def popGenericCommand (s : BlockingServer κ α) (id : Nat) (key : κ) (where_ : ListEnd) : BlockingServer κ α :=
  let key := ((s.client id).db, key)
  match s.dict.lookup key with
  | none => s.addReply id .nullbulk
  | some (.other _) => s.addReply id .wrongtypeerr
  | some (.list elements) =>
    match listTypePop elements where_ with
    | none => s.addReply id .nullbulk
    | some (value, rest) => dbDeleteEmpty (((s.setList key rest).record id key value s.clock).addReply id (.bulk value)) key

def rpoplpushHandlePush (s : BlockingServer κ α) (id : Nat) (dstkey : κ) (value : α) : BlockingServer κ α :=
  let dstkey := ((s.client id).db, dstkey)
  (pushValue dstkey .head s value).addReply id (.bulk value)

def wrongType (s : BlockingServer κ α) (key : Nat × κ) : Bool :=
  match s.dict.lookup key with
  | some (.other _) => true
  | _ => false

def rpoplpushCommand (s : BlockingServer κ α) (id : Nat) (source target : κ) : BlockingServer κ α :=
  let key := ((s.client id).db, source)
  match s.dict.lookup key with
  | none => s.addReply id .nullbulk
  | some (.other _) => s.addReply id .wrongtypeerr
  | some (.list elements) =>
    match listTypePop elements .tail with
    | none => s.addReply id .nullbulk
    | some (value, rest) =>
      if wrongType s ((s.client id).db, target) then s.addReply id .wrongtypeerr
      else
        let s := (s.setList key rest).record id key value s.clock
        dbDeleteEmpty (rpoplpushHandlePush s id target value) key

def blockingPopKeys (s : BlockingServer κ α) (id : Nat) (where_ : ListEnd) : List κ → Option (BlockingServer κ α)
  | [] => none
  | key :: keys =>
    let dbkey := ((s.client id).db, key)
    match s.dict.lookup dbkey with
    | some (.other _) => some (s.addReply id .wrongtypeerr)
    | none => blockingPopKeys s id where_ keys
    | some (.list elements) =>
      match listTypePop elements where_ with
      | none => blockingPopKeys s id where_ keys
      | some (value, rest) =>
        some (dbDeleteEmpty (((s.setList dbkey rest).record id dbkey value s.clock).addReply id (.multiBulk key value)) dbkey)

def blockingPopGenericCommand (s : BlockingServer κ α) (id : Nat) (multi : Bool) (keys : List κ) (where_ : ListEnd) :
    BlockingServer κ α :=
  match blockingPopKeys s id where_ keys with
  | some s => s
  | none => if multi then s.addReply id .nullmultibulk else blockForKeys s id keys none

def brpoplpushCommand (s : BlockingServer κ α) (id : Nat) (multi : Bool) (source target : κ) : BlockingServer κ α :=
  match s.dict.lookup ((s.client id).db, source) with
  | none => if multi then s.addReply id .nullbulk else blockForKeys s id [source] (some target)
  | some (.other _) => s.addReply id .wrongtypeerr
  | some (.list _) => rpoplpushCommand s id source target

def delCommand (s : BlockingServer κ α) (id : Nat) (keys : List κ) : BlockingServer κ α :=
  let dbkeys := keys.map ((s.client id).db, ·)
  let deleted := dbkeys.dedup.countP fun key => (s.dict.lookup key).isSome
  (dbkeys.foldl dbDelete s).addReply id (.integer deleted)

def renameGenericCommand (s : BlockingServer κ α) (id : Nat) (source target : κ) (nx : Bool) : BlockingServer κ α :=
  let src := ((s.client id).db, source)
  let dst := ((s.client id).db, target)
  if source = target then s.addReply id .sameobjecterr
  else
    match s.dict.lookup src with
    | none => s.addReply id .nokeyerr
    | some o =>
      if (s.dict.lookup dst).isSome && nx then s.addReply id .czero
      else (dbDelete (dbAdd (dbDelete s dst) dst o) src).addReply id (if nx then .cone else .ok)

def moveCommand (s : BlockingServer κ α) (id : Nat) (key : κ) (dbid : Nat) : BlockingServer κ α :=
  let src := ((s.client id).db, key)
  let dst := (dbid, key)
  if s.dbnum ≤ dbid then s.addReply id .outofrangeerr
  else if (s.client id).db = dbid then s.addReply id .sameobjecterr
  else
    match s.dict.lookup src with
    | none => s.addReply id .czero
    | some o =>
      if (s.dict.lookup dst).isSome then s.addReply id .czero
      else (dbDelete (dbAdd s dst o) src).addReply id .cone

/-- SORT with STORE; `sorted` is what it computes if the key exists. -/
def sortStoreCommand (s : BlockingServer κ α) (id : Nat) (key storekey : κ) (sorted : List α) : BlockingServer κ α :=
  let store := ((s.client id).db, storekey)
  match s.dict.lookup ((s.client id).db, key) with
  | some (.other .string) | some (.other .hash) => s.addReply id .wrongtypeerr
  | none => (dbDelete s store).addReply id (.integer 0)
  | some _ => (if sorted = [] then dbDelete s store else setKey s store (.list sorted)).addReply id (.integer sorted.length)

def setCommand (s : BlockingServer κ α) (id : Nat) (key : κ) : BlockingServer κ α :=
  (setKey s ((s.client id).db, key) (.other .string)).addReply id .ok

def addCommand (s : BlockingServer κ α) (id : Nat) (key : κ) (type : ObjectType) (reply : Nat) : BlockingServer κ α :=
  let key := ((s.client id).db, key)
  match s.dict.lookup key with
  | none => (dbAdd s key (.other type)).addReply id (.integer reply)
  | some (.other held) => s.addReply id (if held = type then .integer reply else .wrongtypeerr)
  | some (.list _) => s.addReply id .wrongtypeerr

def selectCommand (s : BlockingServer κ α) (id : Nat) (dbid : Nat) : BlockingServer κ α :=
  if s.dbnum ≤ dbid then s.addReply id .outofrangeerr else (s.modify id ({ · with db := dbid })).addReply id .ok

inductive BlockingCommand (κ α : Type) where
  | push (key : κ) (values : List α) (where_ : ListEnd)
  /-- LPUSHX, RPUSHX and LINSERT. -/
  | pushx (key : κ) (refval : Option α) (value : α) (where_ : ListEnd)
  | pop (key : κ) (where_ : ListEnd)
  | rpoplpush (source target : κ)
  /-- BLPOP and BRPOP, with at least one key. -/
  | blockingPop (key : κ) (keys : List κ) (where_ : ListEnd)
  | brpoplpush (source target : κ)
  | del (keys : List κ)
  | rename (source target : κ) (nx : Bool)
  | move (key : κ) (dbid : Nat)
  | sortStore (key storekey : κ) (sorted : List α)
  | set (key : κ)
  | add (key : κ) (type : ObjectType) (reply : Nat)
  | select (dbid : Nat)

/-- `call`; `multi` is `REDIS_MULTI`. -/
def callBlocking [DecidableEq α] (id : Nat) (multi : Bool) (s : BlockingServer κ α) : BlockingCommand κ α → BlockingServer κ α
  | .push key values where_ => pushGenericCommand s id key values where_
  | .pushx key refval value where_ => pushxGenericCommand s id key refval value where_
  | .pop key where_ => popGenericCommand s id key where_
  | .rpoplpush source target => rpoplpushCommand s id source target
  | .blockingPop key keys where_ => blockingPopGenericCommand s id multi (key :: keys) where_
  | .brpoplpush source target => brpoplpushCommand s id multi source target
  | .del keys => delCommand s id keys
  | .rename source target nx => renameGenericCommand s id source target nx
  | .move key dbid => moveCommand s id key dbid
  | .sortStore key storekey sorted => sortStoreCommand s id key storekey sorted
  | .set key => setCommand s id key
  | .add key type reply => addCommand s id key type reply
  | .select dbid => selectCommand s id dbid

/-- A failed push to the target is `none`. -/
def serveClientBlockedOnList (s : BlockingServer κ α) (receiver : Nat) (key : Nat × κ) (dstkey : Option κ) (value : α) :
    Option (BlockingServer κ α) :=
  let served := s.record receiver key value (s.client receiver).since
  match dstkey with
  | none => some (served.addReply receiver (.multiBulk key.2 value))
  | some dstkey =>
    if wrongType s ((s.client receiver).db, dstkey) then none
    else some (rpoplpushHandlePush served receiver dstkey value)

def servedEnd {κ : Type} (receiver : BlockingClient κ) : ListEnd := if receiver.blpop then .head else .tail

/-- `while(numclients--)`, once; `none` is the `break`. -/
def serveFirst (s : BlockingServer κ α) (key : Nat × κ) : Option (BlockingServer κ α) :=
  match s.blockingKeys.lookup key, s.dict.lookup key with
  | some (receiver :: _), some (.list elements) =>
    let dstkey := (s.client receiver).target
    let where_ := servedEnd (s.client receiver)
    match listTypePop elements where_ with
    | none => none
    | some (value, rest) =>
      let s := unblockClientWaitingData (s.setList key rest) receiver
      match serveClientBlockedOnList s receiver key dstkey value with
      | some s => some s
      | none => some ((s.addReply receiver .wrongtypeerr).setList key (listTypePush rest value where_))
  | _, _ => none

def serveClients (key : Nat × κ) : Nat → BlockingServer κ α → BlockingServer κ α
  | 0, s => s
  | numclients + 1, s =>
    match serveFirst s key with
    | none => s
    | some s => serveClients key numclients s

/-- The inner loop of `handleClientsBlockedOnLists`, once. -/
def serveReadyKey (s : BlockingServer κ α) (key : Nat × κ) : BlockingServer κ α :=
  let s := { s with dbReadyKeys := s.dbReadyKeys.erase key }
  match s.dict.lookup key with
  | some (.list _) =>
    match s.blockingKeys.lookup key with
    | none => dbDeleteEmpty s key
    | some clients => dbDeleteEmpty (serveClients key clients.length s) key
  | _ => s

def handleReadyKeys : Nat → BlockingServer κ α → BlockingServer κ α
  | 0, s => s
  | fuel + 1, s =>
    if s.readyKeys = [] then s else handleReadyKeys fuel (s.readyKeys.foldl serveReadyKey { s with readyKeys := [] })

def handleClientsBlockedOnLists (s : BlockingServer κ α) : BlockingServer κ α := handleReadyKeys (s.clients.length + 1) s

inductive BlockingStep (κ α : Type) where
  | connect (id : Nat)
  | command (id : Nat) (cmd : BlockingCommand κ α)
  /-- EXEC, with the commands that are queued. -/
  | exec (id : Nat) (commands : List (BlockingCommand κ α))
  | timeout (id : Nat)
  | disconnect (id : Nat)
  | expire (key : Nat × κ)

def setLastcmd (s : BlockingServer κ α) (id : Nat) (blpop : Bool) : BlockingServer κ α := s.modify id ({ · with blpop := blpop })

def BlockingCommand.isBlpop : BlockingCommand κ α → Bool
  | .blockingPop _ _ .head => true
  | _ => false

def callCommand [DecidableEq α] (s : BlockingServer κ α) (id : Nat) (cmd : BlockingCommand κ α) : BlockingServer κ α :=
  callBlocking id false (setLastcmd s id cmd.isBlpop) cmd

def callTransaction [DecidableEq α] (s : BlockingServer κ α) (id : Nat) (commands : List (BlockingCommand κ α)) : BlockingServer κ α :=
  commands.foldl (callBlocking id true) (setLastcmd s id false)

def canCall (s : BlockingServer κ α) (id : Nat) : Bool := id ∈ s.clients && !(s.client id).blocked

def blockingStep [DecidableEq α] (s : BlockingServer κ α) : BlockingStep κ α → BlockingServer κ α
  | .connect id => if id ∈ s.clients then s else { s with clients := s.clients ++ [id] }
  | .command id cmd => if canCall s id then handleClientsBlockedOnLists (callCommand s id cmd) else s
  | .exec id commands => if canCall s id then handleClientsBlockedOnLists (callTransaction s id commands) else s
  | .timeout id => if (s.client id).blocked then unblockClientWaitingData (s.addReply id .nullmultibulk) id else s
  | .disconnect id =>
    if id ∈ s.clients then
      let s := if (s.client id).blocked then unblockClientWaitingData s id else s
      { s.modify id fun _ => {} with clients := s.clients.erase id }
    else s
  | .expire key => dbDelete s key

def blockingRun [DecidableEq α] (s : BlockingServer κ α) (steps : List (BlockingStep κ α)) : BlockingServer κ α := steps.foldl blockingStep s

structure LoadedKeys (κ α : Type) [DecidableEq κ] where
  dict : AList fun _ : Nat × κ => ListObject α
  lists : ∀ key, dict.lookup key ≠ some (.list [])

def LoadedKeys.start (loaded : LoadedKeys κ α) (dbnum : Nat) : BlockingServer κ α :=
  ⟨dbnum, loaded.dict, ∅, ∅, [], [], fun _ => {}, [], 0, [], []⟩

end Cplusplus.Redis
