import Cplusplus.Db
import Cplusplus.ReadOnlySlave

/-! MOVE, RENAME and RENAMENX of `db.c`, with the reference counts of the values. A result that is
none is an assertion that fails or a count that goes below zero. Notifications are left out. -/

namespace Cplusplus.Redis

structure Keyspace where
  dbs : Nat → Db Nat
  refcount : Nat → Nat

structure Settings where
  dbnum : Nat
  clusterEnabled : Bool
  loading : Bool
  masterhost : Bool

namespace Keyspace

def setDb (s : Keyspace) (dbid : Nat) (db : Db Nat) : Keyspace := { s with dbs := Function.update s.dbs dbid db }

def incrRefCount (s : Keyspace) (o : Nat) : Keyspace := { s with refcount := Function.update s.refcount o (s.refcount o + 1) }

def decrRefCount (s : Keyspace) (o : Nat) : Option Keyspace :=
  if s.refcount o = 0 then none else some { s with refcount := Function.update s.refcount o (s.refcount o - 1) }

def dbAdd (s : Keyspace) (dbid : Nat) (key : Key) (o : Nat) : Option Keyspace := ((s.dbs dbid).add key o).map (s.setDb dbid)

def setExpire (s : Keyspace) (dbid : Nat) (key : Key) (when : Int) : Option Keyspace :=
  ((s.dbs dbid).setExpire key when).map (s.setDb dbid)

def dbDelete (s : Keyspace) (dbid : Nat) (key : Key) : Option Keyspace :=
  let after := s.setDb dbid ((s.dbs dbid).delete key)
  match (s.dbs dbid).lookupKey key with
  | some o => after.decrRefCount o
  | none => some after

def expireIfNeeded (settings : Settings) (now : Int) (s : Keyspace) (dbid : Nat) (key : Key) : Option Keyspace :=
  let when := (s.dbs dbid).getExpire key
  if when < 0 then some s
  else if settings.loading then some s
  else if settings.masterhost then some s
  else if now ≤ when then some s
  else s.dbDelete dbid key

def lookupKeyWrite (settings : Settings) (now : Int) (s : Keyspace) (dbid : Nat) (key : Key) : Option (Keyspace × Option Nat) :=
  (s.expireIfNeeded settings now dbid key).map fun s => (s, (s.dbs dbid).lookupKey key)

structure Clock where
  source : Int
  target : Int

def deleteOld (s : Keyspace) (dbid : Nat) (key : Key) (old : Option Nat) : Option Keyspace :=
  if old.isSome then s.dbDelete dbid key else some s

def carryExpire (s : Keyspace) (dbid : Nat) (key : Key) (expire : Int) : Option Keyspace :=
  if expire ≠ -1 then s.setExpire dbid key expire else some s

def renameGenericCommand (settings : Settings) (clock : Clock) (nx : Bool) (src dst : Key) (dbid : Nat) (s : Keyspace) :
    Option (Keyspace × Bool) :=
  if src = dst then some (s, false)
  else (s.lookupKeyWrite settings clock.source dbid src).bind fun (s, found) =>
    match found with
    | none => some (s, false)
    | some o =>
      let expire := (s.dbs dbid).getExpire src
      ((s.incrRefCount o).lookupKeyWrite settings clock.target dbid dst).bind fun (s, old) =>
        if old.isSome && nx then (s.decrRefCount o).map fun s => (s, false)
        else do
          let s ← s.deleteOld dbid dst old
          let s ← s.dbAdd dbid dst o
          let s ← s.carryExpire dbid dst expire
          let s ← s.dbDelete dbid src
          some (s, true)

/-- The database that the second argument of MOVE names. -/
def selectDb (settings : Settings) (text : List UInt8) : Option Nat :=
  (ReadOnlySlave.getLongFromObject text).bind fun dbid =>
    if dbid < -2 ^ 31 ∨ 2 ^ 31 - 1 < dbid ∨ dbid < 0 ∨ settings.dbnum ≤ dbid then none else some dbid.toNat

def moveCommand (settings : Settings) (clock : Clock) (key : Key) (text : List UInt8) (srcid : Nat) (s : Keyspace) :
    Option (Keyspace × Bool) :=
  if settings.clusterEnabled then some (s, false)
  else
    match selectDb settings text with
    | none => some (s, false)
    | some dst =>
      if srcid = dst then some (s, false)
      else (s.lookupKeyWrite settings clock.source srcid key).bind fun (s, found) =>
        match found with
        | none => some (s, false)
        | some o => (s.lookupKeyWrite settings clock.target dst key).bind fun (s, old) =>
          if old.isSome then some (s, false)
          else do
            let s ← s.dbAdd dst key o
            let s ← (s.incrRefCount o).dbDelete srcid key
            some (s, true)

inductive Transfer where
  | rename (nx : Bool) (dbid : Nat) (src dst : Key)
  | move (srcid : Nat) (key : Key) (text : List UInt8)

def transfer (settings : Settings) (clock : Clock) (s : Keyspace) : Transfer → Option (Keyspace × Bool)
  | .rename nx dbid src dst => s.renameGenericCommand settings clock nx src dst dbid
  | .move srcid key text => s.moveCommand settings clock key text srcid

abbrev Place := Nat × Key

def view (s : Keyspace) (place : Place) : Option Nat × Option Int :=
  ((s.dbs place.1).dict.lookup place.2, (s.dbs place.1).expires.lookup place.2)

def Transfer.source : Transfer → Place
  | .rename _ dbid src _ => (dbid, src)
  | .move srcid key _ => (srcid, key)

def Transfer.target (settings : Settings) : Transfer → Place
  | .rename _ dbid _ dst => (dbid, dst)
  | .move _ key text => ((selectDb settings text).getD 0, key)

def ownReference (held : Option Nat) (o : Nat) : Nat := if held = some o then 1 else 0

structure Valid (held : Option Nat) (s : Keyspace) : Prop where
  sound : ∀ place, (s.view place).1 = none → (s.view place).2 = none
  counted : ∀ o (places : Finset Place), (∀ place ∈ places, (s.view place).1 = some o) →
    places.card + ownReference held o ≤ s.refcount o

/-- The target holds what the source held, the source is gone and no other key has changed. -/
structure Carried (before after : Keyspace) (source target : Place) : Prop where
  held : (before.view source).1.isSome = true
  same : after.view target = before.view source
  gone : after.view source = (none, none)
  others : ∀ place, place ≠ source → place ≠ target → after.view place = before.view place

/-- MOVE keeps a key that has no expire, and RENAME one whose expire is not stored as -1. -/
def Transfer.Keeps (s : Keyspace) : Transfer → Prop
  | .rename _ dbid src _ => (s.view (dbid, src)).2 ≠ some (-1)
  | .move srcid key _ => (s.view (srcid, key)).2 = none

end Keyspace

end Cplusplus.Redis
