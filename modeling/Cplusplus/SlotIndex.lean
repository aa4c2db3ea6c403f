import Cplusplus.MoveRename
import Cplusplus.ZsetRanges

/-! The indexes of `db.c` beside the dictionaries: the expires and, in cluster mode, the skiplist from the
hash slots to the keys. A result of `none` is a failed assertion, or an access to a node or a level that
does not exist. The counts of the references to the values are left out. -/

namespace Cplusplus.Redis.SlotIndex

structure Server (V : Type) where
  dbs : Nat → Db V
  slotsToKeys : Zskiplist
  selected : Nat → Nat

structure Allocation where
  addr : UInt64
  level : Nat
  bounds : 1 ≤ level ∧ level ≤ zskiplistMaxlevel

def create (V : Type) (header : UInt64) : Server V where
  dbs := fun _ => Db.empty
  slotsToKeys := zslCreate header.toNat
  selected := fun _ => 0

variable {V : Type}

def Server.setDb (s : Server V) (dbid : Nat) (db : Db V) : Server V := { s with dbs := Function.update s.dbs dbid db }

def crc16tab : Array UInt16 :=
  #[0x0000, 0x1021, 0x2042, 0x3063, 0x4084, 0x50a5, 0x60c6, 0x70e7, 0x8108, 0x9129, 0xa14a, 0xb16b, 0xc18c, 0xd1ad, 0xe1ce, 0xf1ef,
    0x1231, 0x0210, 0x3273, 0x2252, 0x52b5, 0x4294, 0x72f7, 0x62d6, 0x9339, 0x8318, 0xb37b, 0xa35a, 0xd3bd, 0xc39c, 0xf3ff, 0xe3de,
    0x2462, 0x3443, 0x0420, 0x1401, 0x64e6, 0x74c7, 0x44a4, 0x5485, 0xa56a, 0xb54b, 0x8528, 0x9509, 0xe5ee, 0xf5cf, 0xc5ac, 0xd58d,
    0x3653, 0x2672, 0x1611, 0x0630, 0x76d7, 0x66f6, 0x5695, 0x46b4, 0xb75b, 0xa77a, 0x9719, 0x8738, 0xf7df, 0xe7fe, 0xd79d, 0xc7bc,
    0x48c4, 0x58e5, 0x6886, 0x78a7, 0x0840, 0x1861, 0x2802, 0x3823, 0xc9cc, 0xd9ed, 0xe98e, 0xf9af, 0x8948, 0x9969, 0xa90a, 0xb92b,
    0x5af5, 0x4ad4, 0x7ab7, 0x6a96, 0x1a71, 0x0a50, 0x3a33, 0x2a12, 0xdbfd, 0xcbdc, 0xfbbf, 0xeb9e, 0x9b79, 0x8b58, 0xbb3b, 0xab1a,
    0x6ca6, 0x7c87, 0x4ce4, 0x5cc5, 0x2c22, 0x3c03, 0x0c60, 0x1c41, 0xedae, 0xfd8f, 0xcdec, 0xddcd, 0xad2a, 0xbd0b, 0x8d68, 0x9d49,
    0x7e97, 0x6eb6, 0x5ed5, 0x4ef4, 0x3e13, 0x2e32, 0x1e51, 0x0e70, 0xff9f, 0xefbe, 0xdfdd, 0xcffc, 0xbf1b, 0xaf3a, 0x9f59, 0x8f78,
    0x9188, 0x81a9, 0xb1ca, 0xa1eb, 0xd10c, 0xc12d, 0xf14e, 0xe16f, 0x1080, 0x00a1, 0x30c2, 0x20e3, 0x5004, 0x4025, 0x7046, 0x6067,
    0x83b9, 0x9398, 0xa3fb, 0xb3da, 0xc33d, 0xd31c, 0xe37f, 0xf35e, 0x02b1, 0x1290, 0x22f3, 0x32d2, 0x4235, 0x5214, 0x6277, 0x7256,
    0xb5ea, 0xa5cb, 0x95a8, 0x8589, 0xf56e, 0xe54f, 0xd52c, 0xc50d, 0x34e2, 0x24c3, 0x14a0, 0x0481, 0x7466, 0x6447, 0x5424, 0x4405,
    0xa7db, 0xb7fa, 0x8799, 0x97b8, 0xe75f, 0xf77e, 0xc71d, 0xd73c, 0x26d3, 0x36f2, 0x0691, 0x16b0, 0x6657, 0x7676, 0x4615, 0x5634,
    0xd94c, 0xc96d, 0xf90e, 0xe92f, 0x99c8, 0x89e9, 0xb98a, 0xa9ab, 0x5844, 0x4865, 0x7806, 0x6827, 0x18c0, 0x08e1, 0x3882, 0x28a3,
    0xcb7d, 0xdb5c, 0xeb3f, 0xfb1e, 0x8bf9, 0x9bd8, 0xabbb, 0xbb9a, 0x4a75, 0x5a54, 0x6a37, 0x7a16, 0x0af1, 0x1ad0, 0x2ab3, 0x3a92,
    0xfd2e, 0xed0f, 0xdd6c, 0xcd4d, 0xbdaa, 0xad8b, 0x9de8, 0x8dc9, 0x7c26, 0x6c07, 0x5c64, 0x4c45, 0x3ca2, 0x2c83, 0x1ce0, 0x0cc1,
    0xef1f, 0xff3e, 0xcf5d, 0xdf7c, 0xaf9b, 0xbfba, 0x8fd9, 0x9ff8, 0x6e17, 0x7e36, 0x4e55, 0x5e74, 0x2e93, 0x3eb2, 0x0ed1, 0x1ef0]

def crc16 (buf : List UInt8) : UInt16 :=
  buf.foldl (fun crc c => (crc <<< 8) ^^^ crc16tab.getD (((crc >>> 8) ^^^ c.toUInt16) &&& 0x00FF).toNat 0) 0

example : crc16 [49, 50, 51, 52, 53, 54, 55, 56, 57] = 0x31C3 := by decide +kernel

/-- If there is a tag between `{` and `}`, only the tag is hashed. -/
def keyHashSlot (key : Key) : UInt32 :=
  let s := (key.takeWhile (· ≠ 123)).length
  if s = key.length then (crc16 key &&& 0x3FFF).toUInt32
  else
    let rest := key.drop (s + 1)
    let tag := rest.takeWhile (· ≠ 125)
    if tag.length = rest.length ∨ tag = [] then (crc16 key &&& 0x3FFF).toUInt32 else (crc16 tag &&& 0x3FFF).toUInt32

def slotScore (slot : UInt32) : Binary64 := Binary64.ofNat slot.toNat

def slotToKeyAdd (alloc : Allocation) (s : Server V) (key : Key) : Option (Server V) :=
  if (s.slotsToKeys.heap alloc.addr.toNat).isSome then none
  else (zslInsert s.slotsToKeys alloc.addr.toNat alloc.level (slotScore (keyHashSlot key)) key).map fun zsl =>
    { s with slotsToKeys := zsl }

def slotToKeyDel (s : Server V) (key : Key) : Option (Server V) :=
  (zslDelete s.slotsToKeys (slotScore (keyHashSlot key)) key).map fun r => { s with slotsToKeys := r.1 }

def slotToKeyFlush (header : UInt64) (s : Server V) : Server V := { s with slotsToKeys := zslCreate header.toNat }

def slotRange (slot : UInt32) : Zrangespec := ⟨slotScore slot, slotScore slot, false, false⟩

def getKeysFrom (zsl : Zskiplist) (slot : UInt32) : Nat → Option Nat → Option (List Key)
  | 0, _ => some []
  | _ + 1, none => some []
  | count + 1, some x => do
    let node ← zsl.heap x
    if node.score.eq (slotScore slot) then
      let key ← node.obj
      let l ← levelAt zsl.heap x 0
      let keys ← getKeysFrom zsl slot count l.forward
      return key :: keys
    else return []

def getKeysInSlot (s : Server V) (slot count : UInt32) : Option (List Key) :=
  (zslFirstInRange s.slotsToKeys (slotRange slot)).bind (getKeysFrom s.slotsToKeys slot count.toNat)

/-- An int is an unsigned int in the end, so the residue is taken of the result. -/
def countKeysInSlot (s : Server V) (slot : UInt32) : Option Nat := do
  match ← zslFirstInRange s.slotsToKeys (slotRange slot) with
  | none => return 0
  | some first =>
    let node ← s.slotsToKeys.heap first
    let obj ← node.obj
    let rank ← zslGetRank s.slotsToKeys node.score obj
    let count : Int := s.slotsToKeys.length - ((rank : Int) - 1)
    match ← zslLastInRange s.slotsToKeys (slotRange slot) with
    | none => return uint count
    | some last =>
      let node ← s.slotsToKeys.heap last
      let obj ← node.obj
      let rank ← zslGetRank s.slotsToKeys node.score obj
      return uint (count - (s.slotsToKeys.length - rank))

variable (settings : Settings)

def dbAdd (alloc : Allocation) (s : Server V) (dbid : Nat) (key : Key) (val : V) : Option (Server V) := do
  let db ← (s.dbs dbid).add key val
  if settings.clusterEnabled then slotToKeyAdd alloc (s.setDb dbid db) key else return s.setDb dbid db

def dbOverwrite (s : Server V) (dbid : Nat) (key : Key) (val : V) : Option (Server V) :=
  ((s.dbs dbid).overwrite key val).map (s.setDb dbid)

def dbDelete (s : Server V) (dbid : Nat) (key : Key) : Option (Server V) :=
  let after := s.setDb dbid ((s.dbs dbid).delete key)
  if ((s.dbs dbid).lookupKey key).isSome && settings.clusterEnabled then slotToKeyDel after key else some after

def setExpire (s : Server V) (dbid : Nat) (key : Key) (when : Int) : Option (Server V) :=
  ((s.dbs dbid).setExpire key when).map (s.setDb dbid)

def removeExpire (s : Server V) (dbid : Nat) (key : Key) : Option (Server V) :=
  ((s.dbs dbid).removeExpire key).map (s.setDb dbid)

def expireIfNeeded (now : Int) (s : Server V) (dbid : Nat) (key : Key) : Option (Server V) :=
  let when := (s.dbs dbid).getExpire key
  if when < 0 then some s
  else if settings.loading then some s
  else if settings.masterhost then some s
  else if now ≤ when then some s
  else dbDelete settings s dbid key

def lookupKeyWrite (now : Int) (s : Server V) (dbid : Nat) (key : Key) : Option (Server V × Option V) :=
  (expireIfNeeded settings now s dbid key).map fun s => (s, (s.dbs dbid).lookupKey key)

def activeExpireCycleTryExpire (now : Int) (s : Server V) (dbid : Nat) (key : Key) : Option (Server V) :=
  match (s.dbs dbid).expires.lookup key with
  | none => some s
  | some t => if t < now then dbDelete settings s dbid key else some s

def selectCommand (s : Server V) (c : Nat) (text : List UInt8) : Server V :=
  match ReadOnlySlave.getLongFromObject text with
  | none => s
  | some id =>
    if settings.clusterEnabled ∧ id ≠ 0 then s
    -- the argument of `selectDb` is an int
    else if id.bmod (2 ^ 32) < 0 ∨ settings.dbnum ≤ id.bmod (2 ^ 32) then s
    else { s with selected := Function.update s.selected c (id.bmod (2 ^ 32)).toNat }

def deleteOld (s : Server V) (dbid : Nat) (key : Key) (old : Option V) : Option (Server V) :=
  if old.isSome then dbDelete settings s dbid key else some s

def carryExpire (s : Server V) (dbid : Nat) (key : Key) (expire : Int) : Option (Server V) :=
  if expire ≠ -1 then setExpire s dbid key expire else some s

def renameGenericCommand (clock : Keyspace.Clock) (alloc : Allocation) (nx : Bool) (src dst : Key) (dbid : Nat) (s : Server V) :
    Option (Server V) :=
  if src = dst then some s
  else (lookupKeyWrite settings clock.source s dbid src).bind fun (s, found) =>
    match found with
    | none => some s
    | some o =>
      let expire := (s.dbs dbid).getExpire src
      (lookupKeyWrite settings clock.target s dbid dst).bind fun (s, old) =>
        if old.isSome && nx then some s
        else do
          let s ← deleteOld settings s dbid dst old
          let s ← dbAdd settings alloc s dbid dst o
          let s ← carryExpire s dbid dst expire
          dbDelete settings s dbid src

def moveCommand (clock : Keyspace.Clock) (alloc : Allocation) (key : Key) (text : List UInt8) (srcid : Nat) (s : Server V) :
    Option (Server V) :=
  if settings.clusterEnabled then some s
  else
    match Keyspace.selectDb settings text with
    | none => some s
    | some dst =>
      if srcid = dst then some s
      else (lookupKeyWrite settings clock.source s srcid key).bind fun (s, found) =>
        match found with
        | none => some s
        | some o => (lookupKeyWrite settings clock.target s dst key).bind fun (s, old) =>
          if old.isSome then some s
          else do
            let s ← dbAdd settings alloc s dst key o
            dbDelete settings s srcid key

def flushdbCommand (header : UInt64) (dbid : Nat) (s : Server V) : Server V :=
  let s := s.setDb dbid Db.empty
  if settings.clusterEnabled then slotToKeyFlush header s else s

/-- `emptyDb`, which is what matters of FLUSHALL. -/
def emptyDb (header : UInt64) (s : Server V) : Server V :=
  let s := { s with dbs := fun dbid => if dbid < settings.dbnum then Db.empty else s.dbs dbid }
  if settings.clusterEnabled then slotToKeyFlush header s else s

def delKeysFrom (slot : UInt32) : Nat → Server V → Option Nat → Option (Server V × Nat)
  | _, s, none => some (s, 0)
  | 0, _, some _ => none
  | fuel + 1, s, some x => do
    let node ← s.slotsToKeys.heap x
    if node.score.eq (slotScore slot) then
      let key ← node.obj
      let l ← levelAt s.slotsToKeys.heap x 0
      let s ← dbDelete settings s 0 key
      let (s, j) ← delKeysFrom slot fuel s l.forward
      return (s, j + 1)
    else return (s, 0)

/-- The count is an int, and returned as an unsigned int. -/
def delKeysInSlot (s : Server V) (slot : UInt32) : Option (Server V × Nat) := do
  let first ← zslFirstInRange s.slotsToKeys (slotRange slot)
  let (s, j) ← delKeysFrom settings slot (s.slotsToKeys.length + 1) s first
  return (s, uint j)

inductive Op (V : Type) where
  | select (c : Nat) (text : List UInt8)
  | dbAdd (c : Nat) (alloc : Allocation) (key : Key) (val : V)
  | dbOverwrite (c : Nat) (key : Key) (val : V)
  | dbDelete (c : Nat) (key : Key)
  | setExpire (c : Nat) (key : Key) (when : Int)
  | removeExpire (c : Nat) (key : Key)
  | expireIfNeeded (now : Int) (c : Nat) (key : Key)
  | activeExpire (now : Int) (dbid : Nat) (key : Key)
  | rename (clock : Keyspace.Clock) (alloc : Allocation) (nx : Bool) (c : Nat) (src dst : Key)
  | move (clock : Keyspace.Clock) (alloc : Allocation) (c : Nat) (key : Key) (text : List UInt8)
  | flushdb (header : UInt64) (c : Nat)
  | flushall (header : UInt64)
  | delKeysInSlot (slot : UInt32)

def step (s : Server V) : Op V → Option (Server V)
  | .select c text => some (selectCommand settings s c text)
  | .dbAdd c alloc key val => SlotIndex.dbAdd settings alloc s (s.selected c) key val
  | .dbOverwrite c key val => SlotIndex.dbOverwrite s (s.selected c) key val
  | .dbDelete c key => SlotIndex.dbDelete settings s (s.selected c) key
  | .setExpire c key when => SlotIndex.setExpire s (s.selected c) key when
  | .removeExpire c key => SlotIndex.removeExpire s (s.selected c) key
  | .expireIfNeeded now c key => SlotIndex.expireIfNeeded settings now s (s.selected c) key
  | .activeExpire now dbid key => activeExpireCycleTryExpire settings now s dbid key
  | .rename clock alloc nx c src dst => renameGenericCommand settings clock alloc nx src dst (s.selected c) s
  | .move clock alloc c key text => moveCommand settings clock alloc key text (s.selected c) s
  | .flushdb header c => some (flushdbCommand settings header (s.selected c) s)
  | .flushall header => some (emptyDb settings header s)
  | .delKeysInSlot slot => if settings.clusterEnabled then (SlotIndex.delKeysInSlot settings s slot).map Prod.fst else some s

def run (s : Server V) (ops : List (Op V)) : Option (Server V) := ops.foldlM (step settings) s

end Cplusplus.Redis.SlotIndex
