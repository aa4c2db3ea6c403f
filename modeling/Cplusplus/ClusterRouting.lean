import Cplusplus.Cluster
import Cplusplus.CommandKeys
import Cplusplus.SlotIndex

/-! `getNodeByQuery` of `cluster.c`: which node a request is for, from the slots of its keys. -/

namespace Cplusplus.Redis.ClusterRouting
open Cluster (ClusterState Slot)
open CommandKeys (Argv getKeysFromCommand)

instance someSlots : NeZero 16384 := ⟨by decide⟩

/-- REDIS_CLUSTER_REDIR_NONE and so on. -/
inductive Redirection where
  | no | crossSlot | unstable | ask | moved | downUnbound
deriving DecidableEq

/-- The flags REDIS_MULTI, REDIS_ASKING and REDIS_READONLY, and `mstate.commands`. -/
structure Client where
  multi : Bool
  asking : Bool
  readonly : Bool
  commands : List (Command × Argv)

variable {Addr Name : Type} [DecidableEq Addr]

/-- The node that is returned, if it is not NULL, with `*hashslot`, if it is set, and `*error_code`. -/
structure Answer (Addr : Type) where
  node : Option Addr
  hashslot : Option Slot
  errorCode : Redirection
deriving DecidableEq

/-- The local variables of the loop. `missing_keys` is an int. -/
structure Scan (Addr : Type) where
  n : Option Addr
  firstkey : Option Key
  slot : Slot
  multipleKeys : Bool
  migratingSlot : Bool
  importingSlot : Bool
  missingKeys : BitVec 32

def Scan.initial (Addr : Type) : Scan Addr := ⟨none, none, 0, false, false, false, 0⟩

/-- An error ends the loop. So does a fault of the code that finds the keys. -/
inductive Stop where
  | fault
  | error (errorCode : Redirection)

def hashSlot (key : Key) : Slot := Fin.ofNat 16384 (SlotIndex.keyHashSlot key).toNat

variable (c : ClusterState Addr Name)

def firstKey (scan : Scan Addr) (thiskey : Key) : Except Stop (Scan Addr) :=
  let slot := hashSlot thiskey
  match c.slots slot with
  | none => .error (.error .downUnbound)
  | some n =>
    let migratingSlot := decide (n = c.myself) && (c.migrating slot).isSome
    let importingSlot := !migratingSlot && (c.importing slot).isSome
    .ok { scan with firstkey := some thiskey, slot, n := some n, migratingSlot, importingSlot }

def otherKey (scan : Scan Addr) (firstkey thiskey : Key) : Except Stop (Scan Addr) :=
  if firstkey = thiskey then .ok scan
  else if scan.slot ≠ hashSlot thiskey then .error (.error .crossSlot)
  else .ok { scan with multipleKeys := true }

def Scan.countMissing (present : Key → Bool) (scan : Scan Addr) (thiskey : Key) : Scan Addr :=
  if (scan.migratingSlot || scan.importingSlot) && !present thiskey then { scan with missingKeys := scan.missingKeys + 1 } else scan

def scanKey (present : Key → Bool) (scan : Scan Addr) (thiskey : Key) : Except Stop (Scan Addr) :=
  (match scan.firstkey with
    | none => firstKey c scan thiskey
    | some firstkey => otherKey scan firstkey thiskey).map fun after => Scan.countMissing present after thiskey

def keyAt (argv : Argv) (keyindex : CommandKeys.Keys) (j : Nat) : Except Stop Key :=
  match keyindex[j]? with
  | some (some index) => if 0 ≤ index ∧ index < argv.length then .ok (argv.getD index.toNat []) else .error .fault
  | _ => .error .fault

def scanCommand (present : Key → Bool) (scan : Scan Addr) (command : Command × Argv) : Except Stop (Scan Addr) :=
  match getKeysFromCommand command.1 command.2 with
  | none => .error .fault
  | some found =>
    (List.range found.2.toNat).foldlM (fun scan j => (keyAt command.2 found.1 j).bind (scanKey c present scan)) scan

def answer (client : Client) (cmd : Command) (scan : Scan Addr) : Answer Addr :=
  match scan.n with
  | none => ⟨some c.myself, none, .no⟩
  | some n =>
    let me := c.heap c.myself
    if scan.migratingSlot ∧ scan.missingKeys ≠ 0 then ⟨c.migrating scan.slot, some scan.slot, .ask⟩
    else if scan.importingSlot ∧ (client.asking ∨ cmd.hasFlag 'k') then
      if scan.multipleKeys ∧ scan.missingKeys ≠ 0 then ⟨none, some scan.slot, .unstable⟩ else ⟨some c.myself, some scan.slot, .no⟩
    else if client.readonly ∧ cmd.hasFlag 'r' ∧ me.slave ∧ me.slaveof = some n then ⟨some c.myself, some scan.slot, .no⟩
    else ⟨some n, some scan.slot, if n ≠ c.myself then .moved else .no⟩

/-- The commands of a request are those of the transaction, for an EXEC. -/
def requestCommands (client : Client) (cmd : Command) (argv : Argv) : List (Command × Argv) :=
  if cmd = .exec then client.commands else [(cmd, argv)]

/-- The result is none if a function for the keys of a command faults. -/
def getNodeByQuery (present : Key → Bool) (client : Client) (cmd : Command) (argv : Argv) : Option (Answer Addr) :=
  if cmd = .exec ∧ !client.multi then some ⟨some c.myself, none, .no⟩
  else
    match (requestCommands client cmd argv).foldlM (scanCommand c present) (Scan.initial Addr) with
    | .ok scan => some (answer c client cmd scan)
    | .error (.error errorCode) => some ⟨none, none, errorCode⟩
    | .error .fault => none

end Cplusplus.Redis.ClusterRouting
