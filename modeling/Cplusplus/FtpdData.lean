import Cplusplus.CommandKeys
import Cplusplus.Library.Decimal
import Mathlib.Data.Finmap

/-! The data connections of `ftpd.c`: the argument of PORT, the descriptors, and the listing of a
directory. -/

namespace Cplusplus.Ftpd
open Redis.CommandKeys (atoi)
open Decimal (decimal)

/-- The end of the command is its NUL. A pointer behind it has no result. -/
def strchr (cmd : List UInt8) (c : UInt8) (p : Nat) : Option (Option Nat) :=
  if cmd.length < p then none else some (if c ∈ cmd.drop p then some (p + (cmd.drop p).idxOf c) else none)

def portByte (text : List UInt8) : UInt8 := UInt8.ofInt (atoi text)

def portLoop (cmd : List UInt8) : (left cp : Nat) → List UInt8 → Option (Option (List UInt8))
  | 0, _, buff => some (some buff)
  | left + 1, cp, buff =>
    if cmd.length < cp then none
    else
      let buff := buff ++ [portByte (cmd.drop cp)]
      (strchr cmd 44 cp).bind fun found =>
        match found with
        | some cp => portLoop cmd left (cp + 1) buff
        | none => if 0 < left then some none else some (some buff)

/-- The bytes of `ip` and of `port`, or FTPD_ERR. -/
def ftpdGetPortModeIpport (cmd : List UInt8) : Option (Option (List UInt8 × List UInt8)) :=
  (strchr cmd 32 0).bind fun found =>
    match found with
    | none => some none
    | some cp => (portLoop cmd 6 (cp + 1) []).map fun buff => buff.map fun buff => (buff.take 4, buff.drop 4)

def argumentText (cmd : List UInt8) : Option (List UInt8) := if 32 ∈ cmd then some (cmd.drop (cmd.idxOf 32 + 1)) else none

def acceptedPort (cmd : List UInt8) : Option (List UInt8 × List UInt8) :=
  (argumentText cmd).bind fun text =>
    let fields := text.splitOn 44
    if 6 ≤ fields.length then some ((fields.take 4).map portByte, ((fields.drop 4).take 2).map portByte) else none

def SixNumbers (cmd fields : List UInt8) : Prop :=
  fields.length = 6 ∧ argumentText cmd = some ([44].intercalate (fields.map fun field => decimal field.toNat))

structure Stat where
  mode : UInt32
  user : Option (List UInt8)
  group : Option (List UInt8)
  size : Int
  time : Option (List UInt8)

structure Dirent where
  name : List UInt8
  stat : Option Stat

def modeText (mode : UInt32) : List UInt8 :=
  (if mode &&& 0o170000 = 0o040000 then 100 else 45) ::
    [(0o400, 114), (0o200, 119), (0o100, 120), (0o040, 114), (0o020, 119), (0o010, 120), (0o004, 114), (0o002, 119), (0o001, 120)].map
      fun (bit, c) => if mode &&& bit ≠ 0 then c else 45

def padded (width : Nat) (text : List UInt8) : List UInt8 := List.replicate (width - text.length) 32 ++ text

/-- `%8d` of the size as an `int`. -/
def sizeText (size : Int) : List UInt8 :=
  let n := (BitVec.ofInt 32 size).toInt
  padded 8 (if n < 0 then 45 :: decimal n.natAbs else decimal n.natAbs)

structure Print where
  place : Int
  size : UInt64
  text : List UInt8

/-- `snprintf` returns the length of the whole text. `off` is not kept in an `int` here. -/
def snprintf (base : Int) (len : UInt64) (text : List UInt8) (s : List Print × Int) : List Print × Int :=
  (s.1 ++ [⟨base + s.2, UInt64.ofInt (len.toNat - s.2), text⟩], s.2 + text.length)

/-- The calls for an entry at `buff + base`, and the result, which is -1 for FTPD_ERR. -/
def getFileInfo (file : Dirent) (base : Int) (len : UInt64) : List Print × Int :=
  match file.stat with
  | none => ([], -1)
  | some st =>
    let s := snprintf base len [32, 49] (snprintf base len (modeText st.mode) ([], 0))
    match st.user with
    | none => (s.1, -1)
    | some user =>
      let s := snprintf base len (32 :: padded 4 user) s
      match st.group with
      | none => (s.1, -1)
      | some group =>
        let s := snprintf base len (32 :: sizeText st.size) (snprintf base len (32 :: padded 4 group) s)
        match st.time with
        | none => (s.1, -1)
        | some time => snprintf base len (32 :: file.name ++ [13, 10]) (snprintf base len time s)

def listLoop (len : UInt64) : List Dirent → List Print → Int → List Print × Int
  | [], calls, off => (calls, off)
  | file :: dir, calls, off =>
    if file.name.head? = some 46 then listLoop len dir calls off
    else
      let (more, result) := getFileInfo file off (UInt64.ofInt (len.toNat - off))
      listLoop len dir (calls ++ more) (off + result)

def ftpdGetListStuff (dir : List Dirent) (len : UInt64) : List Print × Int := listLoop len dir [] 0

/-- The call begins in the buffer, knows how much of it is left, and writes all that it counts. -/
def Print.Inside (len : UInt64) (call : Print) : Prop :=
  0 ≤ call.place ∧ call.place ≤ len.toNat ∧ (call.size.toNat : Int) = len.toNat - call.place ∧ call.text.length < call.size.toNat

def ListsInside (dir : List Dirent) (len : UInt64) : Prop :=
  (∀ call ∈ (ftpdGetListStuff dir len).1, call.Inside len) ∧ 0 ≤ (ftpdGetListStuff dir len).2 ∧ (ftpdGetListStuff dir len).2 ≤ len.toNat

/-- What is printed of an entry, which ends where a call fails. -/
def Dirent.pieces (file : Dirent) : List (List UInt8) :=
  match file.stat with
  | none => []
  | some st =>
    [modeText st.mode, [32, 49]] ++
      match st.user with
      | none => []
      | some user =>
        (32 :: padded 4 user) ::
          match st.group with
          | none => []
          | some group =>
            [32 :: padded 4 group, 32 :: sizeText st.size] ++
              match st.time with
              | none => []
              | some time => [time, 32 :: file.name ++ [13, 10]]

def Dirent.width (file : Dirent) : Nat := (file.pieces.map List.length).sum

def Dirent.examined (file : Dirent) : Bool := file.stat.any fun st => st.user.isSome && st.group.isSome && st.time.isSome

def Dirent.advance (file : Dirent) : Int := if file.examined then file.width else -1

def advances (files : List Dirent) : Int := (files.map Dirent.advance).sum

def Fits (len : UInt64) (files : List Dirent) : Prop :=
  (∀ before file after, files = before ++ file :: after →
    0 ≤ advances before ∧ (file.width ≠ 0 → advances before + file.width < (len.toNat : Int))) ∧
  0 ≤ advances files ∧ advances files ≤ len.toNat

def shown (dir : List Dirent) : List Dirent := dir.filter fun file => file.name.head? ≠ some 46

inductive Channel where
  | listener (n : Nat)
  | accepted (n : Nat)
  | unconnected (n : Nat)
  | connected (n : Nat)
deriving DecidableEq

abbrev OpenFiles := Finmap fun _ : Int => Channel

abbrev Descriptors := (table : OpenFiles) → { fd : Int // 0 ≤ fd ∧ fd ∉ table }

structure Data where
  table : OpenFiles
  pasvFd : Int
  pasvConnfd : Int
  portFd : Int

/-- `if (fd >= 0) { Close(fd); fd = -1; }`, where `Close` ends the process if it fails. -/
def closeFd (table : OpenFiles) (fd : Int) : Option OpenFiles :=
  if 0 ≤ fd then if fd ∈ table then some (table.erase fd) else none else some table

def ftpdCloseAllFds (s : Data) : Option Data :=
  (closeFd s.table s.pasvFd).bind fun table =>
    (closeFd table s.pasvConnfd).bind fun table => (closeFd table s.portFd).map fun table => ⟨table, -1, -1, -1⟩

variable (descriptors : Descriptors)

/-- The result is what stands behind the descriptor that is returned. `accept` fails only if the
descriptor is no passive socket. -/
def ftpdGetConnfd (s : Data) : Option (Data × Option Channel) :=
  if 0 ≤ s.pasvFd then
    match s.table.lookup s.pasvFd with
    | some (.listener n) =>
      let sockfd := (descriptors s.table).1
      (closeFd (s.table.insert sockfd (.accepted n)) s.pasvFd).map fun table => (⟨table, -1, sockfd, s.portFd⟩, some (.accepted n))
    | _ => some (s, none)
  else some (s, if 0 ≤ s.pasvConnfd then s.table.lookup s.pasvConnfd else none)

def ftpdDoPasv (n : Nat) (s : Data) : Option Data :=
  (closeFd s.table s.pasvFd).map fun table =>
    { s with table := table.insert (descriptors table).1 (.listener n), pasvFd := (descriptors table).1 }

def portAccepted (cmd : List UInt8) : Bool := ((ftpdGetPortModeIpport cmd).getD none).isSome

/-- `Connect` ends the process if it fails. -/
def ftpdDoPort (n : Nat) (cmd : List UInt8) (s : Data) : Option Data :=
  (closeFd s.table s.portFd).bind fun table =>
    let portFd := (descriptors table).1
    let table := table.insert portFd (.unconnected n)
    if portAccepted cmd then some { s with table := table.insert portFd (.connected n), portFd := portFd }
    else (closeFd table portFd).map fun table => { s with table := table, portFd := -1 }

/-- A transfer is LIST, NLST, RETR or STOR; the last two may be refused before they ask for the connection. -/
inductive DataCommand where
  | pasv
  | port (cmd : List UInt8)
  | transfer (asks : Bool)
  | other

def step (n : Nat) (s : Data) : DataCommand → Option (Data × Option Channel)
  | .pasv => (ftpdDoPasv descriptors n s).map fun s => (s, none)
  | .port cmd => (ftpdDoPort descriptors n cmd s).map fun s => (s, none)
  | .transfer asks =>
    (if asks then ftpdGetConnfd descriptors s else some (s, none)).bind fun (s, got) => (ftpdCloseAllFds s).map fun s => (s, got)
  | .other => some (s, none)

/-- The connection that belongs to the last PASV or PORT since the previous transfer, if it
succeeded. The last command comes first. -/
def expected : List DataCommand → Option Channel
  | [] => none
  | .pasv :: earlier => some (.accepted earlier.length)
  | .port cmd :: earlier => if portAccepted cmd then some (.connected earlier.length) else none
  | .transfer _ :: _ => none
  | .other :: earlier => expected earlier

def ObtainsFrom : List DataCommand → Data → List DataCommand → Prop
  | _, _, [] => True
  | done, s, c :: commands =>
    ∃ t got, step descriptors done.length s c = some (t, got) ∧ (c = .transfer true → expected done = none ∨ got = expected done) ∧
      ObtainsFrom (c :: done) t commands

def Obtains (commands : List DataCommand) : Prop := ObtainsFrom descriptors [] ⟨∅, -1, -1, -1⟩ commands

/-- No transfer asks for a connection when the last PASV or PORT since the previous transfer is a PORT that succeeded. -/
def Passive : List DataCommand → List DataCommand → Prop
  | _, [] => True
  | done, c :: commands => (c = .transfer true → ∀ n, expected done ≠ some (.connected n)) ∧ Passive (c :: done) commands

end Cplusplus.Ftpd
