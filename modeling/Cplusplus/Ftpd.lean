import Cplusplus.Library.Buffered
import Mathlib.Data.List.Basic

/-! The control connection of `ftpd.c`: how a request finds its handler, the login, and where each
handler checks it. What a handler does after the check is left out. None of it changes
`ftpd_cur_user`. -/

namespace Cplusplus.Ftpd

structure User where
  user : List UInt8
  pass : List UInt8
deriving DecidableEq

/-- "anonymous" and "ftp" have no password, "dengxiayehu" has "123456". -/
def ftpdUsers : List User :=
  [⟨[97, 110, 111, 110, 121, 109, 111, 117, 115], []⟩, ⟨[102, 116, 112], []⟩,
    ⟨[100, 101, 110, 103, 120, 105, 97, 121, 101, 104, 117], [49, 50, 51, 52, 53, 54]⟩]

inductive Handler where
  | auth | user | pass | pwd | cwd | list | mkd | syst | size | dele | rmd | type | retr | stor | nlst | pasv | port | quit
deriving DecidableEq

/-- AUTH, USER, PASS, PWD, XPWD, CWD, LIST, MKD, XMKD, SYST, SIZE, DELE, RMD, TYPE, RETR, STOR,
NLST, PASV, PORT and QUIT -/
def ftpdCmds : List (List UInt8 × Handler) :=
  [([65, 85, 84, 72], .auth), ([85, 83, 69, 82], .user), ([80, 65, 83, 83], .pass), ([80, 87, 68], .pwd),
    ([88, 80, 87, 68], .pwd), ([67, 87, 68], .cwd), ([76, 73, 83, 84], .list), ([77, 75, 68], .mkd),
    ([88, 77, 75, 68], .mkd), ([83, 89, 83, 84], .syst), ([83, 73, 90, 69], .size), ([68, 69, 76, 69], .dele),
    ([82, 77, 68], .rmd), ([84, 89, 80, 69], .type), ([82, 69, 84, 82], .retr), ([83, 84, 79, 82], .stor),
    ([78, 76, 83, 84], .nlst), ([80, 65, 83, 86], .pasv), ([80, 79, 82, 84], .port), ([81, 85, 73, 84], .quit)]

structure Server where
  ftpdCurUser : Option User
  ftpdQuitFlag : Bool
deriving DecidableEq

/-- A response, with the text that is formatted into it, or the part of a handler after
FTPD_CHECK_LOGIN. -/
inductive Act where
  | resp (num : Nat) (text : String)
  | body (handler : Handler) (argument : Option (List UInt8))
deriving DecidableEq

def argument (cmd : List UInt8) : Option (List UInt8) :=
  match cmd.dropWhile (· ≠ 32) with
  | [] => none
  | _ :: rest => some rest

def ftpdDoUser (s : Server) (cmd : List UInt8) : Server × List Act :=
  match argument cmd with
  | none => (s, [.resp 550 "Username blank."])
  | some name =>
    let s :=
      match ftpdUsers.find? fun u => u.user = name with
      | some user => { s with ftpdCurUser := some user }
      | none => s
    if s.ftpdCurUser.isNone then (s, [.resp 550 "User is not found."])
    else (s, [.resp 331 "Please sepcify the password."])

def passwordRight (user : User) (password : List UInt8) : Bool := user.pass.isEmpty || password = user.pass

def ftpdDoPass (s : Server) (cmd : List UInt8) : Server × List Act :=
  match s.ftpdCurUser, argument cmd with
  | some user, some password =>
    if passwordRight user password then (s, [.resp 230 ""])
    else ({ s with ftpdCurUser := none }, [.resp 530 "Login incorrect."])
  | _, _ => ({ s with ftpdCurUser := none }, [.resp 530 "Login incorrect."])

def ftpdCheckLogin (s : Server) (rest : Server × List Act) : Server × List Act :=
  if s.ftpdCurUser.isNone then (s, [.resp 530 "User haven't logged in"]) else rest

/-- MKD, RMD and TYPE look for their argument before they check the login. -/
def checkedAfterArgument (s : Server) (handler : Handler) (cmd : List UInt8) (num : Nat) (missing : String) : Server × List Act :=
  match argument cmd with
  | some arg => ftpdCheckLogin s (s, [.body handler (some arg)])
  | none => (s, [.resp num missing])

def Handler.run (handler : Handler) (s : Server) (cmd : List UInt8) : Server × List Act :=
  match handler with
  | .auth => (s, [.resp 530 "Please login with USER and PASS."])
  | .user => ftpdDoUser s cmd
  | .pass => ftpdDoPass s cmd
  | .mkd => checkedAfterArgument s .mkd cmd 550 "Missing directory name."
  | .rmd => checkedAfterArgument s .rmd cmd 550 "Missing directory name."
  | .type => checkedAfterArgument s .type cmd 500 "Missing type mode."
  | .quit => ftpdCheckLogin s ({ s with ftpdQuitFlag := true }, [.body .quit (argument cmd)])
  | handler => ftpdCheckLogin s (s, [.body handler (argument cmd)])

/-- The bytes before the first zero byte, without the end of the line. A text of one byte or none
is invalid, or else unsupported, by what is in the memory before it. -/
def requestLine (buff : List UInt8) : Option (List UInt8) :=
  let text := buff.takeWhile (· ≠ 0)
  if [13, 10] <:+ text then some (text.take (text.length - 2)) else none

def dispatch (buff : List UInt8) : Option (Handler × List UInt8) :=
  (requestLine buff).bind fun cmd =>
    (ftpdCmds.find? fun entry => entry.1 = cmd.takeWhile (· ≠ 32)).map fun entry => (entry.2, cmd)

def ftpdDoRequest (s : Server) (buff : List UInt8) : Server × List Act :=
  match dispatch buff with
  | some (handler, cmd) => handler.run s cmd
  | none => (s, [.resp 500 (if (requestLine buff).isSome then "Unsupported cmd." else "Invalid cmd.")])

def Server.start : Server := ⟨none, false⟩

/-- The requests that are handled, each with the state before it and what is done for it. The last
request is the last one, or the one that set `ftpd_quit_flag`. -/
def ftpdCtrlConnHandler (s : Server) : List (List UInt8) → List (Server × List UInt8 × List Act)
  | [] => []
  | buff :: rest =>
    let (after, acts) := ftpdDoRequest s buff
    (s, buff, acts) :: if after.ftpdQuitFlag then [] else ftpdCtrlConnHandler after rest

/-- The request is a USER or a PASS command. -/
def isUser (buff : List UInt8) : Bool := (dispatch buff).any fun (handler, _) => handler = .user

def isPass (buff : List UInt8) : Bool := (dispatch buff).any fun (handler, _) => handler = .pass

/-- A PASS command with the password of the user that is current. -/
def accepts (s : Server) (buff : List UInt8) : Bool :=
  isPass buff && (dispatch buff).any fun (_, cmd) =>
    s.ftpdCurUser.any fun user => (argument cmd).any fun password => passwordRight user password

/-- The handler comes to FTPD_CHECK_LOGIN for this line. -/
def Handler.checksLogin (handler : Handler) (cmd : List UInt8) : Bool :=
  match handler with
  | .auth | .user | .pass => false
  | .mkd | .rmd | .type => (argument cmd).isSome
  | _ => true

def needsLogin (buff : List UInt8) : Bool := (dispatch buff).any fun (handler, cmd) => handler.checksLogin cmd

def executed (acts : List Act) : Bool :=
  acts.any fun act =>
    match act with
    | .body _ _ => true
    | .resp _ _ => false

/-- A PASS was accepted since the last USER. -/
def loggedIn (trace : List (Server × List UInt8 × List Act)) : Bool :=
  trace.foldl (fun accepted (s, buff, _) => if isUser buff then false else accepted || accepts s buff) false

/-- The last of the USER and PASS commands is a PASS. -/
def passLast (requests : List (List UInt8)) : Bool :=
  requests.foldl (fun last buff => if isUser buff then false else last || isPass buff) false

def Protected (requests : List (List UInt8)) : Prop :=
  ∀ before s buff acts after, ftpdCtrlConnHandler .start requests = before ++ (s, buff, acts) :: after →
    executed acts = true → loggedIn before = true

/-- No command that checks the login comes between a USER and the PASS for it while a user is set. -/
def PassFollowsUser (requests : List (List UInt8)) : Prop :=
  ∀ before s buff acts after, ftpdCtrlConnHandler .start requests = before ++ (s, buff, acts) :: after →
    needsLogin buff = true → s.ftpdCurUser.isSome = true → passLast (before.map fun (_, buff, _) => buff) = true

/-! The stream of commands on the control connection of `ftpd.c`, however it is cut into reads, and
the bytes of `line` that a request looks at. -/

section

/-- MAXLINE, the size of `line` -/
def maxline : Nat := 1024

structure Command where
  text : List UInt8
  short : text.length < maxline
  single : ¬ [13, 10] <:+: text

def Command.line (command : Command) : List UInt8 := command.text ++ [13, 10]

def sentLines (commands : List Command) : List UInt8 := (commands.map Command.line).flatten

def requestString (buff : List UInt8) : List UInt8 := buff.takeWhile (· ≠ 0)

def inBounds (buff : List UInt8) : Bool :=
  buff.length < maxline && !(requestString buff).isEmpty && requestString buff ≠ [10]

def ftpdDoLine (s : Server) (cmd : List UInt8) : Server × List Act :=
  match (ftpdCmds.find? fun entry => entry.1 = cmd.takeWhile (· ≠ 32)).map fun entry => entry.2 with
  | some handler => handler.run s cmd
  | none => (s, [.resp 500 "Unsupported cmd."])

def served (s : Server) : List Command → List Command
  | [] => []
  | command :: commands =>
    command :: if (ftpdDoLine s command.text).1.ftpdQuitFlag then [] else served (ftpdDoLine s command.text).1 commands

/-- Each command is dispatched once, in order and unaltered, without an access outside the bounds. -/
structure Dispatched (commands : List Command) (reads : List (List UInt8)) : Prop where
  bounds : ∀ entry ∈ ftpdCtrlConnHandler .start reads, inBounds entry.2.1 = true
  lines : ((ftpdCtrlConnHandler .start reads).map fun entry => requestLine entry.2.1) =
    (served .start commands).map fun command => some command.text

structure Aligned (commands : List Command) (reads : List (List UInt8)) : Prop where
  whole : (reads.take (served .start commands).length).map requestString = (served .start commands).map Command.line
  room : ∀ buff ∈ reads.take (served .start commands).length, buff.length < maxline

end

/-! The table of child processes in `ftpd.c`: the main loop adds a child after its fork, and the
handler of SIGCHLD collects the ones that have exited. The handler runs between two statements of
the main loop. -/

/-- MAX_CHIHLD_NUM -/
def maxChildNum : Nat := 10

structure Table where
  pids : List Int
  ftpdNchild : Int
deriving DecidableEq

def replaceFirst (old new : Int) : List Int → Option (List Int)
  | [] => none
  | slot :: slots => if slot = old then some (new :: slots) else (replaceFirst old new slots).map (slot :: ·)

/-- The result FTPD_ERR is none. -/
def add2pids (pid : Int) (table : Table) : Option Table :=
  (replaceFirst (-1) pid table.pids).map fun pids => ⟨pids, table.ftpdNchild + 1⟩

def deleFromPids (pid : Int) (table : Table) : Table :=
  match replaceFirst pid (-1) table.pids with
  | some pids => ⟨pids, table.ftpdNchild - 1⟩
  | none => table

/-- The processes that get SIGQUIT. `Kill` ends the server at the first one that cannot be signalled. -/
def ftpdSigInt (kill : Int → Bool) (table : Table) : List Int :=
  ((table.pids.take table.ftpdNchild.toNat).filter (· ≠ -1)).takeWhile kill

structure System where
  table : Table
  forked : Option Int
  running : List Int
  exited : List Int
  added : List Int
deriving DecidableEq

inductive Event where
  | fork (pid : Int)
  | add
  | exit (pid : Int)
  | sigchld

def System.start : System := ⟨⟨List.replicate (maxChildNum - 1) (-1), 0⟩, none, [], [], []⟩

def System.child (s : System) (pid : Int) : Prop := pid ∈ s.running ∨ pid ∈ s.exited

instance (s : System) (pid : Int) : Decidable (s.child pid) := inferInstanceAs (Decidable (_ ∨ _))

def System.fork (s : System) (pid : Int) : System :=
  if s.forked.isSome ∨ pid ≤ 0 ∨ s.child pid then s
  else { s with forked := some pid, running := pid :: s.running }

def System.add (s : System) : System :=
  match s.forked with
  | none => s
  | some pid =>
    match add2pids pid s.table with
    | none => { s with forked := none }
    | some table => { s with table, forked := none, added := if s.child pid then s.added ++ [pid] else s.added }

def System.exit (s : System) (pid : Int) : System :=
  if pid ∈ s.running then { s with running := s.running.erase pid, exited := pid :: s.exited } else s

/-- What `waitpid` returns when there is no child left to reap. -/
def System.waitpidLast (s : System) : Int := if s.running.isEmpty then -1 else 0

def System.ftpdSigChld (s : System) : System :=
  { s with table := deleFromPids s.waitpidLast s.table, exited := [], added := s.added.filter (· ∉ s.exited) }

def System.step (s : System) : Event → System
  | .fork pid => s.fork pid
  | .add => s.add
  | .exit pid => s.exit pid
  | .sigchld => s.ftpdSigChld

def Table.recorded (table : Table) : List Int := table.pids.filter (· ≠ -1)

structure Accounted (s : System) : Prop where
  entries : s.table.recorded.Perm s.added
  nchild : s.table.ftpdNchild = s.table.recorded.length
  /-- SIGQUIT can be sent to every child that is not reaped. -/
  killed : ∀ kill : Int → Bool, (∀ pid, s.child pid → kill pid = true) →
    ∀ pid ∈ s.running, pid ∈ s.table.recorded → pid ∈ Ftpd.ftpdSigInt kill s.table

/-- A child is put into the table before it is reaped, and a SIGCHLD reaps none that is in the
table and leaves another child. A full table is as it was after either. -/
def Reapable (s : System) : Event → Prop
  | .fork _ => True
  | .add => ∀ pid, s.forked = some pid → s.child pid ∨ -1 ∉ s.table.pids
  | .exit _ => True
  | .sigchld => (∀ pid ∈ s.exited, pid ∉ s.table.recorded) ∧ (s.running ≠ [] ∨ -1 ∉ s.table.pids)

end Cplusplus.Ftpd
