import Cplusplus.Library.Buffered
import Cplusplus.Library.Decimal

/-! The address of a passive connection: the 227 reply of `ftpd_do_pasv` in `ftpd.c` and the way
`ftp_do_pasv` in `ftp.c` reads it. An access outside a buffer has no result. -/

namespace Cplusplus.Ftp

section
open Decimal (decimal)

def maxline : Nat := 1024

/-- "227 Entering Passive Mode (" -/
def enteringPassive : List UInt8 :=
  [50, 50, 55, 32, 69, 110, 116, 101, 114, 105, 110, 103, 32, 80, 97, 115, 115, 105, 118, 101, 32, 77, 111, 100, 101, 32, 40]

def ftpdPasvFields (ip : UInt32) (port : UInt16) : List Nat :=
  [(ip >>> 24 &&& 0xff).toNat, (ip >>> 16 &&& 0xff).toNat, (ip >>> 8 &&& 0xff).toNat, (ip &&& 0xff).toNat,
    (port >>> 8 &&& 0xff).toNat, (port &&& 0xff).toNat]

/-- `ftpd_send_resp` with the text for 227, whose end is ").\r\n". -/
def ftpdDoPasv (ip : UInt32) (port : UInt16) : List UInt8 :=
  (enteringPassive ++ [44].intercalate ((ftpdPasvFields ip port).map decimal) ++ [41, 46, 13, 10]).take (maxline - 1)

def recv (reply line : List UInt8) : List UInt8 := (reply ++ line.drop reply.length).take line.length

def isDigitChar (c : UInt8) : Bool := 48 ≤ c && c ≤ 57

def getreplyScan (ftpCode : Nat) (calcCodeflg : Bool) : List UInt8 → Option (Nat × List UInt8)
  | [] => none
  | c :: rest =>
    if c = 13 then
      -- The byte after it is looked at, whatever it is.
      if rest.isEmpty then none else some (ftpCode, 0 :: rest)
    else
      let digit := isDigitChar c && calcCodeflg
      (getreplyScan (if digit then ftpCode * 10 + (c.toNat - 48) else ftpCode)
        (calcCodeflg && !(digit && !rest.head?.any isDigitChar)) rest).map fun (code, line) => (code, c :: line)

def getreply (reply line : List UInt8) : Option (Nat × List UInt8) := getreplyScan 0 true (recv reply line)

def strchrNext (c : UInt8) : List UInt8 → Option (List UInt8)
  | [] => none
  | d :: rest => if d = c then some rest else if d = 0 then none else strchrNext c rest

def pasvAddress (commaCounter i : Nat) (pasvIpAddr : List UInt8) : List UInt8 → Option (List UInt8 × Nat × List UInt8)
  | [] => if commaCounter < 4 then none else some ([], i, pasvIpAddr)
  | c :: rest =>
    if commaCounter < 4 then
      if i < pasvIpAddr.length then
        if c = 44 then pasvAddress (commaCounter + 1) (i + 1) (pasvIpAddr.set i 46) rest
        else pasvAddress commaCounter (i + 1) (pasvIpAddr.set i c) rest
      else none
    else some (c :: rest, i, pasvIpAddr)

def digitOf (c : UInt8) : UInt16 := UInt16.ofInt (c.toInt8.toInt - 48)

def pasvNumber (stop : UInt8) (number : UInt16) : List UInt8 → Option (UInt16 × List UInt8)
  | [] => none
  | c :: rest => if c = stop then some (number, c :: rest) else pasvNumber stop (number * 10 + digitOf c) rest

def pasvPort (p : List UInt8) : Option UInt16 :=
  (pasvNumber 44 0 p).bind fun (high, p) =>
    (pasvNumber 41 0 p.tail).map fun (tmp, _) => high * 256 + tmp

def ftpDoPasv (reply line pasvIpAddr : List UInt8) : Option (List UInt8 × UInt16) :=
  (getreply reply line).bind fun (_, line) =>
    (strchrNext 40 line).bind fun p =>
      (pasvAddress 0 0 pasvIpAddr p).bind fun (p, i, pasvIpAddr) =>
        if 0 < i ∧ i ≤ pasvIpAddr.length then (pasvPort p).map fun port => (pasvIpAddr.set (i - 1) 0, port) else none

def octets (ip : UInt32) : List Nat := [ip.toNat / 2 ^ 24, ip.toNat / 2 ^ 16 % 256, ip.toNat / 2 ^ 8 % 256, ip.toNat % 256]

def dotted (ip : UInt32) : List UInt8 := [46].intercalate ((octets ip).map decimal)

end

/-! The transfer of a file in ASCII mode: the sender puts a CR before each LF, and the receiver
takes it away. The counters of the progress display and the count of bare line feeds are left out. -/

section
open Buffered (Split Reader)

def asciiBlock (block : List UInt8) : List UInt8 := block.flatMap fun c => if c = 10 then [13, c] else [c]

def asciiSend {half : Nat} {file : List UInt8} (blocks : Split half file) : List UInt8 := (blocks.blocks.map asciiBlock).flatten

/-- BUFSIZ of the server -/
def bufsiz : Nat := 8192

/-- BUFSIZE of the client -/
def bufsize : Nat := 4096

/-- RETR of the server. `fread` gets at most half as many bytes as `buff` can hold. -/
def ftpdDoRetr {file : List UInt8} (blocks : Split (bufsiz / 2) file) : List UInt8 := asciiSend blocks

def ftpDoPut {file : List UInt8} (blocks : Split (bufsize / 2) file) : List UInt8 := asciiSend blocks

def read1 (c : UInt8) (r : Reader UInt8) : UInt8 × Reader UInt8 := r.next.getD (c, r)

/-- One character, up to `contin`. A `char` is signed, so that 255 is EOF. -/
def asciiChar : Nat → UInt8 → Reader UInt8 → List UInt8 → Option (Reader UInt8 × List UInt8)
  | 0, _, _, _ => none
  | fuel + 1, c, r, fp =>
    if c = 13 then
      let (c, r) := read1 c r
      if c ≠ 10 then
        if c = 0 then some (r, fp ++ [13])
        else if c = 255 then some (r, fp ++ [13])
        else asciiChar fuel c r (fp ++ [13])
      else asciiChar fuel c r fp
    else some (r, fp ++ [c])

def asciiReceive : Nat → Reader UInt8 → List UInt8 → Option (List UInt8)
  | 0, _, _ => none
  | fuel + 1, r, fp =>
    match r.next with
    | none => some fp
    | some (c, r) => (asciiChar fuel c r fp).bind fun (r, fp) => asciiReceive fuel r fp

/-- MAXLINE, the size of the buffers of `Read1` and `Recv1` -/
def readBuf : Nat := 1024

def ftpDoGet {sent : List UInt8} (fuel : Nat) (reads : Split readBuf sent) : Option (List UInt8) := asciiReceive fuel reads.reader []

/-- STOR of the server -/
def ftpdDoStor {sent : List UInt8} (fuel : Nat) (reads : Split readBuf sent) : Option (List UInt8) := asciiReceive fuel reads.reader []

/-- What a receiver makes of the bytes that arrive. It never ends after a CR that is the last byte. -/
def asciiDecode : List UInt8 → Option (List UInt8)
  | [] => some []
  | c :: rest =>
    if c = 13 then
      match rest with
      | [] => none
      | next :: tail =>
        if next = 10 then (asciiDecode tail).map (10 :: ·)
        else if next = 0 ∨ next = 255 then (asciiDecode tail).map (13 :: ·)
        else (asciiDecode (next :: tail)).map (13 :: ·)
    else (asciiDecode rest).map (c :: ·)

def crFollowed : List UInt8 → Bool
  | [] => true
  | c :: rest => (c ≠ 13 || rest.head?.any fun next => next ≠ 0 && next ≠ 255) && crFollowed rest

end

end Cplusplus.Ftp
