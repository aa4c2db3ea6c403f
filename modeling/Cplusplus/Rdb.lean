import Cplusplus.Library.Bytes
import Cplusplus.Lzf
import Cplusplus.Sds
import Cplusplus.StringObjects

/-! The strings of an RDB file, `rdb.c`. Writes do not fail. Saving gives the bytes that are
written, and loading takes the front of what is left of the file. -/

namespace Cplusplus.Redis.Rdb
open Bytes (leBytes leValue)
open CheckAof (strtol)
open Lzf (Bytes lzfCompress lzfDecompress)

inductive Failure where
  | null
  | panic
  | outside

def lenErr : Nat := 2 ^ 32 - 1

def rioRead (rdb : Bytes) (len : Nat) : Except Failure (Bytes × Bytes) :=
  if len ≤ rdb.length then .ok (rdb.take len, rdb.drop len) else .error .null

def rdbSaveLen (len : Nat) : Bytes :=
  let len := len % 2 ^ 32
  if len < 2 ^ 6 then [UInt8.ofNat len]
  else if len < 2 ^ 14 then [UInt8.ofNat (len / 256 + 64), UInt8.ofNat len]
  else 128 :: (leBytes 4 len).reverse

/-- The length, or the encoding, which it is. -/
def rdbLoadLen (rdb : Bytes) : Bool × Nat × Bytes :=
  match rdb with
  | [] => (false, lenErr, [])
  | b :: rdb =>
    let type := b.toNat / 64
    if type = 3 then (true, b.toNat % 64, rdb)
    else if type = 0 then (false, b.toNat % 64, rdb)
    else if type = 1 then
      match rdb with
      | [] => (false, lenErr, [])
      | c :: rdb => (false, b.toNat % 64 * 256 + c.toNat, rdb)
    else
      match rioRead rdb 4 with
      | .error _ => (false, lenErr, rdb)
      | .ok (len, rdb) => (false, leValue len.reverse, rdb)

/-- The number of the encoding, and the integer in two's complement. -/
def encodedAs (type width : Nat) (value : Int) : Bytes := UInt8.ofNat (192 + type) :: leBytes width (value % 2 ^ 64).toNat

def rdbEncodeInteger (value : Int) : Bytes :=
  if -2 ^ 7 ≤ value ∧ value ≤ 2 ^ 7 - 1 then encodedAs 0 1 value
  else if -2 ^ 15 ≤ value ∧ value ≤ 2 ^ 15 - 1 then encodedAs 1 2 value
  else if -2 ^ 31 ≤ value ∧ value ≤ 2 ^ 31 - 1 then encodedAs 2 4 value
  else []

def loadInteger (width : Nat) (rdb : Bytes) : Except Failure (Bytes × Bytes) := do
  let (enc, rdb) ← rioRead rdb width
  return (Sds.sdsll2str (BitVec.ofInt 64 (BitVec.ofNat (8 * width) (leValue enc)).toInt), rdb)

def rdbLoadIntegerObject (rdb : Bytes) (enctype : Nat) : Except Failure (Bytes × Bytes) :=
  if enctype = 0 then loadInteger 1 rdb
  else if enctype = 1 then loadInteger 2 rdb
  else if enctype = 2 then loadInteger 4 rdb
  else .error .panic

/-- A zero byte follows the string. -/
def rdbTryIntegerEncoding (s : Bytes) : Bytes :=
  let (value, endptr) := strtol (s ++ [0])
  if endptr.head? ≠ some 0 then []
  else if ll2string 32 value ≠ s then []
  else rdbEncodeInteger value

/-- The address of the string, and what is in the buffer and the table before the compression. -/
structure Memory where
  base : UInt64
  old : Nat → UInt8
  htab : UInt32 → UInt64

/-- Nothing if the string is not compressed. -/
def rdbSaveLzfStringObject (mem : Memory) (s : Bytes) : Except Lzf.Stop Bytes :=
  if s.length ≤ 4 then .ok []
  else
    match lzfCompress ⟨s, mem.base, s.length - 4, mem.old⟩ mem.htab with
    | .error .returnsZero => .ok []
    | .error stop => .error stop
    | .ok out => .ok (195 :: (rdbSaveLen out.length ++ (rdbSaveLen s.length ++ out)))

def rdbLoadLzfStringObject (rdb : Bytes) : Except Failure (Bytes × Bytes) :=
  let (_, clen, rdb) := rdbLoadLen rdb
  if clen = lenErr then .error .null
  else
    let (_, len, rdb) := rdbLoadLen rdb
    if len = lenErr then .error .null
    else do
      let (c, rdb) ← rioRead rdb clen
      match lzfDecompress c len with
      | .error .outside => .error .outside
      | .error _ => .error .null
      | .ok val => return (val ++ List.replicate (len - val.length) 0, rdb)

def rdbSaveRawString (mem : Memory) (compression : Bool) (s : Bytes) : Except Lzf.Stop Bytes := do
  let enc := if s.length ≤ 11 then rdbTryIntegerEncoding s else []
  if enc ≠ [] then return enc
  else if compression ∧ 20 < s.length then
    let out ← rdbSaveLzfStringObject mem s
    return if out ≠ [] then out else rdbSaveLen s.length ++ s
  else return rdbSaveLen s.length ++ s

def rdbSaveLongLongAsStringObject (value : Int) : Bytes :=
  let enc := rdbEncodeInteger value
  if enc ≠ [] then enc else rdbSaveLen (ll2string 32 value).length ++ ll2string 32 value

def rdbSaveStringObject (mem : Memory) (compression : Bool) (obj : OutputBuffer.Value) : Option (Except Lzf.Stop Bytes) :=
  match obj with
  | .int value => some (.ok (rdbSaveLongLongAsStringObject value.toInt))
  | obj => obj.text.map (rdbSaveRawString mem compression)

/-- The text of the object that is created. -/
def rdbGenericLoadStringObject (rdb : Bytes) : Except Failure (Bytes × Bytes) :=
  let (isencoded, len, rdb) := rdbLoadLen rdb
  if isencoded then
    if len ≤ 2 then rdbLoadIntegerObject rdb len
    else if len = 3 then rdbLoadLzfStringObject rdb
    else .error .panic
  else if len = lenErr then .error .null
  else rioRead rdb len

end Cplusplus.Redis.Rdb
