import Cplusplus.Db
import Cplusplus.HashType
import Cplusplus.ReadOnlySlave

/-! The commands of `t_string.c` on counters and on ranges of bytes, and HINCRBY. A key that has
expired is not in the database. Notifications and the count of changes are left out. -/

namespace Cplusplus.Redis.Strings

abbrev Bytes := List UInt8

inductive Value where
  | string (o : StringObject)
  | hash (o : HashObject)
  | other

abbrev Keyspace := Key → Option Value

inductive Reply where
  | wrongtype
  | notInteger
  | hashNotInteger
  | wouldOverflow
  | offsetOutOfRange
  | tooLong
  | bitOffset
  | notBit
  | integer (value : Int)
  | bulk (text : Bytes)
deriving DecidableEq

inductive Fault where
  | signedOverflow
  | outOfMemory
  /-- An access outside a string. -/
  | outside
  | hashType
deriving DecidableEq

abbrev Outcome := Except Fault (Keyspace × Reply)

def longLongMin : Int := -2 ^ 63

def longLongMax : Int := 2 ^ 63 - 1

def signed (n : Int) : Except Fault Int := if longLongMin ≤ n ∧ n ≤ longLongMax then .ok n else .error .signedOverflow

/-- NULL is zero. -/
def getLongLongFromObject : Option StringObject → Option Int
  | none => some 0
  | some (.sds text) => ReadOnlySlave.getLongFromObject text
  | some (.int value) => some value.toInt

def wouldOverflow (oldvalue incr : Int) : Except Fault Bool := do
  if incr < 0 ∧ oldvalue < 0 then
    if incr < (← signed (longLongMin - oldvalue)) then return true
  if 0 < incr ∧ 0 < oldvalue then
    if (← signed (longLongMax - oldvalue)) < incr then return true
  return false

def incrDecr (db : Keyspace) (key : Key) (o : Option StringObject) (incr : Int) : Outcome :=
  match getLongLongFromObject o with
  | none => return (db, .notInteger)
  | some value => do
    if ← wouldOverflow value incr then return (db, .wouldOverflow)
    let value ← signed (value + incr)
    return (Function.update db key (some (.string (createStringObjectFromLongLong value))), .integer value)

def incrDecrCommand (db : Keyspace) (key : Key) (incr : Int) : Outcome :=
  match db key with
  | none => incrDecr db key none incr
  | some (.string o) => incrDecr db key (some o) incr
  | some _ => return (db, .wrongtype)

def incrCommand (db : Keyspace) (key : Key) : Outcome := incrDecrCommand db key 1

def decrCommand (db : Keyspace) (key : Key) : Outcome := incrDecrCommand db key (-1)

def incrbyCommand (db : Keyspace) (key : Key) (argument : Bytes) : Outcome :=
  match getLongLongFromObject (some (.sds argument)) with
  | none => return (db, .notInteger)
  | some incr => incrDecrCommand db key incr

def decrbyCommand (db : Keyspace) (key : Key) (argument : Bytes) : Outcome :=
  match getLongLongFromObject (some (.sds argument)) with
  | none => return (db, .notInteger)
  | some incr => do
    let incr ← signed (-incr)
    incrDecrCommand db key incr

structure HashServer where
  hash : Bytes → BitVec 32
  hashMaxZiplistEntries : Nat
  canResize : Bool
  addr : HashObject → Nat → Nat

def HashServer.set (server : HashServer) (o : HashObject) (field : Bytes) (value : StringObject) : Option (HashObject × Bool) :=
  hashTypeSet server.hash server.hashMaxZiplistEntries server.canResize (server.addr o) o (.sds field) value

def hashResult {α : Type} : Option α → Except Fault α
  | none => .error .hashType
  | some result => .ok result

def hincrbyObject (server : HashServer) (o : HashObject) (field : Bytes) (incr : Int) : Except Fault (HashObject × Reply) := do
  let (o, current) ← hashResult (hashTypeGetObject server.hash o (.sds field))
  match getLongLongFromObject current with
  | none => return (o, .hashNotInteger)
  | some value => do
    if ← wouldOverflow value incr then return (o, .wouldOverflow)
    let value ← signed (value + incr)
    let (o, _) ← hashResult (server.set o field (createStringObjectFromLongLong value))
    return (o, .integer value)

def hincrbyCommand (server : HashServer) (db : Keyspace) (key : Key) (field argument : Bytes) : Outcome :=
  match getLongLongFromObject (some (.sds argument)) with
  | none => return (db, .notInteger)
  | some incr =>
    match db key with
    | none => do
      let (o, reply) ← hincrbyObject server createHashObject field incr
      return (Function.update db key (some (.hash o)), reply)
    | some (.hash o) => do
      let (o, reply) ← hincrbyObject server o field incr
      return (Function.update db key (some (.hash o)), reply)
    | some _ => return (db, .wrongtype)

def maxStringLength : Int := 512 * 1024 * 1024

def checkStringLength (size : Int) : Bool := size ≤ maxStringLength

/-- A `size_t` that is passed as a long long. -/
def longLong (size : Nat) : Int := (BitVec.ofNat 64 size).toInt

def sdsMaxPrealloc : Nat := 1024 * 1024

/-- What `sdsMakeRoomFor` asks `zrealloc` for, when the string gets this length. -/
def sdsBlock (newlen : Nat) : Nat := 8 + (if newlen < sdsMaxPrealloc then newlen * 2 else newlen + sdsMaxPrealloc) + 1

/-- There is no block of more than PTRDIFF_MAX bytes. Room that the string has already is at most
an unsigned int, and saves no block of that size. -/
def sdsMakeRoomFor (newlen : Nat) : Except Fault Unit :=
  if longLongMax < sdsBlock newlen then .error .outOfMemory else .ok ()

def sdsgrowzero (s : Bytes) (len : Nat) : Except Fault Bytes :=
  if len ≤ s.length then .ok s
  else do
    sdsMakeRoomFor len
    return s ++ List.replicate (len - s.length) 0

def sdscatlen (s t : Bytes) : Except Fault Bytes := do
  sdsMakeRoomFor (s.length + t.length)
  return s ++ t

def memcpy (s : Bytes) (offset : Nat) (value : Bytes) : Except Fault Bytes :=
  match Bytes.store s offset value with
  | none => .error .outside
  | some s => .ok s

/-- `offset+sdslen(value)` is a `size_t`. -/
def setrange (db : Keyspace) (key : Key) (offset : Nat) (old value : Bytes) : Outcome := do
  if value.length = 0 then return (db, .integer old.length)
  if !checkStringLength (longLong (offset + value.length)) then return (db, .tooLong)
  let s ← sdsgrowzero old (offset + value.length)
  let s ← memcpy s offset value
  return (Function.update db key (some (.string (.sds s))), .integer s.length)

def setrangeCommand (db : Keyspace) (key : Key) (argument value : Bytes) : Outcome :=
  match getLongLongFromObject (some (.sds argument)) with
  | none => return (db, .notInteger)
  | some offset =>
    if offset < 0 then return (db, .offsetOutOfRange)
    else
      match db key with
      | none => setrange db key offset.toNat [] value
      | some (.string o) => setrange db key offset.toNat (getDecodedObject o) value
      | some _ => return (db, .wrongtype)

def appendCommand (db : Keyspace) (key : Key) (argument : Bytes) : Outcome :=
  match db key with
  | none =>
    let o := tryObjectEncoding (.sds argument)
    return (Function.update db key (some (.string o)), .integer (getDecodedObject o).length)
  | some (.string o) => do
    let old := getDecodedObject o
    if !checkStringLength (longLong (old.length + argument.length)) then return (db, .tooLong)
    let s ← sdscatlen old argument
    return (Function.update db key (some (.string (.sds s))), .integer s.length)
  | some _ => return (db, .wrongtype)

/-- How GETRANGE, BITCOUNT and BITPOS convert the ends of a range. -/
def convertRange (strlen : Nat) (start stop : Int) : Int × Int :=
  let start := if start < 0 then strlen + start else start
  let stop := if stop < 0 then strlen + stop else stop
  let start := if start < 0 then 0 else start
  let stop := if stop < 0 then 0 else stop
  (start, if strlen ≤ stop then strlen - 1 else stop)

def bytesFrom (s : Bytes) (start stop : Int) : Bytes := (s.drop start.toNat).take (stop - start + 1).toNat

def getrangeCommand (db : Keyspace) (key : Key) (first last : Bytes) : Keyspace × Reply :=
  match getLongLongFromObject (some (.sds first)), getLongLongFromObject (some (.sds last)) with
  | some start, some stop =>
    match db key with
    | none => (db, .bulk [])
    | some (.string o) =>
      let str := getDecodedObject o
      let (start, stop) := convertRange str.length start stop
      (db, .bulk (if stop < start ∨ str.length = 0 then [] else bytesFrom str start stop))
    | some _ => (db, .wrongtype)
  | _, _ => (db, .notInteger)

/-! The bit operations of `bitops.c`. An unsigned long has 64 bits, and the words of a string are
little-endian. Where a string lies is a parameter: the loops depend on it. -/

section
open CheckAof (strcasecmp)

def bitsinbyte : List Nat :=
  [0, 1, 1, 2, 1, 2, 2, 3, 1, 2, 2, 3, 2, 3, 3, 4, 1, 2, 2, 3, 2, 3, 3, 4, 2, 3, 3, 4, 3, 4, 4, 5,
   1, 2, 2, 3, 2, 3, 3, 4, 2, 3, 3, 4, 3, 4, 4, 5, 2, 3, 3, 4, 3, 4, 4, 5, 3, 4, 4, 5, 4, 5, 5, 6,
   1, 2, 2, 3, 2, 3, 3, 4, 2, 3, 3, 4, 3, 4, 4, 5, 2, 3, 3, 4, 3, 4, 4, 5, 3, 4, 4, 5, 4, 5, 5, 6,
   2, 3, 3, 4, 3, 4, 4, 5, 3, 4, 4, 5, 4, 5, 5, 6, 3, 4, 4, 5, 4, 5, 5, 6, 4, 5, 5, 6, 5, 6, 6, 7,
   1, 2, 2, 3, 2, 3, 3, 4, 2, 3, 3, 4, 3, 4, 4, 5, 2, 3, 3, 4, 3, 4, 4, 5, 3, 4, 4, 5, 4, 5, 5, 6,
   2, 3, 3, 4, 3, 4, 4, 5, 3, 4, 4, 5, 4, 5, 5, 6, 3, 4, 4, 5, 4, 5, 5, 6, 4, 5, 5, 6, 5, 6, 6, 7,
   2, 3, 3, 4, 3, 4, 4, 5, 3, 4, 4, 5, 4, 5, 5, 6, 3, 4, 4, 5, 4, 5, 5, 6, 4, 5, 5, 6, 5, 6, 6, 7,
   3, 4, 4, 5, 4, 5, 5, 6, 4, 5, 5, 6, 5, 6, 6, 7, 4, 5, 5, 6, 5, 6, 6, 7, 5, 6, 6, 7, 6, 7, 7, 8]

def byteBits (c : UInt8) : Nat := bitsinbyte.getD c.toNat 0

def popcountUnaligned : Nat → Bytes → Nat × Bytes
  | _, [] => (0, [])
  | p, c :: s =>
    if p % 4 = 0 then (0, c :: s)
    else
      let (bits, rest) := popcountUnaligned (p + 1) s
      (byteBits c + bits, rest)

def loadUint32 (s : Bytes) : BitVec 32 := BitVec.ofNat 32 (Bytes.leValue (s.take 4))

def nibbleCounts (aux : BitVec 32) : BitVec 32 :=
  let aux := aux - ((aux >>> 1) &&& 0x55555555#32)
  (aux &&& 0x33333333#32) + ((aux >>> 2) &&& 0x33333333#32)

def byteCounts (aux : BitVec 32) : BitVec 32 := (aux + (aux >>> 4)) &&& 0x0F0F0F0F#32

def popcount28 (s : Bytes) : Nat :=
  let aux (i : Nat) := byteCounts (nibbleCounts (loadUint32 (s.drop (4 * i))))
  (((aux 0 + aux 1 + aux 2 + aux 3 + aux 4 + aux 5 + aux 6) * 0x01010101#32) >>> 24).toNat

def popcountBlocks : Nat → Bytes → Nat × Bytes
  | 0, s => (0, s)
  | fuel + 1, s =>
    if 28 ≤ s.length then
      let (bits, rest) := popcountBlocks fuel (s.drop 28)
      (popcount28 s + bits, rest)
    else (0, s)

def redisPopcount (p : Nat) (s : Bytes) : Nat :=
  let (first, s) := popcountUnaligned p s
  let (blocks, s) := popcountBlocks s.length s
  first + blocks + (s.map byteBits).sum

def skipUnaligned (skipval : UInt8) : Nat → Bytes → Int → Bytes × Int
  | _, [], pos => ([], pos)
  | c, b :: s, pos => if c % 8 = 0 ∨ b ≠ skipval then (b :: s, pos) else skipUnaligned skipval (c + 1) s (pos + 8)

def skipWords (skipval : BitVec 64) : Nat → Bytes → Int → Bytes × Int
  | 0, s, pos => (s, pos)
  | fuel + 1, s, pos =>
    if 8 ≤ s.length ∧ BitVec.ofNat 64 (Bytes.leValue (s.take 8)) = skipval then skipWords skipval fuel (s.drop 8) (pos + 64)
    else (s, pos)

def loadWord : Nat → Bytes → BitVec 64 → BitVec 64
  | 0, _, word => word
  | j + 1, [], word => loadWord j [] (word <<< 8)
  | j + 1, c :: s, word => loadWord j s (word <<< 8 ||| BitVec.ofNat 64 c.toNat)

/-- The loop ends when `one` is zero, with a panic. -/
def scanWord (bit : Bool) (word : BitVec 64) : Nat → BitVec 64 → Int → Option Int
  | 0, _, _ => none
  | fuel + 1, one, pos =>
    if one = 0 then none
    else if decide (one &&& word ≠ 0) = bit then some pos
    else scanWord bit word fuel (one >>> 1) (pos + 1)

def redisBitpos (c : Nat) (s : Bytes) (bit : Bool) : Option Int :=
  let (s, pos) := skipUnaligned (if bit then 0 else 255) c s 0
  let (s, pos) := skipWords (if bit then 0 else BitVec.allOnes 64) s.length s pos
  let word := loadWord 8 s 0
  if bit = true ∧ word = 0 then some (-1)
  else scanWord bit word 65 (~~~(BitVec.allOnes 64 >>> 1)) pos

def getBitOffsetFromArgument (argument : Bytes) : Option Nat := do
  let loffset ← getLongLongFromObject (some (.sds argument))
  if loffset < 0 ∨ maxStringLength ≤ loffset / 8 then none else some loffset.toNat

def setbit (db : Keyspace) (key : Key) (bitoffset : Nat) (on : Bool) (old : Bytes) : Outcome := do
  let byte := bitoffset / 8
  let s ← sdsgrowzero old (byte + 1)
  let mask : UInt8 := 1 <<< UInt8.ofNat (7 - bitoffset % 8)
  match s[byte]? with
  | none => .error .outside
  | some byteval =>
    let s := s.set byte (byteval &&& ~~~mask ||| if on then mask else 0)
    return (Function.update db key (some (.string (.sds s))), .integer (if byteval &&& mask = 0 then 0 else 1))

def setbitCommand (db : Keyspace) (key : Key) (offset value : Bytes) : Outcome :=
  match getBitOffsetFromArgument offset, getLongLongFromObject (some (.sds value)) with
  | none, _ => return (db, .bitOffset)
  | some _, none => return (db, .notBit)
  | some bitoffset, some on =>
    if on ≠ 0 ∧ on ≠ 1 then return (db, .notBit)
    else
      match db key with
      | none => setbit db key bitoffset (on = 1) []
      | some (.string o) => setbit db key bitoffset (on = 1) (getDecodedObject o)
      | some _ => return (db, .wrongtype)

inductive Bitop where
  | and
  | or
  | xor
  | not
deriving DecidableEq

def andName : Bytes := [97, 110, 100]

def orName : Bytes := [111, 114]

def xorName : Bytes := [120, 111, 114]

def notName : Bytes := [110, 111, 116]

def parseBitop (opname : Bytes) : Option Bitop :=
  if strcasecmp opname andName then some .and
  else if strcasecmp opname orName then some .or
  else if strcasecmp opname xorName then some .xor
  else if strcasecmp opname notName then some .not
  else none

def Bitop.byte : Bitop → UInt8 → UInt8 → UInt8
  | .and, a, b => a &&& b
  | .or, a, b => a ||| b
  | .xor, a, b => a ^^^ b
  | .not, a, _ => a

def Bitop.word : Bitop → BitVec 64 → BitVec 64 → BitVec 64
  | .and, a, b => a &&& b
  | .or, a, b => a ||| b
  | .xor, a, b => a ^^^ b
  | .not, a, _ => a

/-- The strings of the keys, those of missing keys empty; none is an object of another type. -/
def bitopSources (db : Keyspace) : List Key → Option (List (Option Bytes))
  | [] => some []
  | key :: keys =>
    match db key with
    | none => (bitopSources db keys).map (none :: ·)
    | some (.string o) => (bitopSources db keys).map (some (getDecodedObject o) :: ·)
    | some _ => none

/-- `maxlen` and `minlen` after the sources from the one numbered `j` on. -/
def bitopLengths : List (Option Bytes) → (j maxlen minlen : Nat) → Nat × Nat
  | [], _, maxlen, minlen => (maxlen, minlen)
  | none :: src, j, maxlen, _ => bitopLengths src (j + 1) maxlen 0
  | some s :: src, j, maxlen, minlen =>
    bitopLengths src (j + 1) (if maxlen < s.length then s.length else maxlen) (if j = 0 ∨ s.length < minlen then s.length else minlen)

def loadUlong (s : Bytes) (offset : Nat) : Option (BitVec 64) := (Bytes.load 8 (s.drop offset)).map (BitVec.ofNat 64)

def storeUlong (s : Bytes) (offset : Nat) (word : BitVec 64) : Option Bytes := Bytes.store s offset (Bytes.leBytes 8 word.toNat)

/-- `lres[k] op= lp[i][k]`, four times. -/
def mergeWords (op : Bitop) (j : Nat) (res lp : Bytes) : Option Bytes :=
  [0, 1, 2, 3].foldlM (fun res k => do
    storeUlong res (j + 8 * k) (op.word (← loadUlong res (j + 8 * k)) (← loadUlong lp (j + 8 * k)))) res

/-- `lres[k] = ~lres[k]`, four times. -/
def invertWords (j : Nat) (res : Bytes) : Option Bytes :=
  [0, 1, 2, 3].foldlM (fun res k => do storeUlong res (j + 8 * k) (~~~(← loadUlong res (j + 8 * k)))) res

def fastStep (op : Bitop) (j : Nat) (res : Bytes) (sources : List Bytes) : Option Bytes :=
  if op = .not then invertWords j res else sources.foldlM (mergeWords op j) res

/-- `while(minlen >= sizeof(unsigned long)*4)`; the results are the string and `j`. -/
def fastLoop (op : Bitop) (sources : List Bytes) : (fuel minlen j : Nat) → Bytes → Option (Bytes × Nat)
  | 0, _, j, res => some (res, j)
  | fuel + 1, minlen, j, res =>
    if 32 ≤ minlen then do
      let res ← fastStep op j res sources
      fastLoop op sources fuel (minlen - 32) (j + 32) res
    else some (res, j)

def paddedByte (s : Bytes) (j : Nat) : UInt8 := if s.length ≤ j then 0 else s.getD j 0

def bitopByte (op : Bitop) (first : Bytes) (rest : List Bytes) (j : Nat) : UInt8 :=
  let output := paddedByte first j
  let output := if op = .not then ~~~output else output
  rest.foldl (fun output s => op.byte output (paddedByte s j)) output

def byteLoop (op : Bitop) (first : Bytes) (rest : List Bytes) : (count j : Nat) → Bytes → Option Bytes
  | 0, _, res => some res
  | count + 1, j, res => do
    let res ← Bytes.store res j [bitopByte op first rest j]
    byteLoop op first rest count (j + 1) res

def bitopResult (op : Bitop) (first : Bytes) (rest : List Bytes) (maxlen minlen : Nat) : Option Bytes := do
  let res := List.replicate maxlen 0
  let (res, j) ←
    if 32 ≤ minlen ∧ rest.length + 1 ≤ 16 then do
      let res ← Bytes.store res 0 (first.take minlen)
      fastLoop op rest minlen minlen 0 res
    else some (res, 0)
  byteLoop op first rest (maxlen - j) j res

inductive BitopReply where
  | syntaxerr
  | notArity
  | wrongtype
  | integer (value : Nat)
deriving DecidableEq

def bitopCommand (db : Keyspace) (opname : Bytes) (targetkey : Key) (keys : List Key) : Option (Keyspace × BitopReply) :=
  match parseBitop opname with
  | none => some (db, .syntaxerr)
  | some op =>
    if op = .not ∧ keys.length ≠ 1 then some (db, .notArity)
    else
      match bitopSources db keys with
      | none => some (db, .wrongtype)
      | some sources =>
        let (maxlen, minlen) := bitopLengths sources 0 0 0
        if maxlen = 0 then some (Function.update db targetkey none, .integer 0)
        else
          match sources.map fun s => s.getD [] with
          | [] => none
          | first :: rest => do
            let res ← bitopResult op first rest maxlen minlen
            return (Function.update db targetkey (some (.string (.sds res))), .integer maxlen)

inductive BitReply where
  | notInteger
  | notBit
  | wrongtype
  | syntaxerr
  | integer (value : Int)
deriving DecidableEq

def bitcountCommand (address : Nat) (db : Keyspace) (key : Key) (argv : List Bytes) : BitReply :=
  match db key with
  | none => .integer 0
  | some (.string o) =>
    let p := getDecodedObject o
    let reply (start stop : Int) : BitReply :=
      if stop < start then .integer 0
      else .integer (redisPopcount (address + start.toNat) (bytesFrom p start stop))
    match argv with
    | [] => reply 0 (p.length - 1)
    | [first, last] =>
      match getLongLongFromObject (some (.sds first)), getLongLongFromObject (some (.sds last)) with
      | some start, some stop =>
        let (start, stop) := convertRange p.length start stop
        reply start stop
      | _, _ => .notInteger
    | _ => .syntaxerr
  | some _ => .wrongtype

/-- The end of BITPOS; none is the panic. -/
def bitpos (address : Nat) (p : Bytes) (bit endGiven : Bool) (start stop : Int) : Option BitReply :=
  if stop < start then some (.integer (-1))
  else do
    let bytes := stop - start + 1
    let pos ← redisBitpos (address + start.toNat) (bytesFrom p start stop) bit
    if endGiven ∧ bit = false ∧ pos = bytes * 8 then return .integer (-1)
    return .integer (if pos ≠ -1 then pos + start * 8 else pos)

def bitposCommand (address : Nat) (db : Keyspace) (key : Key) (argument : Bytes) (argv : List Bytes) : Option BitReply :=
  match getLongLongFromObject (some (.sds argument)) with
  | none => some .notInteger
  | some value =>
    if value ≠ 0 ∧ value ≠ 1 then some .notBit
    else
      match db key with
      | none => some (.integer (if value = 1 then -1 else 0))
      | some (.string o) =>
        let p := getDecodedObject o
        match argv with
        | [] => bitpos address p (value = 1) false 0 (p.length - 1)
        | [first] =>
          match getLongLongFromObject (some (.sds first)) with
          | none => some .notInteger
          | some start =>
            let (start, stop) := convertRange p.length start (p.length - 1)
            bitpos address p (value = 1) false start stop
        | [first, last] =>
          match getLongLongFromObject (some (.sds first)), getLongLongFromObject (some (.sds last)) with
          | some start, some stop =>
            let (start, stop) := convertRange p.length start stop
            bitpos address p (value = 1) true start stop
          | _, _ => some .notInteger
        | _ => some .syntaxerr
      | some _ => some .wrongtype

end

end Cplusplus.Redis.Strings
