import Cplusplus.Library.Bytes
import Cplusplus.Library.PackedBits
import Cplusplus.Util

/-! `hyperloglog.c`. A value is the content of its sds string: a header of 16 bytes and
the registers. A result of `none` is an access outside the string or the array of
registers. Arithmetic on doubles is a parameter. -/

namespace Cplusplus.Redis

open Function (update)

def hllRegisters : Nat := 16384

def hllHdrSize : Nat := 16

def hllDenseSize : Nat := hllHdrSize + (hllRegisters * 6 + 7) / 8

def hllDense : UInt8 := 0

def hllSparse : UInt8 := 1

def hllEncoding (o : List UInt8) : Option UInt8 := o[4]?

def hllInvalidateCache (o : List UInt8) : List UInt8 := o.modify 15 fun b => b ||| 0x80

def hllValidCache (o : List UInt8) : Bool := o.getD 15 0 &&& 0x80 = 0

def hllCard (o : List UInt8) : Nat := Bytes.leValue ((o.drop 8).take 8)

def murmurM : UInt64 := 0xc6a4a7935bd1e995

def murmurBlocks : Nat → UInt64 → List UInt8 → UInt64 × List UInt8
  | 0, h, data => (h, data)
  | blocks + 1, h, data =>
    let k := UInt64.ofNat (Bytes.leValue (data.take 8)) * murmurM
    let k := (k ^^^ (k >>> 47)) * murmurM
    murmurBlocks blocks ((h ^^^ k) * murmurM) (data.drop 8)

def murmurHash64A (key : List UInt8) (seed : UInt32) : UInt64 :=
  let (h, tail) := murmurBlocks (key.length / 8) (seed.toUInt64 ^^^ (UInt64.ofNat key.length * murmurM)) key
  -- the switch falls through: every byte that is left is xored in at its place
  let h := if tail = [] then h else (h ^^^ UInt64.ofNat (Bytes.leValue tail)) * murmurM
  let h := (h ^^^ (h >>> 47)) * murmurM
  h ^^^ (h >>> 47)

def hllPatLenLoop (hash : UInt64) : Nat → UInt64 → Nat → Nat
  | 0, _, count => count
  | fuel + 1, bit, count => if hash &&& bit = 0 then hllPatLenLoop hash fuel (bit <<< 1) (count + 1) else count

def hllPatLen (ele : List UInt8) : Nat × Nat :=
  let hash := murmurHash64A ele 0xadc83b19
  let index := hash &&& 16383
  (hllPatLenLoop (hash ||| ((1 : UInt64) <<< 63)) 50 16384 1, index.toNat)

/-- `HLL_DENSE_GET_REGISTER`; the byte behind the registers is the end of the sds string. -/
def hllDenseGetRegister (o : List UInt8) (regnum : Nat) : Option Nat :=
  PackedBits.get 6 (o.drop hllHdrSize ++ [0]) regnum

def hllDenseSetRegister (o : List UInt8) (regnum val : Nat) : Option (List UInt8) := do
  let registers ← PackedBits.set 6 (o.drop hllHdrSize ++ [0]) regnum val
  return o.take hllHdrSize ++ registers.dropLast

def hllDenseAdd (o : List UInt8) (count index : Nat) : Option (List UInt8 × Int) := do
  let oldcount ← hllDenseGetRegister o index
  if oldcount < count then
    let o ← hllDenseSetRegister o index count
    return (o, 1)
  else return (o, 0)

def hllSparseIsZero (p : UInt8) : Bool := p &&& 0xc0 = 0

def hllSparseIsXzero (p : UInt8) : Bool := p &&& 0xc0 = 0x40

def hllSparseIsVal (p : UInt8) : Bool := p &&& 0x80 ≠ 0

def hllSparseZeroLen (p : UInt8) : Nat := (p.toNat &&& 0x3f) + 1

def hllSparseXzeroLen (p q : UInt8) : Nat := ((p.toNat &&& 0x3f) <<< 8 ||| q.toNat) + 1

def hllSparseValValue (p : UInt8) : Nat := (p.toNat >>> 2 &&& 0x1f) + 1

def hllSparseValLen (p : UInt8) : Nat := (p.toNat &&& 0x3) + 1

def hllSparseValSet (val len : Nat) : UInt8 := UInt8.ofNat ((val - 1) <<< 2 ||| (len - 1) ||| 0x80)

def hllSparseZeroSet (len : Nat) : UInt8 := UInt8.ofNat (len - 1)

def hllSparseXzeroSet (len : Nat) : List UInt8 :=
  [UInt8.ofNat ((len - 1) >>> 8 ||| 0x40), UInt8.ofNat (len - 1 &&& 0xff)]

section Runs

variable {σ : Type} (run : Nat → Nat → Nat → σ → Option σ)

/-- The loop `while(p < end)` over the opcodes. The body is given the register, the
length of the run and its value, which is 0 for ZERO and XZERO. The register is an `int`
that wraps; from 2^31 on it stands for a negative one. -/
def hllSparseRuns : List UInt8 → Nat → σ → Option (Nat × σ)
  | [], idx, state => some (idx, state)
  | b :: p, idx, state =>
    if hllSparseIsZero b then do
      let state ← run idx (hllSparseZeroLen b) 0 state
      hllSparseRuns p ((idx + hllSparseZeroLen b) % 2 ^ 32) state
    else if hllSparseIsXzero b then
      match p with
      | [] => none
      | q :: p => do
        let state ← run idx (hllSparseXzeroLen b q) 0 state
        hllSparseRuns p ((idx + hllSparseXzeroLen b q) % 2 ^ 32) state
    else do
      let state ← run idx (hllSparseValLen b) (hllSparseValValue b) state
      hllSparseRuns p ((idx + hllSparseValLen b) % 2 ^ 32) state

def hllRunRegisters (set : Nat → Nat → σ → Option σ) : Nat → Nat → Nat → σ → Option σ
  | _, 0, _, state => some state
  | idx, runlen + 1, regval, state => do
    let state ← set idx regval state
    hllRunRegisters set (idx + 1) runlen regval state

end Runs

def hllDenseFrom (o : List UInt8) : List UInt8 :=
  (o.take hllHdrSize).set 4 hllDense ++ List.replicate (hllDenseSize - hllHdrSize) 0

/-- The inner `none` is `REDIS_ERR`. -/
def hllSparseToDense (o : List UInt8) : Option (Option (List UInt8)) := do
  let encoding ← hllEncoding o
  if encoding = hllDense then return some o
  let set := fun idx regval dense => hllDenseSetRegister dense idx regval
  let run := fun idx runlen regval dense => if regval = 0 then some dense else hllRunRegisters set idx runlen regval dense
  let (idx, dense) ← hllSparseRuns run (o.drop hllHdrSize) 0 (hllDenseFrom o)
  return if idx ≠ hllRegisters then none else some dense

def hllSparseLocate (index : Nat) : List UInt8 → Nat → Option Nat → Nat → Nat → Option (Nat × Option Nat × Nat × Nat)
  | [], p, prev, first, span => some (p, prev, first, span)
  | b :: rest, p, prev, first, _ =>
    if hllSparseIsXzero b then
      match rest with
      | [] => none
      | q :: rest =>
        let span := hllSparseXzeroLen b q
        if index < first + span then some (p, prev, first, span)
        else hllSparseLocate index rest (p + 2) (some p) (first + span) span
    else
      let span := if hllSparseIsZero b then hllSparseZeroLen b else hllSparseValLen b
      if index < first + span then some (p, prev, first, span)
      else hllSparseLocate index rest (p + 1) (some p) (first + span) span

/-- Registers of value 0 on one side of `index`, as ZERO or XZERO. -/
def hllSparseZeros (len : Nat) : List UInt8 :=
  if len = 0 then [] else if 64 < len then hllSparseXzeroSet len else [hllSparseZeroSet len]

/-- Step 2: the opcodes for a run that is split at `index`; `curval` is 0 for ZERO and XZERO. -/
def hllSparseSplit (index first span curval count : Nat) : List UInt8 :=
  let last := first + span - 1
  if curval = 0 then hllSparseZeros (index - first) ++ hllSparseValSet count 1 :: hllSparseZeros (last - index)
  else
    (if index ≠ first then [hllSparseValSet curval (index - first)] else []) ++
      hllSparseValSet count 1 :: if index ≠ last then [hllSparseValSet curval (last - index)] else []

/-- Step 4: merges adjacent VAL opcodes from `p` on. -/
def hllSparseMergeVals : Nat → List UInt8 → Nat → List UInt8
  | 0, o, _ => o
  | scanlen + 1, o, p =>
    match o[p]? with
    | none => o
    | some b =>
      if hllSparseIsXzero b then hllSparseMergeVals scanlen o (p + 2)
      else if hllSparseIsZero b then hllSparseMergeVals scanlen o (p + 1)
      else
        match o[p + 1]? with
        | none => hllSparseMergeVals scanlen o (p + 1)
        | some q =>
          let len := hllSparseValLen b + hllSparseValLen q
          if hllSparseIsVal q ∧ hllSparseValValue b = hllSparseValValue q ∧ len ≤ 4 then
            hllSparseMergeVals scanlen (o.take p ++ hllSparseValSet (hllSparseValValue b) len :: o.drop (p + 2)) p
          else hllSparseMergeVals scanlen o (p + 1)

def hllSparseUpdated (o : List UInt8) (prev : Option Nat) : List UInt8 × Int :=
  (hllInvalidateCache (hllSparseMergeVals 5 o (prev.getD hllHdrSize)), 1)

def hllAborted : Int := -2

def hllSparsePromote (o : List UInt8) (count index : Nat) : Option (List UInt8 × Int) := do
  match ← hllSparseToDense o with
  | none => return (o, -1)
  | some o =>
    let (o, retval) ← hllDenseAdd o count index
    return (o, if retval = 1 then retval else hllAborted)

def hllSparseAddPattern (maxBytes : Nat) (o : List UInt8) (count index : Nat) : Option (List UInt8 × Int) := do
  if 32 < count then hllSparsePromote o count index
  else
    let (p, prev, first, span) ← hllSparseLocate index (o.drop hllHdrSize) hllHdrSize none 0 0
    if span = 0 then return (o, -1)
    let b ← o[p]?
    let isVal := ¬ hllSparseIsZero b ∧ ¬ hllSparseIsXzero b
    let oldcount := if isVal then hllSparseValValue b else 0
    let runlen ← if hllSparseIsXzero b then o[p + 1]?.map (hllSparseXzeroLen b)
      else some (if hllSparseIsZero b then hllSparseZeroLen b else hllSparseValLen b)
    if isVal ∧ count ≤ oldcount then return (o, 0)
    if ¬ hllSparseIsXzero b ∧ runlen = 1 then return hllSparseUpdated (o.set p (hllSparseValSet count 1)) prev
    let seq := hllSparseSplit index first span oldcount count
    let oldlen := if hllSparseIsXzero b then 2 else 1
    if oldlen < seq.length ∧ maxBytes < o.length + (seq.length - oldlen) then hllSparsePromote o count index
    -- step 3: memmove of what follows the opcode, and memcpy of the new ones
    else return hllSparseUpdated (o.take p ++ seq ++ o.drop (p + oldlen)) prev

def hllSparseAdd (maxBytes : Nat) (o ele : List UInt8) : Option (List UInt8 × Int) :=
  hllSparseAddPattern maxBytes o (hllPatLen ele).1 (hllPatLen ele).2

def hllAdd (maxBytes : Nat) (o ele : List UInt8) : Option (List UInt8 × Int) := do
  let encoding ← hllEncoding o
  if encoding = hllDense then hllDenseAdd o (hllPatLen ele).1 (hllPatLen ele).2
  else if encoding = hllSparse then hllSparseAdd maxBytes o ele
  else return (o, -1)

def hllMaxRegister (i val : Nat) (max : List Nat) : Option (List Nat) := do
  let old ← max[i]?
  return if old < val then max.set i val else max

def hllMergeDense (o : List UInt8) : Nat → Nat → List Nat → Option (List Nat)
  | 0, _, max => some max
  | count + 1, i, max => do
    let val ← hllDenseGetRegister o i
    let max ← hllMaxRegister i val max
    hllMergeDense o count (i + 1) max

/-- The inner `none` is `REDIS_ERR`. -/
def hllMerge (max : List Nat) (o : List UInt8) : Option (Option (List Nat)) := do
  let encoding ← hllEncoding o
  if encoding = hllDense then
    let max ← hllMergeDense o hllRegisters 0 max
    return some max
  else
    let run := fun i runlen regval max => if regval = 0 then some max else hllRunRegisters hllMaxRegister i runlen regval max
    let (i, max) ← hllSparseRuns run (o.drop hllHdrSize) 0 max
    return if i ≠ hllRegisters then none else some max

/-! `hllCount` and the commands PFADD, PFCOUNT and PFMERGE. A database maps keys to
string objects; keys that have expired are not in it. -/

/-- The arithmetic of doubles and `log` of the C library. -/
structure Doubles (F : Type) where
  ofNat : Nat → F
  literal : Int → Int → F
  add : F → F → F
  sub : F → F → F
  mul : F → F → F
  div : F → F → F
  lt : F → F → Bool
  log : F → F
  toUInt64 : F → UInt64

section Count

variable {F : Type} (D : Doubles F)

def hllPE (j : Nat) : F := if j = 0 then D.ofNat 1 else D.div (D.ofNat 1) (D.ofNat (2 ^ j))

def hllDenseGroup (r : Nat → Nat) : List Nat :=
  [r 0 &&& 63, (r 0 >>> 6 ||| r 1 <<< 2) &&& 63, (r 1 >>> 4 ||| r 2 <<< 4) &&& 63, r 2 >>> 2 &&& 63,
    r 3 &&& 63, (r 3 >>> 6 ||| r 4 <<< 2) &&& 63, (r 4 >>> 4 ||| r 5 <<< 4) &&& 63, r 5 >>> 2 &&& 63,
    r 6 &&& 63, (r 6 >>> 6 ||| r 7 <<< 2) &&& 63, (r 7 >>> 4 ||| r 8 <<< 4) &&& 63, r 8 >>> 2 &&& 63,
    r 9 &&& 63, (r 9 >>> 6 ||| r 10 <<< 2) &&& 63, (r 10 >>> 4 ||| r 11 <<< 4) &&& 63, r 11 >>> 2 &&& 63]

def hllSumPairs : F → List Nat → F
  | sum, a :: b :: rest => hllSumPairs (D.add sum (D.add (hllPE D a) (hllPE D b))) rest
  | sum, _ => sum

def hllSumGroup : List Nat → F
  | a :: b :: rest => hllSumPairs D (D.add (hllPE D a) (hllPE D b)) rest
  | _ => D.ofNat 0

def hllDenseSum (registers : List UInt8) : Nat → Nat → F → Nat → F × Nat
  | 0, _, sum, ez => (sum, ez)
  | count + 1, offset, sum, ez =>
    let group := hllDenseGroup fun i => (registers.getD (offset + i) 0).toNat
    hllDenseSum registers count (offset + 12) (D.add sum (hllSumGroup D group)) (ez + group.count 0)

def hllSparseSum (sparse : List UInt8) : Option (F × Nat × Bool) := do
  let run := fun _ runlen regval (state : F × Nat) =>
    if regval = 0 then some (state.1, state.2 + runlen)
    else some (D.add state.1 (D.mul (hllPE D regval) (D.ofNat runlen)), state.2)
  let (idx, sum, ez) ← hllSparseRuns run sparse 0 (D.ofNat 0, 0)
  return (D.add sum (D.ofNat ez), ez, decide (idx ≠ hllRegisters))

def hllRawSum (registers : List Nat) : F × Nat :=
  let (sum, ez) := registers.foldl
    (fun state reg => if reg = 0 then (state.1, state.2 + 1) else (D.add state.1 (hllPE D reg), state.2)) (D.ofNat 0, 0)
  (D.add sum (D.ofNat ez), ez)

def hllEstimate (sum : F) (ez : Nat) : UInt64 :=
  let m := D.ofNat hllRegisters
  let alpha := D.div (D.literal 7213 (-4)) (D.add (D.ofNat 1) (D.div (D.literal 1079 (-3)) m))
  let E := D.mul (D.mul (D.mul (D.div (D.ofNat 1) sum) alpha) m) m
  let E :=
    if D.lt E (D.mul m (D.literal 25 (-1))) && ez ≠ 0 then D.mul m (D.log (D.div m (D.ofNat ez)))
    else if D.lt E (D.ofNat 72000) then
      let bias := D.add (D.sub (D.add (D.sub
        (D.mul (D.mul (D.literal 59119 (-4)) (D.literal 1 (-18))) (D.mul (D.mul (D.mul E E) E) E))
        (D.mul (D.mul (D.literal 14253 (-4)) (D.literal 1 (-12))) (D.mul (D.mul E E) E)))
        (D.mul (D.mul (D.literal 12940 (-4)) (D.literal 1 (-7))) (D.mul E E)))
        (D.mul (D.mul (D.literal 52921 (-4)) (D.literal 1 (-3))) E))
        (D.literal 833216 (-4))
      D.sub E (D.mul E (D.div bias (D.ofNat 100)))
    else E
  D.toUInt64 E

def hllCount (o : List UInt8) : Option (UInt64 × Bool) := do
  let encoding ← hllEncoding o
  if encoding = hllDense then
    let (sum, ez) := hllDenseSum D (o.drop hllHdrSize) 1024 0 (D.ofNat 0) 0
    return (hllEstimate D sum ez, false)
  else if encoding = hllSparse then
    let (sum, ez, invalid) ← hllSparseSum D (o.drop hllHdrSize)
    return (hllEstimate D sum ez, invalid)
  else none

end Count

/-- `int` is the encoding of a string as an integer, `other` an object that is no string. -/
inductive HllObject where
  | raw (s : List UInt8)
  | int (value : Int)
  | other

abbrev HllDb := List UInt8 → Option HllObject

inductive HllReply where
  | int (value : Nat)
  | ok
  | wrongType
  | notHll
  | invalidObj

/-- "HYLL" -/
def hllMagic : List UInt8 := [72, 89, 76, 76]

/-- A header with `hdr->encoding` and zero bytes, and one XZERO for all registers. -/
def createHLLObject : List UInt8 :=
  hllMagic ++ hllSparse :: List.replicate 11 0 ++ hllSparseXzeroSet hllRegisters

/-- The content of the object, or the error reply. An object encoded as an integer has no
header; the code follows its value as a pointer if there are 16 digits. -/
def isHLLObjectOrReply : HllObject → Option (Except HllReply (List UInt8))
  | .other => some (.error .wrongType)
  | .int value => if (ll2string 32 value).length < hllHdrSize then some (.error .notHll) else none
  | .raw s =>
    if s.length < hllHdrSize then some (.error .notHll)
    else if s.take 4 ≠ hllMagic then some (.error .notHll)
    else if 1 < (s.getD 4 0).toNat then some (.error .notHll)
    else if s.getD 4 0 = hllDense ∧ s.length ≠ hllDenseSize then some (.error .notHll)
    else some (.ok s)

def pfaddElements (maxBytes : Nat) : List (List UInt8) → List UInt8 → Nat → Option (List UInt8 × Option Nat)
  | [], o, updated => some (o, some updated)
  | ele :: eles, o, updated => do
    let (o, retval) ← hllAdd maxBytes o ele
    if retval = hllAborted then none
    else if retval = -1 then return (o, none)
    else pfaddElements maxBytes eles o (if retval = 1 then updated + 1 else updated)

def pfaddCommand (maxBytes : Nat) (db : HllDb) (key : List UInt8) (eles : List (List UInt8)) :
    Option (HllDb × HllReply) := do
  let created := (db key).isNone
  match ← isHLLObjectOrReply ((db key).getD (.raw createHLLObject)) with
  | .error reply => return (db, reply)
  | .ok o =>
    let (o, updated) ← pfaddElements maxBytes eles o (if created then 1 else 0)
    match updated with
    | none => return (update db key (some (.raw o)), .invalidObj)
    | some updated =>
      let o := if updated ≠ 0 then hllInvalidateCache o else o
      return (update db key (some (.raw o)), .int (if updated ≠ 0 then 1 else 0))

def hllMergeKeys (db : HllDb) : List (List UInt8) → List Nat → Option (Except HllReply (List Nat))
  | [], max => some (.ok max)
  | key :: keys, max =>
    match db key with
    | none => hllMergeKeys db keys max
    | some object => do
      match ← isHLLObjectOrReply object with
      | .error reply => return .error reply
      | .ok o =>
        match ← hllMerge max o with
        | none => return .error .invalidObj
        | some max => hllMergeKeys db keys max

section PfCount

variable {F : Type} (D : Doubles F)

/-- PFCOUNT of one key. -/
def pfcountKey (db : HllDb) (key : List UInt8) : Option (HllDb × HllReply) :=
  match db key with
  | none => some (db, .int 0)
  | some object => do
    match ← isHLLObjectOrReply object with
    | .error reply => return (db, reply)
    | .ok o =>
      if hllValidCache o then return (db, .int (hllCard o))
      else
        let (card, invalid) ← hllCount D o
        if invalid then return (db, .invalidObj)
        else
          let o := o.take 8 ++ Bytes.leBytes 8 card.toNat ++ o.drop 16
          return (update db key (some (.raw o)), .int card.toNat)

/-- PFCOUNT of several keys. -/
def pfcountKeys (db : HllDb) (keys : List (List UInt8)) : Option (HllDb × HllReply) := do
  match ← hllMergeKeys db keys (List.replicate hllRegisters 0) with
  | .error reply => return (db, reply)
  | .ok max =>
    let (sum, ez) := hllRawSum D max
    return (db, .int (hllEstimate D sum ez).toNat)

def pfcountCommand (db : HllDb) : List (List UInt8) → Option (HllDb × HllReply)
  | [key] => pfcountKey D db key
  | keys => pfcountKeys D db keys

end PfCount

def pfmergeWrite : List Nat → Nat → List UInt8 → Option (List UInt8)
  | [], _, o => some o
  | val :: max, j, o => do
    let o ← hllDenseSetRegister o j val
    pfmergeWrite max (j + 1) o

def pfmergeCommand (db : HllDb) (dest : List UInt8) (srcs : List (List UInt8)) : Option (HllDb × HllReply) := do
  match ← hllMergeKeys db (dest :: srcs) (List.replicate hllRegisters 0) with
  | .error reply => return (db, reply)
  | .ok max =>
    let o ← match db dest with
      | none => some createHLLObject
      | some (.raw o) => some o
      | some _ => none
    match ← hllSparseToDense o with
    | none => return (update db dest (some (.raw o)), .invalidObj)
    | some o =>
      let o ← pfmergeWrite max 0 o
      return (update db dest (some (.raw (hllInvalidateCache o))), .ok)

end Cplusplus.Redis
