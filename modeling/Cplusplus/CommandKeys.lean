import Cplusplus.CheckAof

/-! The positions of the keys in the arguments of a command, in `db.c`. A result of none is a write
outside the array, a failed assertion, or a request that no allocator can meet. -/

namespace Cplusplus.Redis.CommandKeys
open CheckAof (strtol strcasecmp)

abbrev Argv := List (List UInt8)

inductive GetkeysProc where
  | zunionInterGetKeys
  | evalGetKeys
  | sortGetKeys
deriving DecidableEq

structure KeyColumns where
  getkeysProc : Option GetkeysProc
  firstkey : Nat
  lastkey : Int
  keystep : Nat

def keyColumns : Command → KeyColumns
  | .get | .set | .setnx | .setex | .psetex | .append | .strlen | .setbit | .getbit | .setrange | .getrange |
    .substr | .incr | .decr | .rpush | .lpush | .rpushx | .lpushx | .linsert | .rpop | .lpop | .brpop | .llen |
    .lindex | .lset | .lrange | .ltrim | .lrem | .sadd | .srem | .sismember | .scard | .spop | .srandmember |
    .smembers | .sscan | .zadd | .zincrby | .zrem | .zremrangebyscore | .zremrangebyrank | .zremrangebylex |
    .zrange | .zrangebyscore | .zrevrangebyscore | .zrangebylex | .zrevrangebylex | .zcount | .zlexcount |
    .zrevrange | .zcard | .zscore | .zrank | .zrevrank | .zscan | .hset | .hsetnx | .hget | .hmset | .hmget |
    .hincrby | .hincrbyfloat | .hdel | .hlen | .hkeys | .hvals | .hgetall | .hexists | .hscan | .incrby |
    .decrby | .incrbyfloat | .getset | .move | .expire | .expireat | .pexpire | .pexpireat | .type | .ttl |
    .pttl | .persist | .restore | .restoreAsking | .dump | .bitcount | .bitpos | .pfadd =>
    ⟨none, 1, 1, 1⟩
  | .del | .exists | .mget | .sinter | .sinterstore | .sunion | .sunionstore | .sdiff | .sdiffstore | .watch |
    .pfcount | .pfmerge =>
    ⟨none, 1, -1, 1⟩
  | .brpoplpush | .rpoplpush | .smove | .rename | .renamenx =>
    ⟨none, 1, 2, 1⟩
  | .blpop =>
    ⟨none, 1, -2, 1⟩
  | .zunionstore | .zinterstore =>
    ⟨some .zunionInterGetKeys, 0, 0, 0⟩
  | .mset | .msetnx =>
    ⟨none, 1, -1, 2⟩
  | .randomkey | .select | .keys | .scan | .dbsize | .auth | .ping | .echo | .save | .bgsave | .bgrewriteaof |
    .shutdown | .lastsave | .multi | .exec | .discard | .sync | .psync | .replconf | .flushdb | .flushall |
    .info | .monitor | .slaveof | .role | .debug | .config | .subscribe | .unsubscribe | .psubscribe |
    .punsubscribe | .publish | .pubsub | .unwatch | .cluster | .migrate | .asking | .readonly | .readwrite |
    .client | .slowlog | .script | .time | .wait | .command | .pfselftest | .pfdebug | .latency =>
    ⟨none, 0, 0, 0⟩
  | .sort =>
    ⟨some .sortGetKeys, 1, 1, 1⟩
  | .object =>
    ⟨none, 2, 2, 2⟩
  | .eval | .evalsha =>
    ⟨some .evalGetKeys, 0, 0, 0⟩
  | .bitop =>
    ⟨none, 2, -1, 1⟩

/-- What is not written yet is none. -/
abbrev Keys := List (Option Int)

/-- `zmalloc(sizeof(int)*count)`, where the size is a `size_t`. A block of half the address space is never there. -/
def zmallocInts (count : Int) : Option Keys :=
  let size := (4 * count % 2 ^ 64).toNat
  if 2 ^ 63 ≤ size then none else some (List.replicate (size / 4) none)

def Keys.write (keys : Keys) (i position : Int) : Option Keys :=
  if 0 ≤ i ∧ i < keys.length then some (keys.set i.toNat (some position)) else none

/-- The string as a number, in an int. -/
def atoi (s : List UInt8) : Int := (BitVec.ofInt 32 (strtol s).1).toInt

def tableLoop (argc last step : Int) : Nat → Int → Int → Keys → Option (Keys × Int)
  | 0, _, _, _ => none
  | fuel + 1, j, i, keys =>
    if j ≤ last then
      if j < argc then (keys.write i j).bind (tableLoop argc last step fuel (j + step) (i + 1)) else none
    else some (keys, i)

def getKeysUsingCommandTable (columns : KeyColumns) (argv : Argv) : Option (Keys × Int) := do
  if columns.firstkey = 0 then return ([], 0)
  let last := if columns.lastkey < 0 then argv.length + columns.lastkey else columns.lastkey
  let keys ← zmallocInts (last - columns.firstkey + 1)
  tableLoop argv.length last columns.keystep (last - columns.firstkey + 2).toNat columns.firstkey 0 keys

def fillKeys : Nat → Int → Keys → Option Keys
  | 0, _, keys => some keys
  | left + 1, i, keys => (keys.write i (3 + i)).bind (fillKeys left (i + 1))

def zunionInterGetKeys (argv : Argv) : Option (Keys × Int) := do
  let num := atoi (argv.getD 2 [])
  if argv.length - 3 < num then return ([], 0)
  let keys ← zmallocInts (num + 1)
  let keys ← fillKeys num.toNat 0 keys
  let keys ← keys.write num 1
  return (keys, num + 1)

def evalGetKeys (argv : Argv) : Option (Keys × Int) := do
  let num := atoi (argv.getD 2 [])
  if argv.length - 3 < num then return ([], 0)
  let keys ← zmallocInts num
  let keys ← fillKeys num.toNat 0 keys
  return (keys, num)

def limitName : List UInt8 := [108, 105, 109, 105, 116]

def getName : List UInt8 := [103, 101, 116]

def byName : List UInt8 := [98, 121]

def storeName : List UInt8 := [115, 116, 111, 114, 101]

def skiplist : List (List UInt8 × Nat) := [(limitName, 2), (getName, 1), (byName, 1)]

inductive SortOption where
  | skip (count : Nat)
  | store
  | other

def sortOption (arg : List UInt8) (more : Bool) : List (List UInt8 × Nat) → SortOption
  | [] => .other
  | (name, skip) :: rest =>
    if strcasecmp arg name then .skip skip
    else if strcasecmp arg storeName && more then .store
    else sortOption arg more rest

/-- The loop of `sortGetKeys`; the place of the STORE key is written over and over. -/
def sortLoop (argv : Argv) : Nat → Nat → Bool → Keys → Option (Keys × Bool)
  | 0, _, _, _ => none
  | fuel + 1, i, foundStore, keys =>
    if i < argv.length then
      match sortOption (argv.getD i []) (i + 1 < argv.length) skiplist with
      | .skip count => sortLoop argv fuel (i + count + 1) foundStore keys
      | .store => (keys.write 1 (i + 1)).bind (sortLoop argv fuel (i + 1) true)
      | .other => sortLoop argv fuel (i + 1) foundStore keys
    else some (keys, foundStore)

def sortGetKeys (argv : Argv) : Option (Keys × Int) := do
  let keys ← zmallocInts 2
  let keys ← keys.write 0 1
  let (keys, foundStore) ← sortLoop argv argv.length 2 false keys
  return (keys, if foundStore then 2 else 1)

def getKeysFromCommand (cmd : Command) (argv : Argv) : Option (Keys × Int) :=
  match (keyColumns cmd).getkeysProc with
  | some .zunionInterGetKeys => zunionInterGetKeys argv
  | some .evalGetKeys => evalGetKeys argv
  | some .sortGetKeys => sortGetKeys argv
  | none => getKeysUsingCommandTable (keyColumns cmd) argv

end Cplusplus.Redis.CommandKeys
