/-! `redisCommandTable` of `redis.c`: the arity, the flags and the place of the first key
of every command. -/

namespace Cplusplus.Redis

inductive Command where
  | get | set | setnx | setex | psetex | append | strlen | del | exists | setbit | getbit | setrange | getrange
  | substr | incr | decr | mget | rpush | lpush | rpushx | lpushx | linsert | rpop | lpop | brpop | brpoplpush
  | blpop | llen | lindex | lset | lrange | ltrim | lrem | rpoplpush | sadd | srem | smove | sismember | scard | spop
  | srandmember | sinter | sinterstore | sunion | sunionstore | sdiff | sdiffstore | smembers | sscan | zadd
  | zincrby | zrem | zremrangebyscore | zremrangebyrank | zremrangebylex | zunionstore | zinterstore | zrange
  | zrangebyscore | zrevrangebyscore | zrangebylex | zrevrangebylex | zcount | zlexcount | zrevrange | zcard | zscore
  | zrank | zrevrank | zscan | hset | hsetnx | hget | hmset | hmget | hincrby | hincrbyfloat | hdel | hlen | hkeys
  | hvals | hgetall | hexists | hscan | incrby | decrby | incrbyfloat | getset | mset | msetnx | randomkey | select
  | move | rename | renamenx | expire | expireat | pexpire | pexpireat | keys | scan | dbsize | auth | ping | echo
  | save | bgsave | bgrewriteaof | shutdown | lastsave | type | multi | exec | discard | sync | psync | replconf
  | flushdb | flushall | sort | info | monitor | ttl | pttl | persist | slaveof | role | debug | config | subscribe
  | unsubscribe | psubscribe | punsubscribe | publish | pubsub | watch | unwatch | cluster | restore | restoreAsking
  | migrate | asking | readonly | readwrite | dump | object | client | eval | evalsha | slowlog | script | time
  | bitop | bitcount | bitpos | wait | command | pfselftest | pfadd | pfcount | pfmerge | pfdebug | latency
deriving DecidableEq, Repr

structure RedisCommand where
  arity : Int
  sflags : List Char
  getkeysProc : Bool
  firstkey : Nat

def redisCommandTable : Command → RedisCommand
  | .get => ⟨2, ['r', 'F'], false, 1⟩
  | .set => ⟨-3, ['w', 'm'], false, 1⟩
  | .setnx => ⟨3, ['w', 'm', 'F'], false, 1⟩
  | .setex => ⟨4, ['w', 'm'], false, 1⟩
  | .psetex => ⟨4, ['w', 'm'], false, 1⟩
  | .append => ⟨3, ['w', 'm'], false, 1⟩
  | .strlen => ⟨2, ['r', 'F'], false, 1⟩
  | .del => ⟨-2, ['w'], false, 1⟩
  | .exists => ⟨-2, ['r', 'F'], false, 1⟩
  | .setbit => ⟨4, ['w', 'm'], false, 1⟩
  | .getbit => ⟨3, ['r', 'F'], false, 1⟩
  | .setrange => ⟨4, ['w', 'm'], false, 1⟩
  | .getrange => ⟨4, ['r'], false, 1⟩
  | .substr => ⟨4, ['r'], false, 1⟩
  | .incr => ⟨2, ['w', 'm', 'F'], false, 1⟩
  | .decr => ⟨2, ['w', 'm', 'F'], false, 1⟩
  | .mget => ⟨-2, ['r'], false, 1⟩
  | .rpush => ⟨-3, ['w', 'm', 'F'], false, 1⟩
  | .lpush => ⟨-3, ['w', 'm', 'F'], false, 1⟩
  | .rpushx => ⟨3, ['w', 'm', 'F'], false, 1⟩
  | .lpushx => ⟨3, ['w', 'm', 'F'], false, 1⟩
  | .linsert => ⟨5, ['w', 'm'], false, 1⟩
  | .rpop => ⟨2, ['w', 'F'], false, 1⟩
  | .lpop => ⟨2, ['w', 'F'], false, 1⟩
  | .brpop => ⟨-3, ['w', 's'], false, 1⟩
  | .brpoplpush => ⟨4, ['w', 'm', 's'], false, 1⟩
  | .blpop => ⟨-3, ['w', 's'], false, 1⟩
  | .llen => ⟨2, ['r', 'F'], false, 1⟩
  | .lindex => ⟨3, ['r'], false, 1⟩
  | .lset => ⟨4, ['w', 'm'], false, 1⟩
  | .lrange => ⟨4, ['r'], false, 1⟩
  | .ltrim => ⟨4, ['w'], false, 1⟩
  | .lrem => ⟨4, ['w'], false, 1⟩
  | .rpoplpush => ⟨3, ['w', 'm'], false, 1⟩
  | .sadd => ⟨-3, ['w', 'm', 'F'], false, 1⟩
  | .srem => ⟨-3, ['w', 'F'], false, 1⟩
  | .smove => ⟨4, ['w', 'F'], false, 1⟩
  | .sismember => ⟨3, ['r', 'F'], false, 1⟩
  | .scard => ⟨2, ['r', 'F'], false, 1⟩
  | .spop => ⟨2, ['w', 'R', 's', 'F'], false, 1⟩
  | .srandmember => ⟨-2, ['r', 'R'], false, 1⟩
  | .sinter => ⟨-2, ['r', 'S'], false, 1⟩
  | .sinterstore => ⟨-3, ['w', 'm'], false, 1⟩
  | .sunion => ⟨-2, ['r', 'S'], false, 1⟩
  | .sunionstore => ⟨-3, ['w', 'm'], false, 1⟩
  | .sdiff => ⟨-2, ['r', 'S'], false, 1⟩
  | .sdiffstore => ⟨-3, ['w', 'm'], false, 1⟩
  | .smembers => ⟨2, ['r', 'S'], false, 1⟩
  | .sscan => ⟨-3, ['r', 'R'], false, 1⟩
  | .zadd => ⟨-4, ['w', 'm', 'F'], false, 1⟩
  | .zincrby => ⟨4, ['w', 'm', 'F'], false, 1⟩
  | .zrem => ⟨-3, ['w', 'F'], false, 1⟩
  | .zremrangebyscore => ⟨4, ['w'], false, 1⟩
  | .zremrangebyrank => ⟨4, ['w'], false, 1⟩
  | .zremrangebylex => ⟨4, ['w'], false, 1⟩
  | .zunionstore => ⟨-4, ['w', 'm'], true, 0⟩
  | .zinterstore => ⟨-4, ['w', 'm'], true, 0⟩
  | .zrange => ⟨-4, ['r'], false, 1⟩
  | .zrangebyscore => ⟨-4, ['r'], false, 1⟩
  | .zrevrangebyscore => ⟨-4, ['r'], false, 1⟩
  | .zrangebylex => ⟨-4, ['r'], false, 1⟩
  | .zrevrangebylex => ⟨-4, ['r'], false, 1⟩
  | .zcount => ⟨4, ['r', 'F'], false, 1⟩
  | .zlexcount => ⟨4, ['r', 'F'], false, 1⟩
  | .zrevrange => ⟨-4, ['r'], false, 1⟩
  | .zcard => ⟨2, ['r', 'F'], false, 1⟩
  | .zscore => ⟨3, ['r', 'F'], false, 1⟩
  | .zrank => ⟨3, ['r', 'F'], false, 1⟩
  | .zrevrank => ⟨3, ['r', 'F'], false, 1⟩
  | .zscan => ⟨-3, ['r', 'R'], false, 1⟩
  | .hset => ⟨4, ['w', 'm', 'F'], false, 1⟩
  | .hsetnx => ⟨4, ['w', 'm', 'F'], false, 1⟩
  | .hget => ⟨3, ['r', 'F'], false, 1⟩
  | .hmset => ⟨-4, ['w', 'm'], false, 1⟩
  | .hmget => ⟨-3, ['r'], false, 1⟩
  | .hincrby => ⟨4, ['w', 'm', 'F'], false, 1⟩
  | .hincrbyfloat => ⟨4, ['w', 'm', 'F'], false, 1⟩
  | .hdel => ⟨-3, ['w', 'F'], false, 1⟩
  | .hlen => ⟨2, ['r', 'F'], false, 1⟩
  | .hkeys => ⟨2, ['r', 'S'], false, 1⟩
  | .hvals => ⟨2, ['r', 'S'], false, 1⟩
  | .hgetall => ⟨2, ['r'], false, 1⟩
  | .hexists => ⟨3, ['r', 'F'], false, 1⟩
  | .hscan => ⟨-3, ['r', 'R'], false, 1⟩
  | .incrby => ⟨3, ['w', 'm', 'F'], false, 1⟩
  | .decrby => ⟨3, ['w', 'm', 'F'], false, 1⟩
  | .incrbyfloat => ⟨3, ['w', 'm', 'F'], false, 1⟩
  | .getset => ⟨3, ['w', 'm'], false, 1⟩
  | .mset => ⟨-3, ['w', 'm'], false, 1⟩
  | .msetnx => ⟨-3, ['w', 'm'], false, 1⟩
  | .randomkey => ⟨1, ['r', 'R'], false, 0⟩
  | .select => ⟨2, ['r', 'l', 'F'], false, 0⟩
  | .move => ⟨3, ['w', 'F'], false, 1⟩
  | .rename => ⟨3, ['w'], false, 1⟩
  | .renamenx => ⟨3, ['w', 'F'], false, 1⟩
  | .expire => ⟨3, ['w', 'F'], false, 1⟩
  | .expireat => ⟨3, ['w', 'F'], false, 1⟩
  | .pexpire => ⟨3, ['w', 'F'], false, 1⟩
  | .pexpireat => ⟨3, ['w', 'F'], false, 1⟩
  | .keys => ⟨2, ['r', 'S'], false, 0⟩
  | .scan => ⟨-2, ['r', 'R'], false, 0⟩
  | .dbsize => ⟨1, ['r', 'F'], false, 0⟩
  | .auth => ⟨2, ['r', 's', 'l', 't', 'F'], false, 0⟩
  | .ping => ⟨-1, ['r', 't', 'F'], false, 0⟩
  | .echo => ⟨2, ['r', 'F'], false, 0⟩
  | .save => ⟨1, ['a', 'r', 's'], false, 0⟩
  | .bgsave => ⟨1, ['a', 'r'], false, 0⟩
  | .bgrewriteaof => ⟨1, ['a', 'r'], false, 0⟩
  | .shutdown => ⟨-1, ['a', 'r', 'l', 't'], false, 0⟩
  | .lastsave => ⟨1, ['r', 'R', 'F'], false, 0⟩
  | .type => ⟨2, ['r', 'F'], false, 1⟩
  | .multi => ⟨1, ['r', 's', 'F'], false, 0⟩
  | .exec => ⟨1, ['s', 'M'], false, 0⟩
  | .discard => ⟨1, ['r', 's', 'F'], false, 0⟩
  | .sync => ⟨1, ['a', 'r', 's'], false, 0⟩
  | .psync => ⟨3, ['a', 'r', 's'], false, 0⟩
  | .replconf => ⟨-1, ['a', 'r', 's', 'l', 't'], false, 0⟩
  | .flushdb => ⟨1, ['w'], false, 0⟩
  | .flushall => ⟨1, ['w'], false, 0⟩
  | .sort => ⟨-2, ['w', 'm'], true, 1⟩
  | .info => ⟨-1, ['r', 'l', 't'], false, 0⟩
  | .monitor => ⟨1, ['a', 'r', 's'], false, 0⟩
  | .ttl => ⟨2, ['r', 'F'], false, 1⟩
  | .pttl => ⟨2, ['r', 'F'], false, 1⟩
  | .persist => ⟨2, ['w', 'F'], false, 1⟩
  | .slaveof => ⟨3, ['a', 's', 't'], false, 0⟩
  | .role => ⟨1, ['l', 's', 't'], false, 0⟩
  | .debug => ⟨-2, ['a', 's'], false, 0⟩
  | .config => ⟨-2, ['a', 'r', 't'], false, 0⟩
  | .subscribe => ⟨-2, ['r', 'p', 's', 'l', 't'], false, 0⟩
  | .unsubscribe => ⟨-1, ['r', 'p', 's', 'l', 't'], false, 0⟩
  | .psubscribe => ⟨-2, ['r', 'p', 's', 'l', 't'], false, 0⟩
  | .punsubscribe => ⟨-1, ['r', 'p', 's', 'l', 't'], false, 0⟩
  | .publish => ⟨3, ['p', 'l', 't', 'r', 'F'], false, 0⟩
  | .pubsub => ⟨-2, ['p', 'l', 't', 'r', 'R'], false, 0⟩
  | .watch => ⟨-2, ['r', 's', 'F'], false, 1⟩
  | .unwatch => ⟨1, ['r', 's', 'F'], false, 0⟩
  | .cluster => ⟨-2, ['a', 'r'], false, 0⟩
  | .restore => ⟨-4, ['w', 'm'], false, 1⟩
  | .restoreAsking => ⟨-4, ['w', 'm', 'k'], false, 1⟩
  | .migrate => ⟨-6, ['w'], false, 0⟩
  | .asking => ⟨1, ['r'], false, 0⟩
  | .readonly => ⟨1, ['r', 'F'], false, 0⟩
  | .readwrite => ⟨1, ['r', 'F'], false, 0⟩
  | .dump => ⟨2, ['r'], false, 1⟩
  | .object => ⟨3, ['r'], false, 2⟩
  | .client => ⟨-2, ['r', 's'], false, 0⟩
  | .eval => ⟨-3, ['s'], true, 0⟩
  | .evalsha => ⟨-3, ['s'], true, 0⟩
  | .slowlog => ⟨-2, ['r'], false, 0⟩
  | .script => ⟨-2, ['r', 's'], false, 0⟩
  | .time => ⟨1, ['r', 'R', 'F'], false, 0⟩
  | .bitop => ⟨-4, ['w', 'm'], false, 2⟩
  | .bitcount => ⟨-2, ['r'], false, 1⟩
  | .bitpos => ⟨-3, ['r'], false, 1⟩
  | .wait => ⟨3, ['r', 's'], false, 0⟩
  | .command => ⟨0, ['r', 'l', 't'], false, 0⟩
  | .pfselftest => ⟨1, ['r'], false, 0⟩
  | .pfadd => ⟨-2, ['w', 'm', 'F'], false, 1⟩
  | .pfcount => ⟨-2, ['r'], false, 1⟩
  | .pfmerge => ⟨-2, ['w', 'm'], false, 1⟩
  | .pfdebug => ⟨-3, ['w'], false, 0⟩
  | .latency => ⟨-2, ['a', 'r', 's', 'l', 't'], false, 0⟩

/-- `cmd->flags & REDIS_CMD_WRITE` and so on: `populateCommandTable` sets one bit for each
letter. -/
def Command.hasFlag (cmd : Command) (flag : Char) : Bool := (redisCommandTable cmd).sflags.contains flag

end Cplusplus.Redis
