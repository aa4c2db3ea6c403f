import Mathlib.Data.Finmap

/-! One database of `db.c`: the main dictionary and the dictionary of the expires, as finite maps.
A result that is none is an assertion that fails. The access times are left out. -/

namespace Cplusplus.Redis

abbrev Key := List UInt8

structure Db (V : Type) where
  dict : Finmap fun _ : Key => V
  expires : Finmap fun _ : Key => Int

namespace Db

variable {V : Type}

@[ext] theorem ext {a b : Db V} (dict : a.dict = b.dict) (expires : a.expires = b.expires) : a = b := by
  cases a
  cases b
  simp_all

def empty : Db V := ⟨∅, ∅⟩

def add (db : Db V) (key : Key) (val : V) : Option (Db V) :=
  if key ∈ db.dict then none else some { db with dict := db.dict.insert key val }

def overwrite (db : Db V) (key : Key) (val : V) : Option (Db V) :=
  if key ∈ db.dict then some { db with dict := db.dict.insert key val } else none

def delete (db : Db V) (key : Key) : Db V where
  dict := db.dict.erase key
  expires := if 0 < db.expires.keys.card then db.expires.erase key else db.expires

def lookupKey (db : Db V) (key : Key) : Option V := db.dict.lookup key

def removeExpire (db : Db V) (key : Key) : Option (Db V) :=
  if key ∈ db.dict then some { db with expires := db.expires.erase key } else none

def setExpire (db : Db V) (key : Key) (when : Int) : Option (Db V) :=
  if key ∈ db.dict then some { db with expires := db.expires.insert key when } else none

/-- -1 for no expire. The assertion that a key with an expire is in the main dictionary is left out. -/
def getExpire (db : Db V) (key : Key) : Int := (db.expires.lookup key).getD (-1)

def set (db : Db V) (key : Key) (val : V) : Option (Db V) := do
  let db ← if (db.lookupKey key).isSome then db.overwrite key val else db.add key val
  db.removeExpire key

def Sound (db : Db V) : Prop := ∀ key ∈ db.expires, key ∈ db.dict

def expireAt (db : Db V) (key : Key) (when : Int) : Db V := { db with expires := db.expires.insert key when }

theorem erase_absent {W : Type} {entries : Finmap fun _ : Key => W} {key : Key} (absent : key ∉ entries) :
    entries.erase key = entries := by
  apply Finmap.ext_lookup
  intro other
  rcases eq_or_ne other key with rfl | distinct
  · rw [Finmap.lookup_erase, Finmap.lookup_eq_none.mpr absent]
  · rw [Finmap.lookup_erase_ne distinct]

theorem insert_erase {W : Type} (entries : Finmap fun _ : Key => W) (key : Key) (value : W) :
    (entries.erase key).insert key value = entries.insert key value := by
  apply Finmap.ext_lookup
  intro other
  rcases eq_or_ne other key with rfl | distinct
  · rw [Finmap.lookup_insert, Finmap.lookup_insert]
  · rw [Finmap.lookup_insert_of_ne _ distinct, Finmap.lookup_insert_of_ne _ distinct, Finmap.lookup_erase_ne distinct]

theorem mem_iff_lookupKey {db : Db V} {key : Key} : key ∈ db.dict ↔ (db.lookupKey key).isSome = true := by
  rw [lookupKey, Finmap.lookup_isSome]

theorem delete_eq (db : Db V) (key : Key) : db.delete key = ⟨db.dict.erase key, db.expires.erase key⟩ := by
  unfold delete
  split
  next => rfl
  next empty =>
    have absent : key ∉ db.expires := fun member => empty (Finset.card_pos.mpr ⟨key, Finmap.mem_keys.mpr member⟩)
    rw [erase_absent absent]

theorem set_eq (db : Db V) (key : Key) (val : V) :
    db.set key val = some ⟨db.dict.insert key val, db.expires.erase key⟩ := by
  have member : key ∈ db.dict.insert key val := by simp [Finmap.mem_insert]
  cases found : (db.lookupKey key).isSome with
  | true => simp [set, found, overwrite, mem_iff_lookupKey.mpr found, removeExpire, member]
  | false =>
    have absent : key ∉ db.dict := fun present => by simp [mem_iff_lookupKey.mp present] at found
    simp [set, found, add, absent, removeExpire, member]

theorem setExpire_eq {db : Db V} {key : Key} (present : (db.lookupKey key).isSome = true) (when : Int) :
    db.setExpire key when = some (db.expireAt key when) := by
  rw [setExpire, if_pos (mem_iff_lookupKey.mpr present), expireAt]

theorem delete_absent {db : Db V} {key : Key} (sound : db.Sound) (absent : (db.lookupKey key).isSome = false) :
    db.delete key = db := by
  have outside : key ∉ db.dict := fun present => by simp [mem_iff_lookupKey.mp present] at absent
  rw [delete_eq, erase_absent outside, erase_absent fun member => outside (sound key member)]

theorem delete_comm (db : Db V) (a b : Key) : (db.delete a).delete b = (db.delete b).delete a := by
  simp only [delete_eq, Finmap.erase_erase]

theorem delete_delete (db : Db V) (key : Key) : (db.delete key).delete key = db.delete key := by
  simp only [delete_eq, erase_absent Finmap.notMem_erase_self]

theorem foldl_delete (db : Db V) (keys : List Key) (key : Key) :
    keys.foldl delete (db.delete key) = (keys.foldl delete db).delete key := by
  induction keys generalizing db with
  | nil => rfl
  | cons other keys ih => rw [List.foldl_cons, List.foldl_cons, delete_comm, ih]

theorem lookupKey_delete (db : Db V) (key : Key) : (db.delete key).lookupKey key = none := by
  rw [delete_eq, lookupKey, Finmap.lookup_erase]

theorem sound_empty : (empty : Db V).Sound := fun _ member => absurd member Finmap.notMem_empty

theorem Sound.delete {db : Db V} (sound : db.Sound) (key : Key) : (db.delete key).Sound := by
  intro other member
  rw [delete_eq] at member ⊢
  obtain ⟨distinct, member⟩ := Finmap.mem_erase.mp member
  exact Finmap.mem_erase.mpr ⟨distinct, sound other member⟩

theorem Sound.insert {db : Db V} (sound : db.Sound) (key : Key) (val : V) :
    ({ db with dict := db.dict.insert key val } : Db V).Sound :=
  fun other member => Finmap.mem_insert.mpr (.inr (sound other member))

theorem Sound.erase {db : Db V} (sound : db.Sound) (key : Key) : ({ db with expires := db.expires.erase key } : Db V).Sound :=
  fun other member => sound other (Finmap.mem_erase.mp member).2

theorem Sound.expire {db : Db V} (sound : db.Sound) {key : Key} (present : key ∈ db.dict) (when : Int) :
    (db.expireAt key when).Sound := by
  intro other member
  rcases Finmap.mem_insert.mp member with rfl | member
  · exact present
  · exact sound other member

end Db

/-! `dbRandomKey` of `db.c`. The random choices and the clock are parameters. -/

section
variable {V : Type}

structure ServerRole where
  loading : Bool
  masterhost : Bool

structure RoundClock where
  now : Nat → Int
  mono {i j : Nat} : i ≤ j → now i ≤ now j

/-- The key that `dictGetRandomKey` gives at each round. A fair choice comes to each key of a
dictionary again and again. -/
structure RandomKeys (V : Type) where
  pick : Nat → Db V → Option Key
  empty : ∀ i db, pick i db = none → ∀ key, key ∉ db.dict
  member : ∀ i db key, pick i db = some key → key ∈ db.dict
  fair : ∀ db key, key ∈ db.dict → ∀ n, ∃ i, n ≤ i ∧ pick i db = some key

namespace Db

/-- `expireIfNeeded` with its result. What is propagated is left out. -/
def expireIfNeeded (role : ServerRole) (now : Int) (db : Db V) (key : Key) : Bool × Db V :=
  let when := db.getExpire key
  if when < 0 then (false, db)
  else if role.loading then (false, db)
  else if role.masterhost then (when < now, db)
  else if now ≤ when then (false, db)
  else ((db.lookupKey key).isSome, db.delete key)

/-- One round: the key that is returned, or none and the database of the next round. -/
def randomRound (role : ServerRole) (now : Int) (db : Db V) (key : Key) : Option Key × Db V :=
  if key ∈ db.expires then
    let (expired, db) := db.expireIfNeeded role now key
    if expired then (none, db) else (some key, db)
  else (some key, db)

def dbRandomKey (role : ServerRole) (clock : RoundClock) (keys : RandomKeys V) : Nat → Nat → Db V → Option (Option Key × Db V)
  | 0, _, _ => none
  | fuel + 1, i, db =>
    match keys.pick i db with
    | none => some (none, db)
    | some key =>
      match db.randomRound role (clock.now i) key with
      | (some key, db) => some (some key, db)
      | (none, db) => dbRandomKey role clock keys fuel (i + 1) db

def Terminates (role : ServerRole) (clock : RoundClock) (db : Db V) : Prop :=
  ∀ keys : RandomKeys V, ∃ fuel result, db.dbRandomKey role clock keys fuel 0 = some result

def expired (now : Int) (db : Db V) (key : Key) : Bool := (db.expires.lookup key).any fun when => 0 ≤ when && when < now

/-- A slave that is not loading has no key at all, or none that has expired at the first round, or
one that never expires. -/
def Answers (role : ServerRole) (clock : RoundClock) (db : Db V) : Prop :=
  role.masterhost = false ∨ role.loading = true ∨ (∀ key ∈ db.dict, expired (clock.now 0) db key = false) ∨
    ∃ key ∈ db.dict, ∀ i, expired (clock.now i) db key = false

end Db

end

end Cplusplus.Redis
