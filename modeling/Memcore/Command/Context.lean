import Memcore.Keyspace
import Memcore.Lib.Prog
import Memcore.Reply
import Memcore.Settings

/-!
# The context of a command

`command.go` and the data methods of `shard.go`: the session a handler runs in. A database is split
into shards and a key is routed to one by hash; the data methods go to the shard that owns the key.

What a handler reads but does not change is its `Env`: the reading of the clock, the thresholds, the
routing, the library functions, and the order in which ranging over a map visits it. What it changes
is the `Context`: every shard of every database, the settings, the selected database, and the random
levels a skip list draws.
-/

namespace Memcore

open Go

/-- The shards of one logical database. -/
abbrev DB (m : Nat) := Fin m → Keyspace

/-- What a command reads and cannot change. The keyspace reads the clock at every lookup; here the
clock stands still while a handler runs, and `now` is its one reading. -/
structure Env (m : Nat) where
  now : Time
  limits : Limits
  host : Host
  /-- `indexString` and `indexBytes`: which shard owns a key. -/
  route : Bytes → Fin m
  ord : MapOrder

/-- A server of one database and one shard has their indices. -/
instance Env.neZeroOne : NeZero 1 := ⟨Nat.one_ne_zero⟩

/-- One shard and no compact encodings, to run the model with. -/
def Env.single (now : Time) : Env 1 :=
  ⟨now, ⟨⟨0, 0⟩, ⟨0, 0⟩, ⟨0, 0⟩, ⟨0, 0⟩⟩, Host.verbatim, fun _ => 0, MapOrder.default⟩

/-- `Context`, with the databases and settings it points to. -/
structure Context (n m : Nat) where
  databases : Fin n → DB m
  settings : Option Reloadable
  index : Fin n
  rng : Rng

namespace Context

variable {n m : Nat}

/-- The selected database. -/
def db (c : Context n m) : DB m := c.databases c.index

/-- The selected database has become `db`. -/
def setDB (c : Context n m) (db : DB m) : Context n m :=
  { c with databases := Function.update c.databases c.index db }

end Context

/-- A handler's program. -/
abbrev Cmd (n m : Nat) := Prog (Context n m) Panic

namespace Cmd

variable {n m : Nat} {α : Type}

/-- `Context.Select`: does the index name a database? -/
def select (index : Int) : Cmd n m Bool := fun c =>
  if h : 0 ≤ index ∧ index.toNat < n then (.ok true, { c with index := ⟨index.toNat, h.2⟩ })
  else (.ok false, c)

/-- A computation on one shard of the selected database. -/
def onShard (i : Fin m) (f : Keyspace → α × Keyspace) : Cmd n m α := fun c =>
  (.ok (f (c.db i)).1, c.setDB (Function.update c.db i (f (c.db i)).2))

/-- A read of one shard of the selected database. -/
def readShard (i : Fin m) (f : Keyspace → α) : Cmd n m α := fun c =>
  (.ok (f (c.db i)), c)

/-- The random levels from here on. -/
def getRng : Cmd n m Rng := fun c => (.ok c.rng, c)

/-- Leave `rng` for the next draw. -/
def setRng (rng : Rng) : Cmd n m Unit := fun c => (.ok (), { c with rng })

/-- `Settings.Load`; `none` for a nil `Settings`. -/
def getSettings : Cmd n m (Option Reloadable) := fun c => (.ok c.settings, c)

/-- Store new settings. -/
def setSettings (r : Reloadable) : Cmd n m Unit := fun c => (.ok (), { c with settings := some r })

/-! ## The data methods -/

variable (env : Env m)

/-- `DB.GetBytes`. -/
def getBytes (key : Bytes) : Cmd n m (Option Value) :=
  readShard (env.route key) fun ks => ks.getBytes env.now key

/-- `DB.ExistsBytes`. -/
def existsBytes (key : Bytes) : Cmd n m Bool :=
  readShard (env.route key) fun ks => ks.existsBytes env.now key

/-- `DB.Lookup`. -/
def lookup (key : Bytes) : Cmd n m (Option Entry) :=
  readShard (env.route key) fun ks => ks.lookup env.now key

/-- `DB.Set`. -/
def set (key : Bytes) (v : Value) : Cmd n m Unit :=
  onShard (env.route key) fun ks => ((), ks.set key v)

/-- `DB.SetEntry`. -/
def setEntry (key : Bytes) (e : Entry) : Cmd n m Unit :=
  onShard (env.route key) fun ks => ((), ks.setEntry key e)

/-- The collection behind the pointer under `key` has become `v`. -/
def mutate (key : Bytes) (v : Value) : Cmd n m Unit :=
  onShard (env.route key) fun ks => ((), ks.mutate key v)

/-- `DB.SetExpire`. -/
def setExpire (key : Bytes) (at' : Time) : Cmd n m Bool :=
  onShard (env.route key) fun ks => ks.setExpire env.now key at'

/-- `DB.Persist`. -/
def persist (key : Bytes) : Cmd n m Bool :=
  onShard (env.route key) fun ks => ks.persist env.now key

/-- `DB.Delete`. -/
def delete (key : Bytes) : Cmd n m Bool :=
  onShard (env.route key) fun ks => ks.delete env.now key

/-- `DB.Unlink`; what the reaper gets is garbage. -/
def unlink (key : Bytes) : Cmd n m Bool :=
  onShard (env.route key) fun ks => ((ks.take env.now key).1.2, (ks.take env.now key).2)

/-- `DB.Flush`. -/
def flush : Cmd n m Unit := fun c => (.ok (), c.setDB fun i => (c.db i).flush)

/-- The arguments a handler indexes into. -/
def arg (args : List Bytes) (i : Nat) : Cmd n m Bytes := Prog.lift (Go.index args i)

/-- `args[i:]`. -/
def argsFrom (args : List Bytes) (i : Nat) : Cmd n m (List Bytes) := Prog.lift (Go.sliceFrom args i)

end Cmd

end Memcore
