import Memcore.Command.Context
import Memcore.Lib.Calls

/-!
# Sharding is transparent

`shard.go`: a database is a number of keyspaces, and a key lives in the one its hash routes it to. The
data methods go to that keyspace, `Flush`, `Len` and `EachEntry` to all of them.

A family of keyspaces is `SplitBy` a routing if each holds the keys that are routed to it, out of one
keyspace, and no others. The methods on a key read and write the entry of that key alone (`OnKey`), so
they keep a family and the keyspace it is split from in step, and none of their results shows how many
shards there are or what the hash is (`shards_transparent`).
-/

namespace Memcore

open Go

/-- `hash/maphash` under the seed of the process, on strings and on bytes. -/
structure Maphash where
  string : Bytes → UInt64
  bytes : Bytes → UInt64
  agree : ∀ key, string key = bytes key

namespace Maphash

variable {m : Nat} [NeZero m] (h : Maphash)

/-- `DB.indexString`. -/
def indexString (key : Bytes) : Fin m := Fin.ofNat m (h.string key).toNat

/-- `DB.indexBytes`. -/
def indexBytes (key : Bytes) : Fin m := Fin.ofNat m (h.bytes key).toNat

theorem indexBytes_eq (key : Bytes) : (h.indexBytes key : Fin m) = h.indexString key := by
  rw [indexBytes, indexString, h.agree]

end Maphash

/-! ## The data methods -/

/-- A call on a database or on a keyspace, with the reading of the clock if it takes one. -/
inductive DBOp where
  | get (now : Time) (key : Bytes)
  | getBytes (now : Time) (key : Bytes)
  | lookup (now : Time) (key : Bytes)
  | exists' (now : Time) (key : Bytes)
  | existsBytes (now : Time) (key : Bytes)
  | set (key : Bytes) (v : Value)
  | setEntry (key : Bytes) (e : Entry)
  | setExpire (now : Time) (key : Bytes) (at' : Time)
  | persist (now : Time) (key : Bytes)
  | delete (now : Time) (key : Bytes)
  | unlink (now : Time) (key : Bytes)
  | restore (key : Bytes) (e : Entry)
  | flush
  | len
  /-- The callbacks in the order that maps are visited in. -/
  | eachEntry (ord : MapOrder)

/-- What a call returns. -/
inductive DBOut where
  | value (v : Option Value)
  | entry (e : Option Entry)
  | bool (b : Bool)
  | done
  | length (n : Nat)
  | entries (es : List (Bytes × Entry))

namespace DBOp

/-- A call on a `Keyspace`. -/
def onKeyspace : DBOp → Keyspace → DBOut × Keyspace
  | .get now key, ks => (.value (ks.get now key), ks)
  | .getBytes now key, ks => (.value (ks.getBytes now key), ks)
  | .lookup now key, ks => (.entry (ks.lookup now key), ks)
  | .exists' now key, ks => (.bool (ks.exists' now key), ks)
  | .existsBytes now key, ks => (.bool (ks.existsBytes now key), ks)
  | .set key v, ks => (.done, ks.set key v)
  | .setEntry key e, ks => (.done, ks.setEntry key e)
  | .setExpire now key at', ks => (.bool (ks.setExpire now key at').1, (ks.setExpire now key at').2)
  | .persist now key, ks => (.bool (ks.persist now key).1, (ks.persist now key).2)
  | .delete now key, ks => (.bool (ks.delete now key).1, (ks.delete now key).2)
  | .unlink now key, ks => (.bool (ks.take now key).1.2, (ks.take now key).2)
  | .restore key e, ks => (.done, ks.setEntry key e)
  | .flush, ks => (.done, ks.flush)
  | .len, ks => (.length ks.len, ks)
  | .eachEntry ord, ks => (.entries (ks.range ord), ks)

variable {m : Nat}

/-- A call on one shard. -/
def onShard (op : DBOp) (i : Fin m) (db : DB m) : DBOut × DB m :=
  ((op.onKeyspace (db i)).1, Function.update db i (op.onKeyspace (db i)).2)

/-- A call on a `DB`. -/
def onDB [NeZero m] (h : Maphash) (op : DBOp) (db : DB m) : DBOut × DB m :=
  match op with
  | .getBytes _ key | .existsBytes _ key => op.onShard (h.indexBytes key) db
  | .get _ key | .lookup _ key | .exists' _ key | .set key _ | .setEntry key _ | .setExpire _ key _
  | .persist _ key | .delete _ key | .unlink _ key | .restore key _ =>
    op.onShard (h.indexString key) db
  | .flush => (.done, fun i => (db i).flush)
  | .len => (.length ((List.finRange m).map fun i => (db i).len).sum, db)
  | .eachEntry ord => (.entries ((List.finRange m).flatMap fun i => (db i).range ord), db)

end DBOp

/-! ## One key -/

/-- The call reads and writes what is stored under one key only. -/
structure OnKey {α : Type} (key : Bytes) (f : Keyspace → α × Keyspace) : Prop where
  same : ∀ {ks ks' : Keyspace}, ks.entries.lookup key = ks'.entries.lookup key →
    (f ks).1 = (f ks').1 ∧ (f ks).2.entries.lookup key = (f ks').2.entries.lookup key
  others : ∀ (ks : Keyspace) {key' : Bytes}, key' ≠ key →
    (f ks).2.entries.lookup key' = ks.entries.lookup key'

namespace OnKey

variable {α : Type} {key : Bytes} {f : Keyspace → α × Keyspace}

/-- A call that only reads the entry. -/
theorem read (hleft : ∀ ks, (f ks).2 = ks)
    (hread : ∀ {ks ks' : Keyspace}, ks.entries.lookup key = ks'.entries.lookup key →
      (f ks).1 = (f ks').1) : OnKey key f where
  same h := by
    rw [hleft, hleft]
    exact ⟨hread h, h⟩
  others ks _ _ := by rw [hleft]

/-- A call that stores or removes an entry, or does nothing, depending on the entry. -/
theorem write (out : Option Entry → α) (next : Option Entry → Option (Option Entry))
    (hout : ∀ ks, (f ks).1 = out (ks.entries.lookup key))
    (hnext : ∀ ks, (f ks).2.entries = match next (ks.entries.lookup key) with
      | none => ks.entries
      | some none => ks.entries.erase key
      | some (some e) => ks.entries.insert key e) : OnKey key f where
  same {ks ks'} h := by
    rw [hout, hout, hnext, hnext, h]
    refine ⟨rfl, ?_⟩
    cases next (ks'.entries.lookup key) with
    | none => exact h
    | some o =>
      cases o with
      | none => rw [Finmap.lookup_erase, Finmap.lookup_erase]
      | some e => rw [Finmap.lookup_insert, Finmap.lookup_insert]
  others ks key' hne := by
    rw [hnext]
    cases next (ks.entries.lookup key) with
    | none => rfl
    | some o =>
      cases o with
      | none => exact Finmap.lookup_erase_ne hne
      | some e => exact Finmap.lookup_insert_of_ne _ hne

end OnKey

namespace DBOp

/-- The key a call is on. -/
def key : DBOp → Option Bytes
  | .get _ key | .getBytes _ key | .lookup _ key | .exists' _ key | .existsBytes _ key | .set key _
  | .setEntry key _ | .setExpire _ key _ | .persist _ key | .delete _ key | .unlink _ key
  | .restore key _ => some key
  | .flush | .len | .eachEntry _ => none

/-- The entry a reader at `now` sees. -/
def seen (now : Time) (o : Option Entry) : Option Entry := o.filter fun e => !e.expired now

theorem peek_eq_seen (ks : Keyspace) (now : Time) (key : Bytes) :
    ks.peek now key = seen now (ks.entries.lookup key) := by
  unfold Keyspace.peek seen
  cases ks.entries.lookup key with
  | none => rfl
  | some e => cases hx : e.expired now <;> simp [Option.filter, hx]

/-- **The data methods on a key are on that key only.** -/
theorem onKey {op : DBOp} {key : Bytes} (h : op.key = some key) : OnKey key op.onKeyspace := by
  cases op with
  | get now k | getBytes now k | lookup now k | exists' now k | existsBytes now k =>
    cases h
    -- a read depends on the key's entry alone
    refine OnKey.read (fun _ => rfl) fun {ks ks'} hlook => ?_
    simp only [onKeyspace, Keyspace.get, Keyspace.getBytes_eq, Keyspace.lookup, Keyspace.exists',
      Keyspace.existsBytes_eq, peek_eq_seen, hlook]
  | set k v =>
    cases h
    -- a write puts one entry, or none, in its place
    exact OnKey.write (fun _ => .done) (fun _ => some (some ⟨v, zeroTime⟩))
      (fun _ => rfl) fun _ => rfl
  | setEntry k e | restore k e =>
    cases h
    exact OnKey.write (fun _ => .done) (fun _ => some (some e))
      (fun _ => rfl) fun _ => rfl
  | setExpire now k at' =>
    cases h
    refine OnKey.write (fun o => .bool (seen now o).isSome)
      (fun o => (seen now o).map fun e => some { e with expireAt := at' })
      (fun ks => ?_) fun ks => ?_
    · rw [onKeyspace, Keyspace.setExpire_fst, peek_eq_seen]
    · show (ks.setExpire now key at').2.entries = _
      rw [Keyspace.setExpire, peek_eq_seen]
      cases seen now (ks.entries.lookup key) <;> rfl
  | persist now k =>
    cases h
    refine OnKey.write (fun o => .bool ((seen now o).any Entry.hasExpiry))
      (fun o => ((seen now o).filter Entry.hasExpiry).map fun e =>
        some { e with expireAt := zeroTime }) (fun ks => ?_) fun ks => ?_
    · rw [onKeyspace, Keyspace.persist_fst, peek_eq_seen]
    · show (ks.persist now key).2.entries = _
      rw [Keyspace.persist, peek_eq_seen]
      cases seen now (ks.entries.lookup key) with
      | none => rfl
      | some e => cases hx : e.hasExpiry <;> simp [Option.filter, hx]
  | delete now k =>
    cases h
    refine OnKey.write (fun o => .bool (seen now o).isSome)
      (fun o => o.map fun _ => none) (fun ks => ?_) fun ks => ?_
    · rw [onKeyspace, Keyspace.delete_fst, peek_eq_seen]
    · show (ks.delete now key).2.entries = _
      rw [Keyspace.delete]
      cases ks.entries.lookup key <;> rfl
  | unlink now k =>
    cases h
    refine OnKey.write (fun o => .bool (seen now o).isSome)
      (fun o => o.map fun _ => none) (fun ks => ?_) fun ks => ?_
    · rw [onKeyspace, ← peek_eq_seen, ← Keyspace.delete_fst, ← Keyspace.take_eq_delete]
    · show (ks.take now key).2.entries = _
      rw [Keyspace.take]
      cases ks.entries.lookup key <;> rfl
  | flush | len | eachEntry ord => cases h

end DBOp

/-! ## The shards and the whole -/

/-- The shards hold what the keyspace holds, each the keys that are routed to it. -/
def SplitBy {m : Nat} (route : Bytes → Fin m) (db : DB m) (ks : Keyspace) : Prop :=
  ∀ i key, (db i).entries.lookup key = if route key = i then ks.entries.lookup key else none

namespace SplitBy

variable {m : Nat} {route : Bytes → Fin m} {db : DB m} {ks : Keyspace}

theorem owner (h : SplitBy route db ks) (key : Bytes) :
    (db (route key)).entries.lookup key = ks.entries.lookup key := by
  rw [h, if_pos rfl]

theorem empty (route : Bytes → Fin m) : SplitBy route (fun _ => Keyspace.new) Keyspace.new := by
  intro i key
  simp [Keyspace.new]

/-- A call on a key returns the same on its shard as on the whole, and leaves them in step. -/
theorem onKey (h : SplitBy route db ks) {α : Type} {key : Bytes} {f : Keyspace → α × Keyspace}
    (hf : OnKey key f) : (f (db (route key))).1 = (f ks).1 ∧
      SplitBy route (Function.update db (route key) (f (db (route key))).2) (f ks).2 := by
  obtain ⟨hout, hleft⟩ := hf.same (h.owner key)
  refine ⟨hout, fun i key' => ?_⟩
  by_cases hi : i = route key
  · subst hi
    rw [Function.update_self]
    by_cases hk : key' = key
    · subst hk
      rw [if_pos rfl]
      exact hleft
    · rw [hf.others _ hk, hf.others _ hk, h]
  · rw [Function.update_of_ne hi, h]
    by_cases hk : key' = key
    · subst hk
      rw [if_neg (Ne.symm hi), if_neg (Ne.symm hi)]
    · rw [hf.others _ hk]

/-- What `EachEntry` visits: every entry of the whole, once. -/
theorem lists (h : SplitBy route db ks) (ord : MapOrder) :
    Lists ((List.finRange m).flatMap fun i => (db i).range ord) ks.entries := by
  have hmem {i : Fin m} {key : Bytes} {e : Entry} :
      (key, e) ∈ (db i).range ord ↔ route key = i ∧ ks.entries.lookup key = some e := by
    rw [Keyspace.range, (ord.entries_lists _).2 key e, h]
    split
    next hi => simp [hi]
    next hi => simp [hi]
  refine ⟨?_, fun key e => ?_⟩
  · rw [List.map_flatMap, List.nodup_flatMap]
    refine ⟨fun i _ => (ord.entries_lists _).1, ?_⟩
    refine (List.nodup_finRange m).imp fun {i j} hij => ?_
    -- a key of two shards would be routed to both
    intro key hi hj
    obtain ⟨⟨_, e⟩, he, rfl⟩ := List.mem_map.mp hi
    obtain ⟨⟨_, e'⟩, he', heq⟩ := List.mem_map.mp hj
    cases heq
    exact hij ((hmem.mp he).1.symm.trans (hmem.mp he').1)
  · rw [List.mem_flatMap]
    constructor
    · rintro ⟨i, -, hi⟩
      exact (hmem.mp hi).2
    · intro he
      exact ⟨route key, List.mem_finRange _, hmem.mpr ⟨rfl, he⟩⟩

/-- The shards have as many entries as the whole. -/
theorem len_eq (h : SplitBy route db ks) :
    ((List.finRange m).map fun i => (db i).len).sum = ks.len := by
  have hshard (i : Fin m) : (db i).len = ((db i).range .default).length :=
    (MapOrder.default.entries_lists _).length_eq.symm
  rw [Keyspace.len, ← (h.lists .default).length_eq, List.length_flatMap]
  simp only [hshard]

end SplitBy

/-- The same result, or the same entries in another order, each key once. -/
inductive DBOut.Close : DBOut → DBOut → Prop where
  | value (v : Option Value) : Close (.value v) (.value v)
  | entry (e : Option Entry) : Close (.entry e) (.entry e)
  | bool (b : Bool) : Close (.bool b) (.bool b)
  | done : Close .done .done
  | length (n : Nat) : Close (.length n) (.length n)
  | entries {es fs : List (Bytes × Entry)} (perm : es.Perm fs) (once : (es.map Prod.fst).Nodup) :
      Close (.entries es) (.entries fs)

namespace DBOut.Close

theorem refl_of_key {op : DBOp} {key : Bytes} (h : op.key = some key) (ks : Keyspace) :
    Close (op.onKeyspace ks).1 (op.onKeyspace ks).1 := by
  cases op <;> cases h <;> constructor

theorem of_common (a b c : DBOut) (h : a.Close c) (h' : b.Close c) : a.Close b := by
  cases h with
  | entries perm once =>
    cases h' with
    | entries perm' once' => exact .entries (perm.trans perm'.symm) once
  | value v | entry e | bool b | done | length n =>
    cases h'
    constructor

end DBOut.Close

section Transparent

variable {m : Nat} [NeZero m]

theorem DBOp.onDB_of_key (h : Maphash) {op : DBOp} {key : Bytes} (hkey : op.key = some key)
    (db : DB m) : op.onDB h db = op.onShard (h.indexString key) db := by
  cases op <;> cases hkey <;> simp only [onDB, h.indexBytes_eq]

/-- A call on the shards does what it does on the whole. -/
theorem SplitBy.call (h : Maphash) (db : DB m) (ks : Keyspace) (op : DBOp)
    (hsplit : SplitBy h.indexString db ks) :
    (op.onDB h db).1.Close (op.onKeyspace ks).1 ∧
      SplitBy h.indexString (op.onDB h db).2 (op.onKeyspace ks).2 := by
  cases hkey : op.key with
  | some key =>
    obtain ⟨hout, hnext⟩ := hsplit.onKey (DBOp.onKey hkey)
    rw [DBOp.onDB_of_key h hkey]
    refine ⟨?_, hnext⟩
    rw [DBOp.onShard, hout]
    exact .refl_of_key hkey ks
  | none =>
    cases op with
    | flush =>
      refine ⟨.done, fun i key => ?_⟩
      simp [DBOp.onDB, DBOp.onKeyspace, Keyspace.flush]
    | len =>
      refine ⟨?_, hsplit⟩
      rw [DBOp.onDB, hsplit.len_eq]
      exact .length _
    | eachEntry ord =>
      have hlists := hsplit.lists ord
      exact ⟨.entries (hlists.reorder (ord.entries_lists _)) hlists.1, hsplit⟩
    | get | getBytes | lookup | exists' | existsBytes | set | setEntry | setExpire | persist
    | delete | unlink | restore => cases hkey

/-- A handler's data methods are calls on the selected database. -/
theorem Cmd.methods_eq {n : Nat} (h : Maphash) (env : Env m) (hroute : env.route = h.indexString)
    (key : Bytes) (v : Value) (e : Entry) (at' : Time) (c : Context n m) :
    let on (op : DBOp) : Except Panic DBOut × Context n m :=
      (.ok (op.onDB h c.db).1, c.setDB (op.onDB h c.db).2)
    (DBOut.value <$> getBytes env key) c = on (.getBytes env.now key) ∧
    (DBOut.bool <$> existsBytes env key) c = on (.existsBytes env.now key) ∧
    (DBOut.entry <$> lookup env key) c = on (.lookup env.now key) ∧
    ((fun _ => DBOut.done) <$> set env key v) c = on (.set key v) ∧
    ((fun _ => DBOut.done) <$> setEntry env key e) c = on (.setEntry key e) ∧
    (DBOut.bool <$> setExpire env key at') c = on (.setExpire env.now key at') ∧
    (DBOut.bool <$> persist env key) c = on (.persist env.now key) ∧
    (DBOut.bool <$> delete env key) c = on (.delete env.now key) ∧
    (DBOut.bool <$> unlink env key) c = on (.unlink env.now key) ∧
    ((fun _ => DBOut.done) <$> flush) c = on .flush := by
  have hsame (i : Fin m) : c.setDB (Function.update c.db i (c.db i)) = c := by
    rw [Function.update_eq_self]
    simp [Context.setDB, Context.db]
  simp only [DBOp.onDB, DBOp.onShard, Maphash.indexBytes_eq, ← hroute]
  refine ⟨?_, ?_, ?_, rfl, rfl, rfl, rfl, rfl, rfl, rfl⟩ <;>
    exact Prod.ext rfl (hsame (env.route key)).symm

/-- **Sharding is transparent.** For every number of shards and every hash, calls on a new database
return what they return on a new keyspace, with the entries of `EachEntry` in some order and each key
once; so they return the same under any other number of shards and hash. -/
theorem shards_transparent (h : Maphash) (ops : List DBOp) :
    List.Forall₂ DBOut.Close (answers (DBOp.onDB h) ops fun _ : Fin m => Keyspace.new)
        (answers DBOp.onKeyspace ops Keyspace.new) ∧
      ∀ (m' : Nat) [NeZero m'] (h' : Maphash), List.Forall₂ DBOut.Close
        (answers (DBOp.onDB h) ops fun _ : Fin m => Keyspace.new)
        (answers (DBOp.onDB h') ops fun _ : Fin m' => Keyspace.new) := by
  have hwhole (m : Nat) [NeZero m] (h : Maphash) : List.Forall₂ DBOut.Close
      (answers (DBOp.onDB h) ops fun _ : Fin m => Keyspace.new)
      (answers DBOp.onKeyspace ops Keyspace.new) :=
    answers_forall₂ (SplitBy.call h) ops (SplitBy.empty h.indexString)
  refine ⟨hwhole m h, fun m' _ h' => ?_⟩
  exact forall₂_of_common DBOut.Close.of_common (hwhole m h) (hwhole m' h')

/-- Two keys in two shards, and the same two in one. -/
theorem shards_transparent_two : List.Forall₂ DBOut.Close
    (answers (DBOp.onDB ⟨fun key => key.len.toUInt64, fun key => key.len.toUInt64, fun _ => rfl⟩)
      [.set (ascii "a") (.str (ascii "x")), .set (ascii "bb") (.str (ascii "y")), .len,
        .delete 0 (ascii "a"), .eachEntry .default] fun _ : Fin 2 => Keyspace.new)
    (answers DBOp.onKeyspace
      [.set (ascii "a") (.str (ascii "x")), .set (ascii "bb") (.str (ascii "y")), .len,
        .delete 0 (ascii "a"), .eachEntry .default] Keyspace.new) :=
  (shards_transparent _ _).1

end Transparent

end Memcore
