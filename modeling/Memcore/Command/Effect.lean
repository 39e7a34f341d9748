import Memcore.Command.Registry

/-!
# What a command writes

The purpose of the write commands, with no encoding, no shards and no skip list: a database is a
partial function from keys to abstract entries, and a request does one operation, or none, to the
entry of each key. An operation reads the clock in one way only: an entry whose deadline has passed
is treated as absent, although it is still stored.

`Command.opAt` says which operation a request is for a key; the handlers are tied to it in
`Command/Refine`.
-/

namespace Memcore

open Go

/-! ## Operations on a value -/

/-- What a command does to a value of the kind it works on. -/
inductive ValueOp where
  | incr (delta : Int)
  | push (front : Bool) (xs : List Bytes)
  | pop (front : Bool) (count : Nat)
  | hset (pairs : List Bytes)
  | hdel (fields : List Bytes)
  | sadd (xs : List Bytes)
  | srem (xs : List Bytes)
  | zadd (pairs : List ZMember)
deriving DecidableEq

/-- The sum, when it is an `int64`. -/
def incremented (cur delta : Int) : Option Int :=
  if (0 < delta ∧ maxInt64 - delta < cur) ∨ (delta < 0 ∧ cur < minInt64 - delta) then none
  else some (cur + delta)

/-- A list after pushing `xs` one by one. -/
def pushed (front : Bool) (xs l : List Bytes) : List Bytes :=
  xs.foldl (fun l x => if front then x :: l else l ++ [x]) l

theorem pushed_length (front : Bool) : ∀ vs xs : List Bytes,
    (pushed front vs xs).length = xs.length + vs.length
  | [], _ => rfl
  | v :: vs, xs => by
      have hrest := pushed_length front vs (if front then v :: xs else xs ++ [v])
      unfold pushed at hrest ⊢
      rw [List.foldl_cons, hrest]
      cases front <;> simp <;> omega

/-- A list after `count` pops. -/
def popped (front : Bool) (count : Nat) (l : List Bytes) : List Bytes :=
  if front then l.drop count else l.take (l.length - count)

/-- A map after setting alternating fields and values. -/
def fieldsSet : List Bytes → GoMap Bytes → GoMap Bytes
  | f :: v :: rest, m => fieldsSet rest (m.insert f v)
  | _, m => m

namespace AVal

/-- A collection that has become empty is not stored. -/
def nonEmpty (v : AVal) : Option AVal := if v.size = 0 then none else some v

end AVal

namespace ValueOp

/-- The value stored under a key that was absent; `none` when nothing is. -/
def create (lim : Limits) : ValueOp → Option AVal
  | .incr delta => (incremented 0 delta).map fun n => .str (formatInt n)
  | .push front xs => some (.list (pushed front xs []))
  | .hset pairs => some (.hash (fieldsSet pairs ∅))
  | .sadd xs => some (.set (xs.foldl (fun m x => insert x m) ∅))
  | .zadd pairs => some (.zset (pairs.foldl (fun es e => zput lim.zset e es) []))
  | .pop _ _ | .hdel _ | .srem _ => none

/-- The value stored in place of `v`; `none` when the key goes. A value of another kind stays. -/
def update (lim : Limits) : ValueOp → AVal → Option AVal
  | .incr delta, .str b =>
    some (.str (((parseInt b).bind (incremented · delta)).elim b formatInt))
  | .push front xs, .list l => some (.list (pushed front xs l))
  | .pop front count, .list l => AVal.nonEmpty (.list (popped front count l))
  | .hset pairs, .hash m => some (.hash (fieldsSet pairs m))
  | .hdel fields, .hash m => AVal.nonEmpty (.hash (fields.foldl (fun m f => m.erase f) m))
  | .sadd xs, .set m => some (.set (xs.foldl (fun m x => insert x m) m))
  | .srem xs, .set m => AVal.nonEmpty (.set (xs.foldl (fun m x => m.erase x) m))
  | .zadd pairs, .zset es => some (.zset (pairs.foldl (fun es e => zput lim.zset e es) es))
  | _, v => some v

/-- The kind of value the operation is for. -/
def kind : ValueOp → Kind
  | .incr _ => .string
  | .push _ _ | .pop _ _ => .list
  | .hset _ | .hdel _ => .hash
  | .sadd _ | .srem _ => .set
  | .zadd _ => .zset

theorem update_of_kind_ne (lim : Limits) {op : ValueOp} {v : AVal} (h : v.kind ≠ op.kind) :
    op.update lim v = some v := by
  cases op <;> cases v <;> first | rfl | exact absurd rfl h

end ValueOp

/-! ## Operations on a key -/

/-- What a request does to the entry of one key. -/
inductive KeyOp where
  | put (v : Bytes)
  | remove
  | expireAt (at' : Time)
  | expireIn (d : Int64)
  | persist
  | modify (op : ValueOp)
deriving DecidableEq

namespace KeyOp

/-- The entry stored afterwards; `o` is the one stored before, live or not. -/
def apply (now : Time) (lim : Limits) (op : KeyOp) (o : Option AEntry) : Option AEntry :=
  match op, liveAt now o with
  | .put v, _ => some ⟨.str v, zeroTime⟩
  | .remove, _ => none
  | .expireAt at', some e => some ⟨e.value, at'⟩
  | .expireIn d, some e => some ⟨e.value, Time.add now d⟩
  | .persist, some e => some ⟨e.value, zeroTime⟩
  | .modify op, some e => (op.update lim e.value).map fun v => ⟨v, e.expireAt⟩
  | .modify op, none => ((op.create lim).map fun v => ⟨v, zeroTime⟩) <|> o
  | _, none => o

/-- Is the count of a pop too big to make room for the reply? -/
def oversized : List Bytes → Bool
  | [count] =>
    match parseInt count with
    | none => false
    | some count => decide (0 ≤ count) && decide (maxAlloc < count.toNat * replySize)
  | _ => false

/-- The count of a pop: one when none is given, none when it is refused. -/
def popCount (rest : List Bytes) : Option Nat :=
  match rest with
  | [] => some 1
  | [count] =>
    match parseInt count with
    | none => none
    | some k => if k < 0 ∨ oversized [count] = true then none else some k.toNat
  | _ => none

/-- What the single-key command `name` does to its key, from the arguments after the key; `none` for
a command that does not write or whose arguments it refuses. -/
def parse (host : Host) (name : Bytes) (rest : List Bytes) : Option KeyOp :=
  if name = ascii "set" then rest.head?.map .put
  else if name = ascii "incr" then some (.modify (.incr 1))
  else if name = ascii "decr" then some (.modify (.incr (-1)))
  else if name = ascii "expire" then
    (rest.head?.bind parseInt).map fun secs => .expireIn (seconds secs)
  else if name = ascii "pexpireat" then
    (rest.head?.bind parseInt).map fun ms => .expireAt (unixMilli ms)
  else if name = ascii "persist" then some .persist
  else if name = ascii "lpush" then some (.modify (.push true rest))
  else if name = ascii "rpush" then some (.modify (.push false rest))
  else if name = ascii "lpop" then (popCount rest).map fun count => .modify (.pop true count)
  else if name = ascii "rpop" then (popCount rest).map fun count => .modify (.pop false count)
  else if name = ascii "hset" then
    if rest.length % 2 = 0 then some (.modify (.hset rest)) else none
  else if name = ascii "hdel" then some (.modify (.hdel rest))
  else if name = ascii "sadd" then some (.modify (.sadd rest))
  else if name = ascii "srem" then some (.modify (.srem rest))
  else if name = ascii "zadd" then
    if rest.length % 2 = 0 then (parsePairs host rest []).map fun ps => .modify (.zadd ps)
    else none
  else none

/-- Does the operation set a deadline? -/
def setsDeadline : KeyOp → Bool
  | .expireAt _ | .expireIn _ => true
  | .put _ | .remove | .persist | .modify _ => false

/-- The operations that `parse` gives, with the command each belongs to. -/
inductive Parsed (host : Host) (name : Bytes) (rest : List Bytes) : KeyOp → Prop where
  | set (h : name = ascii "set") (v : Bytes) : Parsed host name rest (.put v)
  | count (h : name = ascii "incr" ∨ name = ascii "decr") (delta : Int) :
      Parsed host name rest (.modify (.incr delta))
  | expire (h : name = ascii "expire") (d : Int64) : Parsed host name rest (.expireIn d)
  | pexpireat (h : name = ascii "pexpireat") (at' : Time) : Parsed host name rest (.expireAt at')
  | persist (h : name = ascii "persist") : Parsed host name rest .persist
  | push (h : name = ascii "lpush" ∨ name = ascii "rpush") (front : Bool) :
      Parsed host name rest (.modify (.push front rest))
  | pop (h : name = ascii "lpop" ∨ name = ascii "rpop") (front : Bool) (count : Nat) :
      Parsed host name rest (.modify (.pop front count))
  | hset (h : name = ascii "hset") : Parsed host name rest (.modify (.hset rest))
  | hdel (h : name = ascii "hdel") : Parsed host name rest (.modify (.hdel rest))
  | sadd (h : name = ascii "sadd") : Parsed host name rest (.modify (.sadd rest))
  | srem (h : name = ascii "srem") : Parsed host name rest (.modify (.srem rest))
  | zadd (h : name = ascii "zadd") {ps : List ZMember} (hps : parsePairs host rest [] = some ps) :
      Parsed host name rest (.modify (.zadd ps))

/-- Every operation belongs to a command of the table. -/
theorem parse_parsed {host : Host} {name : Bytes} {rest : List Bytes} {op : KeyOp}
    (h : parse host name rest = some op) : Parsed host name rest op := by
  have row {p : Prop} [Decidable p] {x y : Option KeyOp} (h : (if p then x else y) = some op)
      (hx : p → x = some op → Parsed host name rest op)
      (hy : y = some op → Parsed host name rest op) : Parsed host name rest op := by
    split at h
    next hp => exact hx hp h
    next => exact hy h
  unfold parse at h
  -- one goal for each row of the table, in its order
  refine row h (fun hset h => ?_) fun h => row h (fun hincr h => ?_) fun h =>
    row h (fun hdecr h => ?_) fun h => row h (fun hexpire h => ?_) fun h =>
    row h (fun hpexpireat h => ?_) fun h => row h (fun hpersist h => ?_) fun h =>
    row h (fun hlpush h => ?_) fun h => row h (fun hrpush h => ?_) fun h =>
    row h (fun hlpop h => ?_) fun h => row h (fun hrpop h => ?_) fun h =>
    row h (fun hhset h => row h (fun _ h => ?_) nofun) fun h => row h (fun hhdel h => ?_) fun h =>
    row h (fun hsadd h => ?_) fun h => row h (fun hsrem h => ?_) fun h =>
    row h (fun hzadd h => row h (fun _ h => ?_) nofun) nofun
  · obtain ⟨v, -, rfl⟩ := Option.map_eq_some_iff.mp h
    exact .set hset v
  · cases h
    exact .count (.inl hincr) 1
  · cases h
    exact .count (.inr hdecr) (-1)
  · obtain ⟨secs, -, rfl⟩ := Option.map_eq_some_iff.mp h
    exact .expire hexpire _
  · obtain ⟨ms, -, rfl⟩ := Option.map_eq_some_iff.mp h
    exact .pexpireat hpexpireat _
  · cases h
    exact .persist hpersist
  · cases h
    exact .push (.inl hlpush) true
  · cases h
    exact .push (.inr hrpush) false
  · obtain ⟨count, -, rfl⟩ := Option.map_eq_some_iff.mp h
    exact .pop (.inl hlpop) true count
  · obtain ⟨count, -, rfl⟩ := Option.map_eq_some_iff.mp h
    exact .pop (.inr hrpop) false count
  · cases h
    exact .hset hhset
  · cases h
    exact .hdel hhdel
  · cases h
    exact .sadd hsadd
  · cases h
    exact .srem hsrem
  · obtain ⟨ps, hps, rfl⟩ := Option.map_eq_some_iff.mp h
    exact .zadd hzadd hps

/-- Only EXPIRE sets a relative deadline and only PEXPIREAT an absolute one. -/
theorem parse_setsDeadline {host : Host} {name : Bytes} {rest : List Bytes} {op : KeyOp}
    (h : parse host name rest = some op) (hop : op.setsDeadline = true) :
    (name = ascii "expire" ∧ ∃ d, op = .expireIn d) ∨
      (name = ascii "pexpireat" ∧ ∃ t, op = .expireAt t) := by
  cases parse_parsed h with
  | expire hname d => exact .inl ⟨hname, d, rfl⟩
  | pexpireat hname t => exact .inr ⟨hname, t, rfl⟩
  | set | count | persist | push | pop | hset | hdel | sadd | srem | zadd => cases hop

end KeyOp

section Apply

variable {now : Time} {lim : Limits} {o : Option AEntry}

theorem apply_modify_absent (op : ValueOp) (h : liveAt now o = none) :
    (KeyOp.modify op).apply now lim o
      = (((op.create lim).map fun v => ⟨v, zeroTime⟩) <|> o) := by
  simp only [KeyOp.apply, h]

theorem apply_modify_live (op : ValueOp) {e : AEntry} (h : liveAt now o = some e) :
    (KeyOp.modify op).apply now lim o
      = (op.update lim e.value).map fun v => ⟨v, e.expireAt⟩ := by
  simp only [KeyOp.apply, h]

/-- An operation leaves a value alone that it does not change. -/
theorem apply_modify_same (op : ValueOp) {e : AEntry} (h : liveAt now o = some e)
    (hsame : op.update lim e.value = some e.value) : (KeyOp.modify op).apply now lim o = o := by
  rw [apply_modify_live op h, hsame, (liveAt_eq_some h).1]
  rfl

end Apply

/-! ## Operations on a database -/

variable {n m : Nat}

/-- A database without its shards. -/
abbrev ADB := Bytes → Option AEntry

namespace Command

/-- What a request does to the entry of `key`. -/
def opAt (host : Host) (cmd : Command n m) (args : List Bytes) (key : Bytes) : Option KeyOp :=
  if cmd.wholeDB then some .remove
  else if cmd.name = ascii "del" ∨ cmd.name = ascii "unlink" then
    if key ∈ args.tail then some .remove else none
  else
    match args with
    | _ :: key' :: rest => if key = key' then KeyOp.parse host cmd.name rest else none
    | _ => none

/-- Does the request panic? Only a pop from a live list does, with a count that is too big. -/
def Crashes (now : Time) (cmd : Command n m) (args : List Bytes) (a : ADB) : Prop :=
  (cmd.name = ascii "lpop" ∨ cmd.name = ascii "rpop") ∧
    match args with
    | _ :: key :: rest => KeyOp.oversized rest = true ∧
        ∃ e, liveAt now (a key) = some e ∧ e.value.kind = .list
    | _ => False

/-- The database after a request. -/
def effect (now : Time) (lim : Limits) (host : Host) (cmd : Command n m) (args : List Bytes)
    (a : ADB) : ADB := fun key =>
  match cmd.opAt host args key with
  | none => a key
  | some op => op.apply now lim (a key)

end Command

end Memcore
