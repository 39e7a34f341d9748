import Mathlib.Data.Option.Basic
import Memcore.Value.Value

/-!
# The keyspace of one shard

`keyspace.go` and `entry.go`: a map from keys to entries with an optional deadline, and an index of
the keys that carry one. An entry whose deadline has passed is hidden from reads and stays in the
map until a write or active expiry takes it out. Every operation that asks for the time takes the
reading as `now`.

A keyspace stands for a partial function from keys to abstract entries (`Keyspace.Repr`).
-/

namespace Memcore

open Go

/-- `Entry`. -/
structure Entry where
  value : Value
  expireAt : Time

namespace Entry

/-- `Entry.HasExpiry`. -/
def hasExpiry (e : Entry) : Bool := !Time.isZero e.expireAt

/-- `Entry.expired`: a deadline that is now has passed. -/
def expired (e : Entry) (now : Time) : Bool := e.hasExpiry && !decide (now < e.expireAt)

end Entry

/-- `Keyspace`; the clock is an argument of the operations. -/
structure Keyspace where
  entries : GoMap Entry
  withTTL : Finset Bytes

namespace Keyspace

/-- `New`. -/
def new : Keyspace := ⟨∅, ∅⟩

/-- `Keyspace.peek`. -/
def peek (k : Keyspace) (now : Time) (key : Bytes) : Option Entry :=
  match k.entries.lookup key with
  | none => none
  | some e => if e.expired now then none else some e

/-- `Keyspace.Lookup`. -/
def lookup (k : Keyspace) (now : Time) (key : Bytes) : Option Entry := k.peek now key

/-- `Keyspace.Get`. -/
def get (k : Keyspace) (now : Time) (key : Bytes) : Option Value := (k.peek now key).map Entry.value

/-- `Keyspace.GetBytes`. -/
def getBytes (k : Keyspace) (now : Time) (key : Bytes) : Option Value :=
  match k.entries.lookup key with
  | none => none
  | some e => if e.expired now then none else some e.value

/-- `Keyspace.ExistsBytes`. -/
def existsBytes (k : Keyspace) (now : Time) (key : Bytes) : Bool :=
  match k.entries.lookup key with
  | none => false
  | some e => !e.expired now

/-- `Keyspace.Exists`. -/
def exists' (k : Keyspace) (now : Time) (key : Bytes) : Bool := (k.peek now key).isSome

/-- `Keyspace.Set`. -/
def set (k : Keyspace) (key : Bytes) (v : Value) : Keyspace :=
  ⟨k.entries.insert key ⟨v, zeroTime⟩, k.withTTL.erase key⟩

/-- `Keyspace.SetEntry`. -/
def setEntry (k : Keyspace) (key : Bytes) (e : Entry) : Keyspace :=
  ⟨k.entries.insert key e, if e.hasExpiry then insert key k.withTTL else k.withTTL.erase key⟩

/-- The collection an entry points to has become `v`. The source changes it through the pointer. -/
def mutate (k : Keyspace) (key : Bytes) (v : Value) : Keyspace :=
  match k.entries.lookup key with
  | none => k
  | some e => { k with entries := k.entries.insert key { e with value := v } }

/-- `Keyspace.SetExpire`. -/
def setExpire (k : Keyspace) (now : Time) (key : Bytes) (at' : Time) : Bool × Keyspace :=
  match k.peek now key with
  | none => (false, k)
  | some e => (true, ⟨k.entries.insert key { e with expireAt := at' }, insert key k.withTTL⟩)

/-- `Keyspace.Persist`. -/
def persist (k : Keyspace) (now : Time) (key : Bytes) : Bool × Keyspace :=
  match k.peek now key with
  | none => (false, k)
  | some e =>
    if !e.hasExpiry then (false, k)
    else (true, ⟨k.entries.insert key { e with expireAt := zeroTime }, k.withTTL.erase key⟩)

/-- `Keyspace.Take`: the entry and whether it was live. -/
def take (k : Keyspace) (now : Time) (key : Bytes) : (Option Entry × Bool) × Keyspace :=
  match k.entries.lookup key with
  | none => ((none, false), k)
  | some e => ((some e, !e.expired now), ⟨k.entries.erase key, k.withTTL.erase key⟩)

/-- `Keyspace.Delete`. -/
def delete (k : Keyspace) (now : Time) (key : Bytes) : Bool × Keyspace :=
  match k.entries.lookup key with
  | none => (false, k)
  | some e => (!e.expired now, ⟨k.entries.erase key, k.withTTL.erase key⟩)

/-- The loop of `SampleExpired` over the volatile keys in some order. -/
def sampleLoop (now : Time) (limit : Int) : List Bytes → Nat × Nat → Keyspace →
    (Nat × Nat) × Keyspace
  | [], acc, k => (acc, k)
  | key :: keys, (examined, evicted), k =>
    if limit ≤ examined then ((examined, evicted), k)
    else
      match k.entries.lookup key with
      | none =>
        sampleLoop now limit keys (examined + 1, evicted) { k with withTTL := k.withTTL.erase key }
      | some e =>
        if !e.hasExpiry then
          sampleLoop now limit keys (examined + 1, evicted)
            { k with withTTL := k.withTTL.erase key }
        else if e.expired now then
          sampleLoop now limit keys (examined + 1, evicted + 1)
            ⟨k.entries.erase key, k.withTTL.erase key⟩
        else sampleLoop now limit keys (examined + 1, evicted) k

/-- `Keyspace.SampleExpired`. -/
def sampleExpired (ord : MapOrder) (k : Keyspace) (now : Time) (limit : Int) :
    (Nat × Nat) × Keyspace :=
  sampleLoop now limit (ord.keys k.withTTL) (0, 0) k

/-- `Keyspace.Len`. -/
def len (k : Keyspace) : Nat := k.entries.keys.card

/-- `Keyspace.Range`: what the callback is called with. -/
def range (ord : MapOrder) (k : Keyspace) : List (Bytes × Entry) := ord.entries k.entries

/-- `Keyspace.Flush`. -/
def flush (_ : Keyspace) : Keyspace := ⟨∅, ∅⟩

/-! Every operation reports what a lookup sees. -/

theorem getBytes_eq (k : Keyspace) (now : Time) (key : Bytes) :
    k.getBytes now key = (k.peek now key).map Entry.value := by
  unfold getBytes peek
  cases k.entries.lookup key with
  | none => rfl
  | some e => cases hx : e.expired now <;> simp [hx]

theorem existsBytes_eq (k : Keyspace) (now : Time) (key : Bytes) :
    k.existsBytes now key = (k.peek now key).isSome := by
  unfold existsBytes peek
  cases k.entries.lookup key with
  | none => rfl
  | some e => cases hx : e.expired now <;> simp [hx]

theorem setExpire_fst (k : Keyspace) (now : Time) (key : Bytes) (at' : Time) :
    (k.setExpire now key at').1 = (k.peek now key).isSome := by
  unfold setExpire
  cases k.peek now key <;> rfl

theorem persist_fst (k : Keyspace) (now : Time) (key : Bytes) :
    (k.persist now key).1 = (k.peek now key).any Entry.hasExpiry := by
  unfold persist
  cases k.peek now key with
  | none => rfl
  | some e => cases hx : e.hasExpiry <;> simp [hx]

theorem delete_fst (k : Keyspace) (now : Time) (key : Bytes) :
    (k.delete now key).1 = (k.peek now key).isSome := by
  unfold delete peek
  cases k.entries.lookup key with
  | none => rfl
  | some e => cases hx : e.expired now <;> simp [hx]

/-- What `Unlink` does to the keyspace is what `Delete` does. -/
theorem take_eq_delete (k : Keyspace) (now : Time) (key : Bytes) :
    ((k.take now key).1.2, (k.take now key).2) = k.delete now key := by
  unfold take delete
  cases k.entries.lookup key <;> rfl

end Keyspace

/-! ## What a keyspace stands for -/

/-- An entry without the encoding of its value. -/
@[ext] structure AEntry where
  value : AVal
  expireAt : Time
deriving DecidableEq

namespace AEntry

/-- Does the entry carry a deadline? -/
def hasExpiry (e : AEntry) : Bool := !Time.isZero e.expireAt

/-- Has its deadline passed? -/
def expired (e : AEntry) (now : Time) : Bool := e.hasExpiry && !decide (now < e.expireAt)

end AEntry

/-- What a reader at `now` sees of a stored entry. -/
def liveAt (now : Time) (o : Option AEntry) : Option AEntry :=
  o.filter fun e => !e.expired now

@[simp] theorem liveAt_none (now : Time) : liveAt now none = none := rfl

theorem liveAt_some (now : Time) (e : AEntry) :
    liveAt now (some e) = if e.expired now then none else some e := by
  cases h : e.expired now <;> simp [liveAt, Option.filter, h]

theorem liveAt_eq_some {now : Time} {o : Option AEntry} {e : AEntry}
    (h : liveAt now o = some e) : o = some e ∧ e.expired now = false := by
  cases o with
  | none => cases h
  | some e' =>
    rw [liveAt_some] at h
    split at h
    next => cases h
    next hx =>
      cases h
      exact ⟨rfl, Bool.eq_false_iff.mpr hx⟩

/-- `e` stands for `a`. -/
def Entry.Repr (lim : Limits) (e : Entry) (a : AEntry) : Prop :=
  e.value.Repr a.value ∧ e.value.Bounded lim ∧ e.expireAt = a.expireAt

/-- An entry stands for one thing only. -/
theorem Entry.Repr.unique {lim : Limits} {e : Entry} {a b : AEntry} (ha : e.Repr lim a)
    (hb : e.Repr lim b) : a = b := by
  have hvalue : a.value = b.value :=
    (Value.obsEq_iff ha.1 hb.1).mp ((Value.obsEq_iff ha.1 ha.1).mpr rfl)
  have hdeadline : a.expireAt = b.expireAt := ha.2.2.symm.trans hb.2.2
  cases a
  cases b
  exact congrArg₂ AEntry.mk hvalue hdeadline

theorem Entry.Repr.expired_eq {lim : Limits} {e : Entry} {a : AEntry} (h : e.Repr lim a)
    (now : Time) : e.expired now = a.expired now := by
  rw [Entry.expired, AEntry.expired, Entry.hasExpiry, AEntry.hasExpiry, h.2.2]

theorem Entry.Repr.hasExpiry_eq {lim : Limits} {e : Entry} {a : AEntry} (h : e.Repr lim a) :
    e.hasExpiry = a.hasExpiry := by
  rw [Entry.hasExpiry, AEntry.hasExpiry, h.2.2]

namespace Keyspace

/-- The keyspace holds exactly the entries of `a`. -/
def Repr (lim : Limits) (k : Keyspace) (a : Bytes → Option AEntry) : Prop :=
  ∀ key, Option.Rel (Entry.Repr lim) (k.entries.lookup key) (a key)

variable {lim : Limits} {k : Keyspace} {a : Bytes → Option AEntry}

theorem new_repr : new.Repr lim fun _ => none := fun key => by
  rw [new, Finmap.lookup_empty]
  exact Option.Rel.none

theorem Repr.peek (h : k.Repr lim a) (now : Time) (key : Bytes) :
    Option.Rel (Entry.Repr lim) (k.peek now key) (liveAt now (a key)) := by
  unfold Keyspace.peek
  have hk := h key
  generalize k.entries.lookup key = o at hk
  generalize a key = o' at hk
  cases hk with
  | none => exact Option.Rel.none
  | some hr =>
    rw [liveAt_some, ← hr.expired_eq]
    simp only
    split
    · exact Option.Rel.none
    · exact Option.Rel.some hr

/-- Storing an entry. -/
theorem Repr.insert (h : k.Repr lim a) (key : Bytes) {e : Entry} {ae : AEntry}
    (he : e.Repr lim ae) (ttl : Finset Bytes) :
    (⟨k.entries.insert key e, ttl⟩ : Keyspace).Repr lim (Function.update a key (some ae)) := by
  intro key'
  simp only [lookup_insert_eq]
  by_cases hk : key' = key
  · subst hk
    simp only [if_true, Function.update_self]
    exact Option.Rel.some he
  · simp only [hk, if_false]
    rw [Function.update_of_ne hk]
    exact h key'

/-- Taking an entry out. -/
theorem Repr.erase (h : k.Repr lim a) (key : Bytes) (ttl : Finset Bytes) :
    (⟨k.entries.erase key, ttl⟩ : Keyspace).Repr lim (Function.update a key none) := by
  intro key'
  simp only [lookup_erase_eq]
  by_cases hk : key' = key
  · subst hk
    simp only [if_true, Function.update_self]
    exact Option.Rel.none
  · simp only [hk, if_false]
    rw [Function.update_of_ne hk]
    exact h key'

theorem Repr.set (h : k.Repr lim a) (key : Bytes) {v : Value} {av : AVal} (hv : v.Repr av)
    (hb : v.Bounded lim) :
    (k.set key v).Repr lim (Function.update a key (some ⟨av, zeroTime⟩)) :=
  h.insert key ⟨hv, hb, rfl⟩ _

theorem Repr.setEntry (h : k.Repr lim a) (key : Bytes) {e : Entry} {ae : AEntry}
    (he : e.Repr lim ae) :
    (k.setEntry key e).Repr lim (Function.update a key (some ae)) :=
  h.insert key he _

theorem Repr.delete (h : k.Repr lim a) (now : Time) (key : Bytes) :
    (k.delete now key).2.Repr lim (Function.update a key none) := by
  unfold Keyspace.delete
  have hk := h key
  cases hl : k.entries.lookup key with
  | some e => exact h.erase key _
  | none =>
    rw [hl] at hk
    have hnone : a key = none := by
      generalize a key = o at hk
      cases hk
      rfl
    have hsame : Function.update a key none = a := by
      rw [← hnone]
      exact Function.update_eq_self key a
    rw [hsame]
    exact h

end Keyspace

end Memcore
