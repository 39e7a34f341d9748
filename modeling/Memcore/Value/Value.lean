import Memcore.Value.List
import Memcore.Value.Hash
import Memcore.Value.Set
import Memcore.Value.ZSet

/-!
# Values

`value.go` and `string.go`: the tagged union over the data types. A collection is a pointer in the
source and is changed in place; here it is a value, and whoever changes it stores it back.

`AVal` is what a value stands for, with no encoding: `Value.Repr` ties the two, and everything a
command can observe of a value is a function of it.
-/

namespace Memcore

open Go

/-- `Kind`. -/
inductive Kind where
  | none
  | string
  | list
  | hash
  | set
  | zset
deriving DecidableEq, Repr

/-- `Kind.String`. -/
def Kind.toBytes : Kind → Bytes
  | .none => ascii "none"
  | .string => ascii "string"
  | .list => ascii "list"
  | .hash => ascii "hash"
  | .set => ascii "set"
  | .zset => ascii "zset"

/-- `Value`. -/
inductive Value where
  | none
  | str (b : Bytes)
  | list (l : ListVal)
  | hash (h : HashVal)
  | set (s : SetVal)
  | zset (z : ZSetVal)

namespace Value

/-- `Value.Kind`. -/
def kind : Value → Kind
  | .none => .none
  | .str _ => .string
  | .list _ => .list
  | .hash _ => .hash
  | .set _ => .set
  | .zset _ => .zset

/-- `Value.IsCollection`. -/
def isCollection (v : Value) : Bool :=
  match v.kind with
  | .list | .hash | .set | .zset => true
  | .none | .string => false

/-- `Value.Str`: the payload accessors panic on another kind. -/
def getStr : Value → Result Bytes
  | .str b => .ok b
  | _ => .error .wrongKind

/-- `Value.List`. -/
def getList : Value → Result ListVal
  | .list l => .ok l
  | _ => .error .wrongKind

/-- `Value.Hash`. -/
def getHash : Value → Result HashVal
  | .hash h => .ok h
  | _ => .error .wrongKind

/-- `Value.Set`. -/
def getSet : Value → Result SetVal
  | .set s => .ok s
  | _ => .error .wrongKind

/-- `Value.ZSet`. -/
def getZSet : Value → Result ZSetVal
  | .zset z => .ok z
  | _ => .error .wrongKind

end Value

/-! ## What a value stands for -/

/-- A value without its encoding. -/
inductive AVal where
  | str (b : Bytes)
  | list (xs : List Bytes)
  | hash (m : GoMap Bytes)
  | set (m : Finset Bytes)
  | zset (es : List ZMember)
deriving DecidableEq

namespace AVal

/-- How many elements a collection has. -/
def size : AVal → Nat
  | .str _ => 0
  | .list xs => xs.length
  | .hash m => m.keys.card
  | .set m => m.card
  | .zset es => es.length

/-- The kind of a value. -/
def kind : AVal → Kind
  | .str _ => .string
  | .list _ => .list
  | .hash _ => .hash
  | .set _ => .set
  | .zset _ => .zset

end AVal

namespace Value

/-- `v` stands for `a`. -/
def Repr : Value → AVal → Prop
  | .str b, .str b' => b = b'
  | .list l, .list xs => l.Repr xs
  | .hash h, .hash m => h.Repr m
  | .set s, .set m => s.Repr m
  | .zset z, .zset es => z.Repr es
  | _, _ => False

/-- The thresholds of a sorted set are those of the server it lives in. Only there do thresholds
show: see `zput`. -/
def Bounded (lim : Limits) : Value → Prop
  | .zset z => z.max = lim.zset
  | _ => True

theorem Repr.kind_eq {v : Value} {a : AVal} (h : v.Repr a) : v.kind = a.kind := by
  cases v <;> cases a <;> first | rfl | exact h.elim

theorem repr_str {v : Value} {b : Bytes} (h : v.Repr (.str b)) : v = .str b := by
  cases v with
  | str b' => exact congrArg Value.str h
  | _ => exact h.elim

theorem repr_list {v : Value} {xs : List Bytes} (h : v.Repr (.list xs)) :
    ∃ l, v = .list l ∧ l.Repr xs := by
  cases v with
  | list l => exact ⟨l, rfl, h⟩
  | _ => exact h.elim

theorem repr_hash {v : Value} {m : GoMap Bytes} (h : v.Repr (.hash m)) :
    ∃ x, v = .hash x ∧ x.Repr m := by
  cases v with
  | hash x => exact ⟨x, rfl, h⟩
  | _ => exact h.elim

theorem repr_set {v : Value} {m : Finset Bytes} (h : v.Repr (.set m)) :
    ∃ s, v = .set s ∧ s.Repr m := by
  cases v with
  | set s => exact ⟨s, rfl, h⟩
  | _ => exact h.elim

theorem repr_zset {v : Value} {es : List ZMember} (h : v.Repr (.zset es)) :
    ∃ z, v = .zset z ∧ z.Repr es := by
  cases v with
  | zset z => exact ⟨z, rfl, h⟩
  | _ => exact h.elim

/-! ### Observation

What the operations of a value show of it: the bytes of a string, the whole range of a list, the
value of each field, the presence of each member, the whole range of a sorted set. -/

/-- Two values no observer tells apart. -/
def ObsEq : Value → Value → Prop
  | .none, .none => True
  | .str b, .str b' => b = b'
  | .list l, .list l' => l.range 0 (-1) = l'.range 0 (-1)
  | .hash h, .hash h' => ∀ field, h.get field = h'.get field
  | .set s, .set s' => ∀ member, s.contains member = s'.contains member
  | .zset z, .zset z' => z.range 0 (-1) = z'.range 0 (-1)
  | _, _ => False

/-- Values that stand for the same are observably equal, and conversely. -/
theorem obsEq_iff {v w : Value} {a b : AVal} (hv : v.Repr a) (hw : w.Repr b) :
    v.ObsEq w ↔ a = b := by
  cases v <;> cases a <;> try exact hv.elim
  all_goals cases w <;> cases b <;> try exact hw.elim
  all_goals try simp [ObsEq]
  case str.str.str.str =>
    cases hv
    cases hw
    rfl
  case list.list.list.list =>
    rw [ListVal.range_repr hv, ListVal.range_repr hw]
    simp
  case hash.hash.hash.hash =>
    simp only [HashVal.get_repr hv, HashVal.get_repr hw, Except.ok.injEq]
    exact ⟨fun h => Finmap.ext_lookup h, fun h => h ▸ fun _ => rfl⟩
  case set.set.set.set =>
    simp only [SetVal.contains_repr hv, SetVal.contains_repr hw, Except.ok.injEq,
      decide_eq_decide]
    exact ⟨fun h => Finset.ext h, fun h => h ▸ fun _ => Iff.rfl⟩
  case zset.zset.zset.zset =>
    rw [ZSetVal.range_repr hv, ZSetVal.range_repr hw]
    simp

/-! ### Values in use -/

/-- The values the operations of a kind build, under any thresholds. A length is a Go `int`. -/
inductive Reachable : Value → Prop where
  | str (b : Bytes) : Reachable (.str b)
  | newList (max : Thresholds) : Reachable (.list (ListVal.new max))
  | pushFront {l l' : ListVal} {x : Bytes} : Reachable (.list l) → l.pushFront x = .ok l' →
      l'.len < 2 ^ 63 → Reachable (.list l')
  | pushBack {l l' : ListVal} {x : Bytes} : Reachable (.list l) → l.pushBack x = .ok l' →
      l'.len < 2 ^ 63 → Reachable (.list l')
  | popFront {l l' : ListVal} {o : Option Bytes} : Reachable (.list l) →
      l.popFront = .ok (o, l') → Reachable (.list l')
  | popBack {l l' : ListVal} {o : Option Bytes} : Reachable (.list l) →
      l.popBack = .ok (o, l') → Reachable (.list l')
  | newHash (max : Thresholds) : Reachable (.hash (HashVal.new max))
  | setField {h h' : HashVal} {f v : Bytes} {isNew : Bool} : Reachable (.hash h) →
      h.set f v = .ok (isNew, h') → h'.len < 2 ^ 63 → Reachable (.hash h')
  | deleteField {h h' : HashVal} {f : Bytes} {found : Bool} : Reachable (.hash h) →
      h.delete f = .ok (found, h') → Reachable (.hash h')
  | newSet (max : Thresholds) : Reachable (.set (SetVal.new max))
  | addMember {s s' : SetVal} {x : Bytes} {isNew : Bool} : Reachable (.set s) →
      s.add x = .ok (isNew, s') → s'.len < 2 ^ 63 → Reachable (.set s')
  | removeMember {s s' : SetVal} {x : Bytes} {found : Bool} : Reachable (.set s) →
      s.remove x = .ok (found, s') → Reachable (.set s')
  | newZSet (max : Thresholds) : Reachable (.zset (ZSetVal.new max))
  | addScore {z z' : ZSetVal} {e : ZMember} {rng rng' : Rng} {isNew : Bool} :
      Reachable (.zset z) → e.score.isNaN = false → z.add e rng = .ok (isNew, z', rng') →
      z'.len < 2 ^ 63 → Reachable (.zset z')

/-- A value in use stands for something, of a length Go can count. -/
theorem Reachable.exists_repr {v : Value} (h : v.Reachable) :
    ∃ a, v.Repr a ∧ a.size < 2 ^ 63 := by
  induction h with
  | str b => exact ⟨.str b, rfl, Nat.two_pow_pos 63⟩
  | newList max => exact ⟨.list [], ListVal.new_repr max, by decide⟩
  | newHash max => exact ⟨.hash ∅, HashVal.new_repr max, by decide⟩
  | newSet max => exact ⟨.set ∅, SetVal.new_repr max, by decide⟩
  | newZSet max => exact ⟨.zset [], ZSetVal.new_repr max, by decide⟩
  | pushFront _ hop hlen ih =>
    -- an operation of a list was applied to a value of that kind; so for the other kinds below
    obtain ⟨_ | xs, hr, -⟩ := ih <;> try exact hr.elim
    obtain ⟨l', he, hr'⟩ := ListVal.pushFront_repr hr _
    obtain rfl : l' = _ := Except.ok.inj (he.symm.trans hop)
    exact ⟨.list _, hr', (ListVal.len_repr hr').symm.trans_lt hlen⟩
  | pushBack _ hop hlen ih =>
    obtain ⟨_ | xs, hr, -⟩ := ih <;> try exact hr.elim
    obtain ⟨l', he, hr'⟩ := ListVal.pushBack_repr hr _
    obtain rfl : l' = _ := Except.ok.inj (he.symm.trans hop)
    exact ⟨.list _, hr', (ListVal.len_repr hr').symm.trans_lt hlen⟩
  | popFront _ hop ih =>
    obtain ⟨_ | xs, hr, hsize⟩ := ih <;> try exact hr.elim
    obtain ⟨l', he, hr'⟩ := ListVal.popFront_spec hr
    obtain ⟨-, rfl⟩ := Prod.mk.inj (Except.ok.inj (he.symm.trans hop))
    refine ⟨.list _, hr', lt_of_le_of_lt ?_ hsize⟩
    simp [AVal.size]
  | popBack _ hop ih =>
    obtain ⟨_ | xs, hr, hsize⟩ := ih <;> try exact hr.elim
    obtain ⟨l', he, hr'⟩ := ListVal.popBack_spec hr
    obtain ⟨-, rfl⟩ := Prod.mk.inj (Except.ok.inj (he.symm.trans hop))
    refine ⟨.list _, hr', lt_of_le_of_lt ?_ hsize⟩
    simp [AVal.size]
  | setField _ hop hlen ih =>
    obtain ⟨_ | _ | m, hr, -⟩ := ih <;> try exact hr.elim
    obtain ⟨h', he, hr'⟩ := HashVal.set_repr hr _ _
    obtain ⟨-, rfl⟩ := Prod.mk.inj (Except.ok.inj (he.symm.trans hop))
    exact ⟨.hash _, hr', (HashVal.len_repr hr').symm.trans_lt hlen⟩
  | deleteField _ hop ih =>
    obtain ⟨_ | _ | m, hr, hsize⟩ := ih <;> try exact hr.elim
    obtain ⟨h', he, hr'⟩ := HashVal.delete_repr hr _
    obtain ⟨-, rfl⟩ := Prod.mk.inj (Except.ok.inj (he.symm.trans hop))
    refine ⟨.hash _, hr', lt_of_le_of_lt ?_ hsize⟩
    rw [AVal.size, AVal.size, Finmap.keys_erase]
    exact Finset.card_erase_le
  | addMember _ hop hlen ih =>
    obtain ⟨_ | _ | _ | m, hr, -⟩ := ih <;> try exact hr.elim
    obtain ⟨s', he, hr'⟩ := SetVal.add_repr hr _
    obtain ⟨-, rfl⟩ := Prod.mk.inj (Except.ok.inj (he.symm.trans hop))
    exact ⟨.set _, hr', (SetVal.len_repr hr').symm.trans_lt hlen⟩
  | removeMember _ hop ih =>
    obtain ⟨_ | _ | _ | m, hr, hsize⟩ := ih <;> try exact hr.elim
    obtain ⟨s', he, hr'⟩ := SetVal.remove_repr hr _
    obtain ⟨-, rfl⟩ := Prod.mk.inj (Except.ok.inj (he.symm.trans hop))
    exact ⟨.set _, hr', lt_of_le_of_lt Finset.card_erase_le hsize⟩
  | addScore _ hnum hop hlen ih =>
    obtain ⟨_ | _ | _ | _ | es, hr, -⟩ := ih <;> try exact hr.elim
    obtain ⟨z', rng', he, hr', -⟩ := ZSetVal.add_repr hr hnum _
    obtain ⟨-, hz⟩ := Prod.mk.inj (Except.ok.inj (he.symm.trans hop))
    obtain ⟨rfl, -⟩ := Prod.mk.inj hz
    exact ⟨.zset _, hr', (ZSetVal.len_repr hr').symm.trans_lt hlen⟩

end Value

end Memcore
