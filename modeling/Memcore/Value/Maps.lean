import Memcore.Lib.Calls
import Memcore.Value.Hash
import Memcore.Value.Set

/-!
# A hash is a finite map, a set is a finite set

The calls of `Hash` and `Set` one after the other on a new value, compared with the same calls on a
finite map and on a finite set. The mathematical side knows of no thresholds, so when a value is
promoted does not show. What `Pairs` and `Members` return is fixed up to its order: a pack has one
of its own, and after promotion Go's `range` chooses one at every call.
-/

namespace Memcore

open Go

/-! ## Hashes -/

/-- A call on a hash; `Pairs` comes with the order a map is visited in. -/
inductive HashOp where
  | set (field val : Bytes)
  | get (field : Bytes)
  | delete (field : Bytes)
  | pairs (ord : MapOrder)
  | len

/-- What a call returns. -/
inductive HashOut where
  | isNew (b : Bool)
  | value (v : Option Bytes)
  | present (b : Bool)
  | pairs (elems : List Bytes)
  | length (n : Nat)

namespace HashOp

/-- A call on a `Hash`. -/
def call : HashOp → HashVal → Result (HashOut × HashVal)
  | .set field val, h => do
      let (b, h) ← h.set field val
      .ok (.isNew b, h)
  | .get field, h => do
      let v ← h.get field
      .ok (.value v, h)
  | .delete field, h => do
      let (b, h) ← h.delete field
      .ok (.present b, h)
  | .pairs ord, h => do
      let elems ← h.pairs ord
      .ok (.pairs elems, h)
  | .len, h => .ok (.length h.len, h)

/-- What a call may return on a finite map. -/
def May (m : GoMap Bytes) : HashOp → HashOut → Prop
  | .set field _, .isNew b => b = decide (field ∉ m)
  | .get field, .value v => v = m.lookup field
  | .delete field, .present b => b = decide (field ∈ m)
  | .pairs _, .pairs elems => ∃ ps, elems = flatPairs ps ∧ Lists ps m
  | .len, .length n => n = m.keys.card
  | _, _ => False

/-- The finite map after a call. -/
def after (m : GoMap Bytes) : HashOp → GoMap Bytes
  | .set field val => m.insert field val
  | .delete field => m.erase field
  | .get _ | .pairs _ | .len => m

/-- A call does to a hash what it does to the map the hash holds. -/
theorem call_repr {h : HashVal} {m : GoMap Bytes} (hr : h.Repr m) (op : HashOp) :
    ∃ out h', op.call h = .ok (out, h') ∧ May m op out ∧ h'.Repr (after m op) := by
  have hmem (field : Bytes) : (m.lookup field).isSome = decide (field ∈ m) := by
    rw [Bool.eq_iff_iff, Finmap.lookup_isSome, decide_eq_true_iff]
  cases op with
  | set field val =>
    obtain ⟨h', hset, hr'⟩ := HashVal.set_repr hr field val
    refine ⟨.isNew (decide (field ∉ m)), h', ?_, rfl, hr'⟩
    rw [call, hset, hmem, decide_not]
    rfl
  | get field =>
    refine ⟨.value (m.lookup field), h, ?_, rfl, hr⟩
    rw [call, HashVal.get_repr hr]
    rfl
  | delete field =>
    obtain ⟨h', hdel, hr'⟩ := HashVal.delete_repr hr field
    refine ⟨.present (decide (field ∈ m)), h', ?_, rfl, hr'⟩
    rw [call, hdel, hmem]
    rfl
  | pairs ord =>
    obtain ⟨ps, hpairs, hl⟩ := HashVal.pairs_repr hr ord
    refine ⟨.pairs (flatPairs ps), h, ?_, ⟨ps, rfl, hl⟩, hr⟩
    rw [call, hpairs]
    rfl
  | len => exact ⟨.length h.len, h, rfl, HashVal.len_repr hr, hr⟩

/-- Calls on a new value return what they may. -/
theorem callAll_may (max : Thresholds) (ops : List HashOp) : ∃ outs,
    (callAll call ops (HashVal.new max)).map Prod.fst = .ok outs ∧ Answered May after ops ∅ outs := by
  obtain ⟨outs, _, hcalls, hmay, -⟩ := callAll_answered (R := HashVal.Repr)
    (fun _ _ op hr _ => call_repr hr op) (HashVal.new_repr max)
    (allMeet_of_forall (P := fun _ _ => True) (fun op (_ : op ∈ ops) _ => trivial) ∅)
  refine ⟨outs, ?_, hmay⟩
  rw [hcalls]
  rfl

end HashOp

/-- The same result, or the same pairs in another order. -/
def HashOut.Close : HashOut → HashOut → Prop
  | .pairs xs, .pairs ys => ∃ ps qs, xs = flatPairs ps ∧ ys = flatPairs qs ∧ ps.Perm qs
  | a, b => a = b

theorem HashOp.close_of_may (m : GoMap Bytes) : ∀ (op : HashOp) (a b : HashOut), op.May m a →
    op.May m b → a.Close b
  | .set _ _, .isNew _, .isNew _, rfl, rfl => rfl
  | .get _, .value _, .value _, rfl, rfl => rfl
  | .delete _, .present _, .present _, rfl, rfl => rfl
  | .pairs _, .pairs _, .pairs _, ⟨ps, rfl, hps⟩, ⟨qs, rfl, hqs⟩ =>
    ⟨ps, qs, rfl, rfl, hps.reorder hqs⟩
  | .len, .length _, .length _, rfl, rfl => rfl

/-! ## Sets -/

/-- A call on a set; `Members` comes with the order a map is visited in. -/
inductive SetOp where
  | add (member : Bytes)
  | remove (member : Bytes)
  | contains (member : Bytes)
  | members (ord : MapOrder)
  | len

/-- What a call returns. -/
inductive SetOut where
  | isNew (b : Bool)
  | present (b : Bool)
  | contained (b : Bool)
  | members (elems : List Bytes)
  | length (n : Nat)

namespace SetOp

/-- A call on a `Set`. -/
def call : SetOp → SetVal → Result (SetOut × SetVal)
  | .add member, s => do
      let (b, s) ← s.add member
      .ok (.isNew b, s)
  | .remove member, s => do
      let (b, s) ← s.remove member
      .ok (.present b, s)
  | .contains member, s => do
      let b ← s.contains member
      .ok (.contained b, s)
  | .members ord, s => do
      let elems ← s.members ord
      .ok (.members elems, s)
  | .len, s => .ok (.length s.len, s)

/-- What a call may return on a finite set. -/
def May (m : Finset Bytes) : SetOp → SetOut → Prop
  | .add member, .isNew b => b = decide (member ∉ m)
  | .remove member, .present b => b = decide (member ∈ m)
  | .contains member, .contained b => b = decide (member ∈ m)
  | .members _, .members elems => elems.Nodup ∧ elems.toFinset = m
  | .len, .length n => n = m.card
  | _, _ => False

/-- The finite set after a call. -/
def after (m : Finset Bytes) : SetOp → Finset Bytes
  | .add member => insert member m
  | .remove member => m.erase member
  | .contains _ | .members _ | .len => m

/-- A call does to a set what it does to the finite set it holds. -/
theorem call_repr {s : SetVal} {m : Finset Bytes} (hr : s.Repr m) (op : SetOp) :
    ∃ out s', op.call s = .ok (out, s') ∧ May m op out ∧ s'.Repr (after m op) := by
  cases op with
  | add member =>
    obtain ⟨s', hadd, hr'⟩ := SetVal.add_repr hr member
    refine ⟨.isNew (decide (member ∉ m)), s', ?_, rfl, hr'⟩
    rw [call, hadd]
    rfl
  | remove member =>
    obtain ⟨s', hrem, hr'⟩ := SetVal.remove_repr hr member
    refine ⟨.present (decide (member ∈ m)), s', ?_, rfl, hr'⟩
    rw [call, hrem]
    rfl
  | contains member =>
    refine ⟨.contained (decide (member ∈ m)), s, ?_, rfl, hr⟩
    rw [call, SetVal.contains_repr hr]
    rfl
  | members ord =>
    obtain ⟨xs, hmembers, hnodup, hset⟩ := SetVal.members_repr hr ord
    refine ⟨.members xs, s, ?_, ⟨hnodup, hset⟩, hr⟩
    rw [call, hmembers]
    rfl
  | len => exact ⟨.length s.len, s, rfl, SetVal.len_repr hr, hr⟩

/-- Calls on a new value return what they may. -/
theorem callAll_may (max : Thresholds) (ops : List SetOp) : ∃ outs,
    (callAll call ops (SetVal.new max)).map Prod.fst = .ok outs ∧ Answered May after ops ∅ outs := by
  obtain ⟨outs, _, hcalls, hmay, -⟩ := callAll_answered (R := SetVal.Repr)
    (fun _ _ op hr _ => call_repr hr op) (SetVal.new_repr max)
    (allMeet_of_forall (P := fun _ _ => True) (fun op (_ : op ∈ ops) _ => trivial) ∅)
  refine ⟨outs, ?_, hmay⟩
  rw [hcalls]
  rfl

end SetOp

/-- The same result, or the same members in another order. -/
def SetOut.Close : SetOut → SetOut → Prop
  | .members xs, .members ys => xs.Perm ys
  | a, b => a = b

theorem SetOp.close_of_may (m : Finset Bytes) : ∀ (op : SetOp) (a b : SetOut), op.May m a →
    op.May m b → a.Close b
  | .add _, .isNew _, .isNew _, rfl, rfl => rfl
  | .remove _, .present _, .present _, rfl, rfl => rfl
  | .contains _, .contained _, .contained _, rfl, rfl => rfl
  | .members _, .members _, .members _, ⟨hxs, hm⟩, ⟨hys, hm'⟩ =>
    List.perm_of_nodup_nodup_toFinset_eq hxs hys (hm.trans hm'.symm)
  | .len, .length _, .length _, rfl, rfl => rfl

/-! ## Whatever the encoding -/

/-- **Hashes and sets behave as a finite map and a finite set whatever their encoding.** Under any
thresholds, calls on a new hash or set return what they may return on the empty map or set and what
becomes of it; so under any two thresholds, whenever the values are promoted, they return the same,
up to the order of `Pairs` and `Members`. -/
theorem hash_eq_map_and_set_eq_set (max max' : Thresholds) :
    (∀ ops : List HashOp, ∃ outs outs',
      (callAll HashOp.call ops (HashVal.new max)).map Prod.fst = .ok outs ∧
      (callAll HashOp.call ops (HashVal.new max')).map Prod.fst = .ok outs' ∧
      Answered HashOp.May HashOp.after ops ∅ outs ∧ List.Forall₂ HashOut.Close outs outs') ∧
    ∀ ops : List SetOp, ∃ outs outs',
      (callAll SetOp.call ops (SetVal.new max)).map Prod.fst = .ok outs ∧
      (callAll SetOp.call ops (SetVal.new max')).map Prod.fst = .ok outs' ∧
      Answered SetOp.May SetOp.after ops ∅ outs ∧ List.Forall₂ SetOut.Close outs outs' := by
  constructor
  · intro ops
    obtain ⟨outs, hcalls, hmay⟩ := HashOp.callAll_may max ops
    obtain ⟨outs', hcalls', hmay'⟩ := HashOp.callAll_may max' ops
    exact ⟨outs, outs', hcalls, hcalls', hmay, hmay.forall₂ HashOp.close_of_may hmay'⟩
  · intro ops
    obtain ⟨outs, hcalls, hmay⟩ := SetOp.callAll_may max ops
    obtain ⟨outs', hcalls', hmay'⟩ := SetOp.callAll_may max' ops
    exact ⟨outs, outs', hcalls, hcalls', hmay, hmay.forall₂ SetOp.close_of_may hmay'⟩

end Memcore
