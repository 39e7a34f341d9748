import Memcore.Lib.Calls
import Memcore.Value.ZSet

/-!
# The skip list of a promoted sorted set

What holds of a `fullZSet` after any number of `add`s, whatever heights its nodes get: the chain of
the lowest level visits the members of the map in order, the chain of every other level visits those
of its nodes that are tall enough, and `delete` unlinks a node from all of them. `SkipList.Inv` has
most of it; here it is put beside the map and carried through a run.
-/

namespace Memcore

open Go Linked SkipList

namespace FullZSet

/-- The nodes `ids`, holding `es`, are the index of the map. -/
structure Indexed (z : FullZSet) (ids : List Nat) (es : List ZMember) : Prop where
  lowest : Chain (nextAt z.order.nodes 0) 0 ids
  entries : ids.map (entryOf z.order.nodes) = es.map some
  once : (es.map ZMember.member).Nodup
  scores : ∀ member s, z.scores.lookup member = some s ↔ ⟨member, s⟩ ∈ es
  ascending : es.Pairwise fun a b => zskipLess a b = true
  length : z.order.length = ids.length
  levels : ∀ i < zskipMaxLevel, Chain (nextAt z.order.nodes i) 0
    (ids.filter fun x => decide (i < heightOf z.order.nodes x))
  heights : ∀ x ∈ ids, 1 ≤ heightOf z.order.nodes x ∧ heightOf z.order.nodes x ≤ z.order.level
  level : 1 ≤ z.order.level ∧ z.order.level ≤ zskipMaxLevel

/-- `delete` finds the node that holds `v` when it is asked for `e`, and takes it, and nothing else,
off the chain of every level. -/
def Unlinks (sl : SkipList) (ids : List Nat) (v e : ZMember) : Prop :=
  ∃ before x after sl', ids = before ++ x :: after ∧ entryOf sl.nodes x = some v ∧
    sl.delete e = .ok sl' ∧ sl'.length + 1 = sl.length ∧
    ∀ i < zskipMaxLevel, Chain (nextAt sl'.nodes i) 0
      ((before ++ after).filter fun y => decide (i < heightOf sl.nodes y))

variable {z : FullZSet} {ids : List Nat} {es : List ZMember}

theorem indexed_of_inv (hl : Lists (es.map fun e => (e.member, e.score)) z.scores)
    (hinv : Inv z.order ids es) (ho : ZOrdered es) : z.Indexed ids es where
  lowest := by
    have hc := hinv.chains 0 (by decide)
    rwa [hinv.onLevel_zero] at hc
  entries := hinv.entries
  once := ho.nodup
  scores member s := by
    rw [Repr.lookup ⟨hl, ids, hinv⟩ ho member]
    exact ho.zscore_eq_some
  ascending := ho.sorted
  length := by
    have hlen := congrArg List.length hinv.entries
    rw [List.length_map, List.length_map] at hlen
    rw [hinv.length, hlen]
  levels := hinv.chains
  heights := hinv.tall
  level := hinv.level

theorem unlinks_of_inv (hinv : Inv z.order ids es) (ho : ZOrdered es) {member : Bytes}
    {s old : Score} (hmem : ⟨member, s⟩ ∈ es) (heq : s.eq old = true) :
    Unlinks z.order ids ⟨member, s⟩ ⟨member, old⟩ := by
  obtain ⟨xs, ys, rfl⟩ := List.append_of_mem hmem
  obtain ⟨before, x, after, sl', hids, hx, hdelete, hinv', hheight⟩ :=
    hinv.delete_present (e := ⟨member, old⟩) ho rfl heq
  refine ⟨before, x, after, sl', hids, hx, hdelete, ?_, fun i hi => ?_⟩
  · rw [hinv'.length, hinv.length, List.length_append, List.length_append, List.length_cons]
    omega
  · have hc := hinv'.chains i hi
    rwa [onLevel_congr hheight] at hc

/-- **The skip list keeps its invariant.** After any calls of `add` with scores that are numbers,
and for all heights its nodes may get, the list is an index of the map; and for each member of the
map `delete`, given the member's score, unlinks its node from every chain it is on. -/
theorem add_keeps_index (adds : List ZMember) (hnum : ∀ e ∈ adds, e.score.isNaN = false)
    (rng : Rng) :
    ∃ outs z rng' ids es,
      callAll (fun e (s : FullZSet × Rng) => s.1.add e s.2) adds (new, rng)
        = .ok (outs, z, rng') ∧
      z.Indexed ids es ∧
      ∀ member s old, z.scores.lookup member = some s → s.eq old = true →
        Unlinks z.order ids ⟨member, s⟩ ⟨member, old⟩ := by
  have hadd (s : FullZSet × Rng) (es : List ZMember) (e : ZMember)
      (h : s.1.Repr es ∧ ZOrdered es) (hnum : e.score.isNaN = false) :
      ∃ isNew s', s.1.add e s.2 = .ok (isNew, s') ∧ isNew = (zscore e.member es).isNone ∧
        s'.1.Repr (zputFull e es) ∧ ZOrdered (zputFull e es) := by
    obtain ⟨z', rng', hadd, hr⟩ := add_repr h.1 h.2 e s.2
    exact ⟨_, (z', rng'), hadd, rfl, hr, h.2.zputFull hnum⟩
  obtain ⟨outs, ⟨z, rng'⟩, hrun, -, hr, ho⟩ := callAll_answered hadd (s := (new, rng)) (t := [])
    ⟨new_repr, ZOrdered.empty⟩ (allMeet_of_forall (fun e he _ => hnum e he) [])
  obtain ⟨hl, ids, hinv⟩ := hr
  have hindex := indexed_of_inv hl hinv ho
  refine ⟨outs, z, rng', ids, _, hrun, hindex, fun member s old hlook heq => ?_⟩
  exact unlinks_of_inv hinv ho ((hindex.scores member s).mp hlook) heq

/-- Two members, one of which then gets a score past the other's, at heights 2, 1 and 32. -/
theorem add_keeps_index_moved :
    ∃ outs z rng' ids es,
      callAll (fun e (s : FullZSet × Rng) => s.1.add e s.2)
          [⟨ascii "a", ⟨0⟩⟩, ⟨ascii "b", ⟨0x3FF0000000000000⟩⟩, ⟨ascii "a", ⟨0x4000000000000000⟩⟩]
          (new, fun n => if n = 0 then 1 else if n = 1 then 0 else 31)
        = .ok (outs, z, rng') ∧
      z.Indexed ids es ∧
      ∀ member s old, z.scores.lookup member = some s → s.eq old = true →
        Unlinks z.order ids ⟨member, s⟩ ⟨member, old⟩ :=
  add_keeps_index _ (by decide) _

end FullZSet

end Memcore
