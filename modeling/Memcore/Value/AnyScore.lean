import Memcore.Value.ZSet

/-!
# Sorted sets under any scores

The commands refuse a score that is not a number, but a file can hold one, and nothing is before or
after it: a set that got it has no order left to speak of. What is left is the shape, the packed
members one after the other or the levels of the skip list, and it is enough for `Add` to succeed.
-/

namespace Memcore

open Go

/-- A step that always succeeds and keeps an invariant makes a fold that does. -/
theorem foldWhile_total {σ α : Type} {I : σ → Prop} {fn : σ → α → Result (σ × Bool)}
    (hstep : ∀ s e, I s → ∃ s' b, fn s e = .ok (s', b) ∧ I s') :
    ∀ (es : List α) {s : σ}, I s → ∃ s', foldWhile fn es s = .ok s' ∧ I s'
  | [], s, h => ⟨s, rfl, h⟩
  | e :: es, s, h => by
      obtain ⟨s₁, b, hfn, h₁⟩ := hstep s e h
      rw [foldWhile, hfn]
      cases b with
      | false => exact ⟨s₁, rfl, h₁⟩
      | true => exact foldWhile_total hstep es h₁

/-- The levels of the skip list hang together, in whatever order. -/
def FullZSet.Shaped (z : FullZSet) : Prop := ∃ es, z.order.Repr es

theorem FullZSet.add_total {z : FullZSet} (h : z.Shaped) (e : ZMember) (rng : Rng) :
    ∃ added z' rng', z.add e rng = .ok (added, z', rng') ∧ z'.Shaped := by
  obtain ⟨es, hr⟩ := h
  unfold FullZSet.add
  cases z.scores.lookup e.member with
  | none =>
    obtain ⟨order, es', hins, hr'⟩ := SkipList.insert_total hr e (rng 0)
    refine ⟨true, ⟨z.scores.insert e.member e.score, order⟩, fun n => rng (n + 1), ?_, es', hr'⟩
    simp only [hins, bind, Except.bind]
  | some old =>
    cases heq : old.eq e.score with
    | true => exact ⟨false, z, rng, by simp [heq], es, hr⟩
    | false =>
      -- a score that is not a number is not found again: the old node then stays where it is
      obtain ⟨order₁, es₁, hdel, hr₁⟩ := SkipList.delete_total hr ⟨e.member, old⟩
      obtain ⟨order, es', hins, hr'⟩ := SkipList.insert_total hr₁ e (rng 0)
      refine ⟨false, ⟨z.scores.insert e.member e.score, order⟩, fun n => rng (n + 1), ?_, es',
        hr'⟩
      simp only [heq, Bool.not_false, if_true, hdel, hins, bind, Except.bind]

namespace ZSetVal

/-- A pack of members, or a promoted set whose levels hang together. -/
def Shaped (z : ZSetVal) : Prop :=
  (z.full = none ∧ ∃ es, z.pack = packOfZ es) ∨ ∃ f, z.full = some f ∧ f.Shaped

theorem new_shaped (max : Thresholds) : (new max).Shaped := .inl ⟨rfl, [], rfl⟩

/-- A packed set keeps what it holds, with the new member among it. -/
theorem compactAdd_total {z : ZSetVal} {es : List ZMember} (hp : z.pack = packOfZ es)
    (e : ZMember) :
    ∃ added es' count, z.compactAdd e = .ok (added, { z with pack := packOfZ es', count }) ∧
      count + es.length = z.count + es'.length ∧ ∀ y ∈ es', y = e ∨ y ∈ es := by
  have hscan := foldWhile_addStep e es [] false
  rw [List.nil_append, Bool.false_or] at hscan
  have hcopied : ∀ y ∈ es.map (fun m => if m.member = e.member then e else m), y = e ∨ y ∈ es := by
    intro y hy
    obtain ⟨m, hm, rfl⟩ := List.mem_map.mp hy
    split
    · exact .inl rfl
    · exact .inr hm
  have hsort (fs : List ZMember) :
      (sortMembers fs).foldl packAppendZ [] = packOfZ (sortMembers fs) := foldl_packAppendZ _ []
  rw [compactAdd, hp, scanZPairs_packOfZ, hscan]
  simp only [bind, Except.bind, hsort]
  cases decide (e.member ∈ es.map ZMember.member) with
  | true =>
    refine ⟨false, _, z.count, rfl, ?_, fun y hy => ?_⟩
    · rw [if_pos rfl, (sortMembers_perm _).length_eq, List.length_map]
    · rw [if_pos rfl, (sortMembers_perm _).mem_iff] at hy
      exact hcopied y hy
  | false =>
    refine ⟨true, _, z.count + 1, rfl, ?_, fun y hy => ?_⟩
    · rw [if_neg Bool.false_ne_true, (sortMembers_perm _).length_eq, List.length_append,
        List.length_map, List.length_singleton]
      omega
    · rw [if_neg Bool.false_ne_true, (sortMembers_perm _).mem_iff, List.mem_append,
        List.mem_singleton] at hy
      exact hy.elim (hcopied y) .inl

theorem promote_total {z : ZSetVal} {es : List ZMember} (hp : z.pack = packOfZ es) (rng : Rng) :
    ∃ f rng', z.promote rng = .ok ({ z with full := some f, pack := [], count := 0 }, rng') ∧
      f.Shaped := by
  have hrun : z.promote rng = (do
      let p ← scanZPairs z.pack (fun (p : FullZSet × Rng) m => do
        let x ← p.1.add m p.2
        .ok ((x.2.1, x.2.2), true)) (FullZSet.new, rng)
      .ok ({ z with full := some p.1, pack := [], count := 0 }, p.2)) := rfl
  obtain ⟨p, hfold, hf⟩ : ∃ p : FullZSet × Rng, foldWhile (fun (p : FullZSet × Rng) m => do
      let x ← p.1.add m p.2
      .ok ((x.2.1, x.2.2), true)) es (FullZSet.new, rng) = .ok p ∧ p.1.Shaped := by
    refine foldWhile_total (I := fun p : FullZSet × Rng => p.1.Shaped) (fun p m hp => ?_) es
      ⟨[], SkipList.new_repr⟩
    obtain ⟨added, f', rng', hadd, hf'⟩ := FullZSet.add_total hp m p.2
    exact ⟨(f', rng'), true, by simp only [hadd, bind, Except.bind], hf'⟩
  refine ⟨p.1, p.2, ?_, hf⟩
  rw [hrun, hp, scanZPairs_packOfZ, hfold]
  rfl

/-- `Add` on a packed set: it stays packed, under its thresholds, or is promoted. -/
theorem add_packed {z : ZSetVal} {es : List ZMember} (hfull : z.full = none)
    (hp : z.pack = packOfZ es) (e : ZMember) (rng : Rng) :
    ∃ added z' rng', z.add e rng = .ok (added, z', rng') ∧ z'.max = z.max ∧
      ((z'.full = none ∧ z.max.exceeded z'.count e.member.len = false ∧ ∃ es',
          z'.pack = packOfZ es' ∧ z'.count + es.length = z.count + es'.length ∧
          ∀ y ∈ es', y = e ∨ y ∈ es) ∨
        ∃ f, z'.full = some f ∧ f.Shaped ∧ z'.pack = []) := by
  obtain ⟨added, es', count, hadd, hcount, hmem⟩ := compactAdd_total hp e
  unfold add
  simp only [hfull, hadd, bind, Except.bind]
  cases hx : z.max.exceeded count e.member.len with
  | true =>
    obtain ⟨f, rng', hpro, hf⟩ := promote_total
      (z := { z with pack := packOfZ es', count }) rfl rng
    rw [if_pos rfl, ← hfull, hpro]
    exact ⟨added, _, rng', rfl, rfl, .inr ⟨f, rfl, hf, rfl⟩⟩
  | false =>
    rw [if_neg Bool.false_ne_true]
    exact ⟨added, _, rng, rfl, rfl, .inl ⟨rfl, hx, es', rfl, hcount, hmem⟩⟩

theorem add_promoted {z : ZSetVal} {f : FullZSet} (hfull : z.full = some f) (hf : f.Shaped)
    (e : ZMember) (rng : Rng) :
    ∃ added f' rng', z.add e rng = .ok (added, { z with full := some f' }, rng') ∧ f'.Shaped := by
  obtain ⟨added, f', rng', hadd, hf'⟩ := FullZSet.add_total hf e rng
  refine ⟨added, f', rng', ?_, hf'⟩
  simp only [add, hfull, hadd, bind, Except.bind]

/-- **`Add` succeeds on whatever a file holds.** -/
theorem add_total {z : ZSetVal} (h : z.Shaped) (e : ZMember) (rng : Rng) :
    ∃ added z' rng', z.add e rng = .ok (added, z', rng') ∧ z'.Shaped := by
  rcases h with ⟨hnone, es, hp⟩ | ⟨f, hsome, hf⟩
  · obtain ⟨added, z', rng', hadd, -, hout⟩ := add_packed hnone hp e rng
    refine ⟨added, z', rng', hadd, ?_⟩
    rcases hout with ⟨hnone', -, es', hp', -, -⟩ | ⟨f, hsome, hf, -⟩
    · exact .inl ⟨hnone', es', hp'⟩
    · exact .inr ⟨f, hsome, hf⟩
  · obtain ⟨added, f', rng', hadd, hf'⟩ := add_promoted hsome hf e rng
    exact ⟨added, _, rng', hadd, .inr ⟨f', rfl, hf'⟩⟩

end ZSetVal

end Memcore
