import Mathlib.Order.Antisymmetrization
import Memcore.Lib.Calls
import Memcore.Value.ZSet

/-!
# A sorted set is an ordered score map

The calls of `ZSet` one after the other on a new value, compared with the same calls on a finite map
from members to scores. The scores of the map are read in any preorder whose equivalence is Go's
`==` on numbers: so much, and no more, every encoding keeps.

Of the bits of a score the encodings keep different things. A pack takes those of the last `Add`; a
promoted set keeps those it has when the new score is `==` to them, and the two zeros are. Bit for
bit, results are the same under all thresholds as long as no `Add` gives a member the other zero.
-/

namespace Memcore

open Go

/-! ## Calls -/

/-- A call on a sorted set. -/
inductive ZSetOp where
  | add (e : ZMember)
  | score (member : Bytes)
  | range (start stop : Int)
  | len
deriving DecidableEq

/-- What a call returns. -/
inductive ZSetOut where
  | isNew (b : Bool)
  | score (s : Option Score)
  | members (es : List ZMember)
  | length (n : Nat)
deriving DecidableEq

namespace ZSetOp

/-- A call on a `ZSet`; `Add` may use up levels for the nodes of the skip list. -/
def call : ZSetOp → ZSetVal × Rng → Result (ZSetOut × ZSetVal × Rng)
  | .add e, (z, rng) => do
      let (b, z, rng) ← z.add e rng
      .ok (.isNew b, z, rng)
  | .score member, (z, rng) => do
      let s ← z.score member
      .ok (.score s, z, rng)
  | .range start stop, (z, rng) => do
      let es ← z.range start stop
      .ok (.members es, z, rng)
  | .len, (z, rng) => .ok (.length z.len, z, rng)

/-- The scores added are numbers, as `cmdZAdd` sees to it. -/
def Number : ZSetOp → Prop
  | .add e => e.score.isNaN = false
  | _ => True

instance : DecidablePred Number
  | .add e => inferInstanceAs (Decidable (e.score.isNaN = false))
  | .score _ | .range _ _ | .len => inferInstanceAs (Decidable True)

/-- What calls on a new sorted set return, the nodes of its skip list at the levels of `rng`. -/
def results (max : Thresholds) (rng : Rng) (ops : List ZSetOp) : Result (List ZSetOut) :=
  (callAll call ops (ZSetVal.new max, rng)).map Prod.fst

/-- What a call on a sorted set that holds `es` returns. -/
def onMembers (es : List ZMember) : ZSetOp → ZSetOut
  | .add e => .isNew (zscore e.member es).isNone
  | .score member => .score (zscore member es)
  | .range start stop => .members (ranked start stop es)
  | .len => .length es.length

/-- What a call leaves of the members. -/
def membersAfter (max : Thresholds) (es : List ZMember) : ZSetOp → List ZMember
  | .add e => zput max e es
  | _ => es

theorem call_repr {z : ZSetVal} {es : List ZMember} (h : z.Repr es) (rng : Rng) {op : ZSetOp}
    (hop : op.Number) :
    ∃ z' rng', op.call (z, rng) = .ok (op.onMembers es, z', rng') ∧
      z'.Repr (op.membersAfter z.max es) ∧ z'.max = z.max := by
  cases op with
  | add e =>
    obtain ⟨z', rng', hadd, hr, hmax⟩ := ZSetVal.add_repr h hop rng
    refine ⟨z', rng', ?_, hr, hmax⟩
    rw [call, hadd]
    rfl
  | score member =>
    refine ⟨z, rng, ?_, h, rfl⟩
    rw [call, ZSetVal.score_repr h]
    rfl
  | range start stop =>
    refine ⟨z, rng, ?_, h, rfl⟩
    rw [call, ZSetVal.range_repr h, rangeOf_eq_ranked]
    rfl
  | len =>
    refine ⟨z, rng, ?_, h, rfl⟩
    rw [call, ZSetVal.len_repr h]
    rfl

end ZSetOp

/-! ## What an update leaves -/

theorem Score.eq_self {s : Score} (h : s.isNaN = false) : s.eq s = true := by
  simp [Score.eq, h]

theorem mem_zinsert_zerase {e x : ZMember} {es : List ZMember}
    (hx : x ∈ zinsert e (zerase e.member es)) : x = e ∨ x.member ≠ e.member ∧ x ∈ es := by
  rcases mem_zinsert.mp hx with rfl | hx
  · exact .inl rfl
  · obtain ⟨hmem, hne⟩ := List.mem_filter.mp hx
    exact .inr ⟨of_decide_eq_true hne, hmem⟩

/-- After an update the member has an equal score, and the others are as before. -/
theorem mem_zput {max : Thresholds} {e x : ZMember} {es : List ZMember} (ho : ZOrdered es)
    (hnum : e.score.isNaN = false) (hx : x ∈ zput max e es) :
    x.member = e.member ∧ x.score.eq e.score = true ∨ x.member ≠ e.member ∧ x ∈ es := by
  have hnew (hx : x = e ∨ x.member ≠ e.member ∧ x ∈ es) :
      x.member = e.member ∧ x.score.eq e.score = true ∨ x.member ≠ e.member ∧ x ∈ es := by
    rcases hx with rfl | hx
    · exact .inl ⟨rfl, Score.eq_self hnum⟩
    · exact .inr hx
  unfold zput zputFull at hx
  split at hx
  · cases hs : zscore e.member es with
    | none =>
      rw [hs] at hx
      rw [← zerase_eq_self (ZOrdered.zscore_eq_none.mp hs)] at hx
      exact hnew (mem_zinsert_zerase hx)
    | some old =>
      simp only [hs] at hx
      split at hx
      next heq =>
        by_cases hm : x.member = e.member
        · -- the promoted set keeps the score it has
          have hold : zscore e.member es = some x.score := ho.zscore_eq_some.mpr (hm ▸ hx)
          rw [hs] at hold
          cases hold
          exact .inl ⟨hm, heq⟩
        · exact .inr ⟨hm, hx⟩
      next => exact hnew (mem_zinsert_zerase hx)
  · exact hnew (mem_zinsert_zerase hx)

theorem mem_members_zput {max : Thresholds} {e : ZMember} {es : List ZMember} (ho : ZOrdered es)
    (member : Bytes) : member ∈ (zput max e es).map ZMember.member ↔
      member = e.member ∨ member ∈ es.map ZMember.member := by
  rw [(zput_perm max e ho).mem_iff, List.mem_cons]
  refine or_congr_right' fun hm => ?_
  simp only [zerase, List.mem_map, List.mem_filter, decide_eq_true_eq]
  constructor
  · rintro ⟨x, ⟨hx, -⟩, rfl⟩
    exact ⟨x, hx, rfl⟩
  · rintro ⟨x, hx, rfl⟩
    exact ⟨x, ⟨hx, hm⟩, rfl⟩

/-! ## Scores in a preorder -/

section Ranking

variable {S : Type}

/-- The map of scores after a call. -/
def ZSetOp.after (val : Score → S) (m : GoMap S) : ZSetOp → GoMap S
  | .add e => m.insert e.member (val e.score)
  | _ => m

variable [Preorder S]

/-- Number scores read in a preorder: its equivalence is `==`, and its `<` is `<`. -/
structure ReadsScores (val : Score → S) : Prop where
  eq : ∀ {a b : Score}, a.isNaN = false → b.isNaN = false →
    (a.eq b = true ↔ AntisymmRel (· ≤ ·) (val a) (val b))
  lt : ∀ {a b : Score}, a.isNaN = false → b.isNaN = false → (a.lt b = true ↔ val a < val b)

/-- `es` is all members of `m`, each once, with its score, strictly ascending by score and then by
the bytes of the member. -/
structure Ranking (val : Score → S) (m : GoMap S) (es : List ZMember) : Prop where
  once : (es.map ZMember.member).Nodup
  all : ∀ member, member ∈ es.map ZMember.member ↔ member ∈ m
  scores : ∀ e ∈ es, ∃ s, m.lookup e.member = some s ∧ AntisymmRel (· ≤ ·) (val e.score) s
  ascending : es.Pairwise fun a b => val a.score < val b.score ∨
    AntisymmRel (· ≤ ·) (val a.score) (val b.score) ∧ Bytes.less a.member b.member = true

namespace ZSetOp

/-- What a call may return on a map from members to scores. -/
def May (val : Score → S) (m : GoMap S) : ZSetOp → ZSetOut → Prop
  | .add e, .isNew b => b = decide (e.member ∉ m)
  | .score member, .score s =>
    Option.Rel (fun s t => AntisymmRel (· ≤ ·) (val s) t) s (m.lookup member)
  | .range start stop, .members out => ∃ es, Ranking val m es ∧ out = ranked start stop es
  | .len, .length n => n = m.keys.card
  | _, _ => False

end ZSetOp

variable {val : Score → S} {m : GoMap S} {es : List ZMember}

theorem Ranking.empty (val : Score → S) : Ranking val ∅ [] :=
  ⟨List.nodup_nil, fun member => by simp [Finmap.notMem_empty], nofun, .nil⟩

/-- Members in the order of `zskipLess` ascend. -/
theorem ReadsScores.ascending (hval : ReadsScores val) (ho : ZOrdered es) :
    es.Pairwise fun a b => val a.score < val b.score ∨
      AntisymmRel (· ≤ ·) (val a.score) (val b.score) ∧ Bytes.less a.member b.member = true := by
  refine ho.sorted.imp_of_mem fun {a b} ha hb hless => ?_
  have hna := ho.number a ha
  have hnb := ho.number b hb
  unfold zskipLess at hless
  cases heq : a.score.eq b.score with
  | true =>
    rw [heq] at hless
    exact .inr ⟨(hval.eq hna hnb).mp heq, hless⟩
  | false =>
    rw [heq] at hless
    exact .inl ((hval.lt hna hnb).mp hless)

theorem Ranking.lookup (h : Ranking val m es) (ho : ZOrdered es) (member : Bytes) :
    Option.Rel (fun s t => AntisymmRel (· ≤ ·) (val s) t) (zscore member es)
      (m.lookup member) := by
  cases hs : zscore member es with
  | none =>
    have hno : member ∉ m := fun hm => ZOrdered.zscore_eq_none.mp hs ((h.all member).mpr hm)
    rw [Finmap.lookup_eq_none.mpr hno]
    exact .none
  | some s =>
    obtain ⟨t, ht, hequiv⟩ := h.scores _ (ho.zscore_eq_some.mp hs)
    rw [ht]
    exact .some hequiv

theorem Ranking.length_eq (h : Ranking val m es) : es.length = m.keys.card := by
  have hkeys : m.keys = (es.map ZMember.member).toFinset := by
    ext member
    rw [List.mem_toFinset, h.all, Finmap.mem_keys]
  rw [hkeys, List.toFinset_card_of_nodup h.once, List.length_map]

/-- An update of the members is one of the map. -/
theorem Ranking.zput (h : Ranking val m es) (hval : ReadsScores val) (ho : ZOrdered es)
    (max : Thresholds) {e : ZMember} (hnum : e.score.isNaN = false) :
    Ranking val (m.insert e.member (val e.score)) (zput max e es) where
  once := (ho.zput max hnum).nodup
  all member := by rw [mem_members_zput ho, h.all, Finmap.mem_insert]
  scores x hx := by
    have hnx := (ho.zput max hnum).number x hx
    rcases mem_zput ho hnum hx with ⟨hm, heq⟩ | ⟨hm, hmem⟩
    · exact ⟨val e.score, by rw [hm, Finmap.lookup_insert], (hval.eq hnx hnum).mp heq⟩
    · rw [Finmap.lookup_insert_of_ne _ hm]
      exact h.scores x hmem
  ascending := hval.ascending (ho.zput max hnum)

/-- A call on a sorted set does what it does to the map it holds. -/
theorem ZSetOp.call_ranking (hval : ReadsScores val) (s : ZSetVal × Rng) (m : GoMap S)
    (op : ZSetOp) (h : ∃ es, s.1.Repr es ∧ Ranking val m es) (hop : op.Number) :
    ∃ out s', op.call s = .ok (out, s') ∧ op.May val m out ∧
      ∃ es, s'.1.Repr es ∧ Ranking val (op.after val m) es := by
  obtain ⟨z, rng⟩ := s
  obtain ⟨es, hr, hrank⟩ := h
  obtain ⟨z', rng', hcall, hr', -⟩ := call_repr hr rng hop
  have ho := hr.1
  refine ⟨op.onMembers es, (z', rng'), hcall, ?_, op.membersAfter z.max es, hr', ?_⟩
  · cases op with
    | add e =>
      show (zscore e.member es).isNone = decide (e.member ∉ m)
      rw [Bool.eq_iff_iff, Option.isNone_iff_eq_none, ZOrdered.zscore_eq_none, hrank.all,
        decide_eq_true_iff]
    | score member => exact hrank.lookup ho member
    | range start stop => exact ⟨es, hrank, rfl⟩
    | len => exact hrank.length_eq
  · cases op with
    | add e => exact hrank.zput hval ho z.max hop
    | score _ | range _ _ | len => exact hrank

end Ranking

/-- **A sorted set behaves as an ordered score map whatever its encoding.** The scores are read in
any preorder whose equivalence is `==`. Under any thresholds and any choice of levels, calls on a new
sorted set that add numbers never fail. `Add` tells whether the member is new, `Score` gives a score
equivalent to the last one added, `Len` counts the members, and `Range` is the slice of the members,
each once, in strictly ascending order of score and bytes. -/
theorem zset_eq_ordered_map {S : Type} [Preorder S] {val : Score → S} (hval : ReadsScores val)
    (max : Thresholds) (rng : Rng) (ops : List ZSetOp) (hnum : ∀ op ∈ ops, op.Number) :
    ∃ outs, ZSetOp.results max rng ops = .ok outs ∧
      Answered (ZSetOp.May val) (ZSetOp.after val) ops ∅ outs := by
  obtain ⟨outs, _, hcalls, hmay, -⟩ := callAll_answered
    (R := fun (s : ZSetVal × Rng) m => ∃ es, s.1.Repr es ∧ Ranking val m es)
    (ZSetOp.call_ranking hval) (s := (ZSetVal.new max, rng))
    ⟨[], ZSetVal.new_repr max, Ranking.empty val⟩ (allMeet_of_forall (fun op h _ => hnum op h) ∅)
  refine ⟨outs, ?_, hmay⟩
  rw [ZSetOp.results, hcalls]
  rfl

section Place

/-- The order of the places of the scores is that of the integers. -/
local instance placeOrder : Preorder Int := Int.instLinearOrder.toPartialOrder.toPreorder

theorem readsScores_place : ReadsScores Score.place where
  eq ha hb := by simp [Score.eq, ha, hb, antisymmRel_iff_eq]
  lt ha hb := by simp [Score.lt, ha, hb]

/-- One member gets both zeros and then a one, in a set that is promoted at once. -/
theorem zset_eq_ordered_map_zeros :
    ∃ outs, ZSetOp.results ⟨0, 0⟩ (fun _ => 0)
        [.add ⟨ascii "m", ⟨0⟩⟩, .add ⟨ascii "m", ⟨0x8000000000000000⟩⟩, .score (ascii "m"),
          .add ⟨ascii "m", ⟨0x3FF0000000000000⟩⟩, .range 0 (-1)] = .ok outs ∧
      Answered (ZSetOp.May Score.place) (ZSetOp.after Score.place)
        [.add ⟨ascii "m", ⟨0⟩⟩, .add ⟨ascii "m", ⟨0x8000000000000000⟩⟩, .score (ascii "m"),
          .add ⟨ascii "m", ⟨0x3FF0000000000000⟩⟩, .range 0 (-1)] ∅ outs :=
  zset_eq_ordered_map readsScores_place _ _ _ (by decide)

end Place

/-! ## Bit by bit -/

/-- The set holds the scores last added, bit for bit. -/
def HoldsBits (es : List ZMember) (m : GoMap Score) : Prop :=
  ZOrdered es ∧ Lists (es.map fun e => (e.member, e.score)) m

namespace HoldsBits

variable {es fs : List ZMember} {m : GoMap Score}

theorem empty : HoldsBits [] ∅ := ⟨ZOrdered.empty, Lists.empty⟩

theorem unique (h : HoldsBits es m) (h' : HoldsBits fs m) : es = fs := by
  refine h.1.eq_of_perm h'.1 ?_
  have hperm := (h.2.reorder h'.2).map fun p => (⟨p.1, p.2⟩ : ZMember)
  simpa only [List.map_map, Function.comp_def, List.map_id'] using hperm

theorem zscore_eq (h : HoldsBits es m) (member : Bytes) : zscore member es = m.lookup member := by
  refine Option.ext fun s => ?_
  rw [h.1.zscore_eq_some, ← h.2.2 member s, List.mem_map]
  constructor
  · intro hmem
    exact ⟨_, hmem, rfl⟩
  · rintro ⟨e, he, heq⟩
    cases heq
    exact he

theorem zinsert (h : HoldsBits es m) {e : ZMember} (hnum : e.score.isNaN = false) :
    HoldsBits (zinsert e (zerase e.member es)) (m.insert e.member e.score) :=
  ⟨(h.1.zerase _).zinsert hnum (member_notMem_zerase _ _), zput_map_perm h.2 (zinsert_perm _ _)⟩

end HoldsBits

/-- Not the other zero: where the member has an equal score, it has the same bits. -/
def ZSetOp.KeepsBits (m : GoMap Score) : ZSetOp → Prop
  | .add e => ∀ old, m.lookup e.member = some old → old.eq e.score = true → old = e.score
  | _ => True

/-- Setting the score a member has leaves the members alone. -/
theorem zinsert_zerase_self {e : ZMember} {es : List ZMember} (ho : ZOrdered es) (he : e ∈ es) :
    zinsert e (zerase e.member es) = es := by
  refine ((ho.zerase _).zinsert (ho.number e he) (member_notMem_zerase _ _)).eq_of_perm ho ?_
  obtain ⟨xs, ys, rfl⟩ := List.append_of_mem he
  refine (zinsert_perm _ _).trans ?_
  rw [zerase_split ho.nodup]
  exact List.perm_middle.symm

/-- Without the other zero, packed and promoted sets are updated alike. -/
theorem zput_of_keepsBits {max : Thresholds} {e : ZMember} {es : List ZMember} {m : GoMap Score}
    (h : HoldsBits es m) (hkeep : (ZSetOp.add e).KeepsBits m) :
    zput max e es = zinsert e (zerase e.member es) := by
  unfold zput zputFull
  split
  · cases hs : zscore e.member es with
    | none =>
      simp only
      rw [zerase_eq_self (ZOrdered.zscore_eq_none.mp hs)]
    | some old =>
      simp only
      split
      next heq =>
        have hold := hkeep old (by rw [← h.zscore_eq, hs]) heq
        subst hold
        exact (zinsert_zerase_self h.1 (h.1.zscore_eq_some.mp hs)).symm
      next => rfl
  · rfl

namespace ZSetOp

/-- What a call returns when the set holds the scores last added. -/
def Exactly (m : GoMap Score) (op : ZSetOp) (out : ZSetOut) : Prop :=
  ∃ es, HoldsBits es m ∧ out = op.onMembers es

/-- No call of the sequence gives a member the other zero. -/
def Steady (ops : List ZSetOp) : Prop := AllMeet KeepsBits (after id) ops ∅

theorem call_exactly {max : Thresholds} (s : ZSetVal × Rng) (m : GoMap Score) (op : ZSetOp)
    (h : s.1.max = max ∧ ∃ es, s.1.Repr es ∧ HoldsBits es m) (hop : op.Number ∧ op.KeepsBits m) :
    ∃ out s', op.call s = .ok (out, s') ∧ op.Exactly m out ∧
      s'.1.max = max ∧ ∃ es, s'.1.Repr es ∧ HoldsBits es (op.after id m) := by
  obtain ⟨z, rng⟩ := s
  obtain ⟨rfl, es, hr, hbits⟩ := h
  obtain ⟨z', rng', hcall, hr', hmax⟩ := call_repr hr rng hop.1
  refine ⟨op.onMembers es, (z', rng'), hcall, ⟨es, hbits, rfl⟩, hmax, _, hr', ?_⟩
  cases op with
  | add e =>
    rw [membersAfter, zput_of_keepsBits hbits hop.2]
    exact hbits.zinsert hop.1
  | score _ | range _ _ | len => exact hbits

/-- A run without the other zero. -/
theorem callAll_exactly {ops : List ZSetOp} (hnum : ∀ op ∈ ops, op.Number) (hsteady : Steady ops)
    (max : Thresholds) (rng : Rng) :
    ∃ outs z rng', callAll call ops (ZSetVal.new max, rng) = .ok (outs, z, rng') ∧
      Answered Exactly (after id) ops ∅ outs ∧ z.max = max ∧
      ∃ es, z.Repr es ∧ HoldsBits es (ops.foldl (after id) ∅) := by
  obtain ⟨outs, ⟨z, rng'⟩, hcalls, hmay, hmax, hes⟩ := callAll_answered
    (R := fun (s : ZSetVal × Rng) m => s.1.max = max ∧ ∃ es, s.1.Repr es ∧ HoldsBits es m)
    call_exactly (s := (ZSetVal.new max, rng)) ⟨rfl, [], ZSetVal.new_repr max, HoldsBits.empty⟩
    ((allMeet_of_forall (fun op h _ => hnum op h) ∅).and hsteady)
  exact ⟨outs, z, rng', hcalls, hmay, hmax, hes⟩

theorem results_eq_of_steady {ops : List ZSetOp} (hnum : ∀ op ∈ ops, op.Number)
    (hsteady : Steady ops) (max max' : Thresholds) (rng rng' : Rng) :
    results max rng ops = results max' rng' ops := by
  obtain ⟨outs, _, _, hcalls, hmay, -⟩ := callAll_exactly hnum hsteady max rng
  obtain ⟨outs', _, _, hcalls', hmay', -⟩ := callAll_exactly hnum hsteady max' rng'
  have hsame : List.Forall₂ (· = ·) outs outs' := by
    refine hmay.forall₂ (fun m op out out' h h' => ?_) hmay'
    obtain ⟨es, hes, rfl⟩ := h
    obtain ⟨fs, hfs, rfl⟩ := h'
    rw [hes.unique hfs]
  rw [List.forall₂_eq_eq_eq] at hsame
  subst hsame
  rw [results, results, hcalls, hcalls']
  rfl

/-- The score of a member right after it is added. -/
theorem results_added {ops : List ZSetOp} (hnum : ∀ op ∈ ops, op.Number) (hsteady : Steady ops)
    {e : ZMember} (he : e.score.isNaN = false) {es : List ZMember}
    (hes : HoldsBits es (ops.foldl (after id) ∅)) (max : Thresholds) (rng : Rng) :
    ∃ outs, results max rng (ops ++ [.add e] ++ [.score e.member]) =
      .ok (outs ++ [.score (zscore e.member (zput max e es))]) := by
  obtain ⟨outs, z, rng₁, hcalls, -, rfl, es', hr, hes'⟩ := callAll_exactly hnum hsteady max rng
  obtain rfl := hes'.unique hes
  obtain ⟨z₁, rng₂, hadd, hr₁, -⟩ := call_repr hr rng₁ (show (add e).Number from he)
  obtain ⟨z₂, rng₃, hscore, -, -⟩ := call_repr hr₁ rng₂ (show (score e.member).Number from trivial)
  have hrun := callAll_snoc (callAll_snoc hcalls hadd) hscore
  refine ⟨outs ++ [(ZSetOp.add e).onMembers es'], ?_⟩
  rw [results, hrun]
  rfl

/-- Thresholds large enough for `es`. -/
theorem zpromoted_large (es : List ZMember) : zpromoted ⟨es.length, 2 ^ 64⟩ es = false := by
  rw [zpromoted, List.any_eq_false]
  intro e _
  have hlen := e.member.len_lt
  simp only [Thresholds.exceeded, Bool.or_eq_true, decide_eq_true_eq]
  omega

/-- Under the thresholds zero every set with a member is promoted. -/
theorem zpromoted_zero {e : ZMember} {es : List ZMember} (h : e ∈ es) :
    zpromoted ⟨0, 0⟩ es = true := by
  have hpos := List.length_pos_of_mem h
  rw [zpromoted, List.any_eq_true]
  refine ⟨e, h, ?_⟩
  simp only [Thresholds.exceeded, Bool.or_eq_true, decide_eq_true_eq]
  omega

/-- A set that is not promoted takes the bits of the new score. -/
theorem zscore_zput_packed {max : Thresholds} {e : ZMember} {es : List ZMember} (ho : ZOrdered es)
    (hnum : e.score.isNaN = false) (hpacked : zpromoted max es = false) :
    zscore e.member (zput max e es) = some e.score := by
  have hput := ho.zput max hnum
  rw [zput, hpacked, if_neg Bool.false_ne_true] at hput ⊢
  exact hput.zscore_eq_some.mpr (mem_zinsert.mpr (.inl rfl))

/-- A promoted set keeps an equal score. -/
theorem zscore_zput_promoted {max : Thresholds} {e : ZMember} {es : List ZMember} {old : Score}
    (hold : zscore e.member es = some old) (heq : old.eq e.score = true)
    (hpromoted : zpromoted max es = true) : zscore e.member (zput max e es) = some old := by
  rw [zput, if_pos hpromoted, zputFull, hold]
  simp only [heq, if_true]
  exact hold

end ZSetOp

/-- **When results are the same bit for bit under all thresholds.** If no `Add` of a sequence gives a
member a score that is `==` to the one it has and differs in its bits, all thresholds and levels give
the same results. If one does, the score read right after it tells a packed set from a promoted
one. -/
theorem zset_bits_agree_iff {ops : List ZSetOp} (hnum : ∀ op ∈ ops, op.Number) :
    (ZSetOp.Steady ops → ∀ max max' rng rng',
      ZSetOp.results max rng ops = ZSetOp.results max' rng' ops) ∧
    (ZSetOp.Steady ops ↔ ∀ ops' member, ops' <+: ops → ∀ max max' rng rng',
      ZSetOp.results max rng (ops' ++ [.score member])
        = ZSetOp.results max' rng' (ops' ++ [.score member])) := by
  refine ⟨ZSetOp.results_eq_of_steady hnum, ?_, ?_⟩
  · rintro hsteady ops' member ⟨rest, rfl⟩
    refine ZSetOp.results_eq_of_steady ?_ ?_
    · intro op hop
      rcases List.mem_append.mp hop with hop | hop
      · exact hnum op (List.mem_append_left _ hop)
      · rw [List.mem_singleton.mp hop]
        trivial
    · exact allMeet_append.mpr ⟨(allMeet_append.mp hsteady).1, trivial, trivial⟩
  · intro hagree
    by_contra hnot
    -- the first call that gives a member the other zero
    obtain ⟨ops', op, hpre, hsteady, hswap⟩ := exists_of_not_allMeet hnot
    have hnum' : ∀ x ∈ ops' ++ [op], x.Number := fun x hx => hnum x (hpre.subset hx)
    cases op with
    | score _ | range _ _ | len => exact hswap trivial
    | add e =>
      have he : e.score.isNaN = false := hnum' (.add e) (by simp)
      have hops : ∀ x ∈ ops', x.Number := fun x hx => hnum' x (List.mem_append_left _ hx)
      obtain ⟨-, -, -, -, -, -, es, hr, hes⟩ :=
        ZSetOp.callAll_exactly hops hsteady ⟨0, 0⟩ fun _ => 0
      simp only [ZSetOp.KeepsBits, not_forall] at hswap
      obtain ⟨old, hold, heq, hne⟩ := hswap
      rw [← hes.zscore_eq] at hold
      obtain ⟨outs, hpacked⟩ := ZSetOp.results_added hops hsteady he hes ⟨es.length, 2 ^ 64⟩
        fun _ => 0
      obtain ⟨outs', hpromoted⟩ := ZSetOp.results_added hops hsteady he hes ⟨0, 0⟩ fun _ => 0
      rw [ZSetOp.zscore_zput_packed hes.1 he (ZSetOp.zpromoted_large es)] at hpacked
      rw [ZSetOp.zscore_zput_promoted hold heq
        (ZSetOp.zpromoted_zero (hes.1.zscore_eq_some.mp hold))] at hpromoted
      have hsame := hagree (ops' ++ [.add e]) e.member hpre ⟨es.length, 2 ^ 64⟩ ⟨0, 0⟩
        (fun _ => 0) fun _ => 0
      rw [hpacked, hpromoted] at hsame
      have hlast := congrArg List.getLast? (Except.ok.inj hsame)
      simp only [List.getLast?_append, List.getLast?_singleton, Option.some_or,
        Option.some.injEq, ZSetOut.score.injEq] at hlast
      exact hne hlast.symm

/-- A member gets a zero and then a one: a packed set and a promoted one say the same. -/
theorem zset_bits_agree_iff_one :
    ZSetOp.results ⟨128, 64⟩ (fun _ => 0)
        [.add ⟨ascii "m", ⟨0⟩⟩, .add ⟨ascii "m", ⟨0x3FF0000000000000⟩⟩, .score (ascii "m")]
      = ZSetOp.results ⟨0, 64⟩ (fun _ => 1)
        [.add ⟨ascii "m", ⟨0⟩⟩, .add ⟨ascii "m", ⟨0x3FF0000000000000⟩⟩, .score (ascii "m")] := by
  refine (zset_bits_agree_iff (by decide)).1 ?_ _ _ _ _
  refine ⟨fun old hold _ => ?_, fun old hold heq => ?_, trivial, trivial⟩
  · cases hold
  · simp only [ZSetOp.after, id, Finmap.lookup_insert, Option.some.injEq] at hold
    subst hold
    exact absurd heq (by decide)

/-- The scores `0` and `-0` one after the other: a packed set says `-0`, and a promoted one `0`. -/
theorem zset_zero_sign_kept :
    ZSetOp.results ⟨128, 64⟩ (fun _ => 0)
        [.add ⟨ascii "m", ⟨0⟩⟩, .add ⟨ascii "m", ⟨0x8000000000000000⟩⟩, .score (ascii "m")]
      = .ok [.isNew true, .isNew false, .score (some ⟨0x8000000000000000⟩)] ∧
    ZSetOp.results ⟨0, 64⟩ (fun _ => 0)
        [.add ⟨ascii "m", ⟨0⟩⟩, .add ⟨ascii "m", ⟨0x8000000000000000⟩⟩, .score (ascii "m")]
      = .ok [.isNew true, .isNew false, .score (some ⟨0⟩)] := by
  constructor <;> decide +kernel

end Memcore
