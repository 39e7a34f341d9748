import Memcore.Lib.GoMap
import Memcore.Value.Pack
import Memcore.Value.SkipList

/-!
# Sorted sets

`zset.go`: members with scores, packed in order while small, and a member-to-score map with a skip
list once the set crosses its thresholds. `ZSetVal.Repr z es` says that `z` holds `es`, in order.

The two encodings differ in one visible way. Setting a score to an equal one rewrites the bits in a
pack and leaves them alone after promotion, and the two zeros are equal; so `zput`, what an update
does to the members, asks whether the set is promoted. That is a property of what it holds.
-/

namespace Memcore

open Go ByteStream

/-! ## Packs of members -/

/-- `packAppendZ`. -/
def packAppendZ (buf : List UInt8) (e : ZMember) : List UInt8 :=
  packAppend buf e.member ++ putUint64 e.score.bits

/-- The loop of `scanZPairs`. -/
def scanZPairsAux {σ : Type} (fn : σ → ZMember → Result (σ × Bool)) :
    Nat → List UInt8 → σ → Result σ
  | 0, _, _ => .error .diverge
  | fuel + 1, buf, s =>
    if buf = [] then .ok s
    else
      let (n, w) := uvarint buf
      let rest := buf.drop w.toNat
      if w < 0 ∨ rest.length < n ∨ (rest.drop n).length < 8 then .error .indexOutOfRange
      else
        let score : Score := ⟨getUint64 ((rest.drop n).take 8)⟩
        match fn s ⟨Bytes.ofList (rest.take n), score⟩ with
        | .ok (s, true) => scanZPairsAux fn fuel ((rest.drop n).drop 8) s
        | .ok (s, false) => .ok s
        | .error p => .error p

/-- `scanZPairs`. -/
def scanZPairs {σ : Type} (buf : List UInt8) (fn : σ → ZMember → Result (σ × Bool)) (s : σ) :
    Result σ :=
  scanZPairsAux fn (buf.length + 1) buf s

/-- The pack that holds `es`. -/
def packOfZ (es : List ZMember) : List UInt8 :=
  es.flatMap fun e => putUvarint e.member.len ++ (e.member.data ++ putUint64 e.score.bits)

theorem packOfZ_cons (e : ZMember) (es : List ZMember) : packOfZ (e :: es)
    = putUvarint e.member.len ++ (e.member.data ++ (putUint64 e.score.bits ++ packOfZ es)) := by
  simp [packOfZ]

theorem packAppendZ_packOfZ (es : List ZMember) (e : ZMember) :
    packAppendZ (packOfZ es) e = packOfZ (es ++ [e]) := by
  simp [packAppendZ, packAppend, packOfZ]

theorem foldl_packAppendZ : ∀ (fs es : List ZMember),
    fs.foldl packAppendZ (packOfZ es) = packOfZ (es ++ fs)
  | [], es => by simp
  | f :: fs, es => by
      rw [List.foldl_cons, packAppendZ_packOfZ, foldl_packAppendZ fs]
      simp

theorem scanZPairsAux_packOfZ {σ : Type} (fn : σ → ZMember → Result (σ × Bool)) :
    ∀ (es : List ZMember) (fuel : Nat) (s : σ), (packOfZ es).length < fuel →
      scanZPairsAux fn fuel (packOfZ es) s = foldWhile fn es s
  | _, 0, _, h => absurd h (Nat.not_lt_zero _)
  | [], fuel + 1, s, _ => by simp [scanZPairsAux, packOfZ, foldWhile]
  | e :: es, fuel + 1, s, h => by
      have hpos : 0 < (putUvarint e.member.len).length :=
        List.length_pos_iff.mpr (putUvarint_ne_nil _)
      have hcons := packOfZ_cons e es
      have hne : packOfZ (e :: es) ≠ [] := by
        intro h0
        rw [hcons, List.append_eq_nil_iff] at h0
        exact putUvarint_ne_nil _ h0.1
      have hlen : (packOfZ es).length < fuel := by
        rw [hcons] at h
        simp only [List.length_append] at h
        omega
      rw [scanZPairsAux, if_neg hne, hcons, uvarint_put e.member.len_lt]
      simp only [Int.toNat_natCast, List.drop_left]
      rw [e.member.take_len_append, e.member.drop_len_append, e.member.ofList_self,
        List.take_left' (putUint64_length _), List.drop_left' (putUint64_length _),
        getUint64_putUint64, if_neg (by simp [Bytes.len]), foldWhile]
      rcases fn s e with p | ⟨s', b⟩
      · rfl
      · cases b
        · rfl
        · exact scanZPairsAux_packOfZ fn es fuel s' hlen

/-- Scanning a pack of members folds over them, and never leaves the slice. -/
theorem scanZPairs_packOfZ {σ : Type} (es : List ZMember) (fn : σ → ZMember → Result (σ × Bool))
    (s : σ) : scanZPairs (packOfZ es) fn s = foldWhile fn es s :=
  scanZPairsAux_packOfZ fn es _ s (Nat.lt_succ_self _)

/-! ## The promoted form -/

/-- `fullZSet`. -/
structure FullZSet where
  scores : GoMap Score
  order : SkipList

namespace FullZSet

/-- `newFullZSet`. -/
def new : FullZSet := ⟨∅, SkipList.new⟩

/-- `fullZSet.add`; an insertion takes the next random level. -/
def add (z : FullZSet) (e : ZMember) (rng : Rng) : Result (Bool × FullZSet × Rng) :=
  match z.scores.lookup e.member with
  | some old =>
    if !old.eq e.score then do
      let order ← z.order.delete ⟨e.member, old⟩
      let order ← order.insert e (rng 0)
      .ok (false, ⟨z.scores.insert e.member e.score, order⟩, fun n => rng (n + 1))
    else .ok (false, z, rng)
  | none => do
      let order ← z.order.insert e (rng 0)
      .ok (true, ⟨z.scores.insert e.member e.score, order⟩, fun n => rng (n + 1))

/-- `fullZSet.score`. -/
def score (z : FullZSet) (member : Bytes) : Option Score := z.scores.lookup member

/-- `fullZSet.rangeByRank`. -/
def rangeByRank (z : FullZSet) (lo hi : Nat) : Result (List ZMember) := z.order.eachInRank lo hi

/-- The map and the list hold the same members. -/
def Repr (z : FullZSet) (es : List ZMember) : Prop :=
  Lists (es.map fun e => (e.member, e.score)) z.scores ∧ z.order.Repr es

theorem Repr.lookup {z : FullZSet} {es : List ZMember} (h : z.Repr es) (ho : ZOrdered es)
    (member : Bytes) : z.scores.lookup member = zscore member es := by
  refine Option.ext fun s => ?_
  rw [ho.zscore_eq_some, ← h.1.2 member s]
  simp only [List.mem_map, Prod.mk.injEq]
  constructor
  · rintro ⟨e, he, rfl, rfl⟩
    exact he
  · intro he
    exact ⟨_, he, rfl, rfl⟩

theorem new_repr : new.Repr [] := ⟨Lists.empty, SkipList.new_repr⟩

end FullZSet

/-- What setting a score does to the members of a promoted set. -/
def zputFull (e : ZMember) (es : List ZMember) : List ZMember :=
  match zscore e.member es with
  | none => zinsert e es
  | some old => if old.eq e.score then es else zinsert e (zerase e.member es)

theorem member_notMem_zerase (member : Bytes) (es : List ZMember) :
    member ∉ (zerase member es).map ZMember.member := by
  simp [zerase]

theorem zput_map_perm {es fs : List ZMember} {e : ZMember} {m : GoMap Score}
    (hl : Lists (es.map fun e => (e.member, e.score)) m)
    (hp : fs.Perm (e :: zerase e.member es)) :
    Lists (fs.map fun e => (e.member, e.score)) (m.insert e.member e.score) := by
  have hfilter : ((es.map fun e => (e.member, e.score)).filter fun p => decide (p.1 ≠ e.member))
      = (zerase e.member es).map fun e => (e.member, e.score) := by
    rw [List.filter_map]
    rfl
  have hins : (m.erase e.member).insert e.member e.score = m.insert e.member e.score := by
    refine Finmap.ext_lookup fun k => ?_
    rw [lookup_insert_eq, lookup_insert_eq, lookup_erase_eq]
    split <;> rfl
  have h := (hfilter ▸ hl.filter e.member).append_new (Finmap.lookup_erase _ _) e.score
  rw [hins] at h
  refine h.perm ?_
  refine (List.perm_append_comm.trans ?_).trans (hp.map _).symm
  exact List.Perm.refl _

theorem zerase_eq_self {member : Bytes} {es : List ZMember}
    (h : member ∉ es.map ZMember.member) : zerase member es = es := by
  rw [zerase, List.filter_eq_self]
  intro e he
  simp only [ne_eq, decide_not, Bool.not_eq_true', decide_eq_false_iff_not]
  rintro rfl
  exact h (List.mem_map_of_mem he)

theorem zerase_split {e : ZMember} {xs ys : List ZMember}
    (h : ((xs ++ e :: ys).map ZMember.member).Nodup) : zerase e.member (xs ++ e :: ys) = xs ++ ys := by
  rw [List.map_append, List.map_cons, List.nodup_append] at h
  obtain ⟨-, h₂, h₃⟩ := h
  have hxs : zerase e.member xs = xs := zerase_eq_self fun hm =>
    h₃ _ hm _ List.mem_cons_self rfl
  have hys : zerase e.member ys = ys := zerase_eq_self (List.nodup_cons.mp h₂).1
  have happ : zerase e.member (xs ++ e :: ys) = zerase e.member xs ++ zerase e.member ys := by
    simp [zerase, List.filter_append]
  rw [happ, hxs, hys]

theorem ZOrdered.zputFull {es : List ZMember} (h : ZOrdered es) {e : ZMember}
    (hnum : e.score.isNaN = false) : ZOrdered (zputFull e es) := by
  unfold Memcore.zputFull
  cases hs : zscore e.member es with
  | none => exact h.zinsert hnum (ZOrdered.zscore_eq_none.mp hs)
  | some old =>
    simp only
    split
    · exact h
    · exact (h.zerase _).zinsert hnum (member_notMem_zerase _ _)

namespace FullZSet

theorem add_repr {z : FullZSet} {es : List ZMember} (h : z.Repr es) (ho : ZOrdered es)
    (e : ZMember) (rng : Rng) :
    ∃ z' rng', z.add e rng = .ok ((zscore e.member es).isNone, z', rng') ∧
      z'.Repr (zputFull e es) := by
  have hlook := h.lookup ho e.member
  unfold add zputFull
  cases hs : zscore e.member es with
  | none =>
    rw [hs] at hlook
    obtain ⟨order, hi, hr⟩ := SkipList.insert_repr h.2 ho e (rng 0)
    refine ⟨⟨z.scores.insert e.member e.score, order⟩, fun n => rng (n + 1), ?_, ?_, hr⟩
    · simp only [hlook, hi, bind, Except.bind, Option.isNone_none]
    · refine zput_map_perm h.1 ?_
      rw [zerase_eq_self (ZOrdered.zscore_eq_none.mp hs)]
      exact zinsert_perm e es
  | some old =>
    rw [hs] at hlook
    simp only [hlook]
    cases heq : old.eq e.score with
    | true => exact ⟨z, rng, rfl, by simpa using h⟩
    | false =>
      -- the old node is found by the score the map has for it
      obtain ⟨xs, ys, rfl⟩ := List.append_of_mem ((ho.zscore_eq_some).mp hs)
      obtain ⟨order₁, hd, hr₁⟩ := SkipList.delete_repr h.2 ho
      have herase : zerase e.member (xs ++ ⟨e.member, old⟩ :: ys) = xs ++ ys :=
        zerase_split (e := ⟨e.member, old⟩) ho.nodup
      have ho₁ : ZOrdered (xs ++ ys) := herase ▸ ho.zerase e.member
      obtain ⟨order, hi, hr⟩ := SkipList.insert_repr hr₁ ho₁ e (rng 0)
      refine ⟨⟨z.scores.insert e.member e.score, order⟩, fun n => rng (n + 1), ?_, ?_, ?_⟩
      · simp only [Bool.not_false, if_true, hd, hi, bind, Except.bind, Option.isNone_some]
      · exact zput_map_perm h.1 (zinsert_perm _ _)
      · rw [herase]
        exact hr

end FullZSet

/-! ## The sorted set -/

/-- `ZSet`: packed while `full` is nil. -/
structure ZSetVal where
  pack : List UInt8
  count : Nat
  full : Option FullZSet
  max : Thresholds

namespace ZSetVal

/-- `NewZSet`. -/
def new (max : Thresholds) : ZSetVal := ⟨[], 0, none, max⟩

/-- `ZSet.Compact`. -/
def compact (z : ZSetVal) : Bool := z.full.isNone

/-- `ZSet.Len`. -/
def len (z : ZSetVal) : Nat :=
  match z.full with
  | some f => f.scores.keys.card
  | none => z.count

/-- `sort.Slice` with `zskipLess`. -/
def sortMembers (es : List ZMember) : List ZMember := es.foldr zinsert []

/-- The callback of `compactAdd`: copy the members, with the new score under `e.member`. -/
def addStep (e : ZMember) (acc : List ZMember × Bool) (m : ZMember) :
    Result ((List ZMember × Bool) × Bool) :=
  if m.member = e.member then .ok ((acc.1 ++ [e], true), true)
  else .ok ((acc.1 ++ [m], acc.2), true)

/-- `ZSet.compactAdd`. -/
def compactAdd (z : ZSetVal) (e : ZMember) : Result (Bool × ZSetVal) := do
  let (entries, found) ← scanZPairs z.pack (addStep e) ([], false)
  let (entries, count) := if found then (entries, z.count) else (entries ++ [e], z.count + 1)
  .ok (!found, { z with pack := (sortMembers entries).foldl packAppendZ [], count })

/-- `ZSet.promote`. -/
def promote (z : ZSetVal) (rng : Rng) : Result (ZSetVal × Rng) := do
  let (f, rng) ← scanZPairs z.pack
    (fun ((f, rng) : FullZSet × Rng) m => do
      let (_, f, rng) ← f.add m rng
      .ok ((f, rng), true))
    (FullZSet.new, rng)
  .ok ({ z with full := some f, pack := [], count := 0 }, rng)

/-- `ZSet.Add`: is the member new, the set after it, and the random levels left. -/
def add (z : ZSetVal) (e : ZMember) (rng : Rng) : Result (Bool × ZSetVal × Rng) :=
  match z.full with
  | some f => do
      let (added, f, rng) ← f.add e rng
      .ok (added, { z with full := some f }, rng)
  | none => do
      let (added, z) ← z.compactAdd e
      if z.max.exceeded z.count e.member.len then
        let (z, rng) ← z.promote rng
        .ok (added, z, rng)
      else .ok (added, z, rng)

/-- `ZSet.Score`. -/
def score (z : ZSetVal) (member : Bytes) : Result (Option Score) :=
  match z.full with
  | some f => .ok (f.score member)
  | none =>
    scanZPairs z.pack
      (fun out m => if m.member = member then .ok (some m.score, false) else .ok (out, true)) none

/-- `ZSet.Range`. -/
def range (z : ZSetVal) (start stop : Int) : Result (List ZMember) :=
  match normalizeRange start stop z.len with
  | none => .ok []
  | some (lo, hi) =>
    match z.full with
    | some f => f.rangeByRank lo hi
    | none => do
        let (_, out) ← scanZPairs z.pack (rangeStep lo hi) (0, [])
        .ok out

/-! ### What it represents -/

end ZSetVal

/-- Has a set bounded by `max` that holds `es` been promoted? Members only ever come in, so this
depends on what it holds alone. -/
def zpromoted (max : Thresholds) (es : List ZMember) : Bool :=
  es.any fun e => max.exceeded es.length e.member.len

/-- What setting a score does to the members. -/
def zput (max : Thresholds) (e : ZMember) (es : List ZMember) : List ZMember :=
  if zpromoted max es then zputFull e es else zinsert e (zerase e.member es)

theorem zput_perm (max : Thresholds) (e : ZMember) {es : List ZMember} (ho : ZOrdered es) :
    ((zput max e es).map ZMember.member).Perm
      (e.member :: (zerase e.member es).map ZMember.member) := by
  have hins : ((zinsert e (zerase e.member es)).map ZMember.member).Perm
      (e.member :: (zerase e.member es).map ZMember.member) := (zinsert_perm _ _).map _
  unfold zput zputFull
  split
  · cases hs : zscore e.member es with
    | none =>
      simp only
      rw [zerase_eq_self (ZOrdered.zscore_eq_none.mp hs)] at hins ⊢
      exact hins
    | some old =>
      simp only
      split
      · obtain ⟨xs, ys, rfl⟩ := List.append_of_mem (ho.zscore_eq_some.mp hs)
        rw [zerase_split (e := ⟨e.member, old⟩) ho.nodup]
        simp only [List.map_append, List.map_cons]
        exact List.perm_middle
      · exact hins
  · exact hins

theorem ZOrdered.zput (max : Thresholds) {es : List ZMember} (h : ZOrdered es) {e : ZMember}
    (hnum : e.score.isNaN = false) : ZOrdered (zput max e es) := by
  unfold Memcore.zput
  split
  · exact h.zputFull hnum
  · exact (h.zerase _).zinsert hnum (member_notMem_zerase _ _)

namespace ZSetVal

/-- `z` holds `es`, in order. -/
def Repr (z : ZSetVal) (es : List ZMember) : Prop :=
  ZOrdered es ∧
    match z.full with
    | none => z.pack = packOfZ es ∧ z.count = es.length ∧ zpromoted z.max es = false
    | some f => f.Repr es ∧ z.pack = [] ∧ z.count = 0 ∧ zpromoted z.max es = true

theorem new_repr (max : Thresholds) : (new max).Repr [] := ⟨ZOrdered.empty, rfl, rfl, rfl⟩

theorem len_repr {z : ZSetVal} {es : List ZMember} (h : z.Repr es) : z.len = es.length := by
  obtain ⟨-, h⟩ := h
  unfold len
  cases hf : z.full with
  | none =>
    rw [hf] at h
    exact h.2.1
  | some f =>
    rw [hf] at h
    have := h.1.1.length_eq
    simpa using this.symm

theorem sortMembers_perm : ∀ es : List ZMember, (sortMembers es).Perm es
  | [] => List.Perm.refl _
  | e :: es => (zinsert_perm e _).trans ((sortMembers_perm es).cons e)

theorem sortMembers_ordered : ∀ {es : List ZMember}, (∀ e ∈ es, e.score.isNaN = false) →
    (es.map ZMember.member).Nodup → ZOrdered (sortMembers es)
  | [], _, _ => ZOrdered.empty
  | e :: es, hnum, hnd => by
      obtain ⟨hnew, hnd⟩ := List.nodup_cons.mp hnd
      refine (sortMembers_ordered (fun x hx => hnum x (List.mem_cons_of_mem _ hx)) hnd).zinsert
        (hnum e List.mem_cons_self) ?_
      rwa [((sortMembers_perm es).map _).mem_iff]

theorem foldWhile_addStep (e : ZMember) : ∀ (es out : List ZMember) (b : Bool),
    foldWhile (addStep e) es (out, b)
      = .ok (out ++ es.map (fun m => if m.member = e.member then e else m),
          b || decide (e.member ∈ es.map ZMember.member))
  | [], out, b => by simp [foldWhile]
  | m :: es, out, b => by
      rw [foldWhile, addStep]
      by_cases hm : m.member = e.member
      · simp only [if_pos hm]
        rw [foldWhile_addStep e es]
        simp [hm]
      · have hmem : decide (e.member ∈ (m :: es).map ZMember.member)
            = decide (e.member ∈ es.map ZMember.member) :=
          decide_eq_decide.mpr (List.mem_cons.trans (or_iff_right fun h => hm h.symm))
        simp only [if_neg hm]
        rw [foldWhile_addStep e es, hmem]
        simp [hm]

theorem map_replace_perm {e : ZMember} {es : List ZMember} (hnd : (es.map ZMember.member).Nodup)
    (hmem : e.member ∈ es.map ZMember.member) :
    (es.map fun m => if m.member = e.member then e else m).Perm (e :: zerase e.member es) := by
  obtain ⟨old, hold, heq⟩ := List.mem_map.mp hmem
  obtain ⟨xs, ys, rfl⟩ := List.append_of_mem hold
  have hkeep : ∀ zs : List ZMember, e.member ∉ zs.map ZMember.member →
      (zs.map fun m => if m.member = e.member then e else m) = zs := by
    intro zs hzs
    refine (List.map_congr_left fun m hm => ?_).trans (List.map_id zs)
    have hne : m.member ≠ e.member := fun h => hzs (h ▸ List.mem_map_of_mem hm)
    simp [hne]
  rw [← heq, zerase_split hnd, heq]
  rw [List.map_append, List.map_cons, List.nodup_append] at hnd
  obtain ⟨-, h₂, h₃⟩ := hnd
  rw [List.map_append, List.map_cons, if_pos heq,
    hkeep xs fun hm => h₃ _ hm _ List.mem_cons_self heq.symm,
    hkeep ys (heq ▸ (List.nodup_cons.mp h₂).1)]
  exact List.perm_middle

/-- The rebuilt pack is the members in order, the new score among them. -/
theorem compactAdd_eq {z : ZSetVal} {es : List ZMember} (ho : ZOrdered es)
    (hp : z.pack = packOfZ es) (hc : z.count = es.length) {e : ZMember}
    (hnum : e.score.isNaN = false) :
    z.compactAdd e = .ok ((zscore e.member es).isNone,
      { z with pack := packOfZ (zinsert e (zerase e.member es)),
               count := (zinsert e (zerase e.member es)).length }) := by
  have hout : ZOrdered (zinsert e (zerase e.member es)) :=
    (ho.zerase _).zinsert hnum (member_notMem_zerase _ _)
  have hscan := foldWhile_addStep e es [] false
  rw [List.nil_append, Bool.false_or] at hscan
  rw [compactAdd, hp, scanZPairs_packOfZ, hscan]
  simp only [bind, Except.bind]
  -- whatever the scan left, sorted it is the one ordered list of these members
  have hsort : ∀ fs : List ZMember, fs.Perm (e :: zerase e.member es) →
      (sortMembers fs).foldl packAppendZ [] = packOfZ (zinsert e (zerase e.member es)) ∧
        fs.length = (zinsert e (zerase e.member es)).length := by
    intro fs hperm
    have hperm' := hperm.trans (zinsert_perm e (zerase e.member es)).symm
    have hord : ZOrdered (sortMembers fs) := by
      refine sortMembers_ordered (fun x hx => hout.number x (hperm'.mem_iff.mp hx)) ?_
      exact (hperm'.map _).nodup_iff.mpr hout.nodup
    have heq := hord.eq_of_perm hout ((sortMembers_perm fs).trans hperm')
    refine ⟨?_, hperm'.length_eq⟩
    rw [heq]
    exact foldl_packAppendZ _ []
  cases hs : zscore e.member es with
  | none =>
    have hno := ZOrdered.zscore_eq_none.mp hs
    have hself := zerase_eq_self hno
    have hmap : (es.map fun m => if m.member = e.member then e else m) = es := by
      refine (List.map_congr_left fun m hm => ?_).trans (List.map_id es)
      have hne : m.member ≠ e.member := fun h => hno (h ▸ List.mem_map_of_mem hm)
      simp [hne]
    obtain ⟨h₁, h₂⟩ := hsort (es ++ [e]) (by
      rw [hself]
      exact List.perm_append_comm)
    rw [decide_eq_false hno, hmap]
    simp only [Bool.false_eq_true, if_false, h₁, Option.isNone_none, Bool.not_false]
    rw [← h₂]
    simp [hc]
  | some old =>
    have hmem : e.member ∈ es.map ZMember.member := by
      by_contra hno
      rw [ZOrdered.zscore_eq_none.mpr hno] at hs
      cases hs
    obtain ⟨h₁, h₂⟩ := hsort _ (map_replace_perm ho.nodup hmem)
    rw [decide_eq_true hmem]
    simp only [if_true, h₁, Option.isNone_some, Bool.not_true]
    rw [← h₂]
    simp [hc]

/-! ### Promotion -/

/-- Adding ordered members one after the other keeps them in order. -/
theorem zputFull_snoc {es : List ZMember} {e : ZMember} (h : ZOrdered (es ++ [e])) :
    zputFull e es = es ++ [e] := by
  have hnd := h.nodup
  rw [List.map_append, List.nodup_append] at hnd
  have hno : e.member ∉ es.map ZMember.member := fun hm => hnd.2.2 _ hm _ (by simp) rfl
  rw [zputFull, ZOrdered.zscore_eq_none.mpr hno, zinsert]
  have hless : ∀ x ∈ es, zskipLess x e = true := fun x hx =>
    (List.pairwise_append.mp h.sorted).2.2 x hx e (by simp)
  have htake : es.takeWhile (zskipLess · e) = es := List.takeWhile_eq_self_iff.mpr hless
  have hdrop : es.dropWhile (zskipLess · e) = [] := List.dropWhile_eq_nil_iff.mpr hless
  rw [htake, hdrop]

theorem foldWhile_promote : ∀ (fs : List ZMember) {es : List ZMember} {f : FullZSet} (rng : Rng),
    f.Repr es → ZOrdered (es ++ fs) →
    ∃ f' rng', foldWhile
      (fun ((f, rng) : FullZSet × Rng) m => do
        let (_, f, rng) ← f.add m rng
        .ok ((f, rng), true)) fs (f, rng) = .ok (f', rng') ∧ f'.Repr (es ++ fs)
  | [], _, f, rng, hr, _ => ⟨f, rng, rfl, by simpa using hr⟩
  | e :: fs, es, _, rng, hr, ho => by
      have hsplit : es ++ e :: fs = (es ++ [e]) ++ fs := by simp
      rw [hsplit] at ho ⊢
      have ho₁ : ZOrdered (es ++ [e]) := ho.sublist (List.sublist_append_left _ _)
      have ho₀ : ZOrdered es := ho₁.sublist (List.sublist_append_left _ _)
      obtain ⟨f₁, rng₁, ha, hr₁⟩ := FullZSet.add_repr hr ho₀ e rng
      rw [zputFull_snoc ho₁] at hr₁
      obtain ⟨f', rng', he, hr'⟩ := foldWhile_promote fs rng₁ hr₁ ho
      refine ⟨f', rng', ?_, hr'⟩
      rw [foldWhile]
      simp only [ha, bind, Except.bind]
      exact he

theorem promote_repr {z : ZSetVal} {es : List ZMember} (ho : ZOrdered es)
    (hp : z.pack = packOfZ es) (hpro : zpromoted z.max es = true) (rng : Rng) :
    ∃ z' rng', z.promote rng = .ok (z', rng') ∧ z'.Repr es ∧ z'.max = z.max := by
  obtain ⟨f, rng', hs, hr⟩ := foldWhile_promote es rng FullZSet.new_repr ho
  refine ⟨{ z with full := some f, pack := [], count := 0 }, rng', ?_, ⟨ho, hr, rfl, rfl, hpro⟩,
    rfl⟩
  rw [promote, hp, scanZPairs_packOfZ, hs]
  rfl

/-- A new member can only push the set over its thresholds. -/
theorem zpromoted_zinsert_zerase {max : Thresholds} {es : List ZMember} (e : ZMember)
    (hc : zpromoted max es = false) :
    zpromoted max (zinsert e (zerase e.member es))
      = max.exceeded (zinsert e (zerase e.member es)).length e.member.len := by
  cases hx : max.exceeded (zinsert e (zerase e.member es)).length e.member.len with
  | true =>
    rw [zpromoted, List.any_eq_true]
    exact ⟨e, mem_zinsert.mpr (Or.inl rfl), hx⟩
  | false =>
    rw [zpromoted, List.any_eq_false]
    intro x hxm
    rcases mem_zinsert.mp hxm with rfl | hxm
    · simp [hx]
    · have hxes : x ∈ es := (List.mem_filter.mp hxm).1
      have hold := List.any_eq_false.mp hc x hxes
      simp only [Thresholds.exceeded, Bool.or_eq_false_iff, decide_eq_false_iff_not,
        Bool.or_eq_true, decide_eq_true_eq, not_or] at hx hold ⊢
      exact ⟨hx.1, hold.2⟩

/-- Once promoted, a set stays over its thresholds. -/
theorem zpromoted_zputFull {max : Thresholds} {es : List ZMember} {e : ZMember} (ho : ZOrdered es)
    (hc : zpromoted max es = true) : zpromoted max (zputFull e es) = true := by
  have hperm := zput_perm max e ho
  rw [zput, if_pos hc] at hperm
  obtain ⟨x, hx, hxc⟩ := List.any_eq_true.mp hc
  -- every old member is still there, and none went
  have hle : es.length ≤ (zputFull e es).length := by
    have hlen := hperm.length_eq
    simp only [List.length_map, List.length_cons] at hlen
    have hsplit : (zerase e.member es).length + (es.filter fun m => decide (m.member = e.member)).length
        = es.length := by
      rw [zerase, Nat.add_comm]
      simpa using (List.length_eq_length_filter_add fun m : ZMember =>
        decide (m.member = e.member)).symm
    have hone : (es.filter fun m => decide (m.member = e.member)).length ≤ 1 := by
      have hnd : ((es.filter fun m => decide (m.member = e.member)).map ZMember.member).Nodup :=
        ho.nodup.sublist (List.filter_sublist.map _)
      have hrep : (es.filter fun m => decide (m.member = e.member)).map ZMember.member
          = List.replicate (es.filter fun m => decide (m.member = e.member)).length e.member := by
        refine List.eq_replicate_iff.mpr ⟨List.length_map _, fun b hb => ?_⟩
        obtain ⟨m, hm, rfl⟩ := List.mem_map.mp hb
        simpa using (List.mem_filter.mp hm).2
      rw [hrep] at hnd
      exact List.nodup_replicate.mp hnd
    omega
  have hmem : x.member ∈ (zputFull e es).map ZMember.member := by
    rw [hperm.mem_iff, List.mem_cons]
    by_cases hxe : x.member = e.member
    · exact Or.inl hxe
    · refine Or.inr (List.mem_map_of_mem (List.mem_filter.mpr ⟨hx, ?_⟩))
      simpa using hxe
  obtain ⟨y, hy, hyx⟩ := List.mem_map.mp hmem
  rw [zpromoted, List.any_eq_true]
  refine ⟨y, hy, ?_⟩
  simp only [Thresholds.exceeded, Bool.or_eq_true, decide_eq_true_eq, hyx] at hxc ⊢
  omega

/-! ### The operations -/

/-- **`Add` puts the score where `zput` says.** -/
theorem add_repr {z : ZSetVal} {es : List ZMember} (h : z.Repr es) {e : ZMember}
    (hnum : e.score.isNaN = false) (rng : Rng) :
    ∃ z' rng', z.add e rng = .ok ((zscore e.member es).isNone, z', rng') ∧
      z'.Repr (zput z.max e es) ∧ z'.max = z.max := by
  obtain ⟨ho, h⟩ := h
  unfold add
  cases hf : z.full with
  | some f =>
    rw [hf] at h
    obtain ⟨hr, hp, hc, hpro⟩ := h
    obtain ⟨f', rng', ha, hr'⟩ := FullZSet.add_repr hr ho e rng
    have hput : zput z.max e es = zputFull e es := by rw [zput, if_pos hpro]
    refine ⟨{ z with full := some f' }, rng', ?_, ⟨?_, ?_⟩, rfl⟩
    · simp only [ha, bind, Except.bind]
    · exact ho.zput z.max hnum
    · rw [hput]
      exact ⟨hr', hp, hc, zpromoted_zputFull ho hpro⟩
  | none =>
    rw [hf] at h
    obtain ⟨hp, hc, hpro⟩ := h
    have hput : zput z.max e es = zinsert e (zerase e.member es) := by
      rw [zput, hpro]
      rfl
    have hout := ho.zput z.max hnum
    have hnext := zpromoted_zinsert_zerase e hpro
    rw [hput] at hout ⊢
    simp only [compactAdd_eq ho hp hc hnum, bind, Except.bind]
    -- the compact form is given up once it has grown too large
    cases hx : z.max.exceeded (zinsert e (zerase e.member es)).length e.member.len with
    | true =>
      rw [hx] at hnext
      obtain ⟨z', rng', hpr, hr', hmax⟩ := promote_repr
        (z := { z with pack := packOfZ (zinsert e (zerase e.member es)),
                       count := (zinsert e (zerase e.member es)).length }) hout rfl hnext rng
      refine ⟨z', rng', ?_, hr', hmax⟩
      simp only [if_true, hpr]
    | false =>
      rw [hx] at hnext
      refine ⟨_, rng, rfl, ⟨hout, ?_⟩, rfl⟩
      rw [hf]
      exact ⟨rfl, rfl, hnext⟩

theorem score_repr {z : ZSetVal} {es : List ZMember} (h : z.Repr es) (member : Bytes) :
    z.score member = .ok (zscore member es) := by
  obtain ⟨ho, h⟩ := h
  unfold score
  cases hf : z.full with
  | some f =>
    rw [hf] at h
    simp only [FullZSet.score, h.1.lookup ho]
  | none =>
    rw [hf] at h
    simp only [h.1, scanZPairs_packOfZ]
    clear h ho
    induction es with
    | nil => rfl
    | cons e es ih =>
      rw [foldWhile]
      by_cases he : e.member = member
      · simp [zscore, he]
      · rw [if_neg he]
        simp only [ih]
        simp [zscore, he]

theorem range_repr {z : ZSetVal} {es : List ZMember} (h : z.Repr es) (start stop : Int) :
    z.range start stop = .ok (rangeOf start stop es) := by
  have hlen := len_repr h
  obtain ⟨-, h⟩ := h
  unfold range rangeOf
  rw [hlen]
  cases hn : normalizeRange start stop es.length with
  | none => rfl
  | some r =>
    obtain ⟨lo, hi⟩ := r
    cases hf : z.full with
    | some f =>
      rw [hf] at h
      simp only [FullZSet.rangeByRank]
      rw [SkipList.eachInRank_repr h.1.2, List.drop_take]
    | none =>
      rw [hf] at h
      have hscan := foldWhile_rangeStep lo hi es 0 [] (Nat.zero_le _)
      simp only [h.1, scanZPairs_packOfZ]
      cases hw : foldWhile (rangeStep lo hi) es (0, []) with
      | error e => rw [hw] at hscan; cases hscan
      | ok r =>
        rw [hw] at hscan
        simp only [Except.map, List.nil_append, Nat.sub_zero] at hscan
        exact hscan

end ZSetVal

end Memcore
