import Mathlib.Data.List.Perm.Subperm
import Memcore.Lib.Chain
import Memcore.Value.Score

/-!
# The skip list

The ordering index behind a promoted sorted set (`zskiplist` in `zset.go`). Nodes live in an arena
and a pointer is an index into it; the head is node 0 and carries `zskipMaxLevel` pointers. A loop
that follows pointers takes a fuel of one step per node, and the specs show it never runs out.

The invariant ties the levels together: if `ids` are the nodes in level-0 order, the chain of level
`i` visits exactly those of `ids` that are taller than `i`.
-/

namespace Memcore

open Go Linked

/-- `zskipMaxLevel`. -/
def zskipMaxLevel : Nat := 32

instance : NeZero zskipMaxLevel := ⟨by decide⟩

/-- A random height less one: `zskipRandomLevel` returns 1 to `zskipMaxLevel`. -/
abbrev Level := Fin zskipMaxLevel

/-- The levels the next calls of `zskipRandomLevel` return. -/
abbrev Rng := Nat → Level

/-- `zskiplistNode`. -/
structure SkipNode where
  entry : ZMember
  next : List (Option Nat)

/-- `zskiplist`, with its heap of nodes. -/
structure SkipList where
  nodes : List SkipNode
  level : Nat
  length : Nat

namespace SkipList

/-- `newZskiplist`. -/
def new : SkipList where
  nodes := [⟨⟨Bytes.ofList [], ⟨0⟩⟩, List.replicate zskipMaxLevel none⟩]
  level := 1
  length := 0

/-- Dereferencing a node pointer. -/
def deref (nodes : List SkipNode) (x : Nat) : Result SkipNode :=
  match nodes[x]? with
  | some n => .ok n
  | none => .error .nilDereference

/-- Reading `x.next[i]`. -/
def readNext (nodes : List SkipNode) (x i : Nat) : Result (Option Nat) := do
  let n ← deref nodes x
  match n.next[i]? with
  | some p => .ok p
  | none => .error .indexOutOfRange

/-- Writing `x.next[i] = p`. -/
def writeNext (nodes : List SkipNode) (x i : Nat) (p : Option Nat) : Result (List SkipNode) := do
  let n ← deref nodes x
  if i < n.next.length then .ok (nodes.set x { n with next := n.next.set i p })
  else .error .indexOutOfRange

/-- The inner loop of the search on level `i`: move on while the next node is before `e`. -/
def advance (nodes : List SkipNode) (i : Nat) (e : ZMember) : Nat → Nat → Result Nat
  | 0, _ => .error .diverge
  | fuel + 1, x => do
      match ← readNext nodes x i with
      | none => .ok x
      | some y =>
        let n ← deref nodes y
        if zskipLess n.entry e then advance nodes i e fuel y else .ok x

/-- The search from level `k - 1` down to 0: the nodes `update[0..k-1]` and the last one reached. -/
def search (nodes : List SkipNode) (e : ZMember) : Nat → Nat → Result (List Nat × Nat)
  | 0, x => .ok ([], x)
  | i + 1, x => do
      let x ← advance nodes i e nodes.length x
      let (update, last) ← search nodes e i x
      .ok (update ++ [x], last)

/-- The loop of `insert` that links the node `id` after `update[i]` on level `i`. -/
def linkAll (id : Nat) : List Nat → Nat → List SkipNode → Result (List SkipNode)
  | [], _, nodes => .ok nodes
  | u :: us, i, nodes => do
      let p ← readNext nodes u i
      let nodes ← writeNext nodes id i p
      let nodes ← writeNext nodes u i (some id)
      linkAll id us (i + 1) nodes

/-- `zskiplist.insert`, `level` being what `zskipRandomLevel` returned. -/
def insert (sl : SkipList) (e : ZMember) (level : Level) : Result SkipList := do
  let (update, _) ← search sl.nodes e sl.level 0
  let height := level.val + 1
  let update := update ++ List.replicate (height - sl.level) 0
  let id := sl.nodes.length
  let nodes := sl.nodes ++ [⟨e, List.replicate height none⟩]
  let nodes ← linkAll id (update.take height) 0 nodes
  .ok ⟨nodes, if sl.level < height then height else sl.level, sl.length + 1⟩

/-- The loop of `delete` that unlinks the node `x` on every level it is linked on. -/
def unlinkAll (x : Nat) : List Nat → Nat → List SkipNode → Result (List SkipNode)
  | [], _, nodes => .ok nodes
  | u :: us, i, nodes => do
      if (← readNext nodes u i) = some x then
        let p ← readNext nodes x i
        let nodes ← writeNext nodes u i p
        unlinkAll x us (i + 1) nodes
      else unlinkAll x us (i + 1) nodes

/-- The loop of `delete` that lowers the level while the top one is empty. -/
def shrink (nodes : List SkipNode) : Nat → Result Nat
  | 0 => .ok 0
  | 1 => .ok 1
  | level + 2 => do
      match ← readNext nodes 0 (level + 1) with
      | none => shrink nodes (level + 1)
      | some _ => .ok (level + 2)

/-- `zskiplist.delete`. -/
def delete (sl : SkipList) (e : ZMember) : Result SkipList := do
  let (update, last) ← search sl.nodes e sl.level 0
  match ← readNext sl.nodes last 0 with
  | none => .ok sl
  | some x =>
    let n ← deref sl.nodes x
    if n.entry.member ≠ e.member ∨ n.entry.score.eq e.score = false then .ok sl
    else
      let nodes ← unlinkAll x update 0 sl.nodes
      let level ← shrink nodes sl.level
      .ok ⟨nodes, level, sl.length - 1⟩

/-- The first loop of `eachInRank`. -/
def skip (nodes : List SkipNode) : Nat → Option Nat → Result (Option Nat)
  | 0, x => .ok x
  | _ + 1, none => .ok none
  | k + 1, some x => do
      let p ← readNext nodes x 0
      skip nodes k p

/-- The second loop of `eachInRank`, collecting what it visits. -/
def visit (nodes : List SkipNode) : Nat → Option Nat → Result (List ZMember)
  | 0, _ => .ok []
  | _ + 1, none => .ok []
  | k + 1, some x => do
      let n ← deref nodes x
      let p ← readNext nodes x 0
      let rest ← visit nodes k p
      .ok (n.entry :: rest)

/-- `zskiplist.eachInRank`, collecting what the callback is called with. -/
def eachInRank (sl : SkipList) (lo hi : Nat) : Result (List ZMember) := do
  let p ← readNext sl.nodes 0 0
  let x ← skip sl.nodes lo p
  visit sl.nodes (hi + 1 - lo) x

/-! ## The arena seen level by level -/

/-- The height of a node; 0 for a pointer to nothing. -/
def heightOf (nodes : List SkipNode) (x : Nat) : Nat :=
  match nodes[x]? with
  | some n => n.next.length
  | none => 0

/-- The pointers of level `i`. -/
def nextAt (nodes : List SkipNode) (i x : Nat) : Option Nat :=
  match nodes[x]? with
  | some n => (n.next[i]?).join
  | none => none

/-- What a node holds. -/
def entryOf (nodes : List SkipNode) (x : Nat) : Option ZMember := (nodes[x]?).map SkipNode.entry

theorem lt_length_of_heightOf {nodes : List SkipNode} {x i : Nat} (h : i < heightOf nodes x) :
    ∃ n, nodes[x]? = some n ∧ i < n.next.length := by
  unfold heightOf at h
  split at h
  · next n hn => exact ⟨n, hn, h⟩
  · exact absurd h (Nat.not_lt_zero _)

theorem readNext_eq {nodes : List SkipNode} {x i : Nat} (h : i < heightOf nodes x) :
    readNext nodes x i = .ok (nextAt nodes i x) := by
  obtain ⟨n, hn, hi⟩ := lt_length_of_heightOf h
  simp [readNext, deref, nextAt, hn, hi, bind, Except.bind]

/-- One pointer written: every height and entry stays, and so does every other pointer. -/
theorem writeNext_eq {nodes : List SkipNode} {x i : Nat} (h : i < heightOf nodes x)
    (p : Option Nat) :
    ∃ nodes', writeNext nodes x i p = .ok nodes' ∧ nodes'.length = nodes.length ∧
      (∀ y, heightOf nodes' y = heightOf nodes y) ∧ (∀ y, entryOf nodes' y = entryOf nodes y) ∧
      ∀ j y, nextAt nodes' j y = if y = x ∧ j = i then p else nextAt nodes j y := by
  obtain ⟨n, hn, hi⟩ := lt_length_of_heightOf h
  have hx : x < nodes.length := (List.getElem?_eq_some_iff.mp hn).1
  -- one field of one node is changed
  have hget : ∀ y, (nodes.set x { n with next := n.next.set i p })[y]? =
      if x = y then some { n with next := n.next.set i p } else nodes[y]? := by
    intro y
    rw [List.getElem?_set]
    simp only [hx, if_true]
  refine ⟨nodes.set x { n with next := n.next.set i p }, ?_, List.length_set, ?_, ?_, ?_⟩
  · simp [writeNext, deref, hn, hi, bind, Except.bind]
  · intro y
    simp only [heightOf, hget]
    by_cases hxy : x = y
    · subst hxy
      simp [hn]
    · simp [hxy]
  · intro y
    simp only [entryOf, hget]
    by_cases hxy : x = y
    · subst hxy
      simp [hn]
    · simp [hxy]
  · intro j y
    simp only [nextAt, hget]
    by_cases hxy : x = y
    · subst hxy
      simp only [if_true, true_and, hn]
      by_cases hij : j = i
      · subst hij
        simp [hi]
      · simp only [hij, if_false]
        rw [List.getElem?_set_ne (Ne.symm hij)]
    · simp only [hxy, if_false]
      rw [if_neg fun h => hxy h.1.symm]

/-! ## The invariant -/

/-- The nodes of `ids` that are on level `i`. -/
def onLevel (nodes : List SkipNode) (i : Nat) (ids : List Nat) : List Nat :=
  ids.filter fun x => decide (i < heightOf nodes x)

/-- The last node before the split point on level `i`. -/
def pred (nodes : List SkipNode) (before : List Nat) (i : Nat) : Nat :=
  lastFrom 0 (onLevel nodes i before)

theorem onLevel_append (nodes : List SkipNode) (i : Nat) (xs ys : List Nat) :
    onLevel nodes i (xs ++ ys) = onLevel nodes i xs ++ onLevel nodes i ys :=
  List.filter_append ..

theorem mem_onLevel {nodes : List SkipNode} {i x : Nat} {ids : List Nat} :
    x ∈ onLevel nodes i ids ↔ x ∈ ids ∧ i < heightOf nodes x := by
  simp [onLevel]

theorem onLevel_congr {nodes nodes' : List SkipNode}
    (h : ∀ y, heightOf nodes' y = heightOf nodes y) (i : Nat) (ids : List Nat) :
    onLevel nodes' i ids = onLevel nodes i ids := by
  simp only [onLevel, h]

theorem pred_congr {nodes nodes' : List SkipNode}
    (h : ∀ y, heightOf nodes' y = heightOf nodes y) (before : List Nat) :
    pred nodes' before = pred nodes before := by
  funext i
  rw [pred, onLevel_congr h, pred]

theorem pred_mem (nodes : List SkipNode) (before : List Nat) (i : Nat) :
    pred nodes before i ∈ 0 :: before :=
  List.cons_subset_cons 0 (List.filter_subset_self _) (lastFrom_mem 0 (onLevel nodes i before))

/-- The last node before the split point is on the level it was looked for on. -/
theorem lt_heightOf_pred {nodes : List SkipNode} {i : Nat}
    (h0 : heightOf nodes 0 = zskipMaxLevel) (hi : i < zskipMaxLevel) (before : List Nat) :
    i < heightOf nodes (pred nodes before i) := by
  rcases List.mem_cons.mp (lastFrom_mem 0 (onLevel nodes i before)) with h | h
  · rw [pred, h, h0]
    exact hi
  · exact (mem_onLevel.mp h).2

/-- `nodes'` is `nodes` but for pointers of level `i`. -/
structure OnlyLevel (i : Nat) (nodes nodes' : List SkipNode) : Prop where
  height : ∀ y, heightOf nodes' y = heightOf nodes y
  entry : ∀ y, entryOf nodes' y = entryOf nodes y
  next : ∀ j, j ≠ i → ∀ y, nextAt nodes' j y = nextAt nodes j y

/-- The list's nodes are `ids`, in order, holding `es`; the chain of each level visits those that
reach it. -/
structure Inv (sl : SkipList) (ids : List Nat) (es : List ZMember) : Prop where
  head : heightOf sl.nodes 0 = zskipMaxLevel
  nodup : (0 :: ids).Nodup
  entries : ids.map (entryOf sl.nodes) = es.map some
  chains : ∀ i < zskipMaxLevel, Chain (nextAt sl.nodes i) 0 (onLevel sl.nodes i ids)
  tall : ∀ x ∈ ids, 1 ≤ heightOf sl.nodes x ∧ heightOf sl.nodes x ≤ sl.level
  level : 1 ≤ sl.level ∧ sl.level ≤ zskipMaxLevel
  length : sl.length = es.length

/-- `sl` holds `es`, in order. -/
def Repr (sl : SkipList) (es : List ZMember) : Prop := ∃ ids, Inv sl ids es

theorem new_repr : new.Repr [] := by
  refine ⟨[], by decide, by simp, rfl, fun i hi => ?_, by simp, by decide, rfl⟩
  show nextAt new.nodes i 0 = none
  simp [nextAt, new, hi]

theorem Inv.lt_nodes {sl : SkipList} {ids : List Nat} {es : List ZMember} (h : Inv sl ids es)
    {x : Nat} (hx : x ∈ 0 :: ids) : x < sl.nodes.length := by
  have hpos : 0 < heightOf sl.nodes x := by
    rcases List.mem_cons.mp hx with rfl | hx
    · rw [h.head]
      decide
    · exact (h.tall x hx).1
  obtain ⟨n, hn, -⟩ := lt_length_of_heightOf hpos
  exact (List.getElem?_eq_some_iff.mp hn).1

theorem Inv.length_lt {sl : SkipList} {ids : List Nat} {es : List ZMember} (h : Inv sl ids es) :
    ids.length < sl.nodes.length := by
  have hsub : (0 :: ids) ⊆ List.range sl.nodes.length :=
    fun x hx => List.mem_range.mpr (h.lt_nodes hx)
  have hle := (List.subperm_of_subset h.nodup hsub).length_le
  rw [List.length_range, List.length_cons] at hle
  exact hle

theorem deref_of_entryOf {nodes : List SkipNode} {x : Nat} {e : ZMember}
    (h : entryOf nodes x = some e) : ∃ n, deref nodes x = .ok n ∧ n.entry = e := by
  obtain ⟨n, hn, rfl⟩ := Option.map_eq_some_iff.mp h
  exact ⟨n, by simp [deref, hn], rfl⟩

/-! ## Searching

The search compares the nodes it passes with `e` and needs nothing of the order: whatever the scores
are, it ends at one place of the list, the same on every level. -/

/-- The comparison of the search's loop: the node holds an entry before `e`. -/
def isBefore (nodes : List SkipNode) (e : ZMember) (x : Nat) : Bool :=
  (entryOf nodes x).any (zskipLess · e)

/-- The loop on one level stops after nodes before `e`, and before one that is not. -/
theorem advance_chain {nodes : List SkipNode} {i : Nat} {e : ZMember} :
    ∀ {fuel : Nat} {ys : List Nat} {x : Nat}, Chain (nextAt nodes i) x ys →
      (∀ y ∈ x :: ys, i < heightOf nodes y) → ys.length < fuel →
      ∃ ps qs, ys = ps ++ qs ∧ advance nodes i e fuel x = .ok (lastFrom x ps) ∧
        (∀ y ∈ ps, isBefore nodes e y = true) ∧ ∀ y ∈ qs.head?, isBefore nodes e y = false
  | 0, _, _, _, _, hf => absurd hf (Nat.not_lt_zero _)
  | fuel + 1, [], x, hc, hh, _ => by
      refine ⟨[], [], rfl, ?_, List.forall_mem_nil _, by simp⟩
      rw [advance, readNext_eq (hh x List.mem_cons_self), hc.head_eq]
      rfl
  | fuel + 1, y :: ys, x, hc, hh, hf => by
      obtain ⟨n, hn, -⟩ := lt_length_of_heightOf (hh y (by simp))
      have hderef : deref nodes y = .ok n := by simp [deref, hn]
      have hbefore : isBefore nodes e y = zskipLess n.entry e := by simp [isBefore, entryOf, hn]
      rw [advance, readNext_eq (hh x List.mem_cons_self), hc.1]
      simp only [bind, Except.bind, hderef]
      cases hless : zskipLess n.entry e with
      | false =>
        refine ⟨[], y :: ys, rfl, rfl, List.forall_mem_nil _, ?_⟩
        rintro z ⟨⟩
        exact hbefore.trans hless
      | true =>
        obtain ⟨ps, qs, rfl, hadv, hps, hqs⟩ := advance_chain hc.2
          (fun z hz => hh z (List.mem_cons_of_mem _ hz)) (Nat.lt_of_succ_lt_succ hf)
        refine ⟨y :: ps, qs, rfl, hadv, ?_, hqs⟩
        exact List.forall_mem_cons.mpr ⟨hbefore.trans hless, hps⟩

/-- On level `i` the walk from the end of `b` stays within `m`, when the first node after `m` is on
that level and not before `e`. -/
theorem Inv.advance_within {sl : SkipList} {es : List ZMember} {b m a : List Nat} {i : Nat}
    (h : Inv sl (b ++ (m ++ a)) es) (e : ZMember) (hi : i < zskipMaxLevel)
    (hb : b = [] ∨ i < heightOf sl.nodes (lastFrom 0 b))
    (ha : ∀ y ∈ a.head?, i < heightOf sl.nodes y ∧ isBefore sl.nodes e y = false) :
    ∃ ps qs, onLevel sl.nodes i m = ps ++ qs ∧
      advance sl.nodes i e sl.nodes.length (lastFrom 0 b) = .ok (lastFrom (lastFrom 0 b) ps) ∧
      (∀ y ∈ ps, isBefore sl.nodes e y = true) ∧ ∀ y ∈ qs.head?, isBefore sl.nodes e y = false := by
  have hlast : lastFrom 0 (onLevel sl.nodes i b) = lastFrom 0 b :=
    lastFrom_filter _ 0 (hb.imp id decide_eq_true)
  have hchain := h.chains i hi
  rw [onLevel_append] at hchain
  -- the chain of level `i` goes on behind the node where the walk starts
  have hfrom : Chain (nextAt sl.nodes i) (lastFrom 0 b) (onLevel sl.nodes i (m ++ a)) :=
    hlast ▸ hchain.drop
  have hheight : ∀ y ∈ lastFrom 0 b :: onLevel sl.nodes i (m ++ a), i < heightOf sl.nodes y := by
    refine List.forall_mem_cons.mpr ⟨?_, fun y hy => (mem_onLevel.mp hy).2⟩
    rcases hb with rfl | hb
    · rw [lastFrom_nil, h.head]
      exact hi
    · exact hb
  have hlen : (onLevel sl.nodes i (m ++ a)).length < sl.nodes.length := by
    have hle : (onLevel sl.nodes i (m ++ a)).length ≤ (m ++ a).length := List.length_filter_le ..
    have hlt := h.length_lt
    rw [List.length_append] at hlt
    omega
  obtain ⟨ps, qs, hpq, hadv, hps, hqs⟩ := advance_chain hfrom hheight hlen
  rw [onLevel_append] at hpq
  rcases List.append_eq_append_iff.mp hpq with ⟨rest, rfl, hrest⟩ | ⟨rest, hm, rfl⟩
  · -- the walk went past `m`: then it went nowhere, as the first node of `a` stops it
    cases rest with
    | nil =>
      rw [List.append_nil] at hadv hps
      exact ⟨_, [], (List.append_nil _).symm, hadv, hps, by simp⟩
    | cons y rest =>
      have hy : isBefore sl.nodes e y = true := hps y (by simp)
      cases a with
      | nil => cases hrest
      | cons c a =>
        obtain ⟨hc, hnot⟩ := ha c rfl
        have hcons : onLevel sl.nodes i (c :: a) = c :: onLevel sl.nodes i a := by
          simp [onLevel, hc]
        rw [hcons] at hrest
        obtain ⟨rfl, -⟩ := List.cons.inj hrest
        exact absurd hy (by rw [hnot]; exact Bool.false_ne_true)
  · refine ⟨ps, rest, hm, hadv, hps, fun y hy => hqs y ?_⟩
    rw [List.head?_append, Option.mem_def.mp hy]
    rfl

/-- The search below level `k`, from the end of `b` and with nothing on level `k` before the end of
`m`: it ends inside `m`, and finds on each level the last node before that place. -/
theorem Inv.search_within {sl : SkipList} {es : List ZMember} (e : ZMember) :
    ∀ (k : Nat) {b m a : List Nat}, Inv sl (b ++ (m ++ a)) es → k ≤ zskipMaxLevel →
      (∀ y ∈ m, heightOf sl.nodes y ≤ k) →
      (b = [] ∨ k ≤ heightOf sl.nodes (lastFrom 0 b) ∧
        isBefore sl.nodes e (lastFrom 0 b) = true) →
      (∀ y ∈ a.head?, k ≤ heightOf sl.nodes y ∧ isBefore sl.nodes e y = false) →
      ∃ m₁ m₂, m = m₁ ++ m₂ ∧
        search sl.nodes e k (lastFrom 0 b) = .ok ((List.range k).map (pred sl.nodes (b ++ m₁)),
          if k = 0 then lastFrom 0 b else pred sl.nodes (b ++ m₁) 0) ∧
        (b ++ m₁ = [] ∨ isBefore sl.nodes e (lastFrom 0 (b ++ m₁)) = true) ∧
        ∀ y ∈ (m₂ ++ a).head?, isBefore sl.nodes e y = false
  | 0, b, m, a, h, _, hm, hb, ha => by
      -- below level 0 there is nothing: every node has a height of at least one
      obtain rfl : m = [] := by
        refine List.eq_nil_iff_forall_not_mem.mpr fun y hy => ?_
        have htall := h.tall y (by simp [hy])
        have hlow := hm y hy
        omega
      refine ⟨[], [], rfl, rfl, ?_, fun y hy => (ha y hy).2⟩
      rw [List.append_nil]
      exact hb.imp id And.right
  | i + 1, b, m, a, h, hk, hm, hb, ha => by
      -- the walk on level `i` stops between `m₁` and `m₂`; what lies between them is lower
      obtain ⟨ps, qs, hpq, hadv, hps, hqs⟩ := h.advance_within e hk (hb.imp id And.left) ha
      obtain ⟨m₁, mid, m₂, rfl, hm₁, hmid, hm₂, hnil, hlast, hhead⟩ := filter_eq_append hpq
      have hx : lastFrom (lastFrom 0 b) ps = lastFrom 0 (b ++ m₁) := by
        rw [lastFrom_append, hlast]
      have hpson : ∀ y ∈ ps, i < heightOf sl.nodes y := fun y hy =>
        (mem_onLevel.mp (hpq ▸ List.mem_append_left _ hy)).2
      have hb' : b ++ m₁ = [] ∨ i < heightOf sl.nodes (lastFrom 0 (b ++ m₁)) ∧
          isBefore sl.nodes e (lastFrom 0 (b ++ m₁)) = true := by
        cases ps with
        | nil =>
          rw [hnil rfl, List.append_nil]
          exact hb
        | cons p ps => exact Or.inr (hx ▸ ⟨hpson _ (lastFrom_mem p ps), hps _ (lastFrom_mem p ps)⟩)
      have hinv : Inv sl ((b ++ m₁) ++ (mid ++ (m₂ ++ a))) es := by
        simpa only [List.append_assoc] using h
      have hlow : ∀ y ∈ mid, heightOf sl.nodes y ≤ i := by
        intro y hy
        have hnot := List.filter_eq_nil_iff.mp hmid y hy
        rw [decide_eq_true_eq] at hnot
        omega
      -- one level down, between the node reached and the first one not before `e`
      obtain ⟨n₁, n₂, rfl, hsearch, hbefore, hafter⟩ := Inv.search_within e i hinv
        (Nat.le_of_succ_le hk) hlow (hb'.imp id fun hlt => ⟨hlt.1.le, hlt.2⟩) (by
          intro y hy
          rw [List.head?_append, hhead] at hy
          cases qs with
          | nil =>
            obtain ⟨hc, hnot⟩ := ha y hy
            exact ⟨Nat.le_of_succ_le hc, hnot⟩
          | cons q qs =>
            have hq : q ∈ onLevel sl.nodes i _ := hpq ▸ List.mem_append_right ps List.mem_cons_self
            obtain rfl : q = y := Option.some.inj hy
            exact ⟨(mem_onLevel.mp hq).2.le, hqs q rfl⟩)
      -- the walk below moves over lower nodes only, so the predecessor on level `i` stays
      have hpred : pred sl.nodes ((b ++ m₁) ++ n₁) i = lastFrom 0 (b ++ m₁) := by
        have hnone : onLevel sl.nodes i n₁ = [] :=
          (List.append_eq_nil_iff.mp ((onLevel_append ..).symm.trans hmid)).1
        rw [pred, onLevel_append, hnone, List.append_nil]
        exact lastFrom_filter _ 0 (hb'.imp id fun hlt => decide_eq_true hlt.1)
      refine ⟨m₁ ++ n₁, n₂ ++ m₂, by simp only [List.append_assoc], ?_, ?_, ?_⟩
      · rw [search, hadv, hx]
        simp only [bind, Except.bind]
        rw [hsearch, ← List.append_assoc]
        simp only [List.range_succ, List.map_append, List.map_cons, List.map_nil, hpred]
        split
        · next h0 =>
            subst h0
            rw [if_neg (Nat.succ_ne_zero _), hpred]
        · rw [if_neg (Nat.succ_ne_zero _)]
      · rwa [← List.append_assoc]
      · rwa [List.append_assoc]

/-- Where the search for `e` ends: `before` and `after` are what it passed and what it did not. -/
structure SearchEnds (sl : SkipList) (e : ZMember) (before after : List Nat) : Prop where
  found : search sl.nodes e sl.level 0 =
    .ok ((List.range sl.level).map (pred sl.nodes before), pred sl.nodes before 0)
  last : before = [] ∨ isBefore sl.nodes e (lastFrom 0 before) = true
  next : ∀ y ∈ after.head?, isBefore sl.nodes e y = false

/-- **The search ends, and finds on every level the last node before the place where it ends.** -/
theorem Inv.search_ends {sl : SkipList} {ids : List Nat} {es : List ZMember} (h : Inv sl ids es)
    (e : ZMember) : ∃ before after, ids = before ++ after ∧ SearchEnds sl e before after := by
  have hinv : Inv sl ([] ++ (ids ++ [])) es := by rwa [List.append_nil]
  obtain ⟨before, after, hids, hsearch, hbefore, hafter⟩ := Inv.search_within e sl.level hinv
    h.level.2 (fun y hy => (h.tall y hy).2) (Or.inl rfl) (by simp)
  have hlevel : sl.level ≠ 0 := Nat.one_le_iff_ne_zero.mp h.level.1
  rw [if_neg hlevel] at hsearch
  rw [List.append_nil] at hafter
  exact ⟨before, after, hids, hsearch, hbefore, hafter⟩

/-- Where the entries split at `e`, the nodes do. -/
theorem Inv.split {sl : SkipList} {ids : List Nat} {es : List ZMember} (h : Inv sl ids es)
    {xs ys : List ZMember} (hes : es = xs ++ ys) :
    ∃ before after, ids = before ++ after ∧ before.map (entryOf sl.nodes) = xs.map some ∧
      after.map (entryOf sl.nodes) = ys.map some := by
  have hmap := h.entries
  rw [hes, List.map_append] at hmap
  exact List.map_eq_append_iff.mp hmap

theorem exists_entry {nodes : List SkipNode} {ids : List Nat} {es : List ZMember}
    (h : ids.map (entryOf nodes) = es.map some) {x : Nat} (hx : x ∈ ids) :
    ∃ e ∈ es, entryOf nodes x = some e := by
  have hmem : entryOf nodes x ∈ es.map some := h ▸ List.mem_map_of_mem hx
  obtain ⟨e, he, heq⟩ := List.mem_map.mp hmem
  exact ⟨e, he, heq.symm⟩

/-- Where every entry of `before` is before `e` and none of `after`, the search ends between. -/
theorem search_eq {sl : SkipList} {before after : List Nat} {es xs ys : List ZMember}
    (h : Inv sl (before ++ after) es) {e : ZMember}
    (hb : before.map (entryOf sl.nodes) = xs.map some)
    (ha : after.map (entryOf sl.nodes) = ys.map some)
    (hxs : ∀ v ∈ xs, zskipLess v e = true) (hys : ∀ v ∈ ys, zskipLess v e = false) :
    SearchEnds sl e before after := by
  have hbefore : ∀ y ∈ before, isBefore sl.nodes e y = true := by
    intro y hy
    obtain ⟨v, hv, hent⟩ := exists_entry hb hy
    simp [isBefore, hent, hxs v hv]
  have hafter : ∀ y ∈ after, isBefore sl.nodes e y = false := by
    intro y hy
    obtain ⟨v, hv, hent⟩ := exists_entry ha hy
    simp [isBefore, hent, hys v hv]
  obtain ⟨b, a, hids, hends⟩ := h.search_ends e
  rcases List.append_eq_append_iff.mp hids with ⟨rest, rfl, rfl⟩ | ⟨rest, rfl, rfl⟩
  · -- the search went on into `after`: its last node is not before `e`, unless it did not move
    cases rest with
    | nil => rwa [List.append_nil] at hends
    | cons y rest =>
      rcases hends.last with hnil | hlast
      · simp at hnil
      · rw [lastFrom_append] at hlast
        have hmem : lastFrom y rest ∈ y :: rest := lastFrom_mem y rest
        rw [show lastFrom (lastFrom 0 before) (y :: rest) = lastFrom y rest from rfl,
          hafter _ (List.mem_append_left _ hmem)] at hlast
        cases hlast
  · cases rest with
    | nil => rwa [List.append_nil]
    | cons y rest =>
      have hnot := hends.next y rfl
      rw [hbefore y (by simp)] at hnot
      cases hnot

/-! ## Inserting -/

/-- One round of the linking loop: on level `i` the new node follows the last one before it. -/
theorem link_level {nodes : List SkipNode} {id i : Nat} {before after : List Nat}
    (hnd : (0 :: (before ++ after)).Nodup) (hid : id ∉ 0 :: (before ++ after))
    (h0 : heightOf nodes 0 = zskipMaxLevel) (hi : i < zskipMaxLevel)
    (hheight : i < heightOf nodes id)
    (hc : Chain (nextAt nodes i) 0 (onLevel nodes i before ++ onLevel nodes i after)) :
    ∃ nodes', OnlyLevel i nodes nodes' ∧
      Chain (nextAt nodes' i) 0 (onLevel nodes i before ++ id :: onLevel nodes i after) ∧
      ∀ us, linkAll id (pred nodes before i :: us) i nodes = linkAll id us (i + 1) nodes' := by
  have hpht := lt_heightOf_pred h0 hi before
  have hpne : pred nodes before i ≠ id := fun heq =>
    hid (heq ▸ List.cons_subset_cons 0 (List.subset_append_left _ _) (pred_mem nodes before i))
  -- the two pointer writes of this level
  obtain ⟨n₁, hw₁, -, hh₁, he₁, hn₁⟩ := writeNext_eq hheight (nextAt nodes i (pred nodes before i))
  obtain ⟨n₂, hw₂, -, hh₂, he₂, hn₂⟩ := writeNext_eq (hpht.trans_eq (hh₁ _).symm) (some id)
  refine ⟨n₂, ⟨fun y => (hh₂ y).trans (hh₁ y), fun y => (he₂ y).trans (he₁ y), ?_⟩, ?_, ?_⟩
  · intro j hji y
    rw [hn₂, if_neg fun h => hji h.2, hn₁, if_neg fun h => hji h.2]
  · have hsub : (0 :: (onLevel nodes i before ++ onLevel nodes i after)).Sublist
        (0 :: (before ++ after)) := by
      rw [← onLevel_append]
      exact List.Sublist.cons_cons _ List.filter_sublist
    refine hc.link (hnd.sublist hsub) (fun hm => hid (hsub.subset hm)) ?_ ?_ ?_
    · rw [hn₂, if_neg fun h => hpne h.1.symm, hn₁, if_pos ⟨rfl, rfl⟩]
      rfl
    · rw [hn₂, if_pos ⟨rfl, rfl⟩]
    · intro y hy hyp
      rw [hn₂, if_neg fun h => hyp h.1, hn₁, if_neg fun h => hy h.1]
  · intro us
    simp only [linkAll, readNext_eq hpht, hw₁, hw₂, bind, Except.bind]

/-- The linking loop, level by level: the levels below `i` have the new node already. -/
theorem linkAll_eq {id height : Nat} {before after : List Nat} (ht : Nat → Nat)
    (hnd : (0 :: (before ++ after)).Nodup) (hid : id ∉ 0 :: (before ++ after))
    (hid' : ht id = height) (h0 : ht 0 = zskipMaxLevel) (hle : height ≤ zskipMaxLevel) :
    ∀ (k i : Nat) (nodes : List SkipNode), i + k = height → (∀ y, heightOf nodes y = ht y) →
      (∀ j < zskipMaxLevel, Chain (nextAt nodes j) 0
        (onLevel nodes j before ++ if j < i then id :: onLevel nodes j after
          else onLevel nodes j after)) →
      ∃ nodes', linkAll id ((List.range' i k).map (pred nodes before)) i nodes = .ok nodes' ∧
        (∀ y, heightOf nodes' y = ht y) ∧ (∀ y, entryOf nodes' y = entryOf nodes y) ∧
        ∀ j < zskipMaxLevel, Chain (nextAt nodes' j) 0
          (onLevel nodes j before ++ if j < height then id :: onLevel nodes j after
            else onLevel nodes j after)
  | 0, i, nodes, hk, hh, hc => by
      obtain rfl : i = height := by omega
      exact ⟨nodes, rfl, hh, fun _ => rfl, hc⟩
  | k + 1, i, nodes, hk, hh, hc => by
      -- the invariant: `id` is in the chains below `i`
      have hi : i < zskipMaxLevel := by omega
      have hci := hc i hi
      rw [if_neg (lt_irrefl i)] at hci
      obtain ⟨n₁, honly, hlinked, hround⟩ := link_level hnd hid ((hh 0).trans h0) hi
        (by rw [hh, hid']; omega) hci
      have hchains : ∀ j < zskipMaxLevel, Chain (nextAt n₁ j) 0
          (onLevel n₁ j before ++ if j < i + 1 then id :: onLevel n₁ j after
            else onLevel n₁ j after) := by
        intro j hj
        rw [onLevel_congr honly.height, onLevel_congr honly.height]
        by_cases hji : j = i
        · subst hji
          rwa [if_pos (Nat.lt_succ_self j)]
        · have hiff : j < i + 1 ↔ j < i := by omega
          simp only [hiff]
          exact (hc j hj).congr fun y _ => honly.next j hji y
      obtain ⟨n', hl, hh', he', hc'⟩ := linkAll_eq ht hnd hid hid' h0 hle k (i + 1) n₁
        (by omega) (fun y => (honly.height y).trans (hh y)) hchains
      refine ⟨n', ?_, hh', fun y => (he' y).trans (honly.entry y), ?_⟩
      · rw [List.range'_succ, List.map_cons, hround, ← hl, pred_congr honly.height]
      · simpa only [onLevel_congr honly.height] using hc'

/-- A node appended to the arena: the old nodes are as they were. -/
theorem nodes_append (nodes : List SkipNode) (n : SkipNode) :
    (∀ y < nodes.length, heightOf (nodes ++ [n]) y = heightOf nodes y ∧
      entryOf (nodes ++ [n]) y = entryOf nodes y ∧
      ∀ j, nextAt (nodes ++ [n]) j y = nextAt nodes j y) ∧
    heightOf (nodes ++ [n]) nodes.length = n.next.length ∧
    entryOf (nodes ++ [n]) nodes.length = some n.entry := by
  refine ⟨fun y hy => ?_, ?_, ?_⟩
  · simp only [heightOf, entryOf, nextAt, List.getElem?_append_left hy, implies_true, and_self]
  · simp [heightOf]
  · simp [entryOf]

/-- The pointers `update[0..height-1]` of `insert`: the search fills those below the old level, the
head stands for the rest. -/
theorem update_take {nodes : List SkipNode} {before : List Nat} {level height : Nat}
    (htall : ∀ x ∈ before, heightOf nodes x ≤ level) :
    ((List.range level).map (pred nodes before) ++ List.replicate (height - level) 0).take height
      = (List.range height).map (pred nodes before) := by
  have hzero : ∀ i, level ≤ i → pred nodes before i = 0 := by
    intro i hi
    have hnil : onLevel nodes i before = [] := by
      rw [onLevel, List.filter_eq_nil_iff]
      intro x hx
      have := htall x hx
      simp only [decide_eq_true_eq]
      omega
    rw [pred, hnil, lastFrom_nil]
  refine List.ext_getElem? fun i => ?_
  simp only [List.getElem?_take, List.getElem?_map, List.getElem?_append, List.length_map,
    List.length_range, List.getElem?_replicate]
  by_cases hih : i < height
  · by_cases hil : i < level
    · simp [hih, hil]
    · have : i - level < height - level := by omega
      simp [hih, hil, this, hzero i (by omega)]
  · simp [hih]

/-- A new node linked in between `before` and `after`: the old nodes keep their height and entry, and
the chain of every level the new one reaches passes through it. -/
theorem Inv.link {sl : SkipList} {before after : List Nat} {es : List ZMember}
    (hinv : Inv sl (before ++ after) es) (e : ZMember) (level : Level) :
    ∃ nodes', linkAll sl.nodes.length ((List.range (level.val + 1)).map (pred sl.nodes before)) 0
        (sl.nodes ++ [⟨e, List.replicate (level.val + 1) none⟩]) = .ok nodes' ∧
      (∀ y < sl.nodes.length, heightOf nodes' y = heightOf sl.nodes y ∧
        entryOf nodes' y = entryOf sl.nodes y) ∧
      heightOf nodes' sl.nodes.length = level.val + 1 ∧
      entryOf nodes' sl.nodes.length = some e ∧
      ∀ j < zskipMaxLevel,
        Chain (nextAt nodes' j) 0 (onLevel nodes' j (before ++ sl.nodes.length :: after)) := by
  obtain ⟨hold, hnew, hent⟩ := nodes_append sl.nodes ⟨e, List.replicate (level.val + 1) none⟩
  rw [List.length_replicate] at hnew
  generalize sl.nodes ++ [⟨e, List.replicate (level.val + 1) none⟩] = nodes at hold hnew hent ⊢
  have hin : ∀ y ∈ 0 :: (before ++ after), y < sl.nodes.length := fun y hy => hinv.lt_nodes hy
  -- with the new node behind them, the old ones are as they were
  have hlvl (j : Nat) : onLevel nodes j (before ++ after) = onLevel sl.nodes j (before ++ after) :=
    List.filter_congr fun y hy => by rw [(hold y (hin y (List.mem_cons_of_mem _ hy))).1]
  have hpred : pred nodes before = pred sl.nodes before := by
    funext j
    have hbefore : onLevel nodes j before = onLevel sl.nodes j before :=
      List.filter_congr fun y hy => by
        rw [(hold y (hin y (List.mem_cons_of_mem _ (List.mem_append_left _ hy)))).1]
    rw [pred, hbefore, pred]
  have hchains : ∀ j < zskipMaxLevel,
      Chain (nextAt nodes j) 0 (onLevel nodes j before ++ onLevel nodes j after) := by
    intro j hj
    rw [← onLevel_append, hlvl]
    refine (hinv.chains j hj).congr fun y hy => (hold y (hin y ?_)).2.2 j
    exact List.cons_subset_cons 0 (List.filter_subset_self _) hy
  -- linking puts the new node into the chains up to its level
  obtain ⟨nodes', hlink, hh', he', hc'⟩ := linkAll_eq (heightOf nodes) hinv.nodup
    (fun hm => lt_irrefl _ (hin _ hm)) hnew
    ((hold 0 (hin 0 List.mem_cons_self)).1.trans hinv.head) level.isLt (level.val + 1) 0 nodes
    (Nat.zero_add _) (fun _ => rfl) fun j hj => by
      rw [if_neg (Nat.not_lt_zero j)]
      exact hchains j hj
  rw [hpred, ← List.range_eq_range'] at hlink
  refine ⟨nodes', hlink, fun y hy => ?_, (hh' _).trans hnew, (he' _).trans hent, fun j hj => ?_⟩
  · rw [hh', he']
    exact ⟨(hold y hy).1, (hold y hy).2.1⟩
  · have hcj := hc' j hj
    rw [onLevel_congr hh', onLevel_append]
    convert hcj using 2
    rw [onLevel, List.filter_cons, hnew]
    by_cases hjl : j < level.val + 1 <;> simp [hjl, onLevel]

/-- `insert` links the entry in where the search for it ends. -/
theorem Inv.insert {sl : SkipList} {before after : List Nat} {es xs ys : List ZMember}
    (hinv : Inv sl (before ++ after) es) {e : ZMember} (hends : SearchEnds sl e before after)
    (hb : before.map (entryOf sl.nodes) = xs.map some)
    (ha : after.map (entryOf sl.nodes) = ys.map some) (level : Level) :
    ∃ sl', sl.insert e level = .ok sl' ∧
      Inv sl' (before ++ sl.nodes.length :: after) (xs ++ e :: ys) := by
  obtain ⟨nodes', hlink, hold, hnew, hent, hchains⟩ := hinv.link e level
  have hlevel : level.val + 1 ≤ zskipMaxLevel := level.isLt
  have hlev := hinv.level
  have hin : ∀ y ∈ 0 :: (before ++ after), y < sl.nodes.length := fun y hy => hinv.lt_nodes hy
  -- the nodes that were there keep their entries
  have hkeep : ∀ ids : List Nat, ids ⊆ before ++ after →
      ids.map (entryOf nodes') = ids.map (entryOf sl.nodes) := fun ids hids =>
    List.map_congr_left fun y hy => (hold y (hin y (List.mem_cons_of_mem _ (hids hy)))).2
  refine ⟨⟨nodes', if sl.level < level.val + 1 then level.val + 1 else sl.level, sl.length + 1⟩,
    ?_, ?_, ?_, ?_, hchains, ?_, ?_, ?_⟩
  · have hup := @update_take _ before sl.level (level.val + 1)
      fun x hx => (hinv.tall x (List.mem_append_left _ hx)).2
    simp only [SkipList.insert, hends.found, bind, Except.bind, hup, hlink]
  · exact (hold 0 (hin 0 List.mem_cons_self)).1.trans hinv.head
  -- the new node has an index of its own
  · have hperm : (0 :: (before ++ sl.nodes.length :: after)).Perm
        (sl.nodes.length :: 0 :: (before ++ after)) :=
      (List.perm_middle.cons 0).trans (List.Perm.swap _ _ _)
    exact hperm.nodup_iff.mpr (List.nodup_cons.mpr ⟨fun hm => lt_irrefl _ (hin _ hm), hinv.nodup⟩)
  · show (before ++ sl.nodes.length :: after).map (entryOf nodes') = (xs ++ e :: ys).map some
    rw [List.map_append, List.map_append, List.map_cons, List.map_cons, hent,
      hkeep before (List.subset_append_left _ _), hkeep after (List.subset_append_right _ _), hb, ha]
  · intro x hx
    show 1 ≤ heightOf nodes' x ∧ heightOf nodes' x ≤
      if sl.level < level.val + 1 then level.val + 1 else sl.level
    by_cases hxid : x = sl.nodes.length
    · rw [hxid, hnew]
      split <;> omega
    · have hxold : x ∈ before ++ after := by
        simp only [List.mem_append, List.mem_cons, hxid, false_or] at hx ⊢
        exact hx
      have htall := hinv.tall x hxold
      rw [(hold x (hin x (List.mem_cons_of_mem _ hxold))).1]
      split <;> omega
  · show 1 ≤ (if sl.level < level.val + 1 then level.val + 1 else sl.level) ∧
      (if sl.level < level.val + 1 then level.val + 1 else sl.level) ≤ zskipMaxLevel
    split <;> omega
  · show sl.length + 1 = (xs ++ e :: ys).length
    have hmap := congrArg List.length hinv.entries
    have hxs := congrArg List.length hb
    have hys := congrArg List.length ha
    simp only [List.length_map, List.length_append] at hmap hxs hys
    rw [hinv.length, List.length_append, List.length_cons]
    omega

/-- **`insert` puts the entry where the order wants it.** -/
theorem insert_repr {sl : SkipList} {es : List ZMember} (h : sl.Repr es) (ho : ZOrdered es)
    (e : ZMember) (level : Level) :
    ∃ sl', sl.insert e level = .ok sl' ∧ sl'.Repr (zinsert e es) := by
  obtain ⟨ids, hinv⟩ := h
  obtain ⟨before, after, rfl, hb, ha⟩ :=
    hinv.split (List.takeWhile_append_dropWhile (p := (zskipLess · e)) (l := es)).symm
  have hends := search_eq hinv hb ha
    (fun v hv => List.mem_takeWhile_imp (p := (zskipLess · e)) hv) (ho.dropWhile_not_less e)
  obtain ⟨sl', hinsert, hinv'⟩ := hinv.insert hends hb ha level
  exact ⟨sl', hinsert, _, hinv'⟩

/-- `insert` succeeds whatever the scores are. -/
theorem insert_total {sl : SkipList} {es : List ZMember} (h : sl.Repr es) (e : ZMember)
    (level : Level) : ∃ sl' es', sl.insert e level = .ok sl' ∧ sl'.Repr es' := by
  obtain ⟨ids, hinv⟩ := h
  obtain ⟨before, after, rfl, hends⟩ := hinv.search_ends e
  obtain ⟨xs, ys, -, hb, ha⟩ := List.map_eq_append_iff.mp
    (hinv.entries.symm.trans List.map_append)
  obtain ⟨sl', hinsert, hinv'⟩ := hinv.insert hends hb.symm ha.symm level
  exact ⟨sl', _, hinsert, _, hinv'⟩

/-! ## Deleting -/

/-- One round of the unlinking loop: on level `i` the node `x` is gone, if it was there. -/
theorem unlink_level {nodes : List SkipNode} {x i : Nat} {before after : List Nat}
    (hnd : (0 :: (before ++ x :: after)).Nodup) (h0 : heightOf nodes 0 = zskipMaxLevel)
    (hi : i < zskipMaxLevel)
    (hc : Chain (nextAt nodes i) 0 (onLevel nodes i before ++ onLevel nodes i (x :: after))) :
    ∃ nodes', OnlyLevel i nodes nodes' ∧
      Chain (nextAt nodes' i) 0 (onLevel nodes i before ++ onLevel nodes i after) ∧
      ∀ us, unlinkAll x (pred nodes before i :: us) i nodes = unlinkAll x us (i + 1) nodes' := by
  have hpht := lt_heightOf_pred h0 hi before
  have hnext : nextAt nodes i (pred nodes before i) = (onLevel nodes i (x :: after)).head? :=
    hc.next_lastFrom
  by_cases hxi : i < heightOf nodes x
  -- `x` is on this level: its predecessor is led past it
  · have hcons : onLevel nodes i (x :: after) = x :: onLevel nodes i after := by
      simp [onLevel, hxi]
    rw [hcons] at hc hnext
    obtain ⟨n₁, hw, -, hh₁, he₁, hn₁⟩ := writeNext_eq hpht (nextAt nodes i x)
    refine ⟨n₁, ⟨hh₁, he₁, fun j hji y => ?_⟩, ?_, fun us => ?_⟩
    · rw [hn₁, if_neg fun h => hji h.2]
    · have hsub : (0 :: (onLevel nodes i before ++ x :: onLevel nodes i after)).Sublist
          (0 :: (before ++ x :: after)) := by
        rw [← hcons, ← onLevel_append]
        exact List.Sublist.cons_cons _ List.filter_sublist
      refine hc.unlink (hnd.sublist hsub) ?_ fun y hy => ?_
      · rw [hn₁, if_pos ⟨rfl, rfl⟩]
      · rw [hn₁, if_neg fun h => hy h.1]
    · simp only [unlinkAll, readNext_eq hpht, readNext_eq hxi, hnext, List.head?_cons, hw, bind,
        Except.bind, if_true]
  -- it is not, and nothing is written
  · have hcons : onLevel nodes i (x :: after) = onLevel nodes i after := by
      simp [onLevel, hxi]
    rw [hcons] at hc hnext
    have hxa : x ∉ after :=
      (List.nodup_cons.mp (List.nodup_append.mp (List.nodup_cons.mp hnd).2).2.1).1
    have hne : nextAt nodes i (pred nodes before i) ≠ some x := by
      rw [hnext]
      intro hhead
      exact hxa (mem_onLevel.mp (List.mem_of_mem_head? hhead)).1
    refine ⟨nodes, ⟨fun _ => rfl, fun _ => rfl, fun _ _ _ => rfl⟩, hc, fun us => ?_⟩
    simp only [unlinkAll, readNext_eq hpht, bind, Except.bind, if_neg hne]

/-- The unlinking loop, level by level: the levels below `i` have lost the node `x`. -/
theorem unlinkAll_eq {x : Nat} {before after : List Nat} (ht : Nat → Nat)
    (hnd : (0 :: (before ++ x :: after)).Nodup) (h0 : ht 0 = zskipMaxLevel) :
    ∀ (k i : Nat) (nodes : List SkipNode), i + k ≤ zskipMaxLevel →
      (∀ y, heightOf nodes y = ht y) →
      (∀ j < zskipMaxLevel, Chain (nextAt nodes j) 0
        (onLevel nodes j before ++ onLevel nodes j (if j < i then after else x :: after))) →
      ∃ nodes', unlinkAll x ((List.range' i k).map (pred nodes before)) i nodes = .ok nodes' ∧
        (∀ y, heightOf nodes' y = ht y) ∧ (∀ y, entryOf nodes' y = entryOf nodes y) ∧
        ∀ j < zskipMaxLevel, Chain (nextAt nodes' j) 0
          (onLevel nodes j before ++ onLevel nodes j (if j < i + k then after else x :: after))
  | 0, _, nodes, _, hh, hc => ⟨nodes, rfl, hh, fun _ => rfl, hc⟩
  | k + 1, i, nodes, hk, hh, hc => by
      have hi : i < zskipMaxLevel := by omega
      have hci := hc i hi
      rw [if_neg (lt_irrefl i)] at hci
      obtain ⟨n₁, honly, hunlinked, hround⟩ := unlink_level hnd ((hh 0).trans h0) hi hci
      have hchains : ∀ j < zskipMaxLevel, Chain (nextAt n₁ j) 0
          (onLevel n₁ j before ++ onLevel n₁ j (if j < i + 1 then after else x :: after)) := by
        intro j hj
        rw [onLevel_congr honly.height, onLevel_congr honly.height]
        by_cases hji : j = i
        · subst hji
          rwa [if_pos (Nat.lt_succ_self j)]
        · have hiff : j < i + 1 ↔ j < i := by omega
          simp only [hiff]
          exact (hc j hj).congr fun y _ => honly.next j hji y
      obtain ⟨n', hl, hh', he', hc'⟩ := unlinkAll_eq ht hnd h0 k (i + 1) n₁ (by omega)
        (fun y => (honly.height y).trans (hh y)) hchains
      refine ⟨n', ?_, hh', fun y => (he' y).trans (honly.entry y), fun j hj => ?_⟩
      · rw [List.range'_succ, List.map_cons, hround, ← hl, pred_congr honly.height]
      · have hcj := hc' j hj
        rwa [onLevel_congr honly.height, onLevel_congr honly.height,
          show i + 1 + k = i + (k + 1) by omega] at hcj

/-- Lowering the level drops empty levels only. -/
theorem shrink_eq {nodes : List SkipNode} {ids : List Nat} (h0 : heightOf nodes 0 = zskipMaxLevel)
    (hc : ∀ i < zskipMaxLevel, Chain (nextAt nodes i) 0 (onLevel nodes i ids)) :
    ∀ level, 1 ≤ level → level ≤ zskipMaxLevel → (∀ x ∈ ids, heightOf nodes x ≤ level) →
      ∃ level', shrink nodes level = .ok level' ∧ 1 ≤ level' ∧ level' ≤ zskipMaxLevel ∧
        ∀ x ∈ ids, heightOf nodes x ≤ level'
  | 0, h, _, _ => absurd h (by decide)
  | 1, h, hl, ht => ⟨1, rfl, h, hl, ht⟩
  | level + 2, h, hl, ht => by
      have hi : level + 1 < zskipMaxLevel := hl
      rw [shrink, readNext_eq (by rw [h0]; exact hi)]
      simp only [bind, Except.bind]
      cases hn : nextAt nodes (level + 1) 0 with
      | some y => exact ⟨level + 2, rfl, h, hl, ht⟩
      | none =>
        refine shrink_eq h0 hc (level + 1) (by omega) (by omega) fun x hx => ?_
        have hnil : onLevel nodes (level + 1) ids = [] := by
          rw [(hc _ hi).head_eq, List.head?_eq_none_iff] at hn
          exact hn
        by_contra hgt
        have hmem : x ∈ onLevel nodes (level + 1) ids := mem_onLevel.mpr ⟨hx, by omega⟩
        rw [hnil] at hmem
        exact absurd hmem (by simp)

/-- Every node is on the lowest level. -/
theorem Inv.onLevel_zero {sl : SkipList} {ids : List Nat} {es : List ZMember} (h : Inv sl ids es) :
    onLevel sl.nodes 0 ids = ids :=
  List.filter_eq_self.mpr fun y hy => decide_eq_true (h.tall y hy).1

/-- On the lowest level the node before the split points to the node after it. -/
theorem Inv.next_pred {sl : SkipList} {es : List ZMember} (before after : List Nat)
    (hinv : Inv sl (before ++ after) es) : 0 < heightOf sl.nodes (pred sl.nodes before 0) ∧
      nextAt sl.nodes 0 (pred sl.nodes before 0) = after.head? := by
  constructor
  · exact lt_heightOf_pred hinv.head (by decide) before
  · have hall : onLevel sl.nodes 0 after = after := List.filter_eq_self.mpr fun y hy =>
      decide_eq_true (hinv.tall y (List.mem_append_right _ hy)).1
    have hc := hinv.chains 0 (by decide)
    rw [onLevel_append, hall] at hc
    exact hc.next_lastFrom

/-- `delete` unlinks the node where the search ends, when it holds the member and the score. -/
theorem Inv.delete {sl : SkipList} {before after : List Nat} {x : Nat} {xs ys : List ZMember}
    {e v : ZMember} (hinv : Inv sl (before ++ x :: after) (xs ++ v :: ys))
    (hends : SearchEnds sl e before (x :: after))
    (hb : before.map (entryOf sl.nodes) = xs.map some)
    (hxe : entryOf sl.nodes x = some v) (ha : after.map (entryOf sl.nodes) = ys.map some)
    (hmember : v.member = e.member) (hscore : v.score.eq e.score = true) :
    ∃ sl', sl.delete e = .ok sl' ∧ Inv sl' (before ++ after) (xs ++ ys) ∧
      ∀ y, heightOf sl'.nodes y = heightOf sl.nodes y := by
  obtain ⟨hp0, hnext⟩ := hinv.next_pred before (x :: after)
  rw [List.head?_cons] at hnext
  obtain ⟨n, hn, hne⟩ := deref_of_entryOf hxe
  -- unlinking keeps heights and entries and takes `x` out of every chain
  obtain ⟨nodes', hun, hh', he', hc'⟩ := unlinkAll_eq (heightOf sl.nodes) hinv.nodup
    hinv.head sl.level 0 sl.nodes (by have := hinv.level.2; omega) (fun _ => rfl) (by
      intro j hj
      rw [if_neg (Nat.not_lt_zero j), ← onLevel_append]
      exact hinv.chains j hj)
  have hmem : ∀ y ∈ before ++ after, y ∈ before ++ x :: after := by
    intro y hy
    simp only [List.mem_append, List.mem_cons] at hy ⊢
    exact hy.imp id Or.inr
  have hchains : ∀ j < zskipMaxLevel,
      Chain (nextAt nodes' j) 0 (onLevel nodes' j (before ++ after)) := by
    intro j hj
    have hcj := hc' j hj
    rw [onLevel_congr hh', onLevel_append]
    by_cases hjl : j < 0 + sl.level
    · rwa [if_pos hjl] at hcj
    · -- above the list's level there was nothing to unlink
      have hxj : onLevel sl.nodes j (x :: after) = onLevel sl.nodes j after := by
        have := (hinv.tall x (List.mem_append_right _ List.mem_cons_self)).2
        have hnot : ¬ j < heightOf sl.nodes x := by omega
        simp [onLevel, hnot]
      rwa [if_neg hjl, hxj] at hcj
  -- the level goes down as far as the head has no successor
  obtain ⟨level', hshrink, hl1, hl2, hl3⟩ := shrink_eq ((hh' 0).trans hinv.head) hchains
    sl.level hinv.level.1 hinv.level.2 fun y hy => by
      rw [hh']
      exact (hinv.tall y (hmem y hy)).2
  refine ⟨⟨nodes', level', sl.length - 1⟩, ?_, ?_, hh'⟩
  · rw [← List.range_eq_range'] at hun
    simp only [SkipList.delete, hends.found, bind, Except.bind, readNext_eq hp0, hnext, hn, hne,
      hmember, hscore, hun, hshrink]
    simp
  · refine ⟨(hh' 0).trans hinv.head, ?_, ?_, hchains, ?_, ⟨hl1, hl2⟩, ?_⟩
    · refine hinv.nodup.sublist (List.Sublist.cons_cons _ ?_)
      exact List.Sublist.append_left (List.sublist_cons_self _ _) _
    · show (before ++ after).map (entryOf nodes') = _
      rw [List.map_congr_left fun y _ => he' y, List.map_append, hb, ha, List.map_append]
    · intro y hy
      show 1 ≤ heightOf nodes' y ∧ heightOf nodes' y ≤ level'
      refine ⟨?_, hl3 y hy⟩
      rw [hh']
      exact (hinv.tall y (hmem y hy)).1
    · show sl.length - 1 = _
      rw [hinv.length]
      simp

/-- Asked for an entry that is there, by an equal score, `delete` finds its node and unlinks it. -/
theorem Inv.delete_present {sl : SkipList} {ids : List Nat} {xs ys : List ZMember} {e v : ZMember}
    (hinv : Inv sl ids (xs ++ v :: ys)) (ho : ZOrdered (xs ++ v :: ys))
    (hmember : v.member = e.member) (hscore : v.score.eq e.score = true) :
    ∃ before x after sl', ids = before ++ x :: after ∧ entryOf sl.nodes x = some v ∧
      sl.delete e = .ok sl' ∧ Inv sl' (before ++ after) (xs ++ ys) ∧
      ∀ y, heightOf sl'.nodes y = heightOf sl.nodes y := by
  obtain ⟨before, rest, rfl, hb, hr⟩ := hinv.split rfl
  have hsorted := List.pairwise_append.mp ho.sorted
  have hbefore : ∀ u ∈ xs, zskipLess u e = true := by
    intro u hu
    rw [zskipLess_congr_right hmember hscore]
    exact hsorted.2.2 u hu v List.mem_cons_self
  have hnot : ∀ u ∈ v :: ys, zskipLess u e = false := by
    intro u hu
    rw [zskipLess_congr_right hmember hscore]
    rcases List.mem_cons.mp hu with rfl | hu
    · exact zskipLess_irrefl _
    · exact zskipLess_asymm ((List.pairwise_cons.mp hsorted.2.1).1 u hu)
  have hends := search_eq hinv hb hr hbefore hnot
  cases rest with
  | nil => simp at hr
  | cons x after =>
    obtain ⟨hxv, ha⟩ := List.cons.inj hr
    obtain ⟨sl', hdelete, hinv', hheight⟩ := hinv.delete hends hb hxv ha hmember hscore
    exact ⟨before, x, after, sl', rfl, hxv, hdelete, hinv', hheight⟩

/-- **`delete` takes out an entry that is there.** -/
theorem delete_repr {sl : SkipList} {xs ys : List ZMember} {e : ZMember}
    (h : sl.Repr (xs ++ e :: ys)) (ho : ZOrdered (xs ++ e :: ys)) :
    ∃ sl', sl.delete e = .ok sl' ∧ sl'.Repr (xs ++ ys) := by
  obtain ⟨ids, hinv⟩ := h
  have hnum : e.score.isNaN = false := ho.number e (by simp)
  obtain ⟨before, x, after, sl', -, -, hdelete, hinv', -⟩ :=
    hinv.delete_present ho rfl (by simp [Score.eq, hnum])
  exact ⟨sl', hdelete, _, hinv'⟩

/-- `delete` succeeds whatever the scores are, found or not. -/
theorem delete_total {sl : SkipList} {es : List ZMember} (h : sl.Repr es) (e : ZMember) :
    ∃ sl' es', sl.delete e = .ok sl' ∧ sl'.Repr es' := by
  obtain ⟨ids, hinv⟩ := h
  obtain ⟨before, after, rfl, hends⟩ := hinv.search_ends e
  have hnext := hinv.next_pred before after
  cases after with
  | nil =>
    refine ⟨sl, es, ?_, _, hinv⟩
    simp only [SkipList.delete, hends.found, bind, Except.bind, readNext_eq hnext.1, hnext.2,
      List.head?_nil]
  | cons x after =>
    obtain ⟨xs, rest, rfl, hb, hr⟩ := List.map_eq_append_iff.mp
      (hinv.entries.symm.trans List.map_append)
    cases rest with
    | nil => simp at hr
    | cons v ys =>
      obtain ⟨hxe, ha⟩ := List.cons.inj hr.symm
      by_cases hsame : v.member = e.member ∧ v.score.eq e.score = true
      · obtain ⟨sl', hdelete, hinv', -⟩ :=
          hinv.delete hends hb.symm hxe ha hsame.1 hsame.2
        exact ⟨sl', _, hdelete, _, hinv'⟩
      · obtain ⟨n, hn, rfl⟩ := deref_of_entryOf hxe
        refine ⟨sl, _, ?_, _, hinv⟩
        have hother : n.entry.member ≠ e.member ∨ n.entry.score.eq e.score = false := by
          rwa [not_and_or, Bool.not_eq_true] at hsame
        simp only [SkipList.delete, hends.found, bind, Except.bind, readNext_eq hnext.1,
          hnext.2, List.head?_cons, hn, if_pos hother]

/-! ## Ranks -/

theorem skip_chain {nodes : List SkipNode} : ∀ (k : Nat) {xs : List Nat} {x : Nat},
    Chain (nextAt nodes 0) x xs → (∀ y ∈ xs, 0 < heightOf nodes y) →
    skip nodes k xs.head? = .ok (xs.drop k).head? ∧
      (∀ p ∈ (xs.drop k).head?, Chain (nextAt nodes 0) p (xs.drop k).tail)
  | 0, xs, x, hc, _ => by
      refine ⟨rfl, ?_⟩
      cases xs with
      | nil => simp
      | cons y ys =>
        rintro p ⟨⟩
        exact hc.2
  | k + 1, [], _, _, _ => ⟨rfl, by simp⟩
  | k + 1, y :: ys, x, hc, hh => by
      have hread := readNext_eq (hh y List.mem_cons_self)
      have ih := skip_chain k hc.2 fun z hz => hh z (List.mem_cons_of_mem _ hz)
      refine ⟨?_, ih.2⟩
      rw [List.head?_cons, skip, hread, hc.2.head_eq]
      exact ih.1

theorem visit_chain {nodes : List SkipNode} : ∀ (k : Nat) {xs : List Nat} {es : List ZMember},
    xs.map (entryOf nodes) = es.map some → (∀ y ∈ xs, 0 < heightOf nodes y) →
    (∀ p ∈ xs.head?, Chain (nextAt nodes 0) p xs.tail) →
    visit nodes k xs.head? = .ok (es.take k)
  | 0, _, _, _, _, _ => rfl
  | k + 1, [], es, he, _, _ => by
      obtain rfl : es = [] := by simpa using he.symm
      rfl
  | k + 1, y :: ys, [], he, _, _ => by simp at he
  | k + 1, y :: ys, e :: es, he, hh, hc => by
      obtain ⟨hy, hys⟩ := List.cons.inj he
      obtain ⟨n, hn, rfl⟩ := deref_of_entryOf hy
      have hcy : Chain (nextAt nodes 0) y ys := hc y rfl
      have ih := visit_chain k hys (fun z hz => hh z (List.mem_cons_of_mem _ hz)) (by
        intro p hp
        cases ys with
        | nil => exact absurd hp (by simp)
        | cons z zs =>
          cases hp
          exact hcy.2)
      rw [List.head?_cons, visit, readNext_eq (hh y List.mem_cons_self), hcy.head_eq]
      simp only [bind, Except.bind, hn, ih, List.take_succ_cons]

/-- **`eachInRank` visits the entries of the ranks asked for.** -/
theorem eachInRank_repr {sl : SkipList} {es : List ZMember} (h : sl.Repr es) (lo hi : Nat) :
    sl.eachInRank lo hi = .ok ((es.drop lo).take (hi + 1 - lo)) := by
  obtain ⟨ids, hinv⟩ := h
  have hall : onLevel sl.nodes 0 ids = ids :=
    List.filter_eq_self.mpr fun x hx => decide_eq_true (hinv.tall x hx).1
  have hc := hinv.chains 0 (by decide)
  rw [hall] at hc
  have hh : ∀ y ∈ ids, 0 < heightOf sl.nodes y := fun y hy => (hinv.tall y hy).1
  have hskip := skip_chain lo hc hh
  have hread : readNext sl.nodes 0 0 = .ok ids.head? := by
    rw [readNext_eq (by rw [hinv.head]; decide), hc.head_eq]
  have hents : (ids.drop lo).map (entryOf sl.nodes) = (es.drop lo).map some := by
    rw [List.map_drop, List.map_drop, hinv.entries]
  simp only [eachInRank, hread, bind, Except.bind, hskip.1]
  exact visit_chain _ hents (fun y hy => hh y (List.mem_of_mem_drop hy)) hskip.2

end SkipList

end Memcore
