import Memcore.Lib.Go

/-!
# Doubly-linked segments in a heap of nodes

A heap is a list of nodes, a pointer an index into it. `DSeg h p ids vs q` says that the nodes
`ids`, in this order, form a doubly-linked segment carrying the values `vs`: each points back to
the one before it (the first to `p`) and forward to the one after it (the last to `q`).

A segment splits at any point (`dseg_append`), so operations at both ends reduce to the node they
touch, and it does not see changes to nodes outside it (`DSeg.frame`).
-/

namespace DList

/-- A list node; `none` is the nil pointer. -/
structure Node (α : Type) where
  value : α
  prev : Option Nat
  next : Option Nat
  deriving DecidableEq

variable {α : Type}

/-- Follow a pointer. -/
def deref (h : List (Node α)) : Option Nat → Go.Result (Node α)
  | none => .error .nilDereference
  | some i => Go.index h i

/-- The nodes `ids` form a segment with values `vs`, between `p` and `q`. -/
def DSeg (h : List (Node α)) : Option Nat → List Nat → List α → Option Nat → Prop
  | _, [], [], _ => True
  | p, i :: is, v :: vs, q => h[i]? = some ⟨v, p, is.head?.or q⟩ ∧ DSeg h (some i) is vs q
  | _, _, _, _ => False

theorem deref_some {h : List (Node α)} {i : Nat} {n : Node α} (hn : h[i]? = some n) :
    deref h (some i) = .ok n := by
  simp [deref, Go.index, hn]

theorem DSeg.length_eq {h : List (Node α)} :
    ∀ {p ids vs q}, DSeg h p ids vs q → ids.length = vs.length
  | _, [], [], _, _ => rfl
  | _, _ :: _, _ :: _, _, hs => by
      simp only [List.length_cons, hs.2.length_eq]
  | _, [], _ :: _, _, hs => absurd hs (by simp [DSeg])
  | _, _ :: _, [], _, hs => absurd hs (by simp [DSeg])

theorem DSeg.lt_length {h : List (Node α)} :
    ∀ {p ids vs q}, DSeg h p ids vs q → ∀ i ∈ ids, i < h.length
  | _, [], _, _, _, i, hi => by simp at hi
  | _, j :: is, _ :: _, _, hs, i, hi => by
      rcases List.mem_cons.mp hi with rfl | hi
      · obtain ⟨hlt, -⟩ := List.getElem?_eq_some_iff.mp hs.1
        exact hlt
      · exact hs.2.lt_length i hi
  | _, _ :: _, [], _, hs, _, _ => absurd hs (by simp [DSeg])

/-- Nodes outside the segment may change. -/
theorem DSeg.frame {h h' : List (Node α)} :
    ∀ {p ids vs q}, DSeg h p ids vs q → (∀ i ∈ ids, h'[i]? = h[i]?) → DSeg h' p ids vs q
  | _, [], [], _, _, _ => trivial
  | _, i :: is, v :: vs, _, hs, hf => by
      refine ⟨?_, hs.2.frame fun j hj => hf j (List.mem_cons_of_mem _ hj)⟩
      rw [hf i List.mem_cons_self]
      exact hs.1
  | _, [], _ :: _, _, hs, _ => absurd hs (by simp [DSeg])
  | _, _ :: _, [], _, hs, _ => absurd hs (by simp [DSeg])

/-- A segment splits into the part before a node and the part from it on. -/
theorem dseg_append {h : List (Node α)} {ids₂ : List Nat} {vs₂ : List α} {q : Option Nat} :
    ∀ {p ids₁ vs₁}, ids₁.length = vs₁.length →
      (DSeg h p (ids₁ ++ ids₂) (vs₁ ++ vs₂) q ↔
        DSeg h p ids₁ vs₁ (ids₂.head?.or q) ∧ DSeg h (ids₁.getLast?.or p) ids₂ vs₂ q)
  | p, [], [], _ => by simp [DSeg]
  | p, i :: is, v :: vs, hl => by
      have hl' : is.length = vs.length := by simpa using hl
      have ih := @dseg_append h ids₂ vs₂ q (some i) is vs hl'
      have hlast : (i :: is).getLast?.or p = is.getLast?.or (some i) := by
        rw [List.getLast?_cons]
        cases is.getLast? <;> rfl
      have hhead : (is ++ ids₂).head?.or q = is.head?.or (ids₂.head?.or q) := by
        cases is <;> simp
      simp only [List.cons_append, DSeg, ih, hlast, hhead, and_assoc]

/-- The last node of a segment, on its own. -/
theorem dseg_snoc {h : List (Node α)} {p q : Option Nat} {ids : List Nat} {vs : List α} {t : Nat}
    {v : α} (hl : ids.length = vs.length) :
    DSeg h p (ids ++ [t]) (vs ++ [v]) q ↔
      DSeg h p ids vs (some t) ∧ h[t]? = some ⟨v, ids.getLast?.or p, q⟩ := by
  rw [dseg_append hl]
  simp [DSeg]

/-- Walk `k` nodes forward. -/
def skip (h : List (Node α)) : Nat → Option Nat → Go.Result (Option Nat)
  | 0, p => .ok p
  | k + 1, p => do
      let n ← deref h p
      skip h k n.next

/-- Collect the values of `k` nodes. -/
def collect (h : List (Node α)) : Nat → Option Nat → Go.Result (List α)
  | 0, _ => .ok []
  | k + 1, p => do
      let n ← deref h p
      let rest ← collect h k n.next
      .ok (n.value :: rest)

theorem skip_dseg {h : List (Node α)} : ∀ {k : Nat} {p ids vs}, DSeg h p ids vs none →
    k ≤ ids.length → skip h k ids.head? = .ok (ids.drop k).head?
  | 0, _, _, _, _, _ => rfl
  | k + 1, _, [], _, _, hk => absurd hk (by simp)
  | k + 1, _, i :: is, v :: vs, hs, hk => by
      have ih := skip_dseg hs.2 (k := k) (by simpa using hk)
      simp only [skip, List.head?_cons, deref_some hs.1, Option.or_none]
      exact ih
  | _ + 1, _, _ :: _, [], hs, _ => absurd hs (by simp [DSeg])

theorem collect_dseg {h : List (Node α)} : ∀ {k : Nat} {p ids vs}, DSeg h p ids vs none →
    k ≤ ids.length → collect h k ids.head? = .ok (vs.take k)
  | 0, _, _, _, _, _ => rfl
  | k + 1, _, [], _, _, hk => absurd hk (by simp)
  | k + 1, _, i :: is, v :: vs, hs, hk => by
      have ih := collect_dseg hs.2 (k := k) (by simpa using hk)
      simp only [collect, List.head?_cons, deref_some hs.1, Option.or_none]
      show (collect h k is.head? >>= _) = _
      rw [ih]
      rfl
  | _ + 1, _, _ :: _, [], hs, _ => absurd hs (by simp [DSeg])

/-- Dropping values drops the nodes that carry them. -/
theorem DSeg.drop {h : List (Node α)} : ∀ {k : Nat} {p ids vs q}, DSeg h p ids vs q →
    ∃ p', DSeg h p' (ids.drop k) (vs.drop k) q
  | 0, p, _, _, _, hs => ⟨p, hs⟩
  | _ + 1, p, [], [], _, _ => ⟨p, trivial⟩
  | k + 1, _, _ :: _, _ :: _, _, hs => hs.2.drop (k := k)
  | _ + 1, _, [], _ :: _, _, hs => absurd hs (by simp [DSeg])
  | _ + 1, _, _ :: _, [], _, hs => absurd hs (by simp [DSeg])

end DList
