import Mathlib.Data.List.Nodup

/-!
# Nil-terminated chains

`Chain f x xs`: following the next pointers `f` from `x` visits exactly `xs` and then ends. Linking
a node into a chain and unlinking one from it change two pointers and one pointer; both are stated
for any next function that agrees with the old one elsewhere.
-/

namespace Linked

variable {f g : Nat → Option Nat}

/-- From `x` the pointers `f` visit `xs` and end. -/
def Chain (f : Nat → Option Nat) : Nat → List Nat → Prop
  | x, [] => f x = none
  | x, y :: ys => f x = some y ∧ Chain f y ys

/-- The last node visited on the way from `x` through `xs`. -/
def lastFrom (x : Nat) : List Nat → Nat
  | [] => x
  | y :: ys => lastFrom y ys

@[simp] theorem lastFrom_nil (x : Nat) : lastFrom x [] = x := rfl

theorem lastFrom_append (x : Nat) : ∀ xs ys : List Nat,
    lastFrom x (xs ++ ys) = lastFrom (lastFrom x xs) ys
  | [], _ => rfl
  | y :: xs, ys => lastFrom_append y xs ys

theorem lastFrom_mem (x : Nat) : ∀ xs : List Nat, lastFrom x xs ∈ x :: xs
  | [] => List.mem_cons_self
  | y :: ys => List.mem_cons_of_mem _ (lastFrom_mem y ys)

/-- The last node is still the last when others are left out. -/
theorem lastFrom_filter (P : Nat → Bool) (x : Nat) {xs : List Nat}
    (h : xs = [] ∨ P (lastFrom x xs) = true) : lastFrom x (xs.filter P) = lastFrom x xs := by
  rcases List.eq_nil_or_concat xs with rfl | ⟨ys, y, rfl⟩
  · rfl
  · rw [List.concat_eq_append] at h ⊢
    have hlast : lastFrom x (ys ++ [y]) = y := lastFrom_append x ys [y]
    have hy : P y = true := by
      rcases h with hnil | hp
      · exact absurd hnil (by simp)
      · rwa [hlast] at hp
    rw [hlast, List.filter_append, List.filter_cons_of_pos hy, List.filter_nil, lastFrom_append]
    rfl

/-- Where the nodes that satisfy `P` split into `p` and `q`, the list splits into a part that ends
with the last of `p`, a part without such nodes, and a part that begins with the first of `q`. -/
theorem filter_eq_append {P : Nat → Bool} {xs p q : List Nat} (h : xs.filter P = p ++ q) :
    ∃ xs₁ mid xs₂, xs = xs₁ ++ (mid ++ xs₂) ∧ xs₁.filter P = p ∧ mid.filter P = [] ∧
      xs₂.filter P = q ∧ (p = [] → xs₁ = []) ∧ (∀ x, lastFrom x xs₁ = lastFrom x p) ∧
      xs₂.head? = q.head? := by
  induction xs generalizing p with
  | nil =>
    obtain ⟨rfl, rfl⟩ := List.append_eq_nil_iff.mp h.symm
    exact ⟨[], [], [], rfl, rfl, rfl, rfl, fun _ => rfl, fun _ => rfl, rfl⟩
  | cons y xs ih =>
    by_cases hy : P y = true
    · rw [List.filter_cons_of_pos hy] at h
      cases p with
      | nil =>
        refine ⟨[], [], y :: xs, rfl, rfl, rfl, ?_, fun _ => rfl, fun _ => rfl, ?_⟩
        · rw [List.filter_cons_of_pos hy, h, List.nil_append]
        · rw [← List.nil_append q, ← h, List.head?_cons, List.head?_cons]
      | cons z p =>
        rw [List.cons_append, List.cons.injEq] at h
        obtain ⟨rfl, hrest⟩ := h
        obtain ⟨xs₁, mid, xs₂, rfl, h₁, hmid, h₂, -, hlast, hhead⟩ := ih hrest
        refine ⟨y :: xs₁, mid, xs₂, rfl, ?_, hmid, h₂, fun hnil => ?_, fun x => hlast y, hhead⟩
        · rw [List.filter_cons_of_pos hy, h₁]
        · cases hnil
    · rw [List.filter_cons_of_neg hy] at h
      obtain ⟨xs₁, mid, xs₂, rfl, h₁, hmid, h₂, hnil, hlast, hhead⟩ := ih h
      cases p with
      | nil =>
        obtain rfl := hnil rfl
        refine ⟨[], y :: mid, xs₂, rfl, rfl, ?_, h₂, fun _ => rfl, fun _ => rfl, hhead⟩
        rw [List.filter_cons_of_neg hy, hmid]
      | cons z p =>
        refine ⟨y :: xs₁, mid, xs₂, rfl, ?_, hmid, h₂, fun hnil => ?_, fun x => hlast y, hhead⟩
        · rw [List.filter_cons_of_neg hy, h₁]
        · cases hnil

namespace Chain

theorem congr : ∀ {xs : List Nat} {x : Nat}, Chain f x xs → (∀ y ∈ x :: xs, g y = f y) →
    Chain g x xs
  | [], x, h, he => (he x List.mem_cons_self).trans h
  | _ :: _, x, h, he =>
    ⟨(he x List.mem_cons_self).trans h.1,
      congr h.2 fun z hz => he z (List.mem_cons_of_mem _ hz)⟩

theorem drop : ∀ {ps : List Nat} {qs : List Nat} {x : Nat}, Chain f x (ps ++ qs) →
    Chain f (lastFrom x ps) qs
  | [], _, _, h => h
  | _ :: ps, _, _, h => @drop ps _ _ h.2

theorem head_eq : ∀ {xs : List Nat} {x : Nat}, Chain f x xs → f x = xs.head?
  | [], _, h => h
  | _ :: _, _, h => h.1

/-- The pointer out of the last node of an initial part is the first node of the rest. -/
theorem next_lastFrom {ps qs : List Nat} {x : Nat} (h : Chain f x (ps ++ qs)) :
    f (lastFrom x ps) = qs.head? :=
  h.drop.head_eq

/-- Linking the new node `n` in after `ps`. -/
theorem link : ∀ {ps : List Nat} {qs : List Nat} {x n : Nat}, Chain f x (ps ++ qs) →
    (x :: (ps ++ qs)).Nodup → n ∉ x :: (ps ++ qs) →
    g n = f (lastFrom x ps) → g (lastFrom x ps) = some n →
    (∀ y, y ≠ n → y ≠ lastFrom x ps → g y = f y) →
    Chain g x (ps ++ n :: qs)
  | [], qs, x, n, h, hnd, hn, hgn, hgx, he => by
      refine ⟨hgx, ?_⟩
      cases qs with
      | nil => exact hgn.trans h
      | cons q qs =>
        refine ⟨hgn.trans h.1, h.2.congr fun y hy => he y ?_ ?_⟩
        · rintro rfl
          exact hn (List.mem_cons_of_mem _ hy)
        · rintro rfl
          exact (List.nodup_cons.mp hnd).1 hy
  | p :: ps, qs, x, n, h, hnd, hn, hgn, hgx, he => by
      have hlast : lastFrom x (p :: ps) = lastFrom p ps := rfl
      rw [hlast] at hgn hgx he
      have hx : x ≠ lastFrom p ps := by
        rintro hx
        have hmem : lastFrom p ps ∈ p :: (ps ++ qs) := by
          have := lastFrom_mem p ps
          simp only [List.mem_cons, List.mem_append] at this ⊢
          exact this.imp id Or.inl
        exact (List.nodup_cons.mp hnd).1 (hx ▸ hmem)
      have hxn : x ≠ n := fun hxn => hn (hxn ▸ List.mem_cons_self)
      exact ⟨(he x hxn hx).trans h.1,
        link h.2 (List.nodup_cons.mp hnd).2 (fun hm => hn (List.mem_cons_of_mem _ hm)) hgn hgx he⟩

/-- Unlinking the node `d` after `ps`. -/
theorem unlink : ∀ {ps : List Nat} {qs : List Nat} {x d : Nat}, Chain f x (ps ++ d :: qs) →
    (x :: (ps ++ d :: qs)).Nodup →
    g (lastFrom x ps) = f d → (∀ y, y ≠ lastFrom x ps → g y = f y) →
    Chain g x (ps ++ qs)
  | [], qs, x, d, h, hnd, hgx, he => by
      have hx : x ∉ qs := fun hx => (List.nodup_cons.mp hnd).1 (List.mem_cons_of_mem _ hx)
      cases qs with
      | nil => exact hgx.trans h.2
      | cons q qs =>
        refine ⟨hgx.trans h.2.1, h.2.2.congr fun y hy => he y ?_⟩
        rintro rfl
        exact hx hy
  | p :: ps, qs, x, d, h, hnd, hgx, he => by
      have hx : x ≠ lastFrom p ps := by
        rintro hx
        have hmem : lastFrom p ps ∈ p :: (ps ++ d :: qs) := by
          have := lastFrom_mem p ps
          simp only [List.mem_cons, List.mem_append] at this ⊢
          exact this.imp id Or.inl
        exact (List.nodup_cons.mp hnd).1 (hx ▸ hmem)
      exact ⟨(he x hx).trans h.1, unlink h.2 (List.nodup_cons.mp hnd).2 hgx he⟩

end Chain

end Linked
