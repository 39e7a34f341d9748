import Mathlib.Algebra.BigOperators.Group.Finset.Piecewise
import Mathlib.Algebra.GroupWithZero.Nat
import Mathlib.Algebra.Order.BigOperators.Group.Finset
import Mathlib.Algebra.Order.BigOperators.Group.List
import Mathlib.Data.List.Perm.Subperm
import Memcore.Lib.Run

/-!
# Counting what is running

A sum over the parts of a system changes by what the one part that moves contributes
(`sum_update_add`). A potential that the system's own steps use up bounds how many of them there are,
whatever the world does meanwhile, if what the world adds is bounded (`Run.length_le`).
-/

variable {σ α β κ : Type}

/-- One part moves from `f k` to `c`. -/
theorem sum_update_add [DecidableEq κ] {K : Finset κ} {k : κ} (hk : k ∈ K) (g : β → ℕ) (f : κ → β)
    (c : β) : (∑ x ∈ K, g (Function.update f k c x)) + g (f k) = (∑ x ∈ K, g (f x)) + g c := by
  have hcomp : (∑ x ∈ K, g (Function.update f k c x)) = ∑ x ∈ K, Function.update (g ∘ f) k (g c) x :=
    Finset.sum_congr rfl fun x _ => (congrFun (Function.comp_update g f k c) x)
  rw [hcomp, Finset.sum_update_of_mem hk, ← Finset.add_sum_erase K (fun x => g (f x)) hk,
    Finset.sdiff_singleton_eq_erase]
  show g c + (∑ x ∈ K.erase k, g (f x)) + g (f k) = _
  omega

/-- Lists of labelled items, of which one has no more under any label than the other. -/
theorem subperm_of_labelled [DecidableEq κ] [DecidableEq β] {xs ys : List (κ × β)}
    (h : ∀ k, (xs.filter fun x => decide (x.1 = k)).map Prod.snd
      <+: (ys.filter fun y => decide (y.1 = k)).map Prod.snd) : List.Subperm xs ys := by
  have hcount (x : κ × β) (zs : List (κ × β)) :
      zs.count x = ((zs.filter fun z => decide (z.1 = x.1)).map Prod.snd).count x.2 := by
    induction zs with
    | nil => rfl
    | cons z zs ih =>
      obtain ⟨k, b⟩ := x
      obtain ⟨k', b'⟩ := z
      by_cases hk : k' = k
      · subst hk
        simp [List.count_cons, ih]
      · simp [ih, hk]
  refine List.subperm_ext_iff.mpr fun x _ => ?_
  rw [hcount x xs, hcount x ys]
  exact (h x.1).sublist.count_le _

theorem sum_le_of_subperm {xs ys : List α} (h : xs.Subperm ys) (g : α → ℕ) :
    (xs.map g).sum ≤ (ys.map g).sum := by
  obtain ⟨l, hperm, hl⟩ := h
  rw [← (hperm.map g).sum_eq]
  exact (hl.map g).sum_le_sum fun _ _ => Nat.zero_le _

/-- The bound on a system's own steps: each takes one off the potential, and another event adds to it
what it brings. -/
theorem Run.length_le {Step : σ → α → σ → Prop} {s t : σ} {as : List α} (h : Run Step s as t)
    (I : σ → Prop) (potential : σ → ℕ) (own : α → Bool) (brings : α → ℕ) (hs : I s)
    (hstep : ∀ {s a t}, I s → Step s a t →
      I t ∧ potential t + (if own a then 1 else 0) ≤ potential s + brings a) :
    (as.filter own).length + potential t ≤ potential s + (as.map brings).sum := by
  have hboth : I t ∧ (as.filter own).length + potential t ≤ potential s + (as.map brings).sum := by
    induction h with
    | nil => exact ⟨hs, by simp⟩
    | @snoc t u as a _ hlast ih =>
      obtain ⟨ht, hle⟩ := ih
      obtain ⟨hu, hdrop⟩ := hstep ht hlast
      refine ⟨hu, ?_⟩
      rw [List.filter_append, List.length_append, List.map_append, List.sum_append,
        List.map_singleton, List.sum_singleton]
      have hone : (List.filter own [a]).length = if own a then 1 else 0 := by
        cases hown : own a <;> simp [hown]
      omega
  exact hboth.2
