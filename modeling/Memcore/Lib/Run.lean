import Mathlib.Data.List.Infix
import Mathlib.Order.Nat
import Mathlib.Tactic.Choose

/-!
# Runs of a step relation

A system is a relation `Step s a t`: in state `s` the event `a` can happen and leaves `t`. `Run` is
its finite runs with the events that happened. What holds at the start and is kept by every step
holds at the end of every run (`Run.invariant`).

A run that goes on for ever is its sequence of states (`RunsOn`), which may stand still. A list that every
step can extend so that it fits the next state has one version for each state, each an initial part of
the next (`RunsOn.exists_history`).
-/

variable {σ α : Type}

/-- The events lead from one state to another. -/
inductive Run (Step : σ → α → σ → Prop) : σ → List α → σ → Prop where
  | nil (s : σ) : Run Step s [] s
  | snoc {s t u : σ} {as : List α} {a : α} : Run Step s as t → Step t a u → Run Step s (as ++ [a]) u

namespace Run

variable {Step : σ → α → σ → Prop} {s t : σ} {as : List α}

/-- The induction rule of a safety property. -/
theorem invariant (hrun : Run Step s as t) (I : σ → Prop) (hs : I s)
    (hstep : ∀ {s a t}, I s → Step s a t → I t) : I t := by
  induction hrun with
  | nil => exact hs
  | snoc _ hlast ih => exact hstep ih hlast

/-- One run after the other. -/
theorem trans {u : σ} {bs : List α} (h : Run Step s as t) (h' : Run Step t bs u) :
    Run Step s (as ++ bs) u := by
  induction h' with
  | nil => rwa [List.append_nil]
  | snoc _ hlast ih =>
    rw [← List.append_assoc]
    exact ih.snoc hlast

theorem to_eq {u : σ} (h : Run Step s as t) (heq : t = u) : Run Step s as u := heq ▸ h

end Run

/-- The states are those of a run, one after the other; the system may stand still. -/
def RunsOn (Step : σ → α → σ → Prop) (st : ℕ → σ) : Prop :=
  ∀ i, st (i + 1) = st i ∨ ∃ a, Step (st i) a (st (i + 1))

/-- A run that ends can stand still at its end. -/
theorem Run.exists_runsOn {Step : σ → α → σ → Prop} {s t : σ} {as : List α} (h : Run Step s as t) :
    ∃ st : ℕ → σ, st 0 = s ∧ st as.length = t ∧ RunsOn Step st := by
  induction h with
  | nil => exact ⟨fun _ => s, rfl, rfl, fun _ => .inl rfl⟩
  | @snoc t u as a _ hlast ih =>
    obtain ⟨st, hstart, hend, hsteps⟩ := ih
    let st' : ℕ → σ := fun i => if i ≤ as.length then st i else u
    have hbefore {i : ℕ} (hi : i ≤ as.length) : st' i = st i := if_pos hi
    have hafter {i : ℕ} (hi : as.length < i) : st' i = u := if_neg (Nat.not_le_of_lt hi)
    refine ⟨st', (hbefore (Nat.zero_le _)).trans hstart, hafter (by simp), fun i => ?_⟩
    rcases Nat.lt_trichotomy i as.length with hlt | rfl | hgt
    · rw [hbefore hlt.le, hbefore hlt]
      exact hsteps i
    · rw [hbefore le_rfl, hafter (Nat.lt_succ_self _), hend]
      exact .inr ⟨a, hlast⟩
    · rw [hafter hgt, hafter (hgt.trans (Nat.lt_succ_self _))]
      exact .inl rfl

/-- The rule for a history: what fits the first state and can be extended at every step. -/
theorem RunsOn.exists_history {β : Type} {Step : σ → α → σ → Prop} {st : ℕ → σ} (h : RunsOn Step st)
    {F : σ → List β → Prop} (hstart : F (st 0) [])
    (hstep : ∀ {s a t l}, F s l → Step s a t → ∃ l', F t (l ++ l')) :
    ∃ history : ℕ → List β, (∀ i j, i ≤ j → history i <+: history j) ∧
      ∀ i, F (st i) (history i) := by
  have hnext (i : ℕ) (l : { l : List β // F (st i) l }) :
      ∃ l' : List β, F (st (i + 1)) (l ++ l') := by
    rcases h i with hsame | ⟨a, hstep'⟩
    · rw [hsame]
      exact ⟨[], by simpa using l.2⟩
    · exact hstep l.2 hstep'
  choose extend hextend using hnext
  -- the histories are built one from the other
  let all : (i : ℕ) → { l : List β // F (st i) l } := fun i =>
    Nat.rec ⟨[], hstart⟩ (fun i l => ⟨l ++ extend i l, hextend i l⟩) i
  refine ⟨fun i => (all i).1, fun i j hij => ?_, fun i => (all i).2⟩
  induction j, hij using Nat.le_induction with
  | base => exact List.prefix_rfl
  | succ j _ ih => exact ih.trans (List.prefix_append _ _)
