import Mathlib.Data.List.Infix
import Mathlib.Logic.Function.Basic

/-!
# A register that is updated by loading and storing

Calls share one atomic register. A call loads a copy, computes from it what the register is to hold,
and stores that; loads and stores of different calls interleave in any way. A call that refuses to
update what it has loaded never stores.

The register holds what the calls would have left one after the other, in the order of their stores,
after every step of a run, if and only if no store writes something else than it would have computed
from what it overwrites (`Register.serial_iff`).
-/

namespace Register

variable {ι σ : Type}

/-- A step of a call. -/
inductive Event (ι : Type) where
  | load (i : ι)
  | store (i : ι)

/-- The register, the copies that were loaded, and the calls that have stored, in that order. -/
structure State (ι σ : Type) where
  value : σ
  copies : ι → Option σ
  stored : List ι

/-- Before the first step. -/
def start (x : σ) : State ι σ := ⟨x, fun _ => none, []⟩

theorem foldlM_snoc {α β : Type} (f : β → α → Option β) (as : List α) (a : α) (b : β) :
    (as ++ [a]).foldlM f b = (as.foldlM f b).bind fun c => f c a := by
  simp only [List.foldlM_append, List.foldlM_cons, List.foldlM_nil, bind_pure]
  rfl

variable [DecidableEq ι]

/-- One step, if the call can take it. -/
def step (update : ι → σ → Option σ) (s : State ι σ) : Event ι → Option (State ι σ)
  | .load i =>
    if (s.copies i).isSome then none
    else some { s with copies := Function.update s.copies i (some s.value) }
  | .store i =>
    if i ∈ s.stored then none
    else (s.copies i).bind fun x =>
      (update i x).map fun y => { s with value := y, stored := s.stored ++ [i] }

/-- The steps one after the other. -/
def run (update : ι → σ → Option σ) (x : σ) (evs : List (Event ι)) : Option (State ι σ) :=
  evs.foldlM (step update) (start x)

/-- The calls one after the other. -/
def applied (update : ι → σ → Option σ) (x : σ) (is : List ι) : Option σ :=
  is.foldlM (fun x i => update i x) x

variable {update : ι → σ → Option σ} {x : σ}

theorem run_snoc (evs : List (Event ι)) (ev : Event ι) :
    run update x (evs ++ [ev]) = (run update x evs).bind fun s => step update s ev :=
  foldlM_snoc _ evs ev _

omit [DecidableEq ι] in
theorem applied_snoc (is : List ι) (i : ι) :
    applied update x (is ++ [i]) = (applied update x is).bind (update i) :=
  foldlM_snoc _ is i x

/-- A store writes what the call makes of its copy. -/
theorem step_store {s t : State ι σ} {i : ι} (h : step update s (.store i) = some t) :
    ∃ y, (s.copies i).bind (update i) = some y ∧ t.value = y ∧ t.stored = s.stored ++ [i] := by
  simp only [step] at h
  split at h
  next => cases h
  next =>
    obtain ⟨x, hx, hy⟩ := Option.bind_eq_some_iff.mp h
    obtain ⟨y, hup, rfl⟩ := Option.map_eq_some_iff.mp hy
    refine ⟨y, ?_, rfl, rfl⟩
    rw [hx]
    exact hup

theorem step_load {s t : State ι σ} {i : ι} (h : step update s (.load i) = some t) :
    t.value = s.value ∧ t.stored = s.stored := by
  simp only [step] at h
  split at h <;> cases h
  exact ⟨rfl, rfl⟩

/-- The register holds what the calls that have stored would have left one after the other. -/
def Serial (update : ι → σ → Option σ) (x : σ) (s : State ι σ) : Prop :=
  applied update x s.stored = some s.value

/-- The call makes of its copy what it would make of the register. -/
def UpToDate (update : ι → σ → Option σ) (s : State ι σ) (i : ι) : Prop :=
  (s.copies i).bind (update i) = update i s.value

/-- A store keeps the register serial if and only if it is up to date. -/
theorem serial_store_iff {s t : State ι σ} {i : ι} (h : step update s (.store i) = some t)
    (hs : Serial update x s) : Serial update x t ↔ UpToDate update s i := by
  obtain ⟨y, hy, hvalue, hstored⟩ := step_store h
  unfold Serial UpToDate at *
  rw [hstored, hvalue, applied_snoc, hs, hy, Option.bind_some]
  exact eq_comm

/-- **Updates are lost exactly by stores that are out of date.** -/
theorem serial_iff (evs : List (Event ι)) :
    (∀ pre s, pre <+: evs → run update x pre = some s → Serial update x s) ↔
      ∀ pre i s t, pre ++ [.store i] <+: evs → run update x pre = some s →
        step update s (.store i) = some t → UpToDate update s i := by
  constructor
  · intro h pre i s t hpre hs ht
    have hseq := h pre s ((List.prefix_append pre _).trans hpre) hs
    refine (serial_store_iff ht hseq).mp (h _ t hpre ?_)
    rw [run_snoc, hs]
    exact ht
  · intro h pre
    induction pre using List.reverseRecOn with
    | nil =>
      intro s _ hs
      cases hs
      rfl
    | append_singleton pre ev ih =>
      intro t hpre ht
      rw [run_snoc] at ht
      obtain ⟨s, hs, ht⟩ := Option.bind_eq_some_iff.mp ht
      have hseq := ih s ((List.prefix_append pre _).trans hpre) hs
      cases ev with
      | load i =>
        obtain ⟨hvalue, hstored⟩ := step_load ht
        unfold Serial at *
        rw [hvalue, hstored]
        exact hseq
      | store i => exact (serial_store_iff ht hseq).mpr (h pre i s t hpre hs ht)

end Register
