import Memcore.Lib.Register
import Memcore.Settings

/-!
# Concurrent updates of the settings

CONFIG SET takes no lock. `Settings.Set` loads the settings from an atomic pointer, changes one
parameter in its copy, and stores the copy whole; so the calls of different connections are a
`Register` whose loads and stores interleave.

A store brings back what the other parameters were when the call loaded. Updates are kept, each
parameter having the value of its latest successful Set, exactly as long as the other parameters are
still what they were (`updates_kept_iff`); two calls that overlap can lose one (`update_lost`).
-/

namespace Memcore

open Go Register

section Race

variable {ι : Type}

/-- The call `i` of `Settings.Set`, on the copy it has loaded; `none` for an error, after which
nothing is stored. -/
def setCall (host : Host) (calls : ι → Bytes × Bytes) (i : ι) (r : Reloadable) :
    Option Reloadable :=
  (r.set host (calls i).1 (calls i).2).toOption

/-- What the call assigns. -/
def assigned (calls : ι → Bytes × Bytes) (i : ι) : Option Assign :=
  Assign.parse (calls i).1 (calls i).2

theorem setCall_eq (host : Host) (calls : ι → Bytes × Bytes) (i : ι) (r : Reloadable) :
    setCall host calls i r = (assigned calls i).map fun a => a.apply r :=
  r.set_eq host _ _

/-- Settings with assignments made one after the other. -/
def assignAll (r : Reloadable) (as : List Assign) : Reloadable := as.foldl (fun r a => a.apply r) r

/-- The settings have the value of the last assignment of the parameter; they agree with `r₀` when
there is none. -/
def Latest (r₀ r : Reloadable) (as : List Assign) (p : Param) : Prop :=
  match as.reverse.find? fun a => decide (a.param = p) with
  | some a => a.Holds r
  | none => p.Agree r₀ r

theorem agree_assignAll_iff (r₀ r : Reloadable) (p : Param) (as : List Assign) :
    Param.Agree (assignAll r₀ as) r p ↔ Latest r₀ r as p := by
  induction as using List.reverseRecOn with
  | nil => rfl
  | append_singleton as a ih =>
    have hlast : assignAll r₀ (as ++ [a]) = a.apply (assignAll r₀ as) := by
      rw [assignAll, List.foldl_append]
      rfl
    rw [hlast, Latest, List.reverse_append, List.reverse_singleton, List.singleton_append,
      List.find?_cons]
    by_cases hp : a.param = p
    · subst hp
      simp only [decide_true]
      exact a.agree_apply_self _ r
    · simp only [hp, decide_false]
      rw [Assign.agree_apply_of_ne hp]
      exact ih

/-- Calls that store one after the other. -/
theorem applied_setCall (host : Host) (calls : ι → Bytes × Bytes) (r₀ : Reloadable) :
    ∀ is : List ι, (∀ i ∈ is, (assigned calls i).isSome = true) →
      applied (setCall host calls) r₀ is
        = some (assignAll r₀ (is.filterMap (assigned calls))) := by
  intro is
  induction is using List.reverseRecOn with
  | nil => exact fun _ => rfl
  | append_singleton is i ih =>
    intro hsome
    obtain ⟨a, ha⟩ := Option.isSome_iff_exists.mp
      (hsome i (List.mem_append_right _ List.mem_cons_self))
    rw [applied_snoc, ih fun j hj => hsome j (List.mem_append_left _ hj), Option.bind_some,
      setCall_eq, ha, List.filterMap_append, List.filterMap_cons_some ha]
    rw [assignAll, assignAll, List.foldl_append]
    rfl

variable [DecidableEq ι] {host : Host} {calls : ι → Bytes × Bytes} {r₀ : Reloadable}

/-- Only an accepted call stores. -/
theorem assigned_of_stored (evs : List (Event ι)) : ∀ {s : State ι Reloadable},
    run (setCall host calls) r₀ evs = some s →
      ∀ i ∈ s.stored, (assigned calls i).isSome = true := by
  induction evs using List.reverseRecOn with
  | nil =>
    intro s hs i hi
    cases hs
    cases hi
  | append_singleton evs ev ih =>
    intro t ht
    rw [run_snoc] at ht
    obtain ⟨s, hs, ht⟩ := Option.bind_eq_some_iff.mp ht
    cases ev with
    | load i =>
      rw [(step_load ht).2]
      exact ih hs
    | store i =>
      obtain ⟨y, hy, -, hstored⟩ := step_store ht
      rw [hstored, List.forall_mem_append]
      refine ⟨ih hs, fun j hj => ?_⟩
      obtain rfl := List.mem_singleton.mp hj
      obtain ⟨c, -, hc⟩ := Option.bind_eq_some_iff.mp hy
      rw [setCall_eq] at hc
      rw [← Option.isSome_map (f := fun a => a.apply c), hc]
      rfl

/-- The register is serial when every parameter has the value of its latest Set. -/
theorem serial_iff_latest {evs : List (Event ι)} {s : State ι Reloadable}
    (hs : run (setCall host calls) r₀ evs = some s) :
    Serial (setCall host calls) r₀ s ↔
      ∀ p, Latest r₀ s.value (s.stored.filterMap (assigned calls)) p := by
  rw [Serial, applied_setCall host calls r₀ s.stored (assigned_of_stored evs hs),
    Option.some_inj, Reloadable.eq_iff_agree]
  exact forall_congr' fun p => agree_assignAll_iff r₀ s.value p _

/-- A call is up to date when the parameters it does not assign are as it loaded them. -/
theorem upToDate_iff {s t : State ι Reloadable} {i : ι}
    (ht : step (setCall host calls) s (.store i) = some t) :
    UpToDate (setCall host calls) s i ↔
      ∀ c a, s.copies i = some c → assigned calls i = some a →
        ∀ p, a.param ≠ p → Param.Agree c s.value p := by
  obtain ⟨y, hy, -, -⟩ := step_store ht
  obtain ⟨c, hc, hset⟩ := Option.bind_eq_some_iff.mp hy
  rw [setCall_eq] at hset
  obtain ⟨a, ha, -⟩ := Option.map_eq_some_iff.mp hset
  rw [UpToDate, hc, Option.bind_some, setCall_eq, setCall_eq, ha, Option.map_some, Option.map_some,
    Option.some_inj, Assign.apply_eq_iff]
  constructor
  · intro h c' a' hc' ha'
    cases hc'
    cases ha'
    exact h
  · intro h
    exact h c a rfl rfl

/-- **When updates of the settings are kept.** For any calls of `Settings.Set`, and any interleaving
of their loads and stores: after every step each parameter has the value of the latest successful Set
of it, if and only if whenever a call stores, the parameters it does not assign are as they were when
it loaded. -/
theorem updates_kept_iff (host : Host) (calls : ι → Bytes × Bytes) (r₀ : Reloadable)
    (evs : List (Event ι)) :
    (∀ pre s, pre <+: evs → run (setCall host calls) r₀ pre = some s →
      ∀ p, Latest r₀ s.value (s.stored.filterMap (assigned calls)) p) ↔
    ∀ pre i s t, pre ++ [.store i] <+: evs → run (setCall host calls) r₀ pre = some s →
      step (setCall host calls) s (.store i) = some t →
      ∀ c a, s.copies i = some c → assigned calls i = some a →
        ∀ p, a.param ≠ p → Param.Agree c s.value p := by
  have hseq := @serial_iff _ _ _ (setCall host calls) r₀ evs
  constructor
  · intro h pre i s t hpre hs ht
    refine (upToDate_iff ht).mp (hseq.mp (fun pre s hpre hs => ?_) pre i s t hpre hs ht)
    exact (serial_iff_latest hs).mpr (h pre s hpre hs)
  · intro h pre s hpre hs
    refine (serial_iff_latest hs).mp (hseq.mpr (fun pre i s t hpre hs ht => ?_) pre s hpre hs)
    exact (upToDate_iff ht).mpr (h pre i s t hpre hs ht)

end Race

/-- One call turns the slow log on, another sets how many keys a pass examines. -/
def twoCalls : Bool → Bytes × Bytes
  | false => (paramSlowLog, ascii "yes")
  | true => (paramExpirySample, ascii "5")

/-- Both load before either stores. Both succeed, and the slow log is off. -/
theorem update_lost :
    (run (setCall Host.verbatim twoCalls) ⟨0, 20, false⟩
        [.load false, .load true, .store false, .store true]).map
          (fun s => (s.stored, s.value.slowLogEnabled, s.value.expirySample))
      = some ([false, true], false, 5) := by
  decide +kernel

end Memcore
