import Mathlib.Data.List.Basic

/-!
# Machines and replay

A `Machine` is a state with commands: what a command does, and in which states it can be run. A log of
commands that were run one after the other is replayed by calling a function on each, which may fail.
When each call does to what a state shows the same as the command did, the whole replay succeeds and
shows the state after the log (`Machine.callEach_run`).
-/

variable {σ E α : Type}

/-- Call `f` on each item in turn, up to the first error. -/
def callEach (f : σ → α → σ × Option E) : List α → σ → σ × Option E
  | [], s => (s, none)
  | a :: as, s =>
    match f s a with
    | (s, some e) => (s, some e)
    | (s, none) => callEach f as s

theorem callEach_total (f : σ → α → σ) : ∀ (as : List α) (s : σ),
    callEach (fun s a => (f s a, (none : Option E))) as s = (as.foldl f s, none)
  | [], _ => rfl
  | _ :: as, _ => callEach_total f as _

theorem callEach_append (f : σ → α → σ × Option E) (bs : List α) :
    ∀ (as : List α) (s : σ), callEach f (as ++ bs) s
      = match callEach f as s with
        | (s, some e) => (s, some e)
        | (s, none) => callEach f bs s
  | [], _ => rfl
  | a :: as, s => by
      rw [List.cons_append, callEach, callEach]
      rcases f s a with ⟨s', _ | e⟩
      · exact callEach_append f bs as s'
      · rfl

theorem callEach_snoc {f : σ → α → σ × Option E} {as : List α} {s s' : σ}
    (h : callEach f as s = (s', none)) (a : α) : callEach f (as ++ [a]) s = f s' a := by
  rw [callEach_append, h]
  simp only [callEach]
  rcases f s' a with ⟨_, _ | _⟩ <;> rfl

/-- States and commands. -/
structure Machine (A C : Type) where
  /-- the state after a command -/
  step : A → C → A
  /-- the command can be run in this state -/
  Runs : A → C → Prop

namespace Machine

variable {A C : Type} (M : Machine A C)

/-- The state after commands. -/
def run (a : A) (cs : List C) : A := cs.foldl M.step a

/-- The commands can be run one after the other. -/
def AllRun : A → List C → Prop
  | _, [] => True
  | a, c :: cs => M.Runs a c ∧ AllRun (M.step a c) cs

theorem run_append (a : A) (cs ds : List C) : M.run a (cs ++ ds) = M.run (M.run a cs) ds :=
  List.foldl_append

theorem run_snoc (a : A) (cs : List C) (c : C) : M.run a (cs ++ [c]) = M.step (M.run a cs) c :=
  M.run_append a cs [c]

theorem allRun_append : ∀ (a : A) (cs ds : List C),
    M.AllRun a (cs ++ ds) ↔ M.AllRun a cs ∧ M.AllRun (M.run a cs) ds
  | _, [], _ => ⟨fun h => ⟨trivial, h⟩, fun h => h.2⟩
  | a, c :: cs, ds => by
      rw [List.cons_append, AllRun, AllRun, allRun_append (M.step a c) cs ds, and_assoc]
      rfl

theorem allRun_snoc {a : A} {cs : List C} {c : C} (h : M.AllRun a cs) (hc : M.Runs (M.run a cs) c) :
    M.AllRun a (cs ++ [c]) :=
  (M.allRun_append a cs [c]).mpr ⟨h, hc, trivial⟩

variable {M} {Good : A → Prop}

/-- What every command keeps, a run keeps. -/
theorem good_run (hgood : ∀ {a c}, Good a → M.Runs a c → Good (M.step a c)) :
    ∀ (cs : List C) {a : A}, Good a → M.AllRun a cs → Good (M.run a cs)
  | [], _, ha, _ => ha
  | _ :: cs, _, ha, h => good_run hgood cs (hgood ha h.1) h.2

/-- **Replay**: calls that each do what the command did give the state after the commands. -/
theorem callEach_run {f : σ → C → σ × Option E} (Shows : σ → A → Prop)
    (hgood : ∀ {a c}, Good a → M.Runs a c → Good (M.step a c))
    (hcall : ∀ {s a c}, Good a → M.Runs a c → Shows s a →
      ∃ s', f s c = (s', none) ∧ Shows s' (M.step a c)) :
    ∀ (cs : List C) {s : σ} {a : A}, Good a → M.AllRun a cs → Shows s a →
      ∃ s', callEach f cs s = (s', none) ∧ Shows s' (M.run a cs)
  | [], s, _, _, _, hs => ⟨s, rfl, hs⟩
  | c :: cs, s, a, ha, h, hs => by
      obtain ⟨s₁, hstep, hs₁⟩ := hcall ha h.1 hs
      obtain ⟨s', hrest, hs'⟩ := callEach_run Shows hgood hcall cs (hgood ha h.1) h.2 hs₁
      refine ⟨s', ?_, hs'⟩
      rw [callEach, hstep]
      exact hrest

end Machine
