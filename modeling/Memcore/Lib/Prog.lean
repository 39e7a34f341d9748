import Mathlib.Logic.Basic

/-!
# Programs with a state that may fail

`Prog σ ε α` runs on a state and ends with a value or a failure, and with the state it had reached
either way: a failure does not undo what was done before it.

Two kinds of facts about such programs compose along `bind`, and are stated for any relations on
states. `Within R F m`: states that agree up to `R` give the same outcome and stay in agreement, and
a run changes nothing that `F` protects. `Guarded F bad m`: a run that fails, or whose value is
`bad`, changes nothing that `F` protects.

`Matches R skip p q` compares programs on two kinds of states: from related states they end alike and
in related states again, except that `p` may fail with an error that `skip` excuses. `RaisesOnly E p`
says which failures a program has, and `Keeps I E p` the same of the states in `I`, which a run does not
leave.
-/

/-- A stateful program that may fail with an `ε`. -/
def Prog (σ ε α : Type) : Type := σ → Except ε α × σ

namespace Prog

variable {σ ε α β : Type}

instance : Monad (Prog σ ε) where
  pure a := fun s => (.ok a, s)
  bind m f := fun s =>
    match m s with
    | (.ok a, s') => f a s'
    | (.error e, s') => (.error e, s')

@[simp] theorem pure_apply (a : α) (s : σ) : (pure a : Prog σ ε α) s = (.ok a, s) := rfl

theorem bind_apply (m : Prog σ ε α) (f : α → Prog σ ε β) (s : σ) :
    (m >>= f) s = match m s with
      | (.ok a, s') => f a s'
      | (.error e, s') => (.error e, s') := rfl

theorem bind_apply_ok {m : Prog σ ε α} {f : α → Prog σ ε β} {s s' : σ} {a : α}
    (h : m s = (.ok a, s')) : (m >>= f) s = f a s' := by
  rw [bind_apply, h]

theorem bind_apply_error {m : Prog σ ε α} {f : α → Prog σ ε β} {s s' : σ} {e : ε}
    (h : m s = (.error e, s')) : (m >>= f) s = (.error e, s') := by
  rw [bind_apply, h]

theorem bind_eq_ok {m : Prog σ ε α} {f : α → Prog σ ε β} {s t : σ} {b : β} :
    (m >>= f) s = (.ok b, t) ↔ ∃ a s', m s = (.ok a, s') ∧ f a s' = (.ok b, t) := by
  rw [bind_apply]
  cases hm : m s with
  | mk x s' =>
    cases x with
    | ok a =>
      constructor
      · exact fun h => ⟨a, s', rfl, h⟩
      · rintro ⟨a', s'', h, h'⟩
        cases h
        exact h'
    | error e => simp

/-- A computation that does not touch the state. -/
def lift (x : Except ε α) : Prog σ ε α := fun s => (x, s)

@[simp] theorem lift_apply (x : Except ε α) (s : σ) : (lift x : Prog σ ε α) s = (x, s) := rfl

@[simp] theorem lift_ok_bind (a : α) (f : α → Prog σ ε β) : (lift (.ok a) >>= f) = f a := rfl

/-! ## Footprints -/

/-- The program depends on no more than `R` shows and changes no more than `F` allows. -/
structure Within (R F : σ → σ → Prop) (m : Prog σ ε α) : Prop where
  same : ∀ s t, R s t → (m s).1 = (m t).1 ∧ R (m s).2 (m t).2
  frame : ∀ s, F s (m s).2

namespace Within

variable {R F : σ → σ → Prop}

theorem pure (hF : ∀ s, F s s) (a : α) : Within R F (Pure.pure a : Prog σ ε α) :=
  ⟨fun _ _ h => ⟨rfl, h⟩, hF⟩

theorem lift (hF : ∀ s, F s s) (x : Except ε α) : Within R F (Prog.lift x : Prog σ ε α) :=
  ⟨fun _ _ h => ⟨rfl, h⟩, hF⟩

theorem bind (hF : ∀ {r s t}, F r s → F s t → F r t) {m : Prog σ ε α} {f : α → Prog σ ε β}
    (hm : Within R F m) (hf : ∀ a, Within R F (f a)) : Within R F (m >>= f) where
  same s t h := by
    have hst := hm.same s t h
    rw [bind_apply, bind_apply]
    cases hs : m s with
    | mk rs s' =>
      cases ht : m t with
      | mk rt t' =>
        rw [hs, ht] at hst
        obtain ⟨rfl, hR⟩ := hst
        cases rs with
        | ok a => exact (hf a).same s' t' hR
        | error e => exact ⟨rfl, hR⟩
  frame s := by
    have hs := hm.frame s
    rw [bind_apply]
    cases hm' : m s with
    | mk rs s' =>
      rw [hm'] at hs
      cases rs with
      | ok a => exact hF hs ((hf a).frame s')
      | error e => exact hs

end Within

/-! ## Failures that leave no trace -/

/-- The program changes nothing that `F` protects. -/
def Quiet (F : σ → σ → Prop) (m : Prog σ ε α) : Prop := ∀ s, F s (m s).2

/-- A run that fails, or ends with a `bad` value, changes nothing that `F` protects. -/
def Guarded (F : σ → σ → Prop) (bad : α → Prop) (m : Prog σ ε α) : Prop :=
  ∀ s, (∀ a, (m s).1 = .ok a → bad a) → F s (m s).2

section Guarded

variable {F : σ → σ → Prop} {bad : β → Prop}

theorem Quiet.guarded {m : Prog σ ε β} (h : Quiet F m) : Guarded F bad m := fun s _ => h s

theorem Quiet.pure (hF : ∀ s, F s s) (a : α) : Quiet F (Pure.pure a : Prog σ ε α) := hF

theorem Quiet.lift (hF : ∀ s, F s s) (x : Except ε α) : Quiet F (Prog.lift x : Prog σ ε α) := hF

theorem Quiet.bind (hF : ∀ {r s t}, F r s → F s t → F r t) {m : Prog σ ε α}
    {f : α → Prog σ ε β} (hm : Quiet F m) (hf : ∀ a, Quiet F (f a)) : Quiet F (m >>= f) := by
  intro s
  have hs := hm s
  rw [bind_apply]
  cases hm' : m s with
  | mk rs s' =>
    rw [hm'] at hs
    cases rs with
    | ok a => exact hF hs (hf a s')
    | error e => exact hs

/-- What comes before a guarded program only has to be quiet. -/
theorem Guarded.bind (hF : ∀ {r s t}, F r s → F s t → F r t) {m : Prog σ ε α}
    {f : α → Prog σ ε β} (hm : Quiet F m) (hf : ∀ a, Guarded F bad (f a)) :
    Guarded F bad (m >>= f) := by
  intro s hbad
  have hs := hm s
  rw [bind_apply] at hbad ⊢
  cases hm' : m s with
  | mk rs s' =>
    rw [hm'] at hs hbad
    cases rs with
    | ok a => exact hF hs (hf a s' hbad)
    | error e => exact hs

/-- A program that always ends well has nothing to guard. -/
theorem Guarded.of_good {m : Prog σ ε β} (h : ∀ s, ∃ a, (m s).1 = .ok a ∧ ¬ bad a) :
    Guarded F bad m := by
  intro s hbad
  obtain ⟨a, ha, hgood⟩ := h s
  exact absurd (hbad a ha) hgood

end Guarded

/-! ## Two levels of one program -/

section Matches

variable {τ ε' : Type} {R : σ → τ → Prop} {skip : ε → Prop}

/-- Run `p`, and report its failures through `f`. -/
def mapError (f : ε → ε') (p : Prog σ ε α) : Prog σ ε' α := fun s =>
  match p s with
  | (.ok a, s') => (.ok a, s')
  | (.error e, s') => (.error (f e), s')

theorem mapError_eq_ok {f : ε → ε'} {p : Prog σ ε α} {s t : σ} {a : α} :
    mapError f p s = (.ok a, t) ↔ p s = (.ok a, t) := by
  unfold mapError
  cases hp : p s with
  | mk x s' => cases x <;> simp

theorem mapError_error {f : ε → ε'} {p : Prog σ ε α} {s t : σ} {e : ε}
    (h : p s = (.error e, t)) : mapError f p s = (.error (f e), t) := by
  unfold mapError
  rw [h]

/-- Every failure of `p` is one of `E`. -/
def RaisesOnly (E : ε → Prop) (p : Prog σ ε α) : Prop := ∀ s e s', p s = (.error e, s') → E e

namespace RaisesOnly

variable {E : ε → Prop}

theorem pure (a : α) : RaisesOnly E (Pure.pure a : Prog σ ε α) := by
  intro s e s' h
  cases h

theorem fail {e : ε} (he : E e) : RaisesOnly E (Prog.lift (.error e) : Prog σ ε α) := by
  intro s e' s' h
  cases h
  exact he

theorem mapError {E' : ε' → Prop} {f : ε → ε'} (hf : ∀ e, E' (f e)) (p : Prog σ ε α) :
    RaisesOnly E' (Prog.mapError f p) := by
  intro s e s' h
  cases hp : p s with
  | mk x t =>
    cases x with
    | ok a => cases (mapError_eq_ok.mpr hp).symm.trans h
    | error e₀ =>
      cases (mapError_error hp).symm.trans h
      exact hf e₀

theorem bind {p : Prog σ ε α} {f : α → Prog σ ε β} (hp : RaisesOnly E p)
    (hf : ∀ a, RaisesOnly E (f a)) : RaisesOnly E (p >>= f) := by
  intro s e s' h
  cases hs : p s with
  | mk x t =>
    cases x with
    | ok a =>
      rw [bind_apply_ok hs] at h
      exact hf a t e s' h
    | error e₀ =>
      rw [bind_apply_error hs] at h
      cases h
      exact hp s e s' hs

theorem ite {c : Prop} [Decidable c] {p q : Prog σ ε α} (hp : RaisesOnly E p)
    (hq : RaisesOnly E q) : RaisesOnly E (if c then p else q) := by
  split
  · exact hp
  · exact hq

end RaisesOnly

/-- From a state in `I` the program ends in one, and its failures are of `E`. -/
def Keeps (I : σ → Prop) (E : ε → Prop) (p : Prog σ ε α) : Prop :=
  ∀ s, I s → I (p s).2 ∧ ∀ e, (p s).1 = .error e → E e

namespace Keeps

variable {I : σ → Prop} {E : ε → Prop}

theorem pure (a : α) : Keeps I E (Pure.pure a : Prog σ ε α) := fun _ h => ⟨h, nofun⟩

theorem fail {e : ε} (he : E e) : Keeps I E (Prog.lift (.error e) : Prog σ ε α) := by
  intro s h
  refine ⟨h, fun e' he' => ?_⟩
  cases he'
  exact he

theorem bind {p : Prog σ ε α} {f : α → Prog σ ε β} (hp : Keeps I E p) (hf : ∀ a, Keeps I E (f a)) :
    Keeps I E (p >>= f) := by
  intro s h
  obtain ⟨hI, hE⟩ := hp s h
  rw [bind_apply]
  cases hs : p s with
  | mk x s' =>
    rw [hs] at hI hE
    cases x with
    | ok a => exact hf a s' hI
    | error e =>
      refine ⟨hI, fun e' he' => ?_⟩
      cases he'
      exact hE e rfl

theorem mapError {E' : ε' → Prop} {p : Prog σ ε α} {f : ε → ε'} (hp : Keeps I E p)
    (hf : ∀ e, E e → E' (f e)) : Keeps I E' (Prog.mapError f p) := by
  intro s h
  obtain ⟨hI, hE⟩ := hp s h
  unfold Prog.mapError
  cases hs : p s with
  | mk x s' =>
    rw [hs] at hI hE
    cases x with
    | ok a => exact ⟨hI, nofun⟩
    | error e =>
      refine ⟨hI, fun e' he' => ?_⟩
      cases he'
      exact hf e (hE e rfl)

end Keeps

/-- From related states `p` and `q` end alike and in related states, unless `p` is excused. -/
def Matches (R : σ → τ → Prop) (skip : ε → Prop) (p : Prog σ ε α) (q : Prog τ ε α) : Prop :=
  ∀ s t, R s t →
    (∃ e, (p s).1 = .error e ∧ skip e) ∨ ((p s).1 = (q t).1 ∧ R (p s).2 (q t).2)

/-- The outcomes from two states, when they are known to agree. -/
theorem matches_of_eq {p : Prog σ ε α} {q : Prog τ ε α} {s s' : σ} {t t' : τ} {x : Except ε α}
    (hp : p s = (x, s')) (hq : q t = (x, t')) (h : R s' t') :
    (∃ e, (p s).1 = .error e ∧ skip e) ∨ ((p s).1 = (q t).1 ∧ R (p s).2 (q t).2) := by
  rw [hp, hq]
  exact .inr ⟨rfl, h⟩

/-- Programs that match do so within what the first one keeps. -/
theorem Matches.keeping {p : Prog σ ε α} {q : Prog τ ε α} {I : σ → Prop} {E : ε → Prop}
    (h : Matches R skip p q) (hp : Keeps I E p) :
    Matches (fun s t => R s t ∧ I s) skip p q := by
  rintro s t ⟨hR, hI⟩
  rcases h s t hR with hskip | ⟨hsame, hR'⟩
  · exact .inl hskip
  · exact .inr ⟨hsame, hR', (hp s hI).1⟩

theorem Matches.lift (x : Except ε α) : Matches R skip (Prog.lift x) (Prog.lift x) :=
  fun _ _ h => .inr ⟨rfl, h⟩

theorem Matches.pure (a : α) : Matches R skip (Pure.pure a) (Pure.pure a) := Matches.lift (.ok a)

theorem Matches.bind {p : Prog σ ε α} {q : Prog τ ε α} {f : α → Prog σ ε β} {g : α → Prog τ ε β}
    (hp : Matches R skip p q) (hf : ∀ a, Matches R skip (f a) (g a)) :
    Matches R skip (p >>= f) (q >>= g) := by
  intro s t h
  have hst := hp s t h
  rw [bind_apply, bind_apply]
  cases hs : p s with
  | mk rs s' =>
    cases ht : q t with
    | mk rt t' =>
      rw [hs, ht] at hst
      rcases hst with ⟨e, rfl, he⟩ | ⟨rfl, hR⟩
      · exact .inl ⟨e, rfl, he⟩
      · cases rs with
        | ok a => exact hf a s' t' hR
        | error e => exact .inr ⟨rfl, hR⟩

theorem Matches.mapError {skip' : ε' → Prop} {p : Prog σ ε α} {q : Prog τ ε α} {f : ε → ε'}
    (hp : Matches R skip p q) (hf : ∀ e, skip e → skip' (f e)) :
    Matches R skip' (Prog.mapError f p) (Prog.mapError f q) := by
  intro s t h
  have hst := hp s t h
  unfold Prog.mapError
  cases hs : p s with
  | mk rs s' =>
    cases ht : q t with
    | mk rt t' =>
      rw [hs, ht] at hst
      rcases hst with ⟨e, rfl, he⟩ | ⟨rfl, hR⟩
      · exact .inl ⟨f e, rfl, hf e he⟩
      · cases rs with
        | ok a => exact .inr ⟨rfl, hR⟩
        | error e => exact .inr ⟨rfl, hR⟩

end Matches

end Prog
