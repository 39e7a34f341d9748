import Mathlib.Logic.Basic

/-!
# Locks that are held

Holders, locks, and the modes in which a lock is held, some of which can be shared. Of the holders of
one lock either there is only one or all of them share it (`Exclusive`). That stays so as long as a
holder only ever takes a lock that is free for it (`Exclusive.step`).
-/

variable {W L M : Type}

/-- Two holders of one lock share it. -/
def Exclusive (Shared : M → Prop) (holds : W → L → M → Prop) : Prop :=
  ∀ ⦃w w' l a b⦄, w ≠ w' → holds w l a → holds w' l b → Shared a ∧ Shared b

/-- The lock can be taken: whoever else holds it shares it, as `w` will. -/
def FreeFor (Shared : M → Prop) (holds : W → L → M → Prop) (w : W) (l : L) (a : M) : Prop :=
  ∀ w' b, w' ≠ w → holds w' l b → Shared a ∧ Shared b

variable {Shared : M → Prop} {holds holds' : W → L → M → Prop}

/-- One holder gives locks back, or takes locks that are free. -/
theorem Exclusive.step (h : Exclusive Shared holds) (w : W)
    (hothers : ∀ w' l b, w' ≠ w → holds' w' l b → holds w' l b)
    (hown : ∀ l a, holds' w l a → holds w l a ∨ FreeFor Shared holds w l a) :
    Exclusive Shared holds' := by
  -- the lock of `w` against the lock of another holder
  have hpair {w' : W} {l : L} {a b : M} (hne : w' ≠ w) (ha : holds' w l a) (hb : holds' w' l b) :
      Shared a ∧ Shared b := by
    have hb' := hothers w' l b hne hb
    rcases hown l a ha with ha' | hfree
    · exact h hne.symm ha' hb'
    · exact hfree w' b hne hb'
  intro w₁ w₂ l a b hne ha hb
  by_cases h₁ : w₁ = w
  · subst h₁
    exact hpair hne.symm ha hb
  · by_cases h₂ : w₂ = w
    · subst h₂
      exact (hpair h₁ hb ha).symm
    · exact h hne (hothers w₁ l a h₁ ha) (hothers w₂ l b h₂ hb)
