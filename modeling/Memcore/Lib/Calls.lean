import Mathlib.Data.List.Basic

/-!
# Calls one after the other

An object is a state with calls: a call returns something and leaves a state, or fails. What an
object is for is said over a state of one's own choice, by which results a call may have there
(`May`) and what it leaves (`after`). If every call of the object keeps to that under some relation
between the two states, no sequence of calls fails and all its results are allowed
(`callAll_answered`); what a call keeps of the object alone is `callAll_invariant`. The results need
not be determined; how far two of them can be apart, two sequences of them can be
(`Answered.forall₂`). Two objects can also be compared with one another (`answers_forall₂`).
-/

variable {Op Out σ τ E : Type}

/-- What a computation that may fail comes to, when what precedes it may. -/
theorem Except.bind_eq_ok {α β : Type} {x : Except E α} {f : α → Except E β} {b : β} :
    (x >>= f) = .ok b ↔ ∃ a, x = .ok a ∧ f a = .ok b := by
  constructor
  · intro h
    cases x with
    | error e => cases h
    | ok a => exact ⟨a, rfl, h⟩
  · rintro ⟨a, rfl, h⟩
    exact h

/-- Calls one after the other: what they return, and the state after them. -/
def callAll (call : Op → σ → Except E (Out × σ)) : List Op → σ → Except E (List Out × σ)
  | [], s => .ok ([], s)
  | op :: ops, s => do
      let (out, s) ← call op s
      let (outs, s) ← callAll call ops s
      .ok (out :: outs, s)

/-- Results that calls may have one after the other. -/
def Answered (May : τ → Op → Out → Prop) (after : τ → Op → τ) : List Op → τ → List Out → Prop
  | [], _, [] => True
  | op :: ops, t, out :: outs => May t op out ∧ Answered May after ops (after t op) outs
  | _, _, _ => False

/-- Each call is as `P` has it where it is made. -/
def AllMeet (P : τ → Op → Prop) (after : τ → Op → τ) : List Op → τ → Prop
  | [], _ => True
  | op :: ops, t => P t op ∧ AllMeet P after ops (after t op)

section Meet

variable {P Q : τ → Op → Prop} {after : τ → Op → τ}

theorem allMeet_of_forall {ops : List Op} (h : ∀ op ∈ ops, ∀ t, P t op) (t : τ) :
    AllMeet P after ops t := by
  induction ops generalizing t with
  | nil => trivial
  | cons op ops ih =>
    obtain ⟨hop, hops⟩ := List.forall_mem_cons.mp h
    exact ⟨hop t, ih hops _⟩

theorem AllMeet.and : ∀ {ops : List Op} {t : τ}, AllMeet P after ops t → AllMeet Q after ops t →
    AllMeet (fun t op => P t op ∧ Q t op) after ops t
  | [], _, _, _ => trivial
  | _ :: _, _, h, h' => ⟨⟨h.1, h'.1⟩, h.2.and h'.2⟩

theorem allMeet_append {ops' : List Op} : ∀ {ops : List Op} {t : τ},
    AllMeet P after (ops ++ ops') t ↔
      AllMeet P after ops t ∧ AllMeet P after ops' (ops.foldl after t)
  | [], _ => ⟨fun h => ⟨trivial, h⟩, fun h => h.2⟩
  | op :: ops, t => by
      rw [List.cons_append, AllMeet, AllMeet, allMeet_append, and_assoc]
      rfl

/-- If not all calls are, there is a first one that is not. -/
theorem exists_of_not_allMeet {ops : List Op} {t : τ} (h : ¬ AllMeet P after ops t) :
    ∃ ops' op, ops' ++ [op] <+: ops ∧ AllMeet P after ops' t ∧ ¬ P (ops'.foldl after t) op := by
  induction ops generalizing t with
  | nil => exact absurd trivial h
  | cons op ops ih =>
    by_cases hop : P t op
    · obtain ⟨ops', op', hpre, hmeet, hnot⟩ := ih fun hops => h ⟨hop, hops⟩
      exact ⟨op :: ops', op', List.cons_prefix_cons.mpr ⟨rfl, hpre⟩, ⟨hop, hmeet⟩, hnot⟩
    · exact ⟨[], op, List.cons_prefix_cons.mpr ⟨rfl, List.nil_prefix⟩, trivial, hop⟩

end Meet

section Calls

variable {call : Op → σ → Except E (Out × σ)}

theorem callAll_cons {op : Op} {ops : List Op} {s s₁ s' : σ} {out : Out} {outs : List Out}
    (h : call op s = .ok (out, s₁)) (hrest : callAll call ops s₁ = .ok (outs, s')) :
    callAll call (op :: ops) s = .ok (out :: outs, s') := by
  rw [callAll, h]
  show (callAll call ops s₁ >>= _) = _
  rw [hrest]
  rfl

theorem callAll_append {s s₁ s' : σ} {ops ops' : List Op} {outs outs' : List Out}
    (h : callAll call ops s = .ok (outs, s₁)) (hrest : callAll call ops' s₁ = .ok (outs', s')) :
    callAll call (ops ++ ops') s = .ok (outs ++ outs', s') := by
  induction ops generalizing s outs with
  | nil =>
    cases h
    exact hrest
  | cons op ops ih =>
    rw [callAll] at h
    obtain ⟨⟨out, s₂⟩, hop, h⟩ := Except.bind_eq_ok.mp h
    obtain ⟨⟨outs₂, s₃⟩, hops, h⟩ := Except.bind_eq_ok.mp h
    cases h
    exact callAll_cons hop (ih hops)

theorem callAll_snoc {s s₁ s' : σ} {ops : List Op} {op : Op} {outs : List Out} {out : Out}
    (h : callAll call ops s = .ok (outs, s₁)) (hop : call op s₁ = .ok (out, s')) :
    callAll call (ops ++ [op]) s = .ok (outs ++ [out], s') :=
  callAll_append h (callAll_cons hop rfl)

variable {May : τ → Op → Out → Prop} {after : τ → Op → τ} {R : σ → τ → Prop}
  {P : τ → Op → Prop}

/-- **Calls keep to what they are for**: a relation that each of them keeps, a sequence keeps. -/
theorem callAll_answered
    (hcall : ∀ s t op, R s t → P t op →
      ∃ out s', call op s = .ok (out, s') ∧ May t op out ∧ R s' (after t op))
    {ops : List Op} {s : σ} {t : τ} (h : R s t) (hops : AllMeet P after ops t) :
    ∃ outs s', callAll call ops s = .ok (outs, s') ∧ Answered May after ops t outs ∧
      R s' (ops.foldl after t) := by
  induction ops generalizing s t with
  | nil => exact ⟨[], s, rfl, trivial, h⟩
  | cons op ops ih =>
    obtain ⟨out, s₁, hrun, hmay, h₁⟩ := hcall s t op h hops.1
    obtain ⟨outs, s', hruns, hall, h'⟩ := ih h₁ hops.2
    exact ⟨out :: outs, s', callAll_cons hrun hruns, ⟨hmay, hall⟩, h'⟩

/-- An invariant under which every call succeeds and that it keeps, a sequence of them keeps. -/
theorem callAll_invariant {I : σ → Prop}
    (hcall : ∀ s op, I s → ∃ out s', call op s = .ok (out, s') ∧ I s') (ops : List Op) {s : σ}
    (h : I s) : ∃ outs s', callAll call ops s = .ok (outs, s') ∧ I s' := by
  induction ops generalizing s with
  | nil => exact ⟨[], s, rfl, h⟩
  | cons op ops ih =>
    obtain ⟨out, s₁, hrun, h₁⟩ := hcall s op h
    obtain ⟨outs, s', hruns, h'⟩ := ih h₁
    exact ⟨out :: outs, s', callAll_cons hrun hruns, h'⟩

/-- Two sequences of results are as close as two results of one call can be. -/
theorem Answered.forall₂ {Close : Out → Out → Prop}
    (hclose : ∀ t op out out', May t op out → May t op out' → Close out out') :
    ∀ {ops : List Op} {t : τ} {outs outs' : List Out}, Answered May after ops t outs →
      Answered May after ops t outs' → List.Forall₂ Close outs outs'
  | [], _, [], [], _, _ => .nil
  | _ :: _, _, _ :: _, _ :: _, h, h' => .cons (hclose _ _ _ _ h.1 h'.1) (Answered.forall₂ hclose h.2 h'.2)

end Calls

/-! ## Calls that cannot fail -/

/-- What calls that cannot fail return one after the other. -/
def answers (call : Op → σ → Out × σ) : List Op → σ → List Out
  | [], _ => []
  | op :: ops, s => (call op s).1 :: answers call ops (call op s).2

/-- Two objects whose calls return results that are close, and keep a relation, cannot be told
apart by more. -/
theorem answers_forall₂ {call : Op → σ → Out × σ} {call' : Op → τ → Out × τ} {R : σ → τ → Prop}
    {Close : Out → Out → Prop}
    (hcall : ∀ s t op, R s t → Close (call op s).1 (call' op t).1 ∧ R (call op s).2 (call' op t).2)
    (ops : List Op) {s : σ} {t : τ} (h : R s t) :
    List.Forall₂ Close (answers call ops s) (answers call' ops t) := by
  induction ops generalizing s t with
  | nil => exact .nil
  | cons op ops ih =>
    obtain ⟨hclose, hnext⟩ := hcall s t op h
    exact .cons hclose (ih hnext)

/-- What is close to the same results is close. -/
theorem forall₂_of_common {Close Near : Out → Out → Prop}
    (hnear : ∀ a b c, Close a c → Close b c → Near a b) {as bs cs : List Out}
    (h : List.Forall₂ Close as cs) (h' : List.Forall₂ Close bs cs) : List.Forall₂ Near as bs := by
  induction h generalizing bs with
  | nil =>
    cases h'
    exact .nil
  | cons hac _ ih =>
    cases h' with
    | cons hbc hrest => exact .cons (hnear _ _ _ hac hbc) (ih hrest)
