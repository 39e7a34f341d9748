import Memcore.Lib.ByteStream

/-!
# Where a reader raises an error of its own

An error of the format is an error that is not an end of the stream. For a reader put together from
others, `bind_eq_error` and `readEach_eq_error` say where it comes from: from the first part, or from
a later one on what the parts before it leave. `Leaves` and `Each` speak of what is left and forget
what was read, so that the answer is a statement about the bytes alone.

The last section is the loop around a reader: it calls back on every item, until the stream ends or
the callback refuses.
-/

namespace ByteStream

variable {ε α β γ : Type}

/-! ## Sequences -/

theorem bind_eq_ok {r : Reader ε α} {k : α → Reader ε β} {s u : List UInt8} {b : β} :
    (r >>= k) s = .ok (b, u) ↔ ∃ a t, r s = .ok (a, t) ∧ k a t = .ok (b, u) := by
  constructor
  · intro h
    cases hr : r s with
    | error e =>
      rw [bind_apply_error hr] at h
      cases h
    | ok x =>
      rw [bind_apply_ok hr] at h
      exact ⟨x.1, x.2, rfl, h⟩
  · rintro ⟨a, t, hr, hk⟩
    rw [bind_apply_ok hr, hk]

/-- A choice between readers does what the chosen one does. -/
theorem ite_eq_cases {p : Prop} [Decidable p] {r r' : Reader ε α} {s : List UInt8}
    {out : Except (StreamError ε) (α × List UInt8)} (h : (if p then r else r') s = out) :
    p ∧ r s = out ∨ ¬ p ∧ r' s = out := by
  split at h
  next hp => exact .inl ⟨hp, h⟩
  next hp => exact .inr ⟨hp, h⟩

/-- A sequence fails where its first part does, or the second on what the first leaves. -/
theorem bind_eq_error {r : Reader ε α} {k : α → Reader ε β} {s : List UInt8} {e : StreamError ε} :
    (r >>= k) s = .error e ↔
      r s = .error e ∨ ∃ a t, r s = .ok (a, t) ∧ k a t = .error e := by
  constructor
  · intro h
    cases hr : r s with
    | error e =>
      rw [bind_apply_error hr] at h
      cases h
      exact .inl rfl
    | ok x =>
      rw [bind_apply_ok hr] at h
      exact .inr ⟨x.1, x.2, rfl, h⟩
  · rintro (hr | ⟨a, t, hr, hk⟩)
    · exact bind_apply_error hr
    · rw [bind_apply_ok hr, hk]

theorem unexpectedEnd_eq_ok {r : Reader ε α} {s t : List UInt8} {a : α} :
    unexpectedEnd r s = .ok (a, t) ↔ r s = .ok (a, t) := by
  unfold unexpectedEnd
  cases r s with
  | ok x => exact Iff.rfl
  | error e => exact iff_of_false (fun h => by cases h) (fun h => by cases h)

/-- An error of the format passes through. -/
theorem unexpectedEnd_eq_other {r : Reader ε α} {s : List UInt8} {e : ε} :
    unexpectedEnd r s = .error (.other e) ↔ r s = .error (.other e) := by
  unfold unexpectedEnd
  cases r s with
  | ok x => exact iff_of_false (fun h => by cases h) (fun h => by cases h)
  | error e' => cases e' <;> simp [StreamError.unexpected]

/-! ## The primitives raise nothing -/

/-- The reader has no error of the format. -/
def NeverRaises (r : Reader ε α) : Prop := ∀ s e, r s ≠ .error (.other e)

theorem neverRaises_readByte : NeverRaises (readByte : Reader ε UInt8) := by
  intro s e h
  cases s <;> cases h

theorem neverRaises_readFull (n : Nat) : NeverRaises (readFull n : Reader ε (List UInt8)) := by
  intro s e h
  unfold readFull at h
  split at h
  next => cases h
  next => split at h <;> cases h

theorem readUvarintAux_ne_other (k x shift : Nat) (s : List UInt8) (e : ε) :
    (readUvarintAux k x shift : Reader ε Nat) s ≠ .error (.other e) := by
  induction k generalizing x shift s with
  | zero =>
    intro h
    cases h
  | succ k ih =>
    cases s with
    | nil =>
      intro h
      simp only [readUvarintAux] at h
      split at h <;> cases h
    | cons b s =>
      simp only [readUvarintAux]
      split
      next =>
        split <;>
        · intro h
          cases h
      next => exact ih _ _ s

theorem neverRaises_readUvarint : NeverRaises (readUvarint : Reader ε Nat) :=
  fun s e => readUvarintAux_ne_other 10 0 0 s e

/-- Behind a part that raises nothing. -/
theorem NeverRaises.bind_iff {r : Reader ε α} (hr : NeverRaises r) {k : α → Reader ε β}
    {s : List UInt8} {e : ε} :
    (r >>= k) s = .error (.other e) ↔ ∃ a t, r s = .ok (a, t) ∧ k a t = .error (.other e) := by
  rw [bind_eq_error]
  exact or_iff_right (hr s e)

/-! ## Repetition -/

/-- The reader takes something off `s` and leaves `t`. -/
def Leaves (r : Reader ε α) (s t : List UInt8) : Prop := ∃ a, r s = .ok (a, t)

/-- `n` items one after the other. -/
inductive Each (next : List UInt8 → List UInt8 → Prop) : Nat → List UInt8 → List UInt8 → Prop where
  | none {s : List UInt8} : Each next 0 s s
  | more {n : Nat} {s t u : List UInt8} (first : next s t) (rest : Each next n t u) :
      Each next (n + 1) s u

/-- A repetition whose accumulator takes every item fails exactly where one of the items does. -/
theorem readEach_eq_error {item : Reader ε γ} {k : β → γ → Reader ε β} {I : β → Prop}
    (hk : ∀ b c, I b → ∃ b', I b' ∧ ∀ t, k b c t = .ok (b', t)) {e : StreamError ε} (n : Nat)
    {b : β} {s : List UInt8} (hb : I b) :
    readEach (fun b => item >>= k b) n b s = .error e ↔
      ∃ i < n, ∃ u, Each (Leaves item) i s u ∧ item u = .error e := by
  induction n generalizing b s with
  | zero =>
    refine iff_of_false (fun h => by cases h) ?_
    rintro ⟨i, hi, -⟩
    exact Nat.not_lt_zero i hi
  | succ n ih =>
    rw [readEach, bind_eq_error]
    constructor
    · rintro (h | ⟨b', t, hstep, h⟩)
      · rcases bind_eq_error.mp h with hitem | ⟨c, t, -, hadd⟩
        · exact ⟨0, Nat.succ_pos n, s, .none, hitem⟩
        · obtain ⟨b', -, hadd'⟩ := hk b c hb
          rw [hadd'] at hadd
          cases hadd
      · obtain ⟨c, t', hitem, hadd⟩ := bind_eq_ok.mp hstep
        obtain ⟨b'', hb'', hadd'⟩ := hk b c hb
        rw [hadd'] at hadd
        cases hadd
        obtain ⟨i, hi, u, heach, hu⟩ := (ih hb'').mp h
        exact ⟨i + 1, Nat.succ_lt_succ hi, u, .more ⟨c, hitem⟩ heach, hu⟩
    · rintro ⟨i, hi, u, heach, hu⟩
      cases heach with
      | none => exact .inl (bind_apply_error hu)
      | more hfirst hrest =>
        obtain ⟨c, hitem⟩ := hfirst
        obtain ⟨b', hb', hadd⟩ := hk b c hb
        refine .inr ⟨b', _, bind_eq_ok.mpr ⟨c, _, hitem, hadd _⟩, ?_⟩
        exact (ih hb').mpr ⟨_, Nat.lt_of_succ_lt_succ hi, u, hrest, hu⟩

/-! ## Progress -/

/-- The reader leaves no more than it was given. -/
def Shrinks (r : Reader ε α) : Prop := ∀ s a t, r s = .ok (a, t) → t.length ≤ s.length

theorem shrinks_pure (a : α) : Shrinks (pure a : Reader ε α) := by
  rintro s b t ⟨⟩
  exact Nat.le_refl _

theorem shrinks_fail (e : StreamError ε) : Shrinks (fail e : Reader ε α) := by
  intro s a t h
  cases h

theorem shrinks_readByte : Shrinks (readByte : Reader ε UInt8) := by
  intro s a t h
  cases s with
  | nil => cases h
  | cons b s =>
    cases h
    exact Nat.le_succ _

theorem shrinks_readFull (n : Nat) : Shrinks (readFull n : Reader ε (List UInt8)) := by
  intro s a t h
  unfold readFull at h
  split at h
  next =>
    cases h
    rw [List.length_drop]
    exact Nat.sub_le _ _
  next => split at h <;> cases h

/-- A number takes at least a byte. -/
theorem readUvarintAux_length_lt (k x shift : Nat) {s t : List UInt8} {n : Nat}
    (h : (readUvarintAux k x shift : Reader ε Nat) s = .ok (n, t)) : t.length < s.length := by
  induction k generalizing x shift s with
  | zero => cases h
  | succ k ih =>
    cases s with
    | nil => cases h
    | cons b s =>
      simp only [readUvarintAux] at h
      split at h
      next =>
        split at h
        next => cases h
        next =>
          cases h
          exact Nat.lt_succ_self _
      next => exact Nat.lt_succ_of_lt (ih _ _ h)

theorem readUvarint_length_lt {s t : List UInt8} {n : Nat}
    (h : (readUvarint : Reader ε Nat) s = .ok (n, t)) : t.length < s.length :=
  readUvarintAux_length_lt 10 0 0 h

theorem shrinks_readUvarint : Shrinks (readUvarint : Reader ε Nat) :=
  fun _ _ _ h => Nat.le_of_lt (readUvarint_length_lt h)

theorem Shrinks.unexpectedEnd {r : Reader ε α} (h : Shrinks r) :
    Shrinks (ByteStream.unexpectedEnd r) :=
  fun s a t ht => h s a t (unexpectedEnd_eq_ok.mp ht)

theorem Shrinks.bind {r : Reader ε α} {k : α → Reader ε β} (hr : Shrinks r)
    (hk : ∀ a, Shrinks (k a)) : Shrinks (r >>= k) := by
  intro s b u h
  obtain ⟨a, t, hra, hka⟩ := bind_eq_ok.mp h
  exact Nat.le_trans (hk a t b u hka) (hr s a t hra)

theorem Shrinks.ite {p : Prop} [Decidable p] {r r' : Reader ε α} (hr : Shrinks r)
    (hr' : Shrinks r') : Shrinks (if p then r else r') := by
  intro s a t h
  rcases ite_eq_cases h with ⟨-, h⟩ | ⟨-, h⟩
  · exact hr s a t h
  · exact hr' s a t h

theorem Shrinks.readEach {step : β → Reader ε β} (h : ∀ b, Shrinks (step b)) (n : Nat) (b : β) :
    Shrinks (readEach step n b) := by
  induction n generalizing b with
  | zero => exact shrinks_pure b
  | succ n ih => exact (h b).bind ih

/-! ## The loop around a reader -/

/-- Whole items were read off the front and the callback took each of them; the rest of the stream is
left, with the number of the next item, on which the reader may depend, and the callback's state. -/
inductive Accepted {σ E : Type} (item : Nat → Reader ε γ) (call : σ → γ → σ × Option E) :
    Nat → List UInt8 → σ → Nat → List UInt8 → σ → Prop where
  | here {k : Nat} {s : List UInt8} {st : σ} : Accepted item call k s st k s st
  | next {k k' : Nat} {s t rest : List UInt8} {st st' end' : σ} {c : γ} (read : item k s = .ok (c, t))
      (took : call st c = (st', none)) (more : Accepted item call (k + 1) t st' k' rest end') :
      Accepted item call k s st k' rest end'

section Accepted

variable {σ E : Type} {item : Nat → Reader ε γ} {call : σ → γ → σ × Option E} {k : Nat}
  {s t : List UInt8} {st st' : σ} {bad : Nat → List UInt8 → σ → Prop} {c : γ}

/-- The loop comes to a place that is `bad`. -/
def Reaches (item : Nat → Reader ε γ) (call : σ → γ → σ × Option E) (k : Nat) (s : List UInt8) (st : σ)
    (bad : Nat → List UInt8 → σ → Prop) : Prop :=
  ∃ k' rest end', Accepted item call k s st k' rest end' ∧ bad k' rest end'

/-- The loop ends where the reader fails. -/
theorem reaches_of_error {e : StreamError ε} (h : item k s = .error e) :
    Reaches item call k s st bad ↔ bad k s st := by
  constructor
  · rintro ⟨k', rest, end', hacc, hbad⟩
    cases hacc with
    | here => exact hbad
    | next hread _ _ => cases hread.symm.trans h
  · intro hbad
    exact ⟨k, s, st, .here, hbad⟩

/-- The loop ends where the callback refuses. -/
theorem reaches_of_refused {e : E} (hread : item k s = .ok (c, t))
    (hcall : call st c = (st', some e)) : Reaches item call k s st bad ↔ bad k s st := by
  constructor
  · rintro ⟨k', rest, end', hacc, hbad⟩
    cases hacc with
    | here => exact hbad
    | next hread' htook _ =>
      cases hread'.symm.trans hread
      cases htook.symm.trans hcall
  · intro hbad
    exact ⟨k, s, st, .here, hbad⟩

/-- Otherwise it goes on behind the item. -/
theorem reaches_of_took (hread : item k s = .ok (c, t)) (htook : call st c = (st', none)) :
    Reaches item call k s st bad ↔ bad k s st ∨ Reaches item call (k + 1) t st' bad := by
  constructor
  · rintro ⟨k', rest, end', hacc, hbad⟩
    cases hacc with
    | here => exact .inl hbad
    | next hread' htook' hmore =>
      cases hread'.symm.trans hread
      cases htook'.symm.trans htook
      exact .inr ⟨k', rest, end', hmore, hbad⟩
  · rintro (hbad | ⟨k', rest, end', hacc, hbad⟩)
    · exact ⟨k, s, st, .here, hbad⟩
    · exact ⟨k', rest, end', .next hread htook hacc, hbad⟩

/-- What every call keeps holds wherever the loop comes to. -/
theorem Accepted.invariant {k' : Nat} {rest : List UInt8} {end' : σ} (I : σ → Prop)
    (h : Accepted item call k s st k' rest end') (hst : I st)
    (hcall : ∀ st c, I st → I (call st c).1) : I end' := by
  induction h with
  | here => exact hst
  | @next _ _ _ _ _ st _ _ c _ htook _ ih =>
    have hnext := hcall st c hst
    rw [htook] at hnext
    exact ih hnext

end Accepted

end ByteStream
