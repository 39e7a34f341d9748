import Memcore.Lib.ByteStream

/-!
# A sequence of encodings cut anywhere

A file of items written one after the other can end at any byte. `fitting es len` is the number of
items, from the front, that lie whole inside the first `len` bytes; a cut is clean when nothing is
left behind them.
-/

namespace ByteStream

/-- How many of the encodings, from the front, lie whole inside the first `len` bytes. -/
def fitting : List (List UInt8) → Nat → Nat
  | [], _ => 0
  | e :: es, len => if e.length ≤ len then fitting es (len - e.length) + 1 else 0

theorem fitting_le_length (es : List (List UInt8)) (len : Nat) : fitting es len ≤ es.length := by
  induction es generalizing len with
  | nil => exact Nat.le_refl 0
  | cons e es ih =>
    rw [fitting]
    split
    next => exact Nat.succ_le_succ (ih _)
    next => exact Nat.zero_le _

/-- Past a whole encoding the count goes on with the rest. -/
theorem fitting_cons_append (e : List UInt8) (es : List (List UInt8)) (q : List UInt8) :
    fitting (e :: es) (e ++ q).length = fitting es q.length + 1 := by
  have hle : e.length ≤ (e ++ q).length := by simp
  have hrest : (e ++ q).length - e.length = q.length := by simp
  rw [fitting, if_pos hle, hrest]

/-- Inside the first encoding nothing fits. -/
theorem fitting_cons_cut {e p : List UInt8} (es : List (List UInt8)) (hp : p <+: e) (hne : p ≠ e) :
    fitting (e :: es) p.length = 0 := by
  have hlt : ¬ e.length ≤ p.length := fun hle => hne (hp.eq_of_length_le hle)
  rw [fitting, if_neg hlt]

theorem fitting_zero {es : List (List UInt8)} (h : ∀ e ∈ es, e ≠ []) : fitting es 0 = 0 := by
  cases es with
  | nil => rfl
  | cons e es =>
    have hpos : 0 < e.length := List.length_pos_iff.mpr (h e List.mem_cons_self)
    rw [fitting, if_neg (Nat.not_le_of_lt hpos)]

theorem fitting_take_flatten {es : List (List UInt8)} (h : ∀ e ∈ es, e ≠ []) {k : Nat}
    (hk : k ≤ es.length) : fitting es (es.take k).flatten.length = k := by
  induction es generalizing k with
  | nil => exact (Nat.le_zero.mp hk).symm
  | cons e es ih =>
    obtain ⟨-, hes⟩ := List.forall_mem_cons.mp h
    cases k with
    | zero => exact fitting_zero h
    | succ k =>
      rw [List.take_succ_cons, List.flatten_cons, fitting_cons_append,
        ih hes (Nat.le_of_succ_le_succ hk)]

/-- A cut is clean at one place only: behind the encodings that fit. -/
theorem clean_cut_iff {es : List (List UInt8)} (h : ∀ e ∈ es, e ≠ []) (p : List UInt8) :
    (∃ k ≤ es.length, p = (es.take k).flatten) ↔ p = (es.take (fitting es p.length)).flatten := by
  constructor
  · rintro ⟨k, hk, rfl⟩
    rw [fitting_take_flatten h hk]
  · intro hp
    exact ⟨_, fitting_le_length es p.length, hp⟩

/-! ## Where a reader sees a clean end -/

variable {ε α β : Type}

/-- The reader never reports a clean end. -/
def NeverEof (r : Reader ε α) : Prop := ∀ s, r s ≠ .error .eof

theorem neverEof_pure (a : α) : NeverEof (pure a : Reader ε α) := by
  intro s h
  cases h

theorem neverEof_unexpectedEnd (r : Reader ε α) : NeverEof (unexpectedEnd r) := by
  intro s
  unfold unexpectedEnd
  cases r s with
  | ok x =>
    intro h
    cases h
  | error e =>
    intro h
    cases e <;> cases h

/-- A clean end of two readers in sequence is one of the first, unless the second can report one. -/
theorem bind_eof {r : Reader ε α} {k : α → Reader ε β} (hk : ∀ a, NeverEof (k a)) {s : List UInt8}
    (h : (r >>= k) s = .error .eof) : r s = .error .eof := by
  cases hr : r s with
  | error e =>
    rw [bind_apply_error hr] at h
    cases h
    rfl
  | ok x =>
    rw [bind_apply_ok hr] at h
    exact absurd h (hk x.1 x.2)

theorem NeverEof.bind {r : Reader ε α} {k : α → Reader ε β} (hr : NeverEof r)
    (hk : ∀ a, NeverEof (k a)) : NeverEof (r >>= k) := by
  intro s h
  exact hr s (bind_eof hk h)

/-- Once a byte was read, an end is not a clean one. -/
theorem readUvarintAux_ne_eof {k : Nat} (hk : k ≤ 10) (x shift : Nat) {s : List UInt8}
    (hs : k ≤ 9 ∨ s ≠ []) : (readUvarintAux k x shift : Reader ε Nat) s ≠ .error .eof := by
  induction k generalizing x shift s with
  | zero =>
    intro h
    cases h
  | succ k ih =>
    cases s with
    | nil =>
      have hlt : k ≠ 9 := by
        rcases hs with hk | hne
        · omega
        · exact absurd rfl hne
      simp only [readUvarintAux, if_neg hlt]
      intro h
      cases h
    | cons b s =>
      simp only [readUvarintAux]
      split
      next =>
        split <;>
        · intro h
          cases h
      next => exact ih (by omega) _ _ (.inl (by omega))

/-- A uvarint meets a clean end only where there is no byte at all. -/
theorem readUvarint_eof {s : List UInt8} (h : (readUvarint : Reader ε Nat) s = .error .eof) :
    s = [] := by
  by_contra hne
  exact readUvarintAux_ne_eof (Nat.le_refl 10) 0 0 (.inr hne) h

end ByteStream
