import Memcore.Lib.ByteStream

/-!
# Parsing from chunks

A receiver keeps what has arrived and not been parsed yet. With every chunk it parses items off the
front of its buffer, always from the beginning, until one is not complete, and calls back on each.

When every item is a frame, so that the parser recognises it whatever follows and waits on every
proper prefix of it, the chunks do not matter (`feed_frames`): the callback gets the items in order,
each once, and nothing is left.
-/

namespace Incremental

open ByteStream

variable {σ V F : Type}

/-- What a parser makes of the front of a buffer: not enough yet, an item with the index behind it,
or a failure. -/
inductive Parsed (V F : Type) where
  | incomplete
  | item (value : V) (offset : Nat)
  | failed (failure : F)

/-- The parser recognises `e` as `v`, whatever follows, and waits on every proper prefix. -/
structure Frames (parse : List UInt8 → Parsed V F) (e : List UInt8) (v : V) : Prop where
  whole : ∀ rest, parse (e ++ rest) = .item v e.length
  cut : ∀ p, p <+: e → p ≠ e → parse p = .incomplete

/-- The state behind the callback, the bytes that wait, and the failure that ended it. -/
structure Receiver (σ F : Type) where
  state : σ
  buffer : List UInt8
  failure : Option F

/-- A frame has a byte, since the parser cannot both wait on it and recognise it. -/
theorem Frames.ne_nil {parse : List UInt8 → Parsed V F} {e : List UInt8} {v : V}
    (hnil : parse [] = .incomplete) (h : Frames parse e v) : e ≠ [] := by
  rintro rfl
  have hwhole := h.whole []
  rw [List.append_nil, hnil] at hwhole
  cases hwhole

section Receiver

variable (parse : List UInt8 → Parsed V F) (call : σ → V → σ) (diverge : F)

/-- The loop over the items in the buffer; it fails with `diverge` if it has not ended in time. -/
def drain : Nat → List UInt8 → σ → Receiver σ F
  | 0, buf, s => ⟨s, buf, some diverge⟩
  | fuel + 1, buf, s =>
    match parse buf with
    | .incomplete => ⟨s, buf, none⟩
    | .failed f => ⟨s, buf, some f⟩
    | .item v offset => drain fuel (buf.drop offset) (call s v)

/-- A chunk arrives. If every item takes a byte, there are no more items than bytes. -/
def feed (r : Receiver σ F) (chunk : List UInt8) : Receiver σ F :=
  match r.failure with
  | some _ => r
  | none => drain parse call diverge ((r.buffer ++ chunk).length + 1) (r.buffer ++ chunk) r.state

variable {parse}

/-- With a parser that has ended on every buffer and whose items take a byte, so has the loop. -/
theorem drain_ends (hnil : parse [] = .incomplete) (hends : ∀ buf, parse buf ≠ .failed diverge)
    (hpos : ∀ buf v offset, parse buf = .item v offset → 0 < offset) :
    ∀ (fuel : Nat) (buf : List UInt8) (s : σ), buf.length < fuel →
      (drain parse call diverge fuel buf s).failure ≠ some diverge
  | 0, _, _, hf => absurd hf (Nat.not_lt_zero _)
  | fuel + 1, buf, s, hf => by
      rw [drain]
      cases hparse : parse buf with
      | incomplete => exact Option.some_ne_none diverge |>.symm
      | failed f =>
        intro h
        exact hends buf (hparse.trans (congrArg _ (Option.some.inj h)))
      | item v offset =>
        have hoffset := hpos buf v offset hparse
        have hbuf : buf ≠ [] := by
          rintro rfl
          cases hparse.symm.trans hnil
        have hlen : 0 < buf.length := List.length_pos_iff.mpr hbuf
        refine drain_ends hnil hends hpos fuel (buf.drop offset) (call s v) ?_
        rw [List.length_drop]
        omega

/-- The bytes that wait for more: nothing, or a proper prefix of the next frame. -/
inductive Waits : List (List UInt8) → List UInt8 → Prop where
  | nil {es : List (List UInt8)} : Waits es []
  | cut {e q : List UInt8} {es : List (List UInt8)} (part : q <+: e) (ne : q ≠ e) : Waits (e :: es) q

/-- From a prefix of some frames the loop takes the whole ones and leaves what waits. -/
theorem drain_frames (hnil : parse [] = .incomplete) {es : List (List UInt8)} {vs : List V}
    (h : List.Forall₂ (Frames parse) es vs) {p : List UInt8} (hp : p <+: es.flatten) {fuel : Nat}
    (hf : p.length < fuel) (s : σ) :
    ∃ es₁ es₂ vs₁ vs₂ q, es = es₁ ++ es₂ ∧ vs = vs₁ ++ vs₂ ∧ List.Forall₂ (Frames parse) es₂ vs₂ ∧
      p = es₁.flatten ++ q ∧ Waits es₂ q ∧
      drain parse call diverge fuel p s = ⟨vs₁.foldl call s, q, none⟩ := by
  induction h generalizing p fuel s with
  | nil =>
    obtain rfl := List.prefix_nil.mp hp
    obtain ⟨fuel, rfl⟩ := Nat.exists_eq_succ_of_ne_zero (Nat.ne_of_gt hf)
    refine ⟨[], [], [], [], [], rfl, rfl, .nil, rfl, .nil, ?_⟩
    rw [drain, hnil]
    rfl
  | @cons e v es vs hframe hrest ih =>
    obtain ⟨fuel, rfl⟩ := Nat.exists_eq_succ_of_ne_zero (Nat.ne_of_gt (Nat.zero_lt_of_lt hf))
    rw [List.flatten_cons] at hp
    rcases prefix_append_cases hp with ⟨hcut, hne⟩ | ⟨q, rfl, hq⟩
    · refine ⟨[], e :: es, [], v :: vs, p, rfl, rfl, .cons hframe hrest, rfl, .cut hcut hne, ?_⟩
      rw [drain, hframe.cut p hcut hne]
      rfl
    · have hpos : 0 < e.length := List.length_pos_iff.mpr (hframe.ne_nil hnil)
      rw [List.length_append] at hf
      obtain ⟨es₁, es₂, vs₁, vs₂, q', rfl, rfl, hrest', rfl, hwaits, hdrain⟩ :=
        ih hq (show q.length < fuel by omega) (call s v)
      refine ⟨e :: es₁, es₂, v :: vs₁, vs₂, q', rfl, rfl, hrest', ?_, hwaits, ?_⟩
      · rw [List.flatten_cons, List.append_assoc]
      · rw [drain, hframe.whole]
        simp only [List.drop_left]
        exact hdrain

/-- **The chunks do not matter.** Frames that arrive in any pieces are handed over in order, each
once, and nothing is left. -/
theorem feed_frames (hnil : parse [] = .incomplete) (chunks : List (List UInt8))
    {es : List (List UInt8)} {vs : List V} (h : List.Forall₂ (Frames parse) es vs)
    {q : List UInt8} (hwaits : Waits es q) (hall : q ++ chunks.flatten = es.flatten) (s : σ) :
    chunks.foldl (feed parse call diverge) ⟨s, q, none⟩ = ⟨vs.foldl call s, [], none⟩ := by
  induction chunks generalizing es vs q s with
  | nil =>
    rw [List.flatten_nil, List.append_nil] at hall
    -- what waits is not a whole frame, so there is none
    cases h with
    | nil =>
      rw [hall]
      rfl
    | @cons e v es vs hframe _ =>
      have hlen := congrArg List.length hall
      rw [List.flatten_cons, List.length_append] at hlen
      have hpos : 0 < e.length := List.length_pos_iff.mpr (hframe.ne_nil hnil)
      cases hwaits with
      | nil =>
        rw [List.length_nil] at hlen
        omega
      | cut part ne =>
        exact absurd (part.eq_of_length_le (by omega)) ne
  | cons c chunks ih =>
    rw [List.flatten_cons, ← List.append_assoc] at hall
    have hp : q ++ c <+: es.flatten := ⟨chunks.flatten, hall⟩
    obtain ⟨es₁, es₂, vs₁, vs₂, q', rfl, rfl, hrest, hq', hwaits', hdrain⟩ :=
      drain_frames call diverge hnil h hp (Nat.lt_succ_self _) s
    have hfeed : feed parse call diverge ⟨s, q, none⟩ c = ⟨vs₁.foldl call s, q', none⟩ := hdrain
    rw [List.foldl_cons, hfeed, List.foldl_append]
    refine ih hrest hwaits' ?_ _
    rw [hq', List.append_assoc, List.flatten_append] at hall
    exact List.append_cancel_left hall

end Receiver

end Incremental
