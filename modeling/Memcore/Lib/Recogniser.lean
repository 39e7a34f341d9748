import Memcore.Lib.ByteStream
import Memcore.Lib.Stream

/-!
# Recognisers

A program on a stream recognises a relation between values and byte strings if it succeeds exactly
where the stream starts with a string that is related to some value, and then returns this value and
goes past the string. It says both what a parser accepts and that it accepts nothing else, and it
composes along `>>=`: what two programs recognise one after the other is the concatenation.

`Parses` adds what happens where the stream ends inside such a string: the program then fails, with
one of the errors given. This composes as well, since a cut is inside the first string or behind it.
-/

namespace Bufio

open ByteStream (prefix_append_cases)

variable {ε ε' α β : Type}

/-- `p` returns `a` and goes past `w` exactly where the stream starts with a `w` related to `a`. -/
def Recognises (p : Prog Stream ε α) (L : α → List UInt8 → Prop) : Prop :=
  ∀ s a s', p s = (.ok a, s') ↔ ∃ w rest, s.rest = w ++ rest ∧ L a w ∧ s' = s.drop w rest

namespace Recognises

theorem congr {p : Prog Stream ε α} {L M : α → List UInt8 → Prop} (h : Recognises p L)
    (hLM : ∀ a w, L a w ↔ M a w) : Recognises p M := by
  intro s a s'
  simp only [h s a s', hLM]

theorem pure (a : α) : Recognises (Pure.pure a : Prog Stream ε α) fun b w => b = a ∧ w = [] := by
  intro s b s'
  constructor
  · intro h
    cases h
    exact ⟨[], s.rest, rfl, ⟨rfl, rfl⟩, rfl⟩
  · rintro ⟨w, rest, hrest, ⟨rfl, rfl⟩, rfl⟩
    rw [List.nil_append] at hrest
    rw [← hrest]
    rfl

theorem fail (e : ε) : Recognises (Prog.lift (.error e) : Prog Stream ε α) fun _ _ => False := by
  intro s b s'
  simp

theorem mapError {p : Prog Stream ε α} {L : α → List UInt8 → Prop} (h : Recognises p L)
    (f : ε → ε') : Recognises (Prog.mapError f p) L := by
  intro s a s'
  rw [Prog.mapError_eq_ok, h s a s']

theorem bind {p : Prog Stream ε α} {f : α → Prog Stream ε β} {L : α → List UInt8 → Prop}
    {M : α → β → List UInt8 → Prop} (hp : Recognises p L) (hf : ∀ a, Recognises (f a) (M a)) :
    Recognises (p >>= f) fun b w => ∃ a u v, w = u ++ v ∧ L a u ∧ M a b v := by
  intro s b t
  rw [Prog.bind_eq_ok]
  constructor
  · rintro ⟨a, s', hps, hfs⟩
    obtain ⟨u, rest, hrest, hu, rfl⟩ := (hp s a s').mp hps
    obtain ⟨v, rest', hrest', hv, rfl⟩ := (hf a _ b t).mp hfs
    have hmid : rest = v ++ rest' := hrest'
    refine ⟨u ++ v, rest', ?_, ⟨a, u, v, rfl, hu, hv⟩, Stream.drop_drop s u rest v rest'⟩
    rw [hrest, hmid, List.append_assoc]
  · rintro ⟨w, rest, hrest, ⟨a, u, v, rfl, hu, hv⟩, rfl⟩
    refine ⟨a, s.drop u (v ++ rest), (hp s a _).mpr ⟨u, v ++ rest, ?_, hu, rfl⟩, ?_⟩
    · rw [hrest, List.append_assoc]
    · exact (hf a _ b _).mpr ⟨v, rest, rfl, hv, (Stream.drop_drop s u _ v rest).symm⟩

end Recognises

/-! ## The operations of a stream -/

theorem readByte_recognises : Recognises Stream.readByte fun c w => w = [c] := by
  intro s c s'
  unfold Stream.readByte
  cases hs : s.rest with
  | nil => simp
  | cons d rest =>
    constructor
    · intro h
      cases h
      exact ⟨[c], rest, rfl, rfl, rfl⟩
    · rintro ⟨w, rest', hrest, rfl, rfl⟩
      cases hrest
      rfl

theorem readFull_recognises (n : Nat) :
    Recognises (Stream.readFull n) fun bs w => w = bs ∧ bs.length = n := by
  intro s bs s'
  unfold Stream.readFull
  split
  next hn =>
    constructor
    · intro h
      cases h
      exact ⟨_, s.rest.drop n, (List.take_append_drop n s.rest).symm, ⟨rfl, by simp [hn]⟩, rfl⟩
    · rintro ⟨w, rest, hrest, ⟨rfl, rfl⟩, rfl⟩
      rw [hrest, List.take_left, List.drop_left]
  next hn =>
    constructor
    · intro h
      cases h
    · rintro ⟨w, rest, hrest, ⟨rfl, rfl⟩, rfl⟩
      rw [hrest, List.length_append] at hn
      omega

/-- A slice ends with the first delimiter, and fits into the buffer. -/
theorem readSlice_recognises (size : Nat) (delim : UInt8) :
    Recognises (Stream.readSlice size delim) fun line w =>
      w = line ∧ ∃ pre, line = pre ++ [delim] ∧ delim ∉ pre ∧ line.length ≤ size := by
  intro s line s'
  unfold Stream.readSlice
  simp only
  constructor
  · intro h
    split at h
    next hmem =>
      cases h
      obtain ⟨pre, post, hsplit, hpre⟩ := List.eq_append_cons_of_mem hmem
      have hle : (pre ++ [delim]).length ≤ size := by
        have hwindow := congrArg List.length hsplit
        rw [List.length_take] at hwindow
        simp only [List.length_append, List.length_cons, List.length_nil] at hwindow ⊢
        omega
      have hline : s.rest.take (pre ++ [delim]).length = pre ++ [delim] := by
        have htake := congrArg (List.take (pre ++ [delim]).length) hsplit
        rwa [List.take_take, Nat.min_eq_left hle, List.append_cons pre delim post,
          List.take_left] at htake
      rw [hsplit, upTo_eq hpre]
      refine ⟨_, s.rest.drop (pre ++ [delim]).length, ?_, ⟨rfl, pre, rfl, hpre, hle⟩, rfl⟩
      have hall := List.take_append_drop (pre ++ [delim]).length s.rest
      rw [hline] at hall
      exact hall.symm
    next =>
      split at h <;> cases h
  · rintro ⟨w, rest, hrest, ⟨rfl, pre, rfl, hpre, hlen⟩, rfl⟩
    have hwindow : s.rest.take size
        = pre ++ delim :: rest.take (size - (pre ++ [delim]).length) := by
      rw [hrest, List.take_append, List.take_of_length_le hlen, List.append_assoc]
      rfl
    rw [hwindow, if_pos (by simp), upTo_eq hpre, hrest, List.drop_left]

/-! ## Streams that end early -/

/-- `p` recognises `L`, and fails with one of `E` where the stream ends inside a string of `L`. -/
structure Parses (p : Prog Stream ε α) (L : α → List UInt8 → Prop) (E : ε → Prop) : Prop where
  recognises : Recognises p L
  short : ∀ (s : Stream) (a : α) (w : List UInt8), L a w → s.rest <+: w → s.rest ≠ w →
    s.fin = .eof → ∃ e s', p s = (.error e, s') ∧ E e

namespace Parses

variable {E : ε → Prop} {E' : ε' → Prop} {L M : α → List UInt8 → Prop}

theorem congr {p : Prog Stream ε α} (h : Parses p L E) (hLM : ∀ a w, L a w ↔ M a w) :
    Parses p M E where
  recognises := h.recognises.congr hLM
  short s a w hw := h.short s a w ((hLM a w).mpr hw)

theorem pure (a : α) : Parses (Pure.pure a : Prog Stream ε α) (fun b w => b = a ∧ w = []) E where
  recognises := Recognises.pure a
  short s b w hw hcut hne _ := by
    obtain ⟨-, rfl⟩ := hw
    exact absurd (List.prefix_nil.mp hcut) hne

theorem fail (e : ε) : Parses (Prog.lift (.error e) : Prog Stream ε α) (fun _ _ => False) E where
  recognises := Recognises.fail e
  short _ _ _ hw := hw.elim

theorem mapError {p : Prog Stream ε α} (h : Parses p L E) {f : ε → ε'}
    (hf : ∀ e, E e → E' (f e)) : Parses (Prog.mapError f p) L E' where
  recognises := h.recognises.mapError f
  short s a w hw hcut hne hfin := by
    obtain ⟨e, s', hp, he⟩ := h.short s a w hw hcut hne hfin
    exact ⟨f e, s', Prog.mapError_error hp, hf e he⟩

theorem bind {p : Prog Stream ε α} {f : α → Prog Stream ε β} {N : α → β → List UInt8 → Prop}
    (hp : Parses p L E) (hf : ∀ a, Parses (f a) (N a) E) :
    Parses (p >>= f) (fun b w => ∃ a u v, w = u ++ v ∧ L a u ∧ N a b v) E where
  recognises := hp.recognises.bind fun a => (hf a).recognises
  short s b w hw hcut hne hfin := by
    obtain ⟨a, u, v, rfl, hu, hv⟩ := hw
    rcases prefix_append_cases hcut with ⟨hfirst, hproper⟩ | ⟨q, hrest, hq⟩
    · obtain ⟨e, s', hrun, he⟩ := hp.short s a u hu hfirst hproper hfin
      exact ⟨e, s', Prog.bind_apply_error hrun, he⟩
    · -- the first string is whole, and the cut is behind it
      have hrun : p s = (.ok a, s.drop u q) := (hp.recognises s a _).mpr ⟨u, q, hrest, hu, rfl⟩
      rw [Prog.bind_apply_ok hrun]
      refine (hf a).short (s.drop u q) b v hv hq ?_ hfin
      rintro rfl
      exact hne hrest

theorem ite {c : Prop} [Decidable c] {p q : Prog Stream ε α} (hp : c → Parses p L E)
    (hq : ¬ c → Parses q M E) :
    Parses (if c then p else q) (fun a w => if c then L a w else M a w) E := by
  split
  next hc => simpa only [if_pos hc] using hp hc
  next hc => simpa only [if_neg hc] using hq hc

end Parses

/-- How an operation reports that the stream has ended. -/
def Error.AtEnd (e : Error) : Prop := e = .source .eof ∨ e = .unexpectedEOF

theorem readByte_parses : Parses Stream.readByte (fun c w => w = [c]) Error.AtEnd where
  recognises := readByte_recognises
  short s c w hw hcut hne hfin := by
    subst hw
    have hrest : s.rest = [] :=
      List.prefix_nil.mp ((List.prefix_concat_iff.mp hcut).resolve_left hne)
    refine ⟨.source .eof, s, ?_, .inl rfl⟩
    unfold Stream.readByte
    simp only [hrest, hfin]

theorem readFull_parses (n : Nat) :
    Parses (Stream.readFull n) (fun bs w => w = bs ∧ bs.length = n) Error.AtEnd where
  recognises := readFull_recognises n
  short s bs w hw hcut hne hfin := by
    obtain ⟨rfl, rfl⟩ := hw
    have hlen : ¬ w.length ≤ s.rest.length := fun hle => hne (hcut.eq_of_length_le hle)
    refine ⟨shortRead s.rest (.source .eof), s.drop s.rest [], ?_, ?_⟩
    · unfold Stream.readFull
      rw [if_neg hlen, hfin]
    · show (if s.rest = [] then Error.source .eof else .unexpectedEOF).AtEnd
      split
      · exact .inl rfl
      · exact .inr rfl

theorem readSlice_parses (size : Nat) (delim : UInt8) :
    Parses (Stream.readSlice size delim) (fun line w =>
      w = line ∧ ∃ pre, line = pre ++ [delim] ∧ delim ∉ pre ∧ line.length ≤ size) Error.AtEnd where
  recognises := readSlice_recognises size delim
  short s line w hw hcut hne hfin := by
    obtain ⟨rfl, pre, rfl, hpre, hlen⟩ := hw
    -- what is there is a part of `pre`, so it has no delimiter and does not fill the buffer
    have hpart : s.rest <+: pre := (List.prefix_concat_iff.mp hcut).resolve_left hne
    have hmem : delim ∉ s.rest.take size := fun h =>
      hpre (hpart.subset ((List.take_subset _ _) h))
    have hshort : ¬ size ≤ s.rest.length := by
      have hle := hpart.length_le
      rw [List.length_append, List.length_singleton] at hlen
      omega
    refine ⟨.source .eof, s.drop s.rest [], ?_, .inl rfl⟩
    unfold Stream.readSlice
    simp only [if_neg hmem, if_neg hshort, hfin]

end Bufio
