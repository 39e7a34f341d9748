import Mathlib.Data.List.Basic
import Mathlib.Tactic.Ring

/-!
# Byte streams, uvarints and truncation-safe decoding

A `Reader` consumes a list of bytes from the front. The primitives follow Go's standard library:
`readByte` and `readFull` report the end of the stream the way `bufio.Reader.ReadByte` and
`io.ReadFull` do, `readUvarint` is `encoding/binary.ReadUvarint` (ten bytes at most, overflow
checked), and `uvarint` is its counterpart on a slice.

The laws are stated through one relation, `Decodes r e a`: the reader `r` recognises the encoding
`e` of `a`. It asks for two things at once, because every use needs both:

* on `e` followed by anything, `r` returns `a` and leaves exactly what follows;
* on a proper prefix of `e`, `r` fails, and it fails with an end-of-stream error.

`Decodes` composes along `>>=` and along a counted repetition, so a whole format gets its round trip
and its behaviour on a cut stream from the same derivation.
-/

namespace ByteStream

/-! ## Readers -/

/-- How reading can fail. `eof` is reported only where nothing at all was read. -/
inductive StreamError (ε : Type) where
  | eof
  | unexpectedEOF
  | overflow
  | other (e : ε)
  deriving Repr, DecidableEq

/-- A reader consumes bytes from the front of a stream. -/
abbrev Reader (ε : Type) := StateT (List UInt8) (Except (StreamError ε))

variable {ε α β : Type}

/-- The end of the stream was met, before or inside an item. -/
def StreamError.IsEnd (e : StreamError ε) : Prop := e = .eof ∨ e = .unexpectedEOF

/-- Map a clean end of stream to `unexpectedEOF`; every other failure stays as it is. -/
def StreamError.unexpected : StreamError ε → StreamError ε
  | .eof => .unexpectedEOF
  | e => e

theorem StreamError.IsEnd.unexpected {e : StreamError ε} (h : e.IsEnd) :
    e.unexpected = .unexpectedEOF := by
  rcases h with rfl | rfl <;> rfl

/-- Run `r`, reporting an end of stream inside it as unexpected. -/
def unexpectedEnd (r : Reader ε α) : Reader ε α := fun s =>
  match r s with
  | .ok x => .ok x
  | .error e => .error e.unexpected

def fail (e : StreamError ε) : Reader ε α := fun _ => .error e

/-- `bufio.Reader.ReadByte`. -/
def readByte : Reader ε UInt8
  | [] => .error .eof
  | b :: s => .ok (b, s)

/-- `io.ReadFull` into a buffer of `n` bytes: nothing is read when `n = 0`, and an end of stream is
unexpected as soon as one byte was read. -/
def readFull (n : Nat) : Reader ε (List UInt8) := fun s =>
  if n ≤ s.length then .ok (s.take n, s.drop n)
  else if s = [] then .error .eof else .error .unexpectedEOF

@[simp] theorem pure_apply (a : α) (s : List UInt8) :
    (pure a : Reader ε α) s = .ok (a, s) := rfl

theorem bind_apply (r : Reader ε α) (k : α → Reader ε β) (s : List UInt8) :
    (r >>= k) s = match r s with
      | .ok (a, s') => k a s'
      | .error e => .error e := by
  show (r s >>= fun x => k x.1 x.2) = _
  cases r s <;> rfl

theorem bind_apply_ok {r : Reader ε α} {k : α → Reader ε β} {s s' : List UInt8} {a : α}
    (h : r s = .ok (a, s')) : (r >>= k) s = k a s' := by
  rw [bind_apply, h]

theorem bind_apply_error {r : Reader ε α} {k : α → Reader ε β} {s : List UInt8}
    {e : StreamError ε} (h : r s = .error e) : (r >>= k) s = .error e := by
  rw [bind_apply, h]

/-! ## Truncation-safe decoding -/

/-- `r` recognises `e` as the encoding of `a`, whatever follows, and meets the end of the stream on
every proper prefix of `e`. -/
structure Decodes (r : Reader ε α) (e : List UInt8) (a : α) : Prop where
  full : ∀ rest, r (e ++ rest) = .ok (a, rest)
  cut : ∀ p, p <+: e → p ≠ e → ∃ err, r p = .error err ∧ err.IsEnd

/-- A prefix of `e₁ ++ e₂` ends inside `e₁`, or is `e₁` and a prefix of `e₂`. -/
theorem prefix_append_cases {p e₁ e₂ : List UInt8} (h : p <+: e₁ ++ e₂) :
    (p <+: e₁ ∧ p ≠ e₁) ∨ ∃ q, p = e₁ ++ q ∧ q <+: e₂ := by
  obtain ⟨t, ht⟩ := h
  rcases List.append_eq_append_iff.mp ht with ⟨u, hu, -⟩ | ⟨u, hu, hq⟩
  · by_cases hp : p = e₁
    · exact .inr ⟨[], by simp [hp], List.nil_prefix⟩
    · exact .inl ⟨⟨u, hu.symm⟩, hp⟩
  · exact .inr ⟨u, hu, ⟨t, hq.symm⟩⟩

theorem decodes_pure (a : α) : Decodes (pure a : Reader ε α) [] a where
  full _ := rfl
  cut _ hp hne := absurd (List.prefix_nil.mp hp) hne

theorem Decodes.bind {r : Reader ε α} {k : α → Reader ε β} {e₁ e₂ : List UInt8} {a : α} {b : β}
    (h₁ : Decodes r e₁ a) (h₂ : Decodes (k a) e₂ b) : Decodes (r >>= k) (e₁ ++ e₂) b where
  full rest := by
    rw [List.append_assoc, bind_apply_ok (h₁.full _)]
    exact h₂.full rest
  cut p hp hne := by
    rcases prefix_append_cases hp with ⟨hp₁, hne₁⟩ | ⟨q, rfl, hq⟩
    · obtain ⟨err, he, hend⟩ := h₁.cut p hp₁ hne₁
      exact ⟨err, bind_apply_error he, hend⟩
    · obtain ⟨err, he, hend⟩ := h₂.cut q hq (fun h => hne (by rw [h]))
      exact ⟨err, by rw [bind_apply_ok (h₁.full q), he], hend⟩

/-- Post-processing the decoded value keeps the encoding. -/
theorem Decodes.map {r : Reader ε α} {e : List UInt8} {a : α} (h : Decodes r e a)
    {k : α → Reader ε β} {b : β} (hk : ∀ s, k a s = .ok (b, s)) : Decodes (r >>= k) e b := by
  have hka : Decodes (k a) [] b :=
    ⟨fun rest => hk rest, fun p hp hne => absurd (List.prefix_nil.mp hp) hne⟩
  simpa using h.bind hka

theorem Decodes.unexpectedEnd {r : Reader ε α} {e : List UInt8} {a : α} (h : Decodes r e a) :
    Decodes (unexpectedEnd r) e a where
  full rest := by simp [ByteStream.unexpectedEnd, h.full rest]
  cut p hp hne := by
    obtain ⟨err, he, hend⟩ := h.cut p hp hne
    exact ⟨.unexpectedEOF, by simp [ByteStream.unexpectedEnd, he, hend.unexpected], .inr rfl⟩

theorem decodes_readByte (b : UInt8) : Decodes (readByte : Reader ε UInt8) [b] b where
  full _ := rfl
  cut p hp hne := by
    rcases List.prefix_cons_iff.mp hp with rfl | ⟨t, rfl, ht⟩
    · exact ⟨.eof, rfl, .inl rfl⟩
    · exact absurd (by rw [List.prefix_nil.mp ht]) hne

theorem decodes_readFull (l : List UInt8) :
    Decodes (readFull l.length : Reader ε (List UInt8)) l l where
  full rest := by simp [readFull]
  cut p hp hne := by
    have hlt : ¬ l.length ≤ p.length := by
      intro hle
      exact hne (hp.eq_of_length_le hle)
    unfold readFull
    rw [if_neg hlt]
    split
    · exact ⟨.eof, rfl, .inl rfl⟩
    · exact ⟨.unexpectedEOF, rfl, .inr rfl⟩

/-! ### Counted repetition -/

/-- Read `n` items, folding each one into an accumulator as it arrives. -/
def readEach (step : β → Reader ε β) : Nat → β → Reader ε β
  | 0, b => pure b
  | n + 1, b => do
      let b ← step b
      readEach step n b

/-- If reading the encoding of the next item of `all` keeps the invariant `I` between the items read
and the accumulator, then reading the encodings of `all` establishes it for all of them. -/
theorem decodes_readEach {γ : Type} (step : β → Reader ε β) {enc : γ → List UInt8} {all : List γ}
    (I : List γ → β → Prop)
    (hstep : ∀ done c l b, all = done ++ c :: l → I done b →
      ∃ b', Decodes (step b) (enc c) b' ∧ I (done ++ [c]) b') :
    ∀ (l done : List γ) (b : β), all = done ++ l → I done b →
      ∃ b', Decodes (readEach step l.length b) (l.flatMap enc) b' ∧ I all b'
  | [], done, b, hall, hI => ⟨b, decodes_pure b, by rwa [hall, List.append_nil]⟩
  | c :: l, done, b, hall, hI => by
      obtain ⟨b₁, hc, hI₁⟩ := hstep done c l b hall hI
      obtain ⟨b', hl, hI'⟩ := decodes_readEach step I hstep l (done ++ [c]) b₁
        (by simpa using hall) hI₁
      exact ⟨b', hc.bind hl, hI'⟩

/-! ## Uvarints -/

/-- The bytes of `x`, seven bits each, least significant first, every byte but the last marked with
the high bit; `k + 1` bytes at most. -/
def putUvarintAux : Nat → Nat → List UInt8
  | 0, x => [x.toUInt8]
  | k + 1, x =>
    if x < 0x80 then [x.toUInt8]
    else (x % 0x80 + 0x80).toUInt8 :: putUvarintAux k (x / 0x80)

/-- `binary.PutUvarint` on a 64-bit value. -/
def putUvarint (x : Nat) : List UInt8 := putUvarintAux 9 x

/-- The loop of `binary.ReadUvarint` with `k` of its ten iterations left; `x` is the value read so
far and `s` the shift of the next byte. -/
def readUvarintAux : Nat → Nat → Nat → Reader ε Nat
  | 0, _, _ => fail .overflow
  | k + 1, x, s => fun stream =>
    match stream with
    | [] => .error (if k = 9 then .eof else .unexpectedEOF)
    | b :: rest =>
      if b.toNat < 0x80 then
        if k = 0 ∧ 1 < b.toNat then .error .overflow
        else .ok (x + b.toNat * 2 ^ s, rest)
      else readUvarintAux k (x + b.toNat % 0x80 * 2 ^ s) (s + 7) rest

/-- `binary.ReadUvarint`. -/
def readUvarint : Reader ε Nat := readUvarintAux 10 0 0

/-- The loop of `binary.Uvarint` from index `i` on. -/
def uvarintAux (i x s : Nat) : List UInt8 → Nat × Int
  | [] => (0, 0)
  | b :: rest =>
    if i = 10 then (0, -(i + 1))
    else if b.toNat < 0x80 then
      if i = 9 ∧ 1 < b.toNat then (0, -(i + 1))
      else (x + b.toNat * 2 ^ s, i + 1)
    else uvarintAux (i + 1) (x + b.toNat % 0x80 * 2 ^ s) (s + 7) rest

/-- `binary.Uvarint`: the value at the front of a slice and the number of bytes it takes, which is
`0` when the slice ends inside it and negative when it overflows. -/
def uvarint (buf : List UInt8) : Nat × Int := uvarintAux 0 0 0 buf

theorem toNat_toUInt8 {n : Nat} (h : n < 256) : n.toUInt8.toNat = n := by
  simp [Nat.mod_eq_of_lt h]

theorem putUvarintAux_ne_nil (k x : Nat) : putUvarintAux k x ≠ [] := by
  cases k with
  | zero => simp [putUvarintAux]
  | succ k =>
    rw [putUvarintAux]
    split <;> simp

theorem putUvarint_ne_nil (x : Nat) : putUvarint x ≠ [] := putUvarintAux_ne_nil 9 x

/-- A value below `2 ^ (7 k + 8)` loses one byte and stays in range. -/
theorem div_lt_of_lt_pow {n k : Nat} (h : n < 2 ^ (7 * (k + 1) + 1)) :
    n / 0x80 < 2 ^ (7 * k + 1) := by
  rw [Nat.div_lt_iff_lt_mul (by decide)]
  have he : 2 ^ (7 * (k + 1) + 1) = 2 ^ (7 * k + 1) * 0x80 := by
    rw [show 7 * (k + 1) + 1 = 7 * k + 1 + 7 by ring, Nat.pow_add]
  omega

/-- Putting a low byte under the rest of the value. -/
theorem low_add_high (n x s : Nat) :
    x + n % 0x80 * 2 ^ s + n / 0x80 * 2 ^ (s + 7) = x + n * 2 ^ s := by
  have hn : n = n % 0x80 + n / 0x80 * 0x80 := by omega
  have hp : 2 ^ (s + 7) = 0x80 * 2 ^ s := by rw [Nat.pow_add]; ring
  rw [hp]
  conv_rhs => rw [hn]
  ring

theorem readUvarintAux_put (k : Nat) : ∀ (n x s : Nat), n < 2 ^ (7 * k + 1) → ∀ rest,
    (readUvarintAux (k + 1) x s : Reader ε Nat) (putUvarintAux k n ++ rest)
      = .ok (x + n * 2 ^ s, rest) := by
  induction k with
  | zero =>
    intro n x s hn rest
    have hn2 : n < 2 := by simpa using hn
    have hb : n.toUInt8.toNat = n := toNat_toUInt8 (by omega)
    simp only [putUvarintAux, List.singleton_append, readUvarintAux, hb]
    rw [if_pos (by omega), if_neg (by omega)]
  | succ k ih =>
    intro n x s hn rest
    rw [putUvarintAux]
    split
    · next hlt =>
        have hb : n.toUInt8.toNat = n := toNat_toUInt8 (by omega)
        simp only [List.singleton_append, readUvarintAux, hb]
        rw [if_pos hlt, if_neg (by omega)]
    · next hge =>
        have hb : (n % 0x80 + 0x80).toUInt8.toNat = n % 0x80 + 0x80 :=
          toNat_toUInt8 (by omega)
        rw [List.cons_append, readUvarintAux]
        simp only [hb]
        rw [if_neg (by omega), ih _ _ _ (div_lt_of_lt_pow hn),
          show (n % 0x80 + 0x80) % 0x80 = n % 0x80 by omega, low_add_high]

theorem readUvarintAux_cut (k : Nat) : ∀ (n x s : Nat) (p : List UInt8),
    p <+: putUvarintAux k n → p ≠ putUvarintAux k n →
    ∃ err, (readUvarintAux (k + 1) x s : Reader ε Nat) p = .error err ∧ err.IsEnd := by
  have hend : ∀ k : Nat, (if k = 9 then StreamError.eof else .unexpectedEOF : StreamError ε).IsEnd := by
    intro k
    split
    · exact .inl rfl
    · exact .inr rfl
  -- a one-byte encoding has only the empty proper prefix
  have hone : ∀ (k x s : Nat) (b : UInt8) (p : List UInt8), p <+: [b] → p ≠ [b] →
      ∃ err, (readUvarintAux (k + 1) x s : Reader ε Nat) p = .error err ∧ err.IsEnd := by
    intro k x s b p hp hne
    rcases List.prefix_cons_iff.mp hp with rfl | ⟨t, rfl, ht⟩
    · exact ⟨_, rfl, hend k⟩
    · exact absurd (by rw [List.prefix_nil.mp ht]) hne
  induction k with
  | zero => intro n x s p hp hne; exact hone 0 x s _ p hp hne
  | succ k ih =>
    intro n x s p hp hne
    rw [putUvarintAux] at hp hne
    split at hp
    · next hlt =>
        rw [if_pos hlt] at hne
        exact hone (k + 1) x s _ p hp hne
    · next hge =>
        rw [if_neg hge] at hne
        rcases List.prefix_cons_iff.mp hp with rfl | ⟨t, rfl, ht⟩
        · exact ⟨_, rfl, hend (k + 1)⟩
        · have hb : (n % 0x80 + 0x80).toUInt8.toNat = n % 0x80 + 0x80 :=
            toNat_toUInt8 (by omega)
          obtain ⟨err, he, herr⟩ := ih (n / 0x80) (x + n % 0x80 * 2 ^ s) (s + 7) t ht
            (fun h => hne (by rw [h]))
          refine ⟨err, ?_, herr⟩
          rw [readUvarintAux]
          simp only [hb]
          rw [if_neg (by omega), show (n % 0x80 + 0x80) % 0x80 = n % 0x80 by omega, he]

/-- **Uvarints round-trip and are self-delimiting**: every 64-bit value is read back, whatever
follows, and a cut inside it is reported as an end of stream. -/
theorem decodes_readUvarint {n : Nat} (h : n < 2 ^ 64) :
    Decodes (readUvarint : Reader ε Nat) (putUvarint n) n where
  full rest := by
    have hput := @readUvarintAux_put ε 9 n 0 0 h rest
    simpa [readUvarint, putUvarint] using hput
  cut p hp hne := readUvarintAux_cut 9 n 0 0 p hp hne

theorem uvarintAux_put (k : Nat) : ∀ (n x s : Nat), n < 2 ^ (7 * k + 1) → k ≤ 9 → ∀ rest,
    uvarintAux (9 - k) x s (putUvarintAux k n ++ rest)
      = (x + n * 2 ^ s, ((9 - k + (putUvarintAux k n).length : Nat) : Int)) := by
  induction k with
  | zero =>
    intro n x s hn _ rest
    have hn2 : n < 2 := by simpa using hn
    have hb : n.toUInt8.toNat = n := toNat_toUInt8 (by omega)
    simp only [putUvarintAux, List.singleton_append, uvarintAux, hb]
    rw [if_neg (by omega), if_pos (by omega), if_neg (by omega)]
    simp
  | succ k ih =>
    intro n x s hn hk rest
    rw [putUvarintAux]
    split
    · next hlt =>
        have hb : n.toUInt8.toNat = n := toNat_toUInt8 (by omega)
        simp only [List.singleton_append, uvarintAux, hb]
        rw [if_neg (by omega), if_pos hlt, if_neg (by omega)]
        simp
    · next hge =>
        have hb : (n % 0x80 + 0x80).toUInt8.toNat = n % 0x80 + 0x80 :=
          toNat_toUInt8 (by omega)
        rw [List.cons_append, uvarintAux]
        simp only [hb]
        rw [if_neg (by omega), if_neg (by omega), show 9 - (k + 1) + 1 = 9 - k by omega,
          ih _ _ _ (div_lt_of_lt_pow hn) (by omega),
          show (n % 0x80 + 0x80) % 0x80 = n % 0x80 by omega, low_add_high]
        simp
        omega

/-- The slice form agrees: value and width of the uvarint at the front. -/
theorem uvarint_put {n : Nat} (h : n < 2 ^ 64) (rest : List UInt8) :
    uvarint (putUvarint n ++ rest) = (n, ((putUvarint n).length : Int)) := by
  have := uvarintAux_put 9 n 0 0 h (Nat.le_refl _) rest
  simpa [uvarint, putUvarint] using this

/-! ## Little-endian 64-bit words -/

/-- `binary.LittleEndian.PutUint64`, `k` bytes of it. -/
def putLE : Nat → Nat → List UInt8
  | 0, _ => []
  | k + 1, x => (x % 0x100).toUInt8 :: putLE k (x / 0x100)

/-- `binary.LittleEndian.Uint64`, on as many bytes as there are. -/
def getLE : List UInt8 → Nat
  | [] => 0
  | b :: rest => b.toNat + 0x100 * getLE rest

def putUint64 (x : UInt64) : List UInt8 := putLE 8 x.toNat

def getUint64 (b : List UInt8) : UInt64 := UInt64.ofNat (getLE b)

@[simp] theorem putLE_length : ∀ k x, (putLE k x).length = k
  | 0, _ => rfl
  | k + 1, x => by simp [putLE, putLE_length k]

@[simp] theorem putUint64_length (x : UInt64) : (putUint64 x).length = 8 := putLE_length 8 _

theorem getLE_putLE : ∀ (k x : Nat), x < 0x100 ^ k → getLE (putLE k x) = x
  | 0, x, h => by
      have hx : x = 0 := by simpa using h
      simp [putLE, getLE, hx]
  | k + 1, x, h => by
      have hdiv : x / 0x100 < 0x100 ^ k := by
        rw [Nat.div_lt_iff_lt_mul (by decide)]
        rwa [Nat.pow_succ] at h
      simp only [putLE, getLE, getLE_putLE k _ hdiv]
      rw [toNat_toUInt8 (by omega)]
      omega

theorem getUint64_putUint64 (x : UInt64) : getUint64 (putUint64 x) = x := by
  have hx : x.toNat < 0x100 ^ 8 := by
    have := x.toNat_lt
    omega
  rw [getUint64, putUint64, getLE_putLE 8 _ hx, UInt64.ofNat_toNat]

end ByteStream
