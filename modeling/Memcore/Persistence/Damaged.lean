import Memcore.Lib.Raise
import Memcore.Persistence.AppendLog
import Memcore.Value.AnyScore

/-!
# Damaged files

Recovery reads whatever bytes it finds. A tag, a score or a number that means nothing is an error
value, and so is a stream that ends early; the values are rebuilt by operations that succeed on
anything. What is left is the lengths: `readBytes` and `readCommand` allocate what a length or a
count asks for before they know that the bytes exist, and `make` panics beyond the address space.

The readers panic exactly where they come to a length that announces too much
(`readSnapshot_panics_iff`, `replayLoop_panics_iff`). What the callbacks do is their own affair: their
errors are passed on (`replayLoop_callback_iff`), and if such an error stands for a panic, the boot is
aborted just the same.
-/

namespace Memcore

open Go ByteStream

/-! ## Lengths that announce too much -/

/-- A byte string begins here, and its length is more than can be allocated. -/
def OversizedString (s : List UInt8) : Prop :=
  ∃ n t, (readUvarint : Read Nat) s = .ok (n, t) ∧ maxAlloc < n

/-- The items of a collection behind its count: one of them, after whole ones, is `bad`. -/
def SomeItem (next : List UInt8 → List UInt8 → Prop) (bad : List UInt8 → Prop)
    (s : List UInt8) : Prop :=
  ∃ n t, (readUvarint : Read Nat) s = .ok (n, t) ∧ ∃ i < n, ∃ u, Each next i t u ∧ bad u

/-- Two strings in a row, the second behind a whole first one. -/
def OversizedPair (s : List UInt8) : Prop :=
  OversizedString s ∨ ∃ t, Leaves readBytes s t ∧ OversizedString t

/-- The field and the value of a hash. -/
def readPair : Read (Bytes × Bytes) := do
  let field ← readBytes
  let val ← readBytes
  pure (field, val)

/-- The member and the score of a sorted set. -/
def readMember : Read ZMember := do
  let member ← readBytes
  let score ← readScore
  pure ⟨member, score⟩

/-- One of the strings of a value is oversized. -/
inductive OversizedValue : List UInt8 → Prop where
  | str {s : List UInt8} (h : OversizedString s) : OversizedValue (tagString :: s)
  | list {s : List UInt8} (h : SomeItem (Leaves readBytes) OversizedString s) :
      OversizedValue (tagList :: s)
  | hash {s : List UInt8} (h : SomeItem (Leaves readPair) OversizedPair s) :
      OversizedValue (tagHash :: s)
  | set {s : List UInt8} (h : SomeItem (Leaves readBytes) OversizedString s) :
      OversizedValue (tagSet :: s)
  | zset {s : List UInt8} (h : SomeItem (Leaves readMember) OversizedString s) :
      OversizedValue (tagZSet :: s)

/-- The key or the value of a record is oversized. -/
def OversizedRecord (s : List UInt8) : Prop :=
  ∃ db t, (readUvarint : Read Nat) s = .ok (db, t) ∧
    (OversizedString t ∨ ∃ key u, readBytes t = .ok (key, u) ∧
      ∃ ts v, (readFull 8 : Read (List UInt8)) u = .ok (ts, v) ∧ OversizedValue v)

/-- The number of arguments of a logged command is too large, or one of the arguments is. -/
def OversizedCommand (s : List UInt8) : Prop :=
  ∃ db t, (readUvarint : Read Nat) s = .ok (db, t) ∧
    ∃ n u, (readUvarint : Read Nat) t = .ok (n, u) ∧
      (maxAlloc < n * sliceHeader ∨ ∃ i < n, ∃ v, Each (Leaves readBytes) i u v ∧ OversizedString v)

/-! ## The readers panic there and nowhere else -/

/-- An allocation panics beyond the limit, with nothing else it can do. -/
theorem liftRead_makeSlice_eq_panic {size n : Nat} {s : List UInt8} {p : Panic} :
    liftRead (makeSlice size n) s = .error (.other (.panic p)) ↔
      p = .makeslice ∧ maxAlloc < n * size := by
  unfold makeSlice
  by_cases h : n * size ≤ maxAlloc
  · rw [if_pos h]
    exact iff_of_false (fun heq => by cases heq) fun hlt => absurd hlt.2 (by omega)
  · rw [if_neg h]
    constructor
    · rintro ⟨⟩
      exact ⟨rfl, by omega⟩
    · rintro ⟨rfl, -⟩
      rfl

theorem readBytes_eq_panic {s : List UInt8} {p : Panic} :
    readBytes s = .error (.other (.panic p)) ↔ p = .makeslice ∧ OversizedString s := by
  unfold readBytes
  rw [neverRaises_readUvarint.bind_iff]
  simp only [bind_eq_error, liftRead_makeSlice_eq_panic, Nat.mul_one,
    neverRaises_readFull _ _ _, pure_apply, OversizedString]
  constructor
  · rintro ⟨n, t, hn, ⟨rfl, hlt⟩ | ⟨-, u, -, hfalse | ⟨b, v, -, hpure⟩⟩⟩
    · exact ⟨rfl, n, t, hn, hlt⟩
    · exact hfalse.elim
    · cases hpure
  · rintro ⟨rfl, n, t, hn, hlt⟩
    exact ⟨n, t, hn, .inl ⟨rfl, hlt⟩⟩

theorem neverRaises_readScore : NeverRaises readScore := by
  intro s e h
  unfold readScore at h
  obtain ⟨sb, t, -, hpure⟩ := (neverRaises_readFull 8).bind_iff.mp h
  cases hpure

theorem readPair_eq_panic {s : List UInt8} {p : Panic} :
    readPair s = .error (.other (.panic p)) ↔ p = .makeslice ∧ OversizedPair s := by
  unfold readPair OversizedPair
  rw [bind_eq_error, readBytes_eq_panic]
  constructor
  · rintro (⟨rfl, h⟩ | ⟨field, t, hfield, hval⟩)
    · exact ⟨rfl, .inl h⟩
    · rcases bind_eq_error.mp hval with hpanic | ⟨val, u, -, hpure⟩
      · obtain ⟨rfl, h⟩ := readBytes_eq_panic.mp hpanic
        exact ⟨rfl, .inr ⟨t, ⟨field, hfield⟩, h⟩⟩
      · cases hpure
  · rintro ⟨rfl, h | ⟨t, ⟨field, hfield⟩, h⟩⟩
    · exact .inl ⟨rfl, h⟩
    · exact .inr ⟨field, t, hfield, bind_eq_error.mpr (.inl (readBytes_eq_panic.mpr ⟨rfl, h⟩))⟩

theorem readMember_eq_panic {s : List UInt8} {p : Panic} :
    readMember s = .error (.other (.panic p)) ↔ p = .makeslice ∧ OversizedString s := by
  unfold readMember
  rw [bind_eq_error, readBytes_eq_panic]
  refine or_iff_left ?_
  rintro ⟨member, t, -, h⟩
  obtain ⟨score, u, -, hpure⟩ := neverRaises_readScore.bind_iff.mp h
  cases hpure

/-- A collection read item by item into an accumulator that takes anything. -/
theorem readItems_eq_panic {β γ : Type} {item : Read γ} {add : β → γ → Read β} {I : β → Prop}
    {bad : List UInt8 → Prop}
    (hitem : ∀ {s p}, item s = .error (.other (.panic p)) ↔ p = .makeslice ∧ bad s)
    (hadd : ∀ b c, I b → ∃ b', I b' ∧ ∀ t, add b c t = .ok (b', t)) {b : β} (hb : I b)
    {s : List UInt8} {p : Panic} :
    (do let n ← readUvarint
        readEach (fun b => item >>= add b) n b : Read β) s = .error (.other (.panic p)) ↔
      p = .makeslice ∧ SomeItem (Leaves item) bad s := by
  rw [neverRaises_readUvarint.bind_iff]
  simp only [readEach_eq_error hadd _ hb, hitem, SomeItem]
  constructor
  · rintro ⟨n, t, hn, i, hi, u, heach, rfl, hbad⟩
    exact ⟨rfl, n, t, hn, i, hi, u, heach, hbad⟩
  · rintro ⟨rfl, n, t, hn, i, hi, u, heach, hbad⟩
    exact ⟨n, t, hn, i, hi, u, heach, rfl, hbad⟩

/-- `readElements` into a collection whose operation takes anything. -/
theorem readElements_eq_panic {β : Type} {add : β → Bytes → Result β} {I : β → Prop}
    (hadd : ∀ b e, I b → ∃ b', add b e = .ok b' ∧ I b') {b : β} (hb : I b) {s : List UInt8}
    {p : Panic} :
    readElements add b s = .error (.other (.panic p)) ↔
      p = .makeslice ∧ SomeItem (Leaves readBytes) OversizedString s := by
  refine readItems_eq_panic (I := I) readBytes_eq_panic (fun b e hI => ?_) hb
  obtain ⟨b', hb', hI'⟩ := hadd b e hI
  exact ⟨b', hI', fun t => by simp only [liftRead, hb']⟩

theorem readHash_eq_panic {lim : Limits} {s : List UInt8} {p : Panic} :
    readHash lim s = .error (.other (.panic p)) ↔
      p = .makeslice ∧ SomeItem (Leaves readPair) OversizedPair s := by
  have hstep : readHash lim = (do
      let n ← readUvarint
      readEach (fun h => readPair >>= fun fv => do
        let x ← liftRead (HashVal.set h fv.1 fv.2)
        pure x.2) n (HashVal.new lim.hash)) := by
    simp only [readHash, readPair, bind_assoc, pure_bind]
  rw [hstep]
  refine readItems_eq_panic (I := fun h => ∃ m, HashVal.Repr h m) readPair_eq_panic
    (fun h fv hI => ?_) ⟨∅, HashVal.new_repr _⟩
  obtain ⟨m, hr⟩ := hI
  obtain ⟨h', hset, hr'⟩ := HashVal.set_repr hr fv.1 fv.2
  exact ⟨h', ⟨_, hr'⟩, fun t => by simp only [ByteStream.bind_apply, liftRead, hset, pure_apply]⟩

theorem readZSet_eq_panic {lim : Limits} {rng : Rng} {s : List UInt8} {p : Panic} :
    readZSet lim rng s = .error (.other (.panic p)) ↔
      p = .makeslice ∧ SomeItem (Leaves readMember) OversizedString s := by
  have hstep : readZSet lim rng = (do
      let n ← readUvarint
      readEach (fun zr : ZSetVal × Rng => readMember >>= fun e => do
        let x ← liftRead (zr.1.add e zr.2)
        pure (x.2.1, x.2.2)) n (ZSetVal.new lim.zset, rng)) := by
    simp only [readZSet, readMember, bind_assoc, pure_bind]
  rw [hstep]
  refine readItems_eq_panic (I := fun zr : ZSetVal × Rng => zr.1.Shaped) readMember_eq_panic
    (fun zr e hI => ?_) (ZSetVal.new_shaped _)
  obtain ⟨added, z', rng', hadd, hz'⟩ := ZSetVal.add_total hI e zr.2
  exact ⟨(z', rng'), hz', fun t => by simp only [ByteStream.bind_apply, liftRead, hadd, pure_apply]⟩

theorem readList_eq_panic {lim : Limits} {s : List UInt8} {p : Panic} :
    readElements ListVal.pushBack (ListVal.new lim.list) s = .error (.other (.panic p)) ↔
      p = .makeslice ∧ SomeItem (Leaves readBytes) OversizedString s := by
  refine readElements_eq_panic (I := fun l => ∃ xs, ListVal.Repr l xs) (fun l e hI => ?_)
    ⟨[], ListVal.new_repr _⟩
  obtain ⟨xs, hr⟩ := hI
  obtain ⟨l', hpush, hr'⟩ := ListVal.pushBack_repr hr e
  exact ⟨l', hpush, _, hr'⟩

theorem readSet_eq_panic {lim : Limits} {s : List UInt8} {p : Panic} :
    readElements (fun s e => (SetVal.add s e).map Prod.snd) (SetVal.new lim.set) s
        = .error (.other (.panic p)) ↔
      p = .makeslice ∧ SomeItem (Leaves readBytes) OversizedString s := by
  refine readElements_eq_panic (I := fun s => ∃ m, SetVal.Repr s m) (fun s e hI => ?_)
    ⟨∅, SetVal.new_repr _⟩
  obtain ⟨m, hr⟩ := hI
  obtain ⟨s', hadd, hr'⟩ := SetVal.add_repr hr e
  exact ⟨s', by simp only [hadd, Except.map], _, hr'⟩

/-- What a reader makes of its result adds no panic. -/
theorem bind_pure_eq_panic {α β : Type} {r : Read α} {f : α → β} {s : List UInt8} {p : Panic} :
    (r >>= fun a => pure (f a)) s = .error (.other (.panic p)) ↔
      r s = .error (.other (.panic p)) := by
  rw [bind_eq_error]
  refine or_iff_left ?_
  rintro ⟨a, t, -, hpure⟩
  cases hpure

theorem readValue_eq_panic {lim : Limits} {rng : Rng} {s : List UInt8} {p : Panic} :
    readValue lim rng s = .error (.other (.panic p)) ↔ p = .makeslice ∧ OversizedValue s := by
  unfold readValue
  rw [neverRaises_readByte.bind_iff]
  constructor
  · rintro ⟨tag, t, htag, h⟩
    cases s with
    | nil => cases htag
    | cons b s =>
      cases htag
      -- one tag after the other, as the `switch` has them
      rcases ite_eq_cases h with ⟨rfl, h⟩ | ⟨-, h⟩
      · obtain ⟨rfl, h'⟩ := readBytes_eq_panic.mp (bind_pure_eq_panic.mp h)
        exact ⟨rfl, .str h'⟩
      rcases ite_eq_cases h with ⟨rfl, h⟩ | ⟨-, h⟩
      · obtain ⟨rfl, h'⟩ := readList_eq_panic.mp (bind_pure_eq_panic.mp h)
        exact ⟨rfl, .list h'⟩
      rcases ite_eq_cases h with ⟨rfl, h⟩ | ⟨-, h⟩
      · obtain ⟨rfl, h'⟩ := readHash_eq_panic.mp (bind_pure_eq_panic.mp h)
        exact ⟨rfl, .hash h'⟩
      rcases ite_eq_cases h with ⟨rfl, h⟩ | ⟨-, h⟩
      · obtain ⟨rfl, h'⟩ := readSet_eq_panic.mp (bind_pure_eq_panic.mp h)
        exact ⟨rfl, .set h'⟩
      rcases ite_eq_cases h with ⟨rfl, h⟩ | ⟨-, h⟩
      · obtain ⟨rfl, h'⟩ := readZSet_eq_panic.mp (bind_pure_eq_panic.mp h)
        exact ⟨rfl, .zset h'⟩
      cases h
  · rintro ⟨rfl, h⟩
    cases h with
    | str h =>
      exact ⟨tagString, _, rfl, bind_pure_eq_panic.mpr (readBytes_eq_panic.mpr ⟨rfl, h⟩)⟩
    | list h =>
      exact ⟨tagList, _, rfl, bind_pure_eq_panic.mpr (readList_eq_panic.mpr ⟨rfl, h⟩)⟩
    | hash h =>
      exact ⟨tagHash, _, rfl, bind_pure_eq_panic.mpr (readHash_eq_panic.mpr ⟨rfl, h⟩)⟩
    | set h =>
      exact ⟨tagSet, _, rfl, bind_pure_eq_panic.mpr (readSet_eq_panic.mpr ⟨rfl, h⟩)⟩
    | zset h =>
      exact ⟨tagZSet, _, rfl, bind_pure_eq_panic.mpr (readZSet_eq_panic.mpr ⟨rfl, h⟩)⟩

theorem readRecord_eq_panic {lim : Limits} {rng : Rng} {s : List UInt8} {p : Panic} :
    readRecord lim rng s = .error (.other (.panic p)) ↔ p = .makeslice ∧ OversizedRecord s := by
  unfold readRecord OversizedRecord
  rw [neverRaises_readUvarint.bind_iff]
  constructor
  · rintro ⟨db, t, hdb, h⟩
    rcases bind_eq_error.mp h with hkey | ⟨key, u, hkey, h⟩
    · obtain ⟨rfl, hbad⟩ := readBytes_eq_panic.mp (unexpectedEnd_eq_other.mp hkey)
      exact ⟨rfl, db, t, hdb, .inl hbad⟩
    · rcases bind_eq_error.mp h with hts | ⟨ts, v, hts, h⟩
      · exact absurd (unexpectedEnd_eq_other.mp hts) (neverRaises_readFull 8 _ _)
      · obtain ⟨rfl, hbad⟩ := readValue_eq_panic.mp
          (unexpectedEnd_eq_other.mp (bind_pure_eq_panic.mp h))
        exact ⟨rfl, db, t, hdb, .inr ⟨key, u, unexpectedEnd_eq_ok.mp hkey, ts, v,
          unexpectedEnd_eq_ok.mp hts, hbad⟩⟩
  · rintro ⟨rfl, db, t, hdb, hbad | ⟨key, u, hkey, ts, v, hts, hbad⟩⟩
    · refine ⟨db, t, hdb, bind_eq_error.mpr (.inl ?_)⟩
      exact unexpectedEnd_eq_other.mpr (readBytes_eq_panic.mpr ⟨rfl, hbad⟩)
    · refine ⟨db, t, hdb, bind_eq_error.mpr (.inr ⟨key, u, unexpectedEnd_eq_ok.mpr hkey, ?_⟩)⟩
      refine bind_eq_error.mpr (.inr ⟨ts, v, unexpectedEnd_eq_ok.mpr hts, ?_⟩)
      exact bind_pure_eq_panic.mpr
        (unexpectedEnd_eq_other.mpr (readValue_eq_panic.mpr ⟨rfl, hbad⟩))

theorem leaves_unexpectedEnd {α : Type} (r : Read α) : Leaves (unexpectedEnd r) = Leaves r := by
  funext s t
  exact propext (exists_congr fun a => unexpectedEnd_eq_ok)

theorem readCommand_eq_panic {s : List UInt8} {p : Panic} :
    readCommand s = .error (.other (.panic p)) ↔ p = .makeslice ∧ OversizedCommand s := by
  -- the loop panics at the first argument whose length is too large
  have hargs : ∀ {n : Nat} {u : List UInt8}, readEach (fun args : List Bytes =>
        (unexpectedEnd readBytes : Read Bytes) >>= fun a => pure (args ++ [a])) n [] u
          = .error (.other (.panic p)) ↔
      p = .makeslice ∧ ∃ i < n, ∃ v, Each (Leaves readBytes) i u v ∧ OversizedString v := by
    intro n u
    rw [readEach_eq_error (I := fun _ => True) (k := fun args a => pure (args ++ [a]))
      (fun args a _ => ⟨args ++ [a], trivial, fun _ => rfl⟩) n trivial, leaves_unexpectedEnd]
    simp only [unexpectedEnd_eq_other, readBytes_eq_panic]
    constructor
    · rintro ⟨i, hi, v, heach, rfl, hbad⟩
      exact ⟨rfl, i, hi, v, heach, hbad⟩
    · rintro ⟨rfl, i, hi, v, heach, hbad⟩
      exact ⟨i, hi, v, heach, rfl, hbad⟩
  unfold readCommand OversizedCommand
  rw [neverRaises_readUvarint.bind_iff]
  constructor
  · rintro ⟨db, t, hdb, h⟩
    rcases bind_eq_error.mp h with hn | ⟨n, u, hn, h⟩
    · exact absurd (unexpectedEnd_eq_other.mp hn) (neverRaises_readUvarint _ _)
    · have hn' := unexpectedEnd_eq_ok.mp hn
      rcases bind_eq_error.mp h with hmake | ⟨_, u', hmake, h⟩
      · obtain ⟨rfl, hlt⟩ := liftRead_makeSlice_eq_panic.mp hmake
        exact ⟨rfl, db, t, hdb, n, u, hn', .inl hlt⟩
      · obtain rfl : u = u' := by
          unfold makeSlice at hmake
          split at hmake <;> cases hmake
          rfl
        obtain ⟨rfl, hbad⟩ := hargs.mp (bind_pure_eq_panic.mp h)
        exact ⟨rfl, db, t, hdb, n, u, hn', .inr hbad⟩
  · rintro ⟨rfl, db, t, hdb, n, u, hn, hbad⟩
    refine ⟨db, t, hdb, bind_eq_error.mpr (.inr ⟨n, u, unexpectedEnd_eq_ok.mpr hn, ?_⟩)⟩
    -- the count alone may be too large already
    by_cases hlt : maxAlloc < n * sliceHeader
    · exact bind_eq_error.mpr (.inl (liftRead_makeSlice_eq_panic.mpr ⟨rfl, hlt⟩))
    · have hmake : liftRead (makeSlice sliceHeader n) u = .ok ((), u) := by
        rw [makeSlice, if_pos (by omega)]
        rfl
      refine bind_eq_error.mpr (.inr ⟨(), u, hmake, bind_pure_eq_panic.mpr (hargs.mpr ⟨rfl, ?_⟩)⟩)
      exact hbad.resolve_left hlt

/-! ## Every item takes a byte, so that the loops end -/

theorem shrinks_liftRead {α : Type} (x : Result α) : Shrinks (liftRead x) := by
  intro s a t h
  unfold liftRead at h
  split at h <;> cases h
  exact Nat.le_refl _

theorem shrinks_readBytes : Shrinks readBytes :=
  shrinks_readUvarint.bind fun _ => (shrinks_liftRead _).bind fun _ =>
    (shrinks_readFull _).bind fun _ => shrinks_pure _

theorem shrinks_readElements {β : Type} (add : β → Bytes → Result β) (b : β) :
    Shrinks (readElements add b) :=
  shrinks_readUvarint.bind fun _ =>
    Shrinks.readEach (fun _ => shrinks_readBytes.bind fun _ => shrinks_liftRead _) _ _

theorem shrinks_readHash (lim : Limits) : Shrinks (readHash lim) :=
  shrinks_readUvarint.bind fun _ => Shrinks.readEach (fun _ => shrinks_readBytes.bind fun _ =>
    shrinks_readBytes.bind fun _ => (shrinks_liftRead _).bind fun _ => shrinks_pure _) _ _

theorem shrinks_readZSet (lim : Limits) (rng : Rng) : Shrinks (readZSet lim rng) :=
  shrinks_readUvarint.bind fun _ => Shrinks.readEach (fun _ => shrinks_readBytes.bind fun _ =>
    ((shrinks_readFull 8).bind fun _ => shrinks_pure _).bind fun _ =>
      (shrinks_liftRead _).bind fun _ => shrinks_pure _) _ _

theorem shrinks_readValue (lim : Limits) (rng : Rng) : Shrinks (readValue lim rng) := by
  refine shrinks_readByte.bind fun tag => ?_
  refine .ite (shrinks_readBytes.bind fun _ => shrinks_pure _) ?_
  refine .ite ((shrinks_readElements _ _).bind fun _ => shrinks_pure _) ?_
  refine .ite ((shrinks_readHash lim).bind fun _ => shrinks_pure _) ?_
  refine .ite ((shrinks_readElements _ _).bind fun _ => shrinks_pure _) ?_
  exact .ite ((shrinks_readZSet lim rng).bind fun _ => shrinks_pure _) (shrinks_fail _)

theorem readRecord_length_lt {lim : Limits} {rng : Rng} {s t : List UInt8} {r : Record}
    (h : readRecord lim rng s = .ok (r, t)) : t.length < s.length := by
  obtain ⟨db, u, hdb, hrest⟩ := bind_eq_ok.mp h
  refine Nat.lt_of_le_of_lt (Shrinks.bind shrinks_readBytes.unexpectedEnd (fun key => ?_) u r t hrest)
    (readUvarint_length_lt hdb)
  exact (shrinks_readFull 8).unexpectedEnd.bind fun _ =>
    (shrinks_readValue lim rng).unexpectedEnd.bind fun _ => shrinks_pure _

theorem readCommand_length_lt {s t : List UInt8} {c : Int64 × List Bytes}
    (h : readCommand s = .ok (c, t)) : t.length < s.length := by
  obtain ⟨db, u, hdb, hrest⟩ := bind_eq_ok.mp h
  refine Nat.lt_of_le_of_lt
    (Shrinks.bind shrinks_readUvarint.unexpectedEnd (fun n => ?_) u c t hrest)
    (readUvarint_length_lt hdb)
  exact (shrinks_liftRead _).bind fun _ => (Shrinks.readEach (fun _ =>
    shrinks_readBytes.unexpectedEnd.bind fun _ => shrinks_pure _) _ _).bind fun _ => shrinks_pure _

section Loops

variable {σ E : Type}

/-- The loop of `ReadSnapshot`: it ends, and panics on the record that announces too much. -/
theorem readRecords_panics_iff {lim : Limits} {rngs : Nat → Rng}
    {apply : σ → Record → σ × Option E} {p : Panic} :
    ∀ (fuel k : Nat) (buf : List UInt8) (s : σ), buf.length < fuel →
      ((readRecords lim rngs apply fuel k buf s).2 = some (.stream (.other (.panic p))) ↔
        p = .makeslice ∧ Reaches (fun k => readRecord lim (rngs k)) apply k buf s
          fun _ rest _ => OversizedRecord rest)
  | 0, _, _, _, hf => absurd hf (Nat.not_lt_zero _)
  | fuel + 1, k, buf, s, hf => by
      have hrecord := @readRecord_eq_panic lim (rngs k) buf p
      rw [readRecords]
      cases hread : readRecord lim (rngs k) buf with
      | error e =>
        rw [reaches_of_error hread, ← hrecord, hread]
        cases e <;> simp
      | ok x =>
        obtain ⟨r, t⟩ := x
        rw [hread] at hrecord
        have hnot : ¬ (p = .makeslice ∧ OversizedRecord buf) := fun h => by cases hrecord.mpr h
        have hlen := readRecord_length_lt hread
        simp only
        cases hcall : apply s r with
        | mk s' err =>
          cases err with
          | some e =>
            rw [reaches_of_refused hread hcall]
            exact iff_of_false (fun h => by cases h) hnot
          | none =>
            simp only
            rw [reaches_of_took hread hcall,
              readRecords_panics_iff fuel (k + 1) t s' (by omega)]
            exact and_congr_right fun hp => (or_iff_right fun h => hnot ⟨hp, h⟩).symm

/-- The loop of `replaySegment`: it ends, and panics on the command that announces too much. -/
theorem replayLoop_panics_iff {replay : σ → Int64 → List Bytes → σ × Option E} {p : Panic} :
    ∀ (fuel : Nat) (buf : List UInt8) (replayed : Nat) (s : σ), buf.length < fuel →
      ((replayLoop replay fuel buf replayed s).2.2 = some (.stream (.other (.panic p))) ↔
        p = .makeslice ∧ Reaches (fun _ => readCommand) (fun s c => replay s c.1 c.2) replayed buf s
          fun _ rest _ => OversizedCommand rest)
  | 0, _, _, _, hf => absurd hf (Nat.not_lt_zero _)
  | fuel + 1, buf, replayed, s, hf => by
      have hcommand := @readCommand_eq_panic buf p
      rw [replayLoop]
      cases hread : readCommand buf with
      | error e =>
        rw [reaches_of_error hread, ← hcommand, hread]
        cases e <;> simp
      | ok x =>
        obtain ⟨⟨db, args⟩, t⟩ := x
        rw [hread] at hcommand
        have hnot : ¬ (p = .makeslice ∧ OversizedCommand buf) := fun h => by cases hcommand.mpr h
        have hlen := readCommand_length_lt hread
        simp only
        cases hcall : replay s db args with
        | mk s' err =>
          cases err with
          | some e =>
            rw [reaches_of_refused hread hcall]
            exact iff_of_false (fun h => by cases h) hnot
          | none =>
            simp only
            rw [reaches_of_took hread hcall,
              replayLoop_panics_iff fuel t (replayed + 1) s' (by omega)]
            exact and_congr_right fun hp => (or_iff_right fun h => hnot ⟨hp, h⟩).symm

/-- An error of the callback of `ReadSnapshot` is one of its errors on a record. -/
theorem readRecords_callback {lim : Limits} {rngs : Nat → Rng} {apply : σ → Record → σ × Option E}
    {e : E} : ∀ {fuel k : Nat} {buf : List UInt8} {s : σ},
      (readRecords lim rngs apply fuel k buf s).2 = some (.callback e) →
        ∃ s r, (apply s r).2 = some e
  | 0, _, _, _, h => by cases h
  | fuel + 1, k, buf, s, h => by
      rw [readRecords] at h
      cases hread : readRecord lim (rngs k) buf with
      | error e => cases e <;> simp [hread] at h
      | ok x =>
        obtain ⟨r, t⟩ := x
        rw [hread] at h
        simp only at h
        cases hcall : apply s r with
        | mk s' err =>
          rw [hcall] at h
          cases err with
          | some e' =>
            cases h
            exact ⟨s, r, congrArg Prod.snd hcall⟩
          | none => exact readRecords_callback h

theorem readSnapshot_callback {lim : Limits} {rngs : Nat → Rng} {apply : σ → Record → σ × Option E}
    {buf : List UInt8} {s : σ} {e : E}
    (h : (readSnapshot lim rngs apply buf s).2.2 = some (.callback e)) :
    ∃ s r, (apply s r).2 = some e := by
  unfold readSnapshot at h
  cases hmagic : (readFull snapshotMagic.length : Read (List UInt8)) buf with
  | error e => cases e <;> simp [hmagic] at h
  | ok x =>
    obtain ⟨magic, q⟩ := x
    simp only [hmagic] at h
    split at h
    · cases h
    · cases hgen : unexpectedEnd (readUvarint : Read Nat) q with
      | error e => simp [hgen] at h
      | ok y =>
        obtain ⟨gen, records⟩ := y
        simp only [hgen] at h
        exact readRecords_callback h

/-- The loop of `replaySegment` ends with an error of the callback on a command it comes to. -/
theorem replayLoop_callback_iff {replay : σ → Int64 → List Bytes → σ × Option E} {e : E} :
    ∀ (fuel : Nat) (buf : List UInt8) (replayed : Nat) (s : σ), buf.length < fuel →
      ((replayLoop replay fuel buf replayed s).2.2 = some (.callback e) ↔
        Reaches (fun _ => readCommand) (fun s c => replay s c.1 c.2) replayed buf s
          fun _ rest s => ∃ db args t, readCommand rest = .ok ((db, args), t) ∧
            (replay s db args).2 = some e)
  | 0, _, _, _, hf => absurd hf (Nat.not_lt_zero _)
  | fuel + 1, buf, replayed, s, hf => by
      rw [replayLoop]
      cases hread : readCommand buf with
      | error e' =>
        rw [reaches_of_error hread, hread]
        refine iff_of_false (fun h => ?_) (by rintro ⟨_, _, _, h, -⟩; cases h)
        cases e' <;> simp at h
      | ok x =>
        obtain ⟨⟨db, args⟩, t⟩ := x
        have hlen := readCommand_length_lt hread
        -- whether the first record is the one that is refused
        have hhere (s : σ) : (∃ db' args' t', readCommand buf = .ok ((db', args'), t') ∧
            (replay s db' args').2 = some e) ↔ (replay s db args).2 = some e := by
          rw [hread]
          constructor
          · rintro ⟨db', args', t', heq, h⟩
            cases heq
            exact h
          · exact fun h => ⟨db, args, t, rfl, h⟩
        simp only
        cases hcall : replay s db args with
        | mk s' err =>
          cases err with
          | some e' =>
            rw [reaches_of_refused hread hcall, hhere, hcall]
            simp
          | none =>
            simp only
            rw [reaches_of_took hread hcall, replayLoop_callback_iff fuel t (replayed + 1) s'
              (by omega), hhere, hcall]
            exact (or_iff_right (Option.some_ne_none e).symm).symm

/-- A file that does not begin with the magic is refused with an error value. -/
theorem readSnapshot_no_magic {lim : Limits} {rngs : Nat → Rng} {apply : σ → Record → σ × Option E}
    {buf : List UInt8} (hno : ∀ q, buf ≠ snapshotMagic ++ q) (s : σ) (p : Panic) :
    (readSnapshot lim rngs apply buf s).2.2 ≠ some (.stream (.other (.panic p))) := by
  have hraise : ∀ e, (readFull snapshotMagic.length : Read (List UInt8)) buf ≠ .error (.other e) :=
    neverRaises_readFull snapshotMagic.length buf
  unfold readSnapshot
  cases hmagic : (readFull snapshotMagic.length : Read (List UInt8)) buf with
  | error e =>
    rw [hmagic] at hraise
    cases e with
    | other e => exact absurd rfl (hraise e)
    | _ => simp
  | ok x =>
    obtain ⟨magic, q⟩ := x
    have hbuf : buf = magic ++ q := by
      unfold readFull at hmagic
      split at hmagic
      next =>
        cases hmagic
        exact (List.take_append_drop _ _).symm
      next => split at hmagic <;> cases hmagic
    have hne : magic ≠ snapshotMagic := fun heq => hno q (heq ▸ hbuf)
    simp [hne]

/-- `ReadSnapshot`: the header cannot panic, and behind it is the loop. -/
theorem readSnapshot_panics_iff {lim : Limits} {rngs : Nat → Rng}
    {apply : σ → Record → σ × Option E} {buf : List UInt8} {s : σ} {p : Panic} :
    (readSnapshot lim rngs apply buf s).2.2 = some (.stream (.other (.panic p))) ↔
      p = .makeslice ∧ ∃ q gen records, buf = snapshotMagic ++ q ∧
        (readUvarint : Read Nat) q = .ok (gen, records) ∧
        Reaches (fun k => readRecord lim (rngs k)) apply 0 records s
          fun _ rest _ => OversizedRecord rest := by
  by_cases hmagic : ∃ q, buf = snapshotMagic ++ q
  · obtain ⟨q, rfl⟩ := hmagic
    unfold readSnapshot
    rw [decodes_magic.full q]
    simp only [ne_eq, not_true_eq_false, if_false]
    cases hgen : unexpectedEnd (readUvarint : Read Nat) q with
    | error e =>
      refine iff_of_false (fun h => ?_) ?_
      · cases h
        exact neverRaises_readUvarint q _ (unexpectedEnd_eq_other.mp hgen)
      · rintro ⟨-, q', gen, records, hq, hread, -⟩
        cases List.append_cancel_left hq
        cases hgen.symm.trans (unexpectedEnd_eq_ok.mpr hread)
    | ok x =>
      obtain ⟨gen, records⟩ := x
      simp only
      rw [readRecords_panics_iff _ 0 records s (Nat.lt_succ_self _)]
      refine and_congr_right fun _ => ⟨fun h => ?_, ?_⟩
      · exact ⟨q, gen, records, rfl, unexpectedEnd_eq_ok.mp hgen, h⟩
      · rintro ⟨q', gen', records', hq, hread, h⟩
        cases List.append_cancel_left hq
        cases hgen.symm.trans (unexpectedEnd_eq_ok.mpr hread)
        exact h
  · refine iff_of_false (readSnapshot_no_magic (fun q hq => hmagic ⟨q, hq⟩) s p) ?_
    rintro ⟨-, q, gen, records, hbuf, -⟩
    exact hmagic ⟨q, hbuf⟩

end Loops

/-- A snapshot whose first key claims 2⁴⁸ + 1 bytes and has none, and a segment whose first command
claims 2⁴⁴ arguments and has none: both abort the boot. -/
theorem recovery_panics_oversized :
    (readSnapshot ⟨⟨0, 0⟩, ⟨0, 0⟩, ⟨0, 0⟩, ⟨0, 0⟩⟩ (fun _ _ => 0)
        (fun (n : Nat) _ => (n + 1, (none : Option Unit)))
        (snapshotMagic ++ [0, 0, 0x81, 0x80, 0x80, 0x80, 0x80, 0x80, 0x40]) 0).2.2
      = some (.stream (.other (.panic .makeslice))) ∧
    (replaySegment (fun (n : Nat) _ _ => (n + 1, (none : Option Unit)))
        [0, 0x80, 0x80, 0x80, 0x80, 0x80, 0x80, 0x04] 0).2.2
      = some (.stream (.other (.panic .makeslice))) := by
  constructor <;> rfl

end Memcore
