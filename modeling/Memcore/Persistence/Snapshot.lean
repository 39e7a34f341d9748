import Memcore.Lib.Cut
import Memcore.Lib.Machine
import Memcore.Persistence.Codec

/-!
# Snapshots

`snapshot.go`: a magic string, the base generation, and one record per key up to the end of the
stream. The callbacks of the source become state passing: `apply` gets a state and a record and
gives the state after it, or an error that ends the reading.
-/

namespace Memcore

open Go ByteStream

/-- How reading a file back can fail: in the stream, or in the callback. -/
inductive RecoverError (E : Type) where
  | stream (e : StreamError CodecError)
  | callback (e : E)

/-- `Record`. -/
structure Record where
  db : Int64
  key : Bytes
  expireAt : Int64
  value : Value

/-- `snapshotMagic`. -/
def snapshotMagic : List UInt8 := (ascii "MEMCORE-SNAP1\n").data

/-! ## Writing -/

/-- `writeRecord`. -/
def writeRecord (ord : MapOrder) (r : Record) : Except CodecError (List UInt8) := do
  let v ← writeValue ord r.value
  .ok (putUvarint (toUint64 r.db) ++ (writeBytes r.key ++ (putUint64 r.expireAt.toUInt64 ++ v)))

/-- The records an `emit` function passes to `write`, one after the other; each value has its own
iteration order. -/
def writeRecords (ords : Nat → MapOrder) : Nat → List Record → Except CodecError (List UInt8)
  | _, [] => .ok []
  | k, r :: rs => do
      let b ← writeRecord (ords k) r
      let bs ← writeRecords ords (k + 1) rs
      .ok (b ++ bs)

/-- `WriteSnapshot`. -/
def writeSnapshot (ords : Nat → MapOrder) (baseGen : Int64) (records : List Record) :
    Except CodecError (List UInt8) := do
  let bs ← writeRecords ords 0 records
  .ok (snapshotMagic ++ (putUvarint (toUint64 baseGen) ++ bs))

/-! ## Reading -/

/-- `readRecord`: only an end before the first byte is a clean end. -/
def readRecord (lim : Limits) (rng : Rng) : Read Record := do
  let db ← readUvarint
  let key ← unexpectedEnd readBytes
  let ts ← unexpectedEnd (readFull 8)
  let v ← unexpectedEnd (readValue lim rng)
  pure ⟨ofUint64 db, key, (getUint64 ts).toInt64, v⟩

variable {σ E : Type}

/-- The loop of `ReadSnapshot`; a fuel of one more than the bytes left is enough. -/
def readRecords (lim : Limits) (rngs : Nat → Rng) (apply : σ → Record → σ × Option E) :
    Nat → Nat → List UInt8 → σ → σ × Option (RecoverError E)
  | 0, _, _, s => (s, some (.stream (.other (.panic .diverge))))
  | fuel + 1, k, buf, s =>
    match readRecord lim (rngs k) buf with
    | .error .eof => (s, none)
    | .error e => (s, some (.stream e))
    | .ok (r, rest) =>
      match apply s r with
      | (s, some e) => (s, some (.callback e))
      | (s, none) => readRecords lim rngs apply fuel (k + 1) rest s

/-- `ReadSnapshot`: the state, the base generation and the error, if any. -/
def readSnapshot (lim : Limits) (rngs : Nat → Rng) (apply : σ → Record → σ × Option E)
    (buf : List UInt8) (s : σ) : σ × Int64 × Option (RecoverError E) :=
  match (readFull snapshotMagic.length : Read (List UInt8)) buf with
  | .error .eof => (s, 0, none)
  | .error e => (s, 0, some (.stream e))
  | .ok (magic, buf) =>
    if magic ≠ snapshotMagic then (s, 0, some (.stream (.other .magicMismatch)))
    else
      match unexpectedEnd (readUvarint : Read Nat) buf with
      | .error e => (s, 0, some (.stream e))
      | .ok (baseGen, buf) =>
        let (s, err) := readRecords lim rngs apply (buf.length + 1) 0 buf s
        (s, ofUint64 baseGen, err)

/-- `snapshotBaseGen` on the contents of the snapshot file. -/
def snapshotBaseGen (buf : List UInt8) : Option Int64 :=
  match (readFull snapshotMagic.length : Read (List UInt8)) buf with
  | .error _ => none
  | .ok (magic, buf) =>
    if magic ≠ snapshotMagic then none
    else
      match (readUvarint : Read Nat) buf with
      | .error _ => none
      | .ok (gen, _) => some (ofUint64 gen)

/-! ## Round trip -/

/-- The records agree in everything but the encoding of the value, which stands for `a`. -/
structure Record.Same (lim : Limits) (r r' : Record) : Prop where
  db : r'.db = r.db
  key : r'.key = r.key
  expireAt : r'.expireAt = r.expireAt
  value : ∃ a, r.value.Repr a ∧ r'.value.Repr a ∧ r'.value.Bounded lim

theorem decodes_readRecord {r : Record} {a : AVal} (hv : r.value.Repr a) (hsize : a.size < 2 ^ 64)
    (ord : MapOrder) (lim : Limits) (rng : Rng) :
    ∃ enc r', writeRecord ord r = .ok enc ∧ enc ≠ [] ∧ Decodes (readRecord lim rng) enc r' ∧
      r.Same lim r' := by
  obtain ⟨enc, v', hw, hd, hr, hb⟩ := decodes_readValue hv hsize ord lim rng
  refine ⟨_, ⟨r.db, r.key, r.expireAt, v'⟩, by simp only [writeRecord, hw, bind, Except.bind]; rfl,
    ?_, ?_, rfl, rfl, rfl, a, hv, hr, hb⟩
  · intro h
    exact putUvarint_ne_nil _ (List.append_eq_nil_iff.mp h).1
  · have hts : Decodes (readFull 8 : Read (List UInt8)) (putUint64 r.expireAt.toUInt64)
        (putUint64 r.expireAt.toUInt64) := by
      have h : Decodes (readFull _ : Read (List UInt8)) _ _ :=
        decodes_readFull (putUint64 r.expireAt.toUInt64)
      rwa [putUint64_length] at h
    refine (decodes_readUvarint (toUint64_lt r.db)).bind
      ((decodes_readBytes r.key).unexpectedEnd.bind
        (hts.unexpectedEnd.bind (hd.unexpectedEnd.map fun s => ?_)))
    rw [getUint64_putUint64, ofUint64_toUint64]
    rfl

theorem readRecord_nil (lim : Limits) (rng : Rng) : readRecord lim rng [] = .error .eof := rfl

/-! ## The records up to a cut -/

/-- The encodings of the records, one by one. -/
def recordEncodings (ords : Nat → MapOrder) : Nat → List Record →
    Except CodecError (List (List UInt8))
  | _, [] => .ok []
  | k, r :: rs => do
      let b ← writeRecord (ords k) r
      let bs ← recordEncodings ords (k + 1) rs
      .ok (b :: bs)

/-- `writeRecords` writes the encodings one after the other. -/
theorem writeRecords_eq {ords : Nat → MapOrder} {k : Nat} {records : List Record}
    {encs : List (List UInt8)} (h : recordEncodings ords k records = .ok encs) :
    writeRecords ords k records = .ok encs.flatten := by
  induction records generalizing k encs with
  | nil =>
    cases h
    rfl
  | cons r records ih =>
    simp only [recordEncodings, bind, Except.bind] at h
    cases hw : writeRecord (ords k) r with
    | error e =>
      rw [hw] at h
      cases h
    | ok b =>
      rw [hw] at h
      simp only at h
      cases hs : recordEncodings ords (k + 1) records with
      | error e =>
        rw [hs] at h
        cases h
      | ok bs =>
        rw [hs] at h
        cases h
        simp only [writeRecords, hw, ih hs, bind, Except.bind, List.flatten_cons]

/-- A record meets a clean end only before its first byte. -/
theorem readRecord_eof {lim : Limits} {rng : Rng} {s : List UInt8}
    (h : readRecord lim rng s = .error .eof) : s = [] := by
  refine readUvarint_eof (bind_eof (fun db => ?_) h)
  refine (neverEof_unexpectedEnd _).bind fun key => ?_
  refine (neverEof_unexpectedEnd _).bind fun ts => ?_
  exact (neverEof_unexpectedEnd _).bind fun v => neverEof_pure _

/-- How reading a prefix of the encodings ends, unless the callback ends it: without an error at a
clean cut, and with an unexpected end at any other. -/
def cutError (encs : List (List UInt8)) (p : List UInt8) : Option (RecoverError E) :=
  if p = (encs.take (fitting encs p.length)).flatten then none
  else some (.stream .unexpectedEOF)

theorem cutError_eq_none_iff {encs : List (List UInt8)} {p : List UInt8} :
    cutError (E := E) encs p = none ↔ p = (encs.take (fitting encs p.length)).flatten := by
  unfold cutError
  split
  next h => exact iff_of_true rfl h
  next h => exact iff_of_false (Option.some_ne_none _) h

theorem cutError_cons_append (e : List UInt8) (encs : List (List UInt8)) (q : List UInt8) :
    cutError (E := E) (e :: encs) (e ++ q) = cutError encs q := by
  unfold cutError
  rw [fitting_cons_append, List.take_succ_cons, List.flatten_cons]
  by_cases h : q = (encs.take (fitting encs q.length)).flatten
  · rw [if_pos h, if_pos (by rw [← h])]
  · rw [if_neg h, if_neg fun heq => h (List.append_cancel_left heq)]

/-- Inside a record: its bytes are gone, so the end is unexpected; before it, the end is clean. -/
theorem readRecords_cut {r : Record} {enc p : List UInt8} {lim : Limits} {rngs : Nat → Rng}
    {k : Nat} (hd : Decodes (readRecord lim (rngs k)) enc r) (hp : p <+: enc) (hne : p ≠ enc)
    (encs : List (List UInt8)) (apply : σ → Record → σ × Option E) (fuel : Nat) (s : σ) :
    readRecords lim rngs apply (fuel + 1) k p s = (s, cutError (enc :: encs) p) := by
  have hzero := fitting_cons_cut encs hp hne
  obtain ⟨err, he, hend⟩ := hd.cut p hp hne
  unfold cutError
  rw [hzero, List.take_zero, List.flatten_nil, readRecords, he]
  rcases hend with rfl | rfl
  · rw [if_pos (readRecord_eof he)]
  · rw [if_neg]
    rintro rfl
    cases he.symm.trans (readRecord_nil lim (rngs k))

/-- Reading a prefix of the records, from any count and with any fuel that suffices: the callback
gets the whole records, up to its first error. -/
theorem readRecords_prefix (lim : Limits) (ords : Nat → MapOrder) (rngs : Nat → Rng) :
    ∀ (records : List Record) (k : Nat),
      (∀ r ∈ records, ∃ a, r.value.Repr a ∧ a.size < 2 ^ 64) →
      ∃ encs records', recordEncodings ords k records = .ok encs ∧
        encs.length = records.length ∧ (∀ e ∈ encs, e ≠ []) ∧
        List.Forall₂ (Record.Same lim) records records' ∧
        ∀ {σ E : Type} (apply : σ → Record → σ × Option E) (p : List UInt8) (fuel : Nat) (s : σ),
          p <+: encs.flatten → p.length < fuel →
          readRecords lim rngs apply fuel k p s =
            ((callEach apply (records'.take (fitting encs p.length)) s).1,
              ((callEach apply (records'.take (fitting encs p.length)) s).2.map .callback).or
                (cutError encs p))
  | [], k, _ => by
      refine ⟨[], [], rfl, rfl, List.forall_mem_nil _, .nil, ?_⟩
      intro σ E apply p fuel s hp hf
      obtain rfl := List.prefix_nil.mp hp
      obtain ⟨fuel, rfl⟩ := Nat.exists_eq_succ_of_ne_zero (Nat.ne_of_gt hf)
      rw [readRecords, readRecord_nil]
      rfl
  | r :: records, k, h => by
      obtain ⟨a, hv, hsize⟩ := h r List.mem_cons_self
      obtain ⟨enc, r', hw, hne, hd, hsame⟩ := decodes_readRecord hv hsize (ords k) lim (rngs k)
      obtain ⟨encs, records', hws, hlen, hnes, hall, hread⟩ := readRecords_prefix lim ords rngs
        records (k + 1) fun r hr => h r (List.mem_cons_of_mem _ hr)
      refine ⟨enc :: encs, r' :: records', ?_, congrArg (· + 1) hlen,
        List.forall_mem_cons.mpr ⟨hne, hnes⟩, .cons hsame hall, ?_⟩
      · simp only [recordEncodings, hw, hws, bind, Except.bind]
      · intro σ E apply p fuel s hp hf
        obtain ⟨fuel, rfl⟩ := Nat.exists_eq_succ_of_ne_zero (Nat.ne_of_gt (Nat.zero_lt_of_lt hf))
        rw [List.flatten_cons] at hp
        -- the cut is inside this record, or behind it
        rcases prefix_append_cases hp with ⟨hcut, hcutne⟩ | ⟨q, rfl, hq⟩
        · rw [readRecords_cut hd hcut hcutne encs, fitting_cons_cut encs hcut hcutne]
          rfl
        · have hpos : 0 < enc.length := List.length_pos_iff.mpr hne
          rw [List.length_append] at hf
          rw [fitting_cons_append, List.take_succ_cons, cutError_cons_append, readRecords,
            hd.full q, callEach]
          cases hr' : apply s r' with
          | mk s' err =>
            cases err with
            | some e => simp only [hr', Option.map_some, Option.some_or]
            | none =>
              simp only [hr']
              exact hread apply q fuel s' hq (by omega)

/-- Reading back a list of records applies them one after the other. -/
theorem readRecords_writeRecords (lim : Limits) (ords : Nat → MapOrder) (rngs : Nat → Rng)
    (records : List Record) (k : Nat)
    (h : ∀ r ∈ records, ∃ a, r.value.Repr a ∧ a.size < 2 ^ 64) :
    ∃ enc records', writeRecords ords k records = .ok enc ∧
      List.Forall₂ (Record.Same lim) records records' ∧
      ∀ {σ E : Type} (apply : σ → Record → σ × Option E) (fuel : Nat) (s : σ),
        enc.length < fuel → readRecords lim rngs apply fuel k enc s
          = ((callEach apply records' s).1, (callEach apply records' s).2.map .callback) := by
  obtain ⟨encs, records', henc, hlen, hnes, hsame, hread⟩ :=
    readRecords_prefix lim ords rngs records k h
  refine ⟨encs.flatten, records', writeRecords_eq henc, hsame, ?_⟩
  intro σ E apply fuel s hf
  -- the whole file is the prefix behind its last record
  have hfit : fitting encs encs.flatten.length = encs.length := by
    have htake := fitting_take_flatten hnes (Nat.le_refl encs.length)
    rwa [List.take_length] at htake
  have hclean : cutError (E := E) encs encs.flatten = none := by
    rw [cutError_eq_none_iff, hfit, List.take_length]
  rw [hread apply encs.flatten fuel s (List.prefix_refl _) hf, hfit, hlen, hsame.length_eq,
    List.take_length, hclean, Option.or_none]

theorem decodes_magic : Decodes (readFull snapshotMagic.length : Read (List UInt8)) snapshotMagic
    snapshotMagic :=
  decodes_readFull _

/-- What follows the header of a snapshot is read record by record. -/
theorem readSnapshot_header (lim : Limits) (rngs : Nat → Rng) (apply : σ → Record → σ × Option E)
    (baseGen : Int64) (bs : List UInt8) (s : σ) :
    readSnapshot lim rngs apply
        (snapshotMagic ++ (putUvarint (toUint64 baseGen) ++ bs)) s
      = ((readRecords lim rngs apply (bs.length + 1) 0 bs s).1, baseGen,
          (readRecords lim rngs apply (bs.length + 1) 0 bs s).2) := by
  have hgen : Decodes (unexpectedEnd (readUvarint : Read Nat)) _ _ :=
    (decodes_readUvarint (toUint64_lt baseGen)).unexpectedEnd
  rw [readSnapshot, decodes_magic.full]
  simp only [ne_eq, not_true_eq_false, if_false]
  rw [hgen.full]
  simp only [ofUint64_toUint64]

/-- **A snapshot reads back as what was written**: the base generation, and the records in order,
each with a value that stands for the same. -/
theorem readSnapshot_writeSnapshot (lim : Limits) (ords : Nat → MapOrder) (rngs : Nat → Rng)
    (baseGen : Int64) {records : List Record}
    (h : ∀ r ∈ records, ∃ a, r.value.Repr a ∧ a.size < 2 ^ 64) :
    ∃ enc records', writeSnapshot ords baseGen records = .ok enc ∧
      List.Forall₂ (Record.Same lim) records records' ∧
      (∃ bs, enc = snapshotMagic ++ (putUvarint (toUint64 baseGen) ++ bs)) ∧
      ∀ {σ E : Type} (apply : σ → Record → σ × Option E) (s : σ),
        readSnapshot lim rngs apply enc s = ((callEach apply records' s).1, baseGen,
          (callEach apply records' s).2.map .callback) := by
  obtain ⟨bs, records', hw, hall, hread⟩ := readRecords_writeRecords lim ords rngs records 0 h
  refine ⟨snapshotMagic ++ (putUvarint (toUint64 baseGen) ++ bs), records', ?_, hall, ⟨bs, rfl⟩, ?_⟩
  · simp only [writeSnapshot, hw, bind, Except.bind]
  · intro σ E apply s
    rw [readSnapshot_header, hread apply _ s (Nat.lt_succ_self _)]

/-- **The snapshot format round-trips.** Any records, with values built by the operations of their
kind under any thresholds: the bytes written give back the base generation, and the reader calls
`apply` on the same records in the same order, each value observably equal to the original, whatever
thresholds the reader builds them under. -/
theorem snapshot_round_trip (ords : Nat → MapOrder) (rngs : Nat → Rng) (lim : Limits)
    (baseGen : Int64) (records : List Record) (h : ∀ r ∈ records, r.value.Reachable) :
    ∃ enc records', writeSnapshot ords baseGen records = .ok enc ∧
      List.Forall₂ (fun r r' : Record => r'.db = r.db ∧ r'.key = r.key ∧
        r'.expireAt = r.expireAt ∧ r.value.ObsEq r'.value) records records' ∧
      ∀ {σ E : Type} (apply : σ → Record → σ × Option E) (s : σ),
        readSnapshot lim rngs apply enc s = ((callEach apply records' s).1, baseGen,
          (callEach apply records' s).2.map .callback) := by
  obtain ⟨enc, records', hw, hsame, -, hread⟩ := readSnapshot_writeSnapshot lim ords rngs baseGen
    fun r hr => by
      obtain ⟨a, ha, hsize⟩ := (h r hr).exists_repr
      exact ⟨a, ha, hsize.trans (by decide)⟩
  refine ⟨enc, records', hw, hsame.imp fun r r' hs => ⟨hs.db, hs.key, hs.expireAt, ?_⟩, hread⟩
  obtain ⟨a, hr, hr', -⟩ := hs.value
  exact (Value.obsEq_iff hr hr').mpr rfl

/-- A string in a database no server has, and an empty list with a deadline. -/
theorem snapshot_round_trip_two :
    ∃ enc records', writeSnapshot (fun _ => MapOrder.default) 3
        [⟨-1, ascii "k", 0, .str (ascii "v")⟩, ⟨2, ascii "l", 7, .list (ListVal.new ⟨0, 0⟩)⟩]
        = .ok enc ∧
      List.Forall₂ (fun r r' : Record => r'.db = r.db ∧ r'.key = r.key ∧
        r'.expireAt = r.expireAt ∧ r.value.ObsEq r'.value)
        [⟨-1, ascii "k", 0, .str (ascii "v")⟩, ⟨2, ascii "l", 7, .list (ListVal.new ⟨0, 0⟩)⟩]
        records' ∧
      ∀ {σ E : Type} (apply : σ → Record → σ × Option E) (s : σ),
        readSnapshot ⟨⟨0, 0⟩, ⟨0, 0⟩, ⟨0, 0⟩, ⟨0, 0⟩⟩ (fun _ _ => 0) apply enc s
          = ((callEach apply records' s).1, 3, (callEach apply records' s).2.map .callback) :=
  snapshot_round_trip _ _ _ _ _ (by
    simp only [List.forall_mem_cons]
    exact ⟨.str _, .newList _, nofun⟩)

end Memcore
