import Memcore.Lib.ByteStream
import Memcore.Value.Value

/-!
# The value codec

`codec.go`: the tagged encoding of the five value kinds. Writing produces the bytes that reach the
file; reading rebuilds a collection through its own operations, under the reader's thresholds.

`decodes_readValue`: reading what was written gives a value that stands for the same thing, whatever
follows it in the stream, and a stream cut inside the value is reported as cut.
-/

namespace Memcore

open Go ByteStream

/-- What a reader or writer reports besides the end of the stream. -/
inductive CodecError where
  | unknownTag (tag : UInt8)
  | cannotEncode (kind : Kind)
  | magicMismatch
  | panic (p : Panic)
deriving DecidableEq

/-- A reader of the persistent format. -/
abbrev Read := Reader CodecError

/-- A value operation inside a reader. -/
def liftRead {α : Type} (x : Result α) : Read α := fun s =>
  match x with
  | .ok a => .ok (a, s)
  | .error p => .error (.other (.panic p))

/-- A value operation inside a writer. -/
def liftWrite {α : Type} (x : Result α) : Except CodecError α :=
  match x with
  | .ok a => .ok a
  | .error p => .error (.panic p)

@[simp] theorem liftWrite_ok {α : Type} (a : α) : liftWrite (.ok a) = .ok a := rfl

/-! ## Tags -/

/-- `tagString`. -/
def tagString : UInt8 := 115

/-- `tagList`. -/
def tagList : UInt8 := 108

/-- `tagHash`. -/
def tagHash : UInt8 := 104

/-- `tagSet`. -/
def tagSet : UInt8 := 112

/-- `tagZSet`. -/
def tagZSet : UInt8 := 122

/-! ## Writing -/

/-- `writeBytes`. -/
def writeBytes (b : Bytes) : List UInt8 := putUvarint b.len ++ b.data

/-- `writeElements`. -/
def writeElements (tag : UInt8) (elems : List Bytes) : List UInt8 :=
  tag :: (putUvarint elems.length ++ elems.flatMap writeBytes)

/-- `writeScore`. -/
def writeScore (s : Score) : List UInt8 := putUint64 s.bits

/-- `writeValue`, a map being visited in the order `ord`. -/
def writeValue (ord : MapOrder) (v : Value) : Except CodecError (List UInt8) :=
  match v with
  | .str b => .ok (tagString :: writeBytes b)
  | .list l => do
      let elems ← liftWrite (l.range 0 (-1))
      .ok (writeElements tagList elems)
  | .hash h => do
      let pairs ← liftWrite (h.pairs ord)
      .ok (tagHash :: (putUvarint (pairs.length / 2) ++ pairs.flatMap writeBytes))
  | .set s => do
      let elems ← liftWrite (s.members ord)
      .ok (writeElements tagSet elems)
  | .zset z => do
      let members ← liftWrite (z.range 0 (-1))
      .ok (tagZSet :: (putUvarint members.length ++
        members.flatMap fun e => writeBytes e.member ++ writeScore e.score))
  | .none => .error (.cannotEncode .none)

/-! ## Reading -/

/-- `readBytes`: the length is allocated before the bytes are read. -/
def readBytes : Read Bytes := do
  let n ← readUvarint
  liftRead (makeSlice 1 n)
  let b ← readFull n
  pure (Bytes.ofList b)

/-- `readElements`, adding each element to a collection as it arrives. -/
def readElements {β : Type} (add : β → Bytes → Result β) (b : β) : Read β := do
  let n ← readUvarint
  readEach (fun b => do
    let e ← readBytes
    liftRead (add b e)) n b

/-- `readScore`. -/
def readScore : Read Score := do
  let sb ← readFull 8
  pure ⟨getUint64 sb⟩

/-- The hash branch of `readValue`. -/
def readHash (lim : Limits) : Read HashVal := do
  let n ← readUvarint
  readEach (fun h => do
    let field ← readBytes
    let val ← readBytes
    let (_, h) ← liftRead (HashVal.set h field val)
    pure h) n (HashVal.new lim.hash)

/-- The sorted-set branch of `readValue`; the set draws its levels from `rng`. -/
def readZSet (lim : Limits) (rng : Rng) : Read (ZSetVal × Rng) := do
  let n ← readUvarint
  readEach (fun ((z, rng) : ZSetVal × Rng) => do
    let member ← readBytes
    let score ← readScore
    let (_, z, rng) ← liftRead (z.add ⟨member, score⟩ rng)
    pure (z, rng)) n (ZSetVal.new lim.zset, rng)

/-- `readValue`. -/
def readValue (lim : Limits) (rng : Rng) : Read Value := do
  let tag ← readByte
  if tag = tagString then do
    let b ← readBytes
    pure (.str b)
  else if tag = tagList then do
    let l ← readElements ListVal.pushBack (ListVal.new lim.list)
    pure (.list l)
  else if tag = tagHash then do
    let h ← readHash lim
    pure (.hash h)
  else if tag = tagSet then do
    let s ← readElements (fun s e => (SetVal.add s e).map Prod.snd) (SetVal.new lim.set)
    pure (.set s)
  else if tag = tagZSet then do
    let zr ← readZSet lim rng
    pure (.zset zr.1)
  else fail (.other (.unknownTag tag))

/-! ## Round trip -/

theorem decodes_readBytes (b : Bytes) : Decodes readBytes (writeBytes b) b := by
  have hmake : ∀ s, liftRead (makeSlice 1 b.len) s = .ok ((), s) := by
    intro s
    have hlen : b.len * 1 ≤ maxAlloc := by
      rw [Nat.mul_one]
      exact b.inMem
    simp only [liftRead, makeSlice, if_pos hlen]
  unfold readBytes writeBytes
  refine (decodes_readUvarint b.len_lt).bind ?_
  have hfull : Decodes (readFull b.len : Read (List UInt8)) b.data b.data :=
    decodes_readFull b.data
  have hbody : Decodes (readFull b.len >>= fun d => pure (Bytes.ofList d) : Read Bytes)
      b.data b :=
    hfull.map fun s => by simp
  have hpre : Decodes (liftRead (makeSlice 1 b.len)) [] () :=
    ⟨fun rest => hmake rest, fun p hp hne => absurd (List.prefix_nil.mp hp) hne⟩
  simpa using hpre.bind hbody

theorem decodes_readScore (s : Score) : Decodes readScore (writeScore s) s := by
  unfold readScore writeScore
  have hlen : (putUint64 s.bits).length = 8 := putUint64_length _
  have hfull : Decodes (readFull 8 : Read (List UInt8)) (putUint64 s.bits) (putUint64 s.bits) := by
    rw [← hlen]
    exact decodes_readFull _
  exact hfull.map fun t => by simp [getUint64_putUint64]

/-- A value operation at the end of a reader's step. -/
theorem decodes_liftRead {α β : Type} {r : Read α} {e : List UInt8} {a : α} (h : Decodes r e a)
    {f : α → Result β} {b : β} (hf : f a = .ok b) :
    Decodes (r >>= fun a => liftRead (f a)) e b :=
  h.map fun s => by simp [liftRead, hf]

theorem decodes_readElements {β : Type} {add : β → Bytes → Result β} (I : List Bytes → β → Prop)
    {elems : List Bytes} (hlen : elems.length < 2 ^ 64)
    (hadd : ∀ done e l b, elems = done ++ e :: l → I done b →
      ∃ b', add b e = .ok b' ∧ I (done ++ [e]) b') {b : β} (hb : I [] b) :
    ∃ b', Decodes (readElements add b) (putUvarint elems.length ++ elems.flatMap writeBytes) b' ∧
      I elems b' := by
  obtain ⟨b', hd, hI⟩ := decodes_readEach
    (fun b => do
      let e ← readBytes
      liftRead (add b e)) I
    (fun done e l b hall hI => by
      obtain ⟨b', ha, hI'⟩ := hadd done e l b hall hI
      exact ⟨b', decodes_liftRead (decodes_readBytes e) ha, hI'⟩) elems [] b rfl hb
  exact ⟨b', (decodes_readUvarint hlen).bind hd, hI⟩

/-- Reading back adds the members at the end of the order. -/
theorem zput_snoc {max : Thresholds} {es : List ZMember} {e : ZMember} (h : ZOrdered (es ++ [e])) :
    zput max e es = es ++ [e] := by
  have hfull := ZSetVal.zputFull_snoc h
  have hnd := h.nodup
  rw [List.map_append, List.nodup_append] at hnd
  have hno : e.member ∉ es.map ZMember.member := fun hm => hnd.2.2 _ hm _ (by simp) rfl
  unfold zput
  split
  · exact hfull
  · rw [zerase_eq_self hno, ← hfull, zputFull, ZOrdered.zscore_eq_none.mpr hno]

theorem decodes_readHash {ps : List (Bytes × Bytes)} {m : GoMap Bytes} (hl : Lists ps m)
    (hn : ps.length < 2 ^ 64) (lim : Limits) :
    ∃ h, Decodes (readHash lim)
      (putUvarint ps.length ++ ps.flatMap fun p => writeBytes p.1 ++ writeBytes p.2) h ∧
      h.Repr m := by
  have hstep : ∀ (done : List (Bytes × Bytes)) (p : Bytes × Bytes) (rest : List (Bytes × Bytes))
      (h : HashVal), ps = done ++ p :: rest → (∃ m', Lists done m' ∧ h.Repr m') →
      ∃ h', Decodes (do
          let field ← readBytes
          let val ← readBytes
          let (_, h) ← liftRead (HashVal.set h field val)
          pure h) (writeBytes p.1 ++ writeBytes p.2) h' ∧
        ∃ m', Lists (done ++ [p]) m' ∧ h'.Repr m' := by
    rintro done p rest h hall ⟨m', hm', hr⟩
    obtain ⟨h', hs, hr'⟩ := HashVal.set_repr hr p.1 p.2
    refine ⟨h', ?_, m'.insert p.1 p.2, hm'.append_new ?_ p.2, hr'⟩
    · refine (decodes_readBytes p.1).bind ((decodes_readBytes p.2).map fun s => ?_)
      simp [ByteStream.bind_apply, liftRead, hs]
    · -- no field is written twice
      rw [hm'.lookup_none]
      have hnd := hl.1
      rw [hall, List.map_append, List.nodup_append] at hnd
      exact fun hmem => hnd.2.2 _ hmem _ (by simp) rfl
  obtain ⟨h, hd, m', hm', hr⟩ := decodes_readEach _ (fun done h => ∃ m', Lists done m' ∧ h.Repr m')
    hstep ps [] (HashVal.new lim.hash) rfl ⟨∅, Lists.empty, HashVal.new_repr _⟩
  rw [hm'.unique hl] at hr
  exact ⟨h, (decodes_readUvarint hn).bind hd, hr⟩

theorem decodes_readZSet {es : List ZMember} (ho : ZOrdered es) (hn : es.length < 2 ^ 64)
    (lim : Limits) (rng : Rng) :
    ∃ zr, Decodes (readZSet lim rng)
      (putUvarint es.length ++ es.flatMap fun e => writeBytes e.member ++ writeScore e.score) zr ∧
      zr.1.Repr es ∧ zr.1.max = lim.zset := by
  have hstep : ∀ (done : List ZMember) (e : ZMember) (rest : List ZMember) (p : ZSetVal × Rng),
      es = done ++ e :: rest → p.1.Repr done ∧ p.1.max = lim.zset →
      ∃ p', Decodes (do
          let member ← readBytes
          let score ← readScore
          let (_, z, rng) ← liftRead (p.1.add ⟨member, score⟩ p.2)
          pure (z, rng)) (writeBytes e.member ++ writeScore e.score) p' ∧
        p'.1.Repr (done ++ [e]) ∧ p'.1.max = lim.zset := by
    rintro done e rest p hall ⟨hr, hmax⟩
    have hpre : ZOrdered (done ++ [e]) := by
      refine ho.sublist ?_
      rw [hall]
      exact List.Sublist.append_left (List.singleton_sublist.mpr List.mem_cons_self) _
    obtain ⟨z', rng', ha, hr', hmax'⟩ := ZSetVal.add_repr hr (hpre.number e (by simp)) p.2
    rw [zput_snoc hpre] at hr'
    refine ⟨(z', rng'), ?_, hr', hmax'.trans hmax⟩
    refine (decodes_readBytes e.member).bind ((decodes_readScore e.score).map fun s => ?_)
    simp [ByteStream.bind_apply, liftRead, ha]
  obtain ⟨zr, hd, hr⟩ := decodes_readEach _
    (fun done p => p.1.Repr done ∧ p.1.max = lim.zset) hstep es []
    (ZSetVal.new lim.zset, rng) rfl ⟨ZSetVal.new_repr _, rfl⟩
  exact ⟨zr, (decodes_readUvarint hn).bind hd, hr⟩

theorem decodes_readSet {xs : List Bytes} (hn : xs.length < 2 ^ 64) (lim : Limits) :
    ∃ s, Decodes (readElements (fun s e => (SetVal.add s e).map Prod.snd) (SetVal.new lim.set))
      (putUvarint xs.length ++ xs.flatMap writeBytes) s ∧ s.Repr xs.toFinset := by
  refine decodes_readElements (fun done s => SetVal.Repr s done.toFinset) hn ?_
    (SetVal.new_repr lim.set)
  intro done e _ s _ hI
  obtain ⟨s', ha, hr'⟩ := SetVal.add_repr hI e
  refine ⟨s', by simp [ha, Except.map], ?_⟩
  have hset : (done ++ [e]).toFinset = insert e done.toFinset := by
    ext x
    simp
  rwa [hset]

/-- Fields and values are written as one flat sequence. -/
theorem flatMap_writeBytes_flatPairs (ps : List (Bytes × Bytes)) :
    (flatPairs ps).flatMap writeBytes
      = ps.flatMap fun p => writeBytes p.1 ++ writeBytes p.2 := by
  induction ps with
  | nil => rfl
  | cons p ps ih => simp [flatPairs_cons, ih]

/-- **Reading back what was written.** For any value that stands for something of a length Go can
count, the bytes written are read back as a value that stands for the same, under any thresholds. -/
theorem decodes_readValue {v : Value} {a : AVal} (hv : v.Repr a) (hsize : a.size < 2 ^ 64)
    (ord : MapOrder) (lim : Limits) (rng : Rng) :
    ∃ enc v', writeValue ord v = .ok enc ∧ Decodes (readValue lim rng) enc v' ∧ v'.Repr a ∧
      v'.Bounded lim := by
  cases a with
  | str b =>
    -- each kind: its tag, a count, and the elements, which the reader puts into an empty value
    obtain rfl := Value.repr_str hv
    refine ⟨[tagString] ++ writeBytes b, .str b, rfl, ?_, rfl, trivial⟩
    exact (decodes_readByte tagString).bind ((decodes_readBytes b).map fun _ => rfl)
  | list xs =>
    obtain ⟨l, rfl, hl⟩ := Value.repr_list hv
    obtain ⟨l', hd, hr⟩ := decodes_readElements (fun done l => ListVal.Repr l done) hsize
      (fun done e _ l _ hI => ListVal.pushBack_repr hI e) (ListVal.new_repr lim.list)
    refine ⟨[tagList] ++ (putUvarint xs.length ++ xs.flatMap writeBytes), .list l', ?_, ?_, hr,
      trivial⟩
    · simp only [writeValue, ListVal.range_repr hl, rangeOf_all, liftWrite_ok, bind, Except.bind]
      rfl
    · exact (decodes_readByte tagList).bind (hd.map fun _ => rfl)
  | hash m =>
    obtain ⟨h, rfl, hh⟩ := Value.repr_hash hv
    obtain ⟨ps, hp, hl⟩ := HashVal.pairs_repr hh ord
    have hlen : (flatPairs ps).length / 2 = ps.length := by rw [flatPairs_length]; omega
    obtain ⟨h', hd, hr⟩ := decodes_readHash hl (by rw [hl.length_eq]; exact hsize) lim
    refine ⟨[tagHash] ++ (putUvarint ps.length ++ ps.flatMap fun p =>
      writeBytes p.1 ++ writeBytes p.2), .hash h', ?_, ?_, hr, trivial⟩
    · simp only [writeValue, hp, liftWrite_ok, bind, Except.bind, hlen,
        flatMap_writeBytes_flatPairs]
      rfl
    · exact (decodes_readByte tagHash).bind (hd.map fun _ => rfl)
  | set m =>
    obtain ⟨s, rfl, hs⟩ := Value.repr_set hv
    obtain ⟨xs, hx, hnd, rfl⟩ := SetVal.members_repr hs ord
    obtain ⟨s', hd, hr⟩ := decodes_readSet
      (by rw [← List.toFinset_card_of_nodup hnd]; exact hsize) lim
    refine ⟨[tagSet] ++ (putUvarint xs.length ++ xs.flatMap writeBytes), .set s', ?_, ?_, hr,
      trivial⟩
    · simp only [writeValue, hx, liftWrite_ok, bind, Except.bind]
      rfl
    · exact (decodes_readByte tagSet).bind (hd.map fun _ => rfl)
  | zset es =>
    obtain ⟨z, rfl, hz⟩ := Value.repr_zset hv
    obtain ⟨zr, hd, hr, hmax⟩ := decodes_readZSet hz.1 hsize lim rng
    refine ⟨[tagZSet] ++ (putUvarint es.length ++ es.flatMap fun e =>
      writeBytes e.member ++ writeScore e.score), .zset zr.1, ?_, ?_, hr, hmax⟩
    · simp only [writeValue, ZSetVal.range_repr hz, rangeOf_all, liftWrite_ok, bind, Except.bind]
      rfl
    · exact (decodes_readByte tagZSet).bind (hd.map fun _ => rfl)

end Memcore
