import Memcore.Persistence.Snapshot

/-!
# Log records

`writeCommand` and `readCommand` of `appendlog.go` and `replaySegment` of `recover.go`, on the bytes
of a segment: a record is the database, the number of arguments and the arguments, with no framing
of its own. Replaying stops at a clean end and at a record cut short.

`replaySegment_prefix`: whatever prefix of the records of `cmds` a segment holds, replaying it calls
back exactly on the commands whose whole record is inside the prefix.
-/

namespace Memcore

open Go ByteStream

/-- A command of the append log. Its arguments are a Go slice of slices. -/
structure LogCommand where
  db : Int64
  args : List Bytes
  fits : args.length * sliceHeader ≤ maxAlloc
deriving DecidableEq

@[ext] theorem LogCommand.ext {a b : LogCommand} (hd : a.db = b.db) (ha : a.args = b.args) :
    a = b := by
  cases a
  cases b
  cases hd
  cases ha
  rfl

/-- `writeCommand`. -/
def writeCommand (c : LogCommand) : List UInt8 :=
  putUvarint (toUint64 c.db) ++ (putUvarint c.args.length ++ c.args.flatMap writeBytes)

/-- `readCommand`: only an end before the first byte is a clean end. -/
def readCommand : Read (Int64 × List Bytes) := do
  let d ← readUvarint
  let n ← unexpectedEnd readUvarint
  liftRead (makeSlice sliceHeader n)
  let args ← readEach (fun args => do
    let a ← unexpectedEnd readBytes
    pure (args ++ [a])) n []
  pure (ofUint64 d, args)

variable {σ E : Type}

/-- The loop of `replaySegment`; a fuel of one more than the bytes left is enough. -/
def replayLoop (replay : σ → Int64 → List Bytes → σ × Option E) :
    Nat → List UInt8 → Nat → σ → σ × Nat × Option (RecoverError E)
  | 0, _, replayed, s => (s, replayed, some (.stream (.other (.panic .diverge))))
  | fuel + 1, buf, replayed, s =>
    match readCommand buf with
    | .error .eof => (s, replayed, none)
    | .error .unexpectedEOF => (s, replayed, none)
    | .error e => (s, replayed, some (.stream e))
    | .ok ((db, args), rest) =>
      match replay s db args with
      | (s, some e) => (s, replayed, some (.callback e))
      | (s, none) => replayLoop replay fuel rest (replayed + 1) s

/-- `replaySegment` on the contents of a segment file: the state, the number of commands replayed,
and the error, if any. An error `E` of the callback may stand for a panic of it, which in the source
no caller recovers from. -/
def replaySegment (replay : σ → Int64 → List Bytes → σ × Option E) (buf : List UInt8) (s : σ) :
    σ × Nat × Option (RecoverError E) :=
  replayLoop replay (buf.length + 1) buf 0 s

/-! ## What a prefix of the log replays -/

/-- The callback on a command as it was logged. -/
def callback (replay : σ → Int64 → List Bytes → σ × Option E) (s : σ) (c : LogCommand) :
    σ × Option E := replay s c.db c.args

/-- The commands whose whole record lies inside the first `len` bytes of the log. -/
def wholeRecords : List LogCommand → Nat → List LogCommand
  | [], _ => []
  | c :: cs, len =>
    if (writeCommand c).length ≤ len then c :: wholeRecords cs (len - (writeCommand c).length)
    else []

theorem decodes_readCommand (c : LogCommand) :
    Decodes readCommand (writeCommand c) (c.db, c.args) := by
  have hn : c.args.length < 2 ^ 64 := by
    have hfits := c.fits
    have hpos : sliceHeader = 24 := rfl
    have hmax : maxAlloc = 2 ^ 48 := rfl
    rw [hpos, hmax] at hfits
    omega
  have hmake : Decodes (liftRead (makeSlice sliceHeader c.args.length)) [] () := by
    refine ⟨fun rest => ?_, fun p hp hne => absurd (List.prefix_nil.mp hp) hne⟩
    simp only [liftRead, makeSlice, if_pos c.fits]
    rfl
  obtain ⟨args, hargs, rfl⟩ := decodes_readEach
    (fun args : List Bytes => do
      let a ← (unexpectedEnd readBytes : Read Bytes)
      pure (args ++ [a]))
    (fun done args => args = done)
    (fun done a _ args _ hI => ⟨args ++ [a],
      (decodes_readBytes a).unexpectedEnd.map fun _ => rfl, by rw [hI]⟩)
    c.args [] [] rfl rfl
  have hpair : Decodes (readEach _ c.args.length [] >>= fun args => pure (c.db, args))
      (c.args.flatMap writeBytes) (c.db, c.args) := hargs.map fun _ => rfl
  unfold readCommand writeCommand
  refine (decodes_readUvarint (toUint64_lt c.db)).bind
    ((decodes_readUvarint hn).unexpectedEnd.bind ?_)
  rw [ofUint64_toUint64]
  exact hmake.bind hpair

theorem writeCommand_ne_nil (c : LogCommand) : writeCommand c ≠ [] := fun h =>
  putUvarint_ne_nil _ (List.append_eq_nil_iff.mp h).1

theorem readCommand_nil : readCommand [] = .error .eof := rfl

/-- Replaying a prefix of the records of `cmds`, from any count and with any fuel that suffices: the
callback gets the whole records, up to its first error. -/
theorem replayLoop_prefix (replay : σ → Int64 → List Bytes → σ × Option E) :
    ∀ (cmds : List LogCommand) (buf : List UInt8) (fuel replayed : Nat) (s : σ),
      buf <+: cmds.flatMap writeCommand → buf.length < fuel →
      ∃ k, replayLoop replay fuel buf replayed s
          = ((callEach (callback replay) (wholeRecords cmds buf.length) s).1, k,
            (callEach (callback replay) (wholeRecords cmds buf.length) s).2.map .callback) ∧
        ((callEach (callback replay) (wholeRecords cmds buf.length) s).2 = none →
          k = replayed + (wholeRecords cmds buf.length).length)
  | _, _, 0, _, _, _, hf => absurd hf (Nat.not_lt_zero _)
  | [], buf, fuel + 1, replayed, s, hp, _ => by
      rw [List.prefix_nil.mp hp, replayLoop, readCommand_nil]
      exact ⟨replayed, rfl, fun _ => rfl⟩
  | c :: cmds, buf, fuel + 1, replayed, s, hp, hf => by
      rw [List.flatMap_cons] at hp
      rw [wholeRecords]
      rcases prefix_append_cases hp with ⟨hcut, hne⟩ | ⟨q, rfl, hq⟩
      · -- the prefix ends inside the first record
        have hlen : ¬ (writeCommand c).length ≤ buf.length :=
          fun hle => hne (hcut.eq_of_length_le hle)
        obtain ⟨err, he, hend⟩ := (decodes_readCommand c).cut buf hcut hne
        rw [if_neg hlen, replayLoop, he]
        rcases hend with rfl | rfl <;> exact ⟨replayed, rfl, fun _ => rfl⟩
      · have hpos : 0 < (writeCommand c).length := List.length_pos_iff.mpr (writeCommand_ne_nil c)
        have hle : (writeCommand c).length ≤ (writeCommand c ++ q).length := by simp
        have hrest : (writeCommand c ++ q).length - (writeCommand c).length = q.length := by simp
        rw [List.length_append] at hf
        rw [if_pos hle, hrest, replayLoop, (decodes_readCommand c).full q, callEach, callback]
        -- a callback that fails ends the replay, with the error as it is
        rcases hr : replay s c.db c.args with ⟨s', err⟩
        simp only [hr]
        cases err with
        | some e =>
          refine ⟨replayed, rfl, fun hok => ?_⟩
          cases hok
        | none =>
          obtain ⟨k, hloop, hk⟩ :=
            replayLoop_prefix replay cmds q fuel (replayed + 1) s' hq (by omega)
          refine ⟨k, hloop, fun hok => ?_⟩
          rw [hk hok, List.length_cons]
          omega

/-- The calls a prefix of a log makes. -/
theorem replaySegment_calls {cmds : List LogCommand} {buf : List UInt8}
    (h : buf <+: cmds.flatMap writeCommand) :
    (replaySegment (fun (calls : List (Int64 × List Bytes)) db args =>
        (calls ++ [(db, args)], (none : Option Unit))) buf []).1
      = (wholeRecords cmds buf.length).map fun c => (c.db, c.args) := by
  obtain ⟨k, hloop, -⟩ := replayLoop_prefix
    (fun (calls : List (Int64 × List Bytes)) db args => (calls ++ [(db, args)], (none : Option Unit)))
    cmds buf (buf.length + 1) 0 [] h (Nat.lt_succ_self _)
  have hfold (cs : List LogCommand) : ∀ calls : List (Int64 × List Bytes),
      cs.foldl (fun calls c => calls ++ [(c.db, c.args)]) calls
        = calls ++ cs.map fun c => (c.db, c.args) := by
    induction cs with
    | nil => simp
    | cons c cs ih =>
      intro calls
      rw [List.foldl_cons, ih, List.map_cons, List.append_assoc]
      rfl
  rw [replaySegment, hloop]
  show (callEach (fun (calls : List (Int64 × List Bytes)) (c : LogCommand) =>
    (calls ++ [(c.db, c.args)], (none : Option Unit))) _ []).1 = _
  rw [callEach_total (fun (calls : List (Int64 × List Bytes)) (c : LogCommand) =>
    calls ++ [(c.db, c.args)]), hfold, List.nil_append]

/-- **A segment recovers exactly its complete records.** On any byte prefix of the records of
`cmds`, `replaySegment` returns without an error after calling back on the commands whose whole
record is inside the prefix, in order, with their database and arguments. -/
theorem replaySegment_prefix (cmds : List LogCommand) (buf : List UInt8)
    (h : buf <+: cmds.flatMap writeCommand) (replay : σ → Int64 → List Bytes → σ) (s : σ) :
    replaySegment (fun s db args => (replay s db args, (none : Option E))) buf s
      = ((wholeRecords cmds buf.length).foldl (fun s c => replay s c.db c.args) s,
        (wholeRecords cmds buf.length).length, none) := by
  have hcalls : callEach (callback fun s db args => (replay s db args, (none : Option E)))
      (wholeRecords cmds buf.length) s = _ := callEach_total _ _ s
  obtain ⟨k, hloop, hk⟩ := replayLoop_prefix
    (fun s db args => (replay s db args, (none : Option E))) cmds buf (buf.length + 1) 0 s h
    (Nat.lt_succ_self _)
  rw [hcalls] at hloop hk
  rw [replaySegment, hloop, hk rfl, Nat.zero_add]
  rfl

/-- Two commands, the log cut one byte before its end: the first is replayed, the second is not. -/
theorem replaySegment_prefix_torn :
    replaySegment
        (fun (calls : List (Int64 × List Bytes)) db args =>
          (calls ++ [(db, args)], (none : Option Unit)))
        ([⟨0, [ascii "SET", ascii "k", ascii ""], by decide⟩,
          ⟨-1, [ascii "DEL", ascii "k"], by decide⟩].flatMap writeCommand).dropLast []
      = ([(0, [ascii "SET", ascii "k", ascii ""])], 1, none) :=
  replaySegment_prefix
    [⟨0, [ascii "SET", ascii "k", ascii ""], by decide⟩,
      ⟨-1, [ascii "DEL", ascii "k"], by decide⟩]
    _ (List.dropLast_prefix _) (fun calls db args => calls ++ [(db, args)]) []

/-! ## Counting whole records -/

@[simp] theorem wholeRecords_zero (cmds : List LogCommand) : wholeRecords cmds 0 = [] := by
  cases cmds with
  | nil => rfl
  | cons c cmds =>
    have hpos : 0 < (writeCommand c).length := List.length_pos_iff.mpr (writeCommand_ne_nil c)
    rw [wholeRecords, if_neg (Nat.not_le_of_lt hpos)]

/-- Past the records of `cs` the count goes on with the next ones. -/
theorem wholeRecords_append (ds : List LogCommand) (k : Nat) : ∀ cs : List LogCommand,
    wholeRecords (cs ++ ds) ((cs.flatMap writeCommand).length + k) = cs ++ wholeRecords ds k
  | [] => by simp
  | c :: cs => by
      have hrest : (writeCommand c).length + (cs.flatMap writeCommand).length + k
          - (writeCommand c).length = (cs.flatMap writeCommand).length + k := by omega
      rw [List.cons_append, wholeRecords, List.flatMap_cons, List.length_append,
        if_pos (by omega), hrest, wholeRecords_append ds k cs, List.cons_append]

@[simp] theorem wholeRecords_all (cs : List LogCommand) :
    wholeRecords cs (cs.flatMap writeCommand).length = cs := by
  simpa [wholeRecords] using wholeRecords_append [] 0 cs

theorem wholeRecords_initial : ∀ (cs : List LogCommand) (k : Nat), wholeRecords cs k <+: cs
  | [], _ => List.prefix_rfl
  | c :: cs, k => by
      rw [wholeRecords]
      split
      · exact (List.prefix_cons_inj c).mpr (wholeRecords_initial cs _)
      · exact List.nil_prefix

theorem wholeRecords_mono (ds : List LogCommand) : ∀ (cs : List LogCommand) {k k' : Nat}, k ≤ k' →
    wholeRecords cs k <+: wholeRecords (cs ++ ds) k'
  | [], _, _, _ => List.nil_prefix
  | c :: cs, k, k', h => by
      rw [List.cons_append, wholeRecords, wholeRecords]
      split
      · next hle =>
          rw [if_pos (hle.trans h)]
          exact (List.prefix_cons_inj c).mpr (wholeRecords_mono ds cs (Nat.sub_le_sub_right h _))
      · exact List.nil_prefix

/-- A sequence of bytes is the beginning of one log only, as far as whole records go. -/
theorem wholeRecords_unique {cs ds : List LogCommand} {buf : List UInt8}
    (hc : buf <+: cs.flatMap writeCommand) (hd : buf <+: ds.flatMap writeCommand) :
    wholeRecords cs buf.length = wholeRecords ds buf.length := by
  have hsame := (replaySegment_calls hc).symm.trans (replaySegment_calls hd)
  exact List.map_injective_iff.mpr
    (fun a b h => LogCommand.ext (congrArg Prod.fst h) (congrArg Prod.snd h)) hsame

end Memcore
