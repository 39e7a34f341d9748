import Mathlib.Order.Lattice.Nat
import Memcore.Lib.File
import Memcore.Persistence.AppendLog

/-!
# The data directory

`appendlog.go` and `recover.go` over files: opening a directory, the append-log segments with their
generations, and `Recover`. A `Store` is the part of the source's `Store` that is in memory; the
files are the `Disk`. A generation is a natural number here; the source's is an `int`, so whoever
counts one up has to see to it that it stays below `2 ^ 63`.
-/

namespace Memcore

open Go ByteStream

/-- The fsync policies. -/
inductive FSync where
  | always
  | everySec
  | no
deriving DecidableEq

/-- The files of a data directory. -/
structure Disk where
  snapshot : Option File
  tmp : Option File
  segs : Finmap fun _ : Nat => File

/-- `Store`: the active generation and what `writer` has buffered. -/
structure Store where
  gen : Nat
  fsync : FSync
  buf : List UInt8

/-! ## Opening -/

/-- `highestSegment`. -/
def highestSegment (segs : Finmap fun _ : Nat => File) : Nat := segs.keys.sup id

/-- `snapshotBaseGen` on a directory. -/
def Disk.baseGen (disk : Disk) : Option Int64 :=
  disk.snapshot.bind fun f => snapshotBaseGen f.contents

/-- The generation `Open` appends to. -/
def openGen (disk : Disk) : Nat :=
  match disk.baseGen with
  | some base => if (highestSegment disk.segs : Int) < base.toInt then base.toInt.toNat
      else highestSegment disk.segs
  | none => highestSegment disk.segs

/-- Opening a segment file for appending creates it when it does not exist. -/
def Disk.openSegment (disk : Disk) (gen : Nat) : Disk :=
  { disk with segs := disk.segs.insert gen ((disk.segs.lookup gen).getD File.empty) }

/-- `Open`. -/
def openStore (fsync : FSync) (disk : Disk) : Store × Disk :=
  (⟨openGen disk, fsync, []⟩, disk.openSegment (openGen disk))

/-! ## Recovering -/

variable {σ E : Type}

/-- `loadSnapshot`: the state, the base generation, how many records were loaded, and the error. -/
def loadSnapshot (lim : Limits) (rngs : Nat → Rng) (restore : σ → Record → σ × Option E)
    (disk : Disk) (s : σ) : σ × Int64 × Nat × Option (RecoverError E) :=
  match disk.snapshot with
  | none => (s, 0, 0, none)
  | some f =>
    let ((s, loaded), baseGen, err) := readSnapshot lim rngs
      (fun (s, loaded) r => (((restore s r).1, loaded + 1), (restore s r).2)) f.contents (s, 0)
    (s, baseGen, loaded, err)

/-- The loop of `replaySegments`. -/
def replayGens (replay : σ → Int64 → List Bytes → σ × Option E)
    (segs : Finmap fun _ : Nat => File) :
    List Nat → Nat → σ → σ × Nat × Option (RecoverError E)
  | [], total, s => (s, total, none)
  | g :: gs, total, s =>
    match segs.lookup g with
    | none => replayGens replay segs gs total s
    | some f =>
      match replaySegment replay f.contents s with
      | (s, k, some e) => (s, total + k, some e)
      | (s, k, none) => replayGens replay segs gs (total + k) s

/-- `replaySegments`; there are no segments of a negative generation. -/
def replaySegments (replay : σ → Int64 → List Bytes → σ × Option E)
    (segs : Finmap fun _ : Nat => File) (baseGen : Int64) (s : σ) :
    σ × Nat × Option (RecoverError E) :=
  replayGens replay segs
    (List.range' baseGen.toInt.toNat (highestSegment segs + 1 - baseGen.toInt.toNat)) 0 s

/-- `Recover`: the state, how many records were loaded, how many commands were replayed, and the
error. -/
def recover (lim : Limits) (rngs : Nat → Rng) (restore : σ → Record → σ × Option E)
    (replay : σ → Int64 → List Bytes → σ × Option E) (disk : Disk) (s : σ) :
    σ × Nat × Nat × Option (RecoverError E) :=
  match loadSnapshot lim rngs restore disk s with
  | (s, _, loaded, some e) => (s, loaded, 0, some e)
  | (s, baseGen, loaded, none) =>
    let (s, replayed, err) := replaySegments replay disk.segs baseGen s
    (s, loaded, replayed, err)

/-! ## What a directory replays -/

/-- The bytes of a segment; none when there is no file. -/
def segBytes (segs : Finmap fun _ : Nat => File) (g : Nat) : List UInt8 :=
  ((segs.lookup g).map File.contents).getD []

/-- The segments replay the whole records of each generation, whatever comes after them. -/
theorem replayGens_prefix (replay : σ → Int64 → List Bytes → σ × Option E)
    (segs : Finmap fun _ : Nat => File) (cmds : Nat → List LogCommand) :
    ∀ (gens : List Nat) (total : Nat) (s : σ),
      (∀ g ∈ gens, segBytes segs g <+: (cmds g).flatMap writeCommand) →
      ∃ k, replayGens replay segs gens total s
        = ((callEach (callback replay)
            (gens.flatMap fun g => wholeRecords (cmds g) (segBytes segs g).length) s).1, k,
          (callEach (callback replay)
            (gens.flatMap fun g => wholeRecords (cmds g) (segBytes segs g).length) s).2.map
              .callback)
  | [], total, s, _ => ⟨total, rfl⟩
  | g :: gs, total, s, h => by
      obtain ⟨hg, hgs⟩ := List.forall_mem_cons.mp h
      rw [List.flatMap_cons, callEach_append, replayGens]
      cases hl : segs.lookup g with
      | none =>
        have hempty : segBytes segs g = [] := by rw [segBytes, hl]; rfl
        rw [hempty, List.length_nil, wholeRecords_zero]
        exact replayGens_prefix replay segs cmds gs total s hgs
      | some f =>
        have hbytes : segBytes segs g = f.contents := by rw [segBytes, hl]; rfl
        rw [hbytes] at hg ⊢
        obtain ⟨k, hloop, -⟩ := replayLoop_prefix replay (cmds g) f.contents
          (f.contents.length + 1) 0 s hg (Nat.lt_succ_self _)
        simp only [replaySegment, hloop]
        rcases callEach (callback replay) (wholeRecords (cmds g) f.contents.length) s with
          ⟨s', _ | e⟩
        · exact replayGens_prefix replay segs cmds gs (total + k) s' hgs
        · exact ⟨total + k, rfl⟩

theorem highestSegment_eq {segs : Finmap fun _ : Nat => File} {gen : Nat}
    (hmem : segs.lookup gen ≠ none) (hmax : ∀ g, gen < g → segs.lookup g = none) :
    highestSegment segs = gen := by
  refine le_antisymm (Finset.sup_le fun g hg => ?_) (Finset.le_sup (f := id) ?_)
  · by_contra hlt
    rw [id, Nat.not_le] at hlt
    exact (Finmap.lookup_eq_none.mp (hmax g hlt)) (Finmap.mem_keys.mp hg)
  · rw [Finmap.mem_keys]
    by_contra hno
    exact hmem (Finmap.lookup_eq_none.mpr hno)

end Memcore
