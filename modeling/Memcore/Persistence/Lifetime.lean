import Memcore.Persistence.Store

/-!
# Lifetimes on one directory

A lifetime opens the directory, appends commands, flushes now and then, and ends with a crash: of
what it had buffered, some first bytes are in the file. The next lifetime opens the same segment and
appends after whatever is there.

When no lifetime writes after a torn record, recovery replays exactly what each lifetime had in the
file (`recover_lifetimes`). When one does, its first record is read as the end of the torn one
(`recover_after_torn`).
-/

namespace Memcore

open Go ByteStream

/-- Change the file of a segment. -/
def Disk.modifySeg (disk : Disk) (gen : Nat) (f : File → File) : Disk :=
  { disk with segs := disk.segs.insert gen (f ((disk.segs.lookup gen).getD File.empty)) }

/-- `Store.Flush`. -/
def Store.flush (store : Store) (disk : Disk) : Store × Disk :=
  ({ store with buf := [] }, disk.modifySeg store.gen fun f => (f.write store.buf).sync)

/-- `Store.Append`. -/
def Store.append (store : Store) (disk : Disk) (c : LogCommand) : Store × Disk :=
  let store := { store with buf := store.buf ++ writeCommand c }
  if store.fsync = .always then store.flush disk else (store, disk)

/-- What a server does with its store. -/
inductive LogOp where
  | append (c : LogCommand)
  | flush

/-- One operation. -/
def LogOp.run : Store × Disk → LogOp → Store × Disk
  | (store, disk), .append c => store.append disk c
  | (store, disk), .flush => store.flush disk

/-- A lifetime; `kept` is how many buffered bytes the crash leaves in the file. -/
structure Lifetime where
  fsync : FSync
  ops : List LogOp
  kept : Nat

namespace Lifetime

/-- The commands a lifetime appends. -/
def commands (l : Lifetime) : List LogCommand :=
  l.ops.filterMap fun
    | .append c => some c
    | .flush => none

/-- The directory after the crash. -/
def run (l : Lifetime) (disk : Disk) : Disk :=
  let (store, disk) := l.ops.foldl LogOp.run (openStore l.fsync disk)
  disk.modifySeg store.gen fun f => f.write (store.buf.take l.kept)

/-- How many bytes the lifetime left in the active segment. -/
def left (l : Lifetime) (disk : Disk) : Nat :=
  (segBytes (l.run disk).segs (openGen disk)).length - (segBytes disk.segs (openGen disk)).length

/-- The commands whose record was completely in the file when the lifetime crashed. -/
def complete (l : Lifetime) (disk : Disk) : List LogCommand :=
  wholeRecords l.commands (l.left disk)

/-- The lifetime leaves nothing, or finds the segment ending with a whole record. -/
def Aligned (l : Lifetime) (disk : Disk) : Prop :=
  l.left disk = 0 ∨ ∃ cmds : List LogCommand,
    segBytes disk.segs (openGen disk) = cmds.flatMap writeCommand

end Lifetime

/-- The directory after a sequence of lifetimes. -/
def runLifetimes (ls : List Lifetime) (disk : Disk) : Disk := ls.foldl (fun disk l => l.run disk) disk

/-- What the lifetimes had completely in the file when they crashed, in order. -/
def completes : List Lifetime → Disk → List LogCommand
  | [], _ => []
  | l :: ls, disk => l.complete disk ++ completes ls (l.run disk)

/-- Every lifetime is aligned with what it finds. -/
def AllAligned : List Lifetime → Disk → Prop
  | [], _ => True
  | l :: ls, disk => l.Aligned disk ∧ AllAligned ls (l.run disk)

/-- A directory with nothing in it. -/
def Disk.empty : Disk := ⟨none, none, ∅⟩

/-! ## One lifetime -/

section Bytes

variable {disk : Disk} {g : Nat}

theorem segBytes_modifySeg (disk : Disk) (g : Nat) (f : File → File) :
    segBytes (disk.modifySeg g f).segs g
      = (f ((disk.segs.lookup g).getD File.empty)).contents := by
  simp [segBytes, Disk.modifySeg]

theorem segBytes_getD (disk : Disk) (g : Nat) :
    ((disk.segs.lookup g).getD File.empty).contents = segBytes disk.segs g := by
  unfold segBytes
  cases disk.segs.lookup g <;> rfl

theorem lookup_modifySeg_ne {g' : Nat} (f : File → File) (h : g' ≠ g) :
    (disk.modifySeg g f).segs.lookup g' = disk.segs.lookup g' :=
  Finmap.lookup_insert_of_ne _ h

end Bytes

/-- Where a lifetime stands that found `disk₀` and has appended `cmds`. -/
structure Tracks (disk₀ : Disk) (cmds : List LogCommand) (s : Store × Disk) : Prop where
  gen : s.1.gen = openGen disk₀
  snapshot : s.2.snapshot = disk₀.snapshot
  others : ∀ g ≠ openGen disk₀, s.2.segs.lookup g = disk₀.segs.lookup g
  bytes : segBytes s.2.segs (openGen disk₀) ++ s.1.buf
    = segBytes disk₀.segs (openGen disk₀) ++ cmds.flatMap writeCommand
  grown : segBytes disk₀.segs (openGen disk₀) <+: segBytes s.2.segs (openGen disk₀)

theorem openStore_tracks (fsync : FSync) (disk : Disk) :
    Tracks disk [] (openStore fsync disk) where
  gen := rfl
  snapshot := rfl
  others g hg := Finmap.lookup_insert_of_ne _ hg
  bytes := by
    simp only [openStore, Disk.openSegment, segBytes, Finmap.lookup_insert, List.append_nil,
      List.flatMap_nil]
    cases disk.segs.lookup (openGen disk) <;> rfl
  grown := by
    simp only [openStore, Disk.openSegment, segBytes, Finmap.lookup_insert]
    cases disk.segs.lookup (openGen disk) <;> exact List.prefix_rfl

variable {disk₀ : Disk} {cmds : List LogCommand}

theorem Tracks.flush {store : Store} {disk : Disk} (h : Tracks disk₀ cmds (store, disk)) :
    Tracks disk₀ cmds (store.flush disk) := by
  have hgen : store.gen = openGen disk₀ := h.gen
  have hbytes : segBytes (store.flush disk).2.segs (openGen disk₀)
      = segBytes disk.segs (openGen disk₀) ++ store.buf := by
    rw [Store.flush, hgen, segBytes_modifySeg, File.contents_sync, File.contents_write,
      segBytes_getD]
  refine ⟨h.gen, h.snapshot, fun g hg => ?_, ?_, ?_⟩
  · rw [← h.others g hg]
    exact lookup_modifySeg_ne _ (hgen ▸ hg)
  · rw [hbytes, ← h.bytes]
    exact List.append_nil _
  · rw [hbytes]
    exact h.grown.trans (List.prefix_append _ _)

theorem Tracks.append {store : Store} {disk : Disk} (h : Tracks disk₀ cmds (store, disk))
    (c : LogCommand) : Tracks disk₀ (cmds ++ [c]) (store.append disk c) := by
  have hbuf : Tracks disk₀ (cmds ++ [c]) ({ store with buf := store.buf ++ writeCommand c }, disk) := by
    refine ⟨h.gen, h.snapshot, h.others, ?_, h.grown⟩
    have hall : segBytes disk.segs (openGen disk₀) ++ store.buf = _ := h.bytes
    show segBytes disk.segs (openGen disk₀) ++ (store.buf ++ writeCommand c) = _
    rw [← List.append_assoc, hall, List.flatMap_append, List.append_assoc]
    simp
  unfold Store.append
  simp only
  split
  · exact hbuf.flush
  · exact hbuf

theorem Tracks.run : ∀ (ops : List LogOp) {cmds : List LogCommand} {s : Store × Disk},
    Tracks disk₀ cmds s → Tracks disk₀
      (cmds ++ ops.filterMap fun | .append c => some c | .flush => none) (ops.foldl LogOp.run s)
  | [], _, _, h => by simpa using h
  | .append c :: ops, cmds, s, h => by
      have hrun := Tracks.run ops (h.append c)
      rwa [List.append_assoc] at hrun
  | .flush :: ops, cmds, s, h => Tracks.run ops h.flush

/-- A lifetime adds to the active segment a prefix of its records, and touches nothing else. -/
theorem Lifetime.run_spec (l : Lifetime) (disk : Disk) :
    segBytes (l.run disk).segs (openGen disk) = segBytes disk.segs (openGen disk)
        ++ (l.commands.flatMap writeCommand).take (l.left disk) ∧
      (l.run disk).snapshot = disk.snapshot ∧
      ∀ g ≠ openGen disk, (l.run disk).segs.lookup g = disk.segs.lookup g := by
  have htrack := (openStore_tracks l.fsync disk).run l.ops
  rw [List.nil_append] at htrack
  unfold Lifetime.left Lifetime.run
  generalize l.ops.foldl LogOp.run (openStore l.fsync disk) = s at htrack
  obtain ⟨store, disk'⟩ := s
  have hgen : store.gen = openGen disk := htrack.gen
  have hfile : segBytes (disk'.modifySeg store.gen fun f => f.write (store.buf.take l.kept)).segs
      (openGen disk) = segBytes disk'.segs (openGen disk) ++ store.buf.take l.kept := by
    rw [hgen, segBytes_modifySeg, File.contents_write, segBytes_getD]
  refine ⟨?_, htrack.snapshot, fun g hg => ?_⟩
  · simp only [hfile]
    obtain ⟨q, hq⟩ := htrack.grown
    have hbytes : q ++ store.buf = l.commands.flatMap writeCommand := by
      have hall := htrack.bytes
      rw [← hq, List.append_assoc] at hall
      exact List.append_cancel_left hall
    rw [← hq, List.append_assoc, ← hbytes]
    congr 1
    have hlen : (segBytes disk.segs (openGen disk) ++ (q ++ store.buf.take l.kept)).length
        - (segBytes disk.segs (openGen disk)).length = (q ++ store.buf.take l.kept).length := by
      rw [List.length_append, Nat.add_sub_cancel_left]
    rw [hlen]
    exact List.prefix_iff_eq_take.mp ((List.prefix_append_right_inj q).mpr (List.take_prefix _ _))
  · rw [← htrack.others g hg]
    exact lookup_modifySeg_ne _ (hgen ▸ hg)

theorem Lifetime.left_le (l : Lifetime) (disk : Disk) :
    l.left disk ≤ (l.commands.flatMap writeCommand).length := by
  have hlen : l.left disk = (segBytes disk.segs (openGen disk)
      ++ (l.commands.flatMap writeCommand).take (l.left disk)).length
      - (segBytes disk.segs (openGen disk)).length := by
    rw [← (l.run_spec disk).1]
    rfl
  rw [List.length_append, Nat.add_sub_cancel_left, List.length_take] at hlen
  exact hlen ▸ Nat.min_le_right _ _

/-! ## Sequences of lifetimes -/

/-- A directory of a server that never compacted, whose segment replays to `done`. -/
structure Holds (done : List LogCommand) (disk : Disk) : Prop where
  noSnapshot : disk.snapshot = none
  one : ∀ g ≠ 0, disk.segs.lookup g = none
  replays : ∃ cmds : List LogCommand, segBytes disk.segs 0 <+: cmds.flatMap writeCommand ∧
    wholeRecords cmds (segBytes disk.segs 0).length = done

theorem highestSegment_zero {segs : Finmap fun _ : Nat => File}
    (h : ∀ g ≠ 0, segs.lookup g = none) : highestSegment segs = 0 := by
  refine Nat.le_zero.mp (Finset.sup_le fun g hg => Nat.le_of_not_lt fun hpos => ?_)
  exact Finmap.lookup_eq_none.mp (h g (Nat.ne_of_gt hpos)) (Finmap.mem_keys.mp hg)

theorem Holds.openGen {done : List LogCommand} {disk : Disk} (h : Holds done disk) :
    openGen disk = 0 := by
  rw [Memcore.openGen, Disk.baseGen, h.noSnapshot]
  exact highestSegment_zero h.one

theorem Holds.run {done : List LogCommand} {disk : Disk} (h : Holds done disk) {l : Lifetime}
    (ha : l.Aligned disk) : Holds (done ++ l.complete disk) (l.run disk) := by
  obtain ⟨hbytes, hsnap, hothers⟩ := l.run_spec disk
  unfold Lifetime.Aligned at ha
  rw [h.openGen] at hbytes hothers ha
  obtain ⟨cmds, hpre, hdone⟩ := h.replays
  refine ⟨hsnap.trans h.noSnapshot, fun g hg => (hothers g hg).trans (h.one g hg), ?_⟩
  unfold Lifetime.complete
  rcases ha with hzero | ⟨whole, hwhole⟩
  · rw [hzero, List.take_zero, List.append_nil] at hbytes
    rw [hzero, wholeRecords_zero, List.append_nil, hbytes]
    exact ⟨cmds, hpre, hdone⟩
  · -- the records of the lifetime follow those that were there
    have heq : done = whole := by
      have hpw : segBytes disk.segs 0 <+: whole.flatMap writeCommand := by rw [hwhole]
      rw [← hdone, wholeRecords_unique hpre hpw, hwhole, wholeRecords_all]
    subst heq
    refine ⟨done ++ l.commands, ?_, ?_⟩
    · rw [hbytes, hwhole, List.flatMap_append]
      exact (List.prefix_append_right_inj _).mpr (List.take_prefix _ _)
    · rw [hbytes, hwhole, List.length_append, wholeRecords_append, List.length_take,
        Nat.min_eq_left (l.left_le disk)]

theorem Holds.runLifetimes : ∀ (ls : List Lifetime) {done : List LogCommand} {disk : Disk},
    Holds done disk → AllAligned ls disk →
    Holds (done ++ completes ls disk) (runLifetimes ls disk)
  | [], _, _, h, _ => by simpa [completes, Memcore.runLifetimes] using h
  | l :: ls, done, disk, h, ha => by
      have hrun := Holds.runLifetimes ls (h.run ha.1) ha.2
      rwa [List.append_assoc] at hrun

/-- **A crash in one lifetime does not damage the writes of the next, as long as the next finds the
segment ending with a whole record.** On a directory that starts empty, any lifetimes, each leaving
no byte in the file or finding whole records in it: the final `Recover` replays, in order, exactly
the commands each lifetime had completely in the file when it crashed. -/
theorem recover_lifetimes {σ E : Type} (ls : List Lifetime) (h : AllAligned ls Disk.empty)
    (lim : Limits) (rngs : Nat → Rng) (restore : σ → Record → σ × Option E)
    (replay : σ → Int64 → List Bytes → σ) (s : σ) :
    ∃ replayed, recover lim rngs restore (fun s db args => (replay s db args, none))
        (runLifetimes ls Disk.empty) s
      = ((completes ls Disk.empty).foldl (fun s c => replay s c.db c.args) s, 0, replayed, none) := by
  have hstart : Holds [] Disk.empty := ⟨rfl, fun _ _ => rfl, [], List.nil_prefix, rfl⟩
  have hend := hstart.runLifetimes ls h
  rw [List.nil_append] at hend
  obtain ⟨cmds, hpre, hdone⟩ := hend.replays
  obtain ⟨k, hloop⟩ := replayGens_prefix (fun s db args => (replay s db args, (none : Option E)))
    (runLifetimes ls Disk.empty).segs (fun _ => cmds) [0] 0 s (by simpa using hpre)
  have hcalls : callEach (callback fun s db args => (replay s db args, (none : Option E)))
      (completes ls Disk.empty) s = _ := callEach_total _ _ s
  rw [List.flatMap_cons, List.flatMap_nil, List.append_nil, hdone, hcalls] at hloop
  refine ⟨k, ?_⟩
  rw [recover, loadSnapshot, hend.noSnapshot]
  simp only [replaySegments, highestSegment_zero hend.one]
  rw [show List.range' (0 : Int64).toInt.toNat (0 + 1 - (0 : Int64).toInt.toNat) = [0] from rfl,
    hloop]
  rfl

/-- The first lifetime crashes one byte before the end of its only record. -/
def tornLifetime : Lifetime :=
  ⟨.everySec, [.append ⟨0, [ascii "SET", ascii "k", ascii "v"], by decide⟩], 9⟩

/-- The second writes its record and flushes. -/
def nextLifetime : Lifetime :=
  ⟨.everySec, [.append ⟨0, [ascii "SET", ascii "a", ascii "b"], by decide⟩, .flush], 0⟩

/-- Recovery does not replay the second command, which was flushed. Its first byte is read as the
value of the first command, which is replayed although its record was torn; the rest is lost. -/
theorem recover_after_torn :
    completes [tornLifetime, nextLifetime] Disk.empty
        = [⟨0, [ascii "SET", ascii "a", ascii "b"], by decide⟩] ∧
      (recover ⟨⟨0, 0⟩, ⟨0, 0⟩, ⟨0, 0⟩, ⟨0, 0⟩⟩ (fun _ _ => 0)
          (fun calls _ => (calls, (none : Option Unit)))
          (fun (calls : List (Int64 × List Bytes)) db args => (calls ++ [(db, args)], none))
          (runLifetimes [tornLifetime, nextLifetime] Disk.empty) []).1
        = [(0, [ascii "SET", ascii "k", Bytes.ofList [0]])] := by
  decide +kernel

/-- A lifetime that crashes between two records, and one after it. -/
theorem recover_lifetimes_two :
    ∃ replayed, recover ⟨⟨0, 0⟩, ⟨0, 0⟩, ⟨0, 0⟩, ⟨0, 0⟩⟩ (fun _ _ => 0)
        (fun calls _ => (calls, (none : Option Unit)))
        (fun (calls : List (Int64 × List Bytes)) db args => (calls ++ [(db, args)], none))
        (runLifetimes [{ tornLifetime with kept := 10 }, nextLifetime] Disk.empty) []
      = ([(0, [ascii "SET", ascii "k", ascii "v"]), (0, [ascii "SET", ascii "a", ascii "b"])], 0,
        replayed, none) := by
  have haligned : AllAligned [{ tornLifetime with kept := 10 }, nextLifetime] Disk.empty :=
    ⟨.inr ⟨[], by decide +kernel⟩,
      .inr ⟨[⟨0, [ascii "SET", ascii "k", ascii "v"], by decide⟩], by decide +kernel⟩, trivial⟩
  obtain ⟨replayed, h⟩ := recover_lifetimes _ haligned ⟨⟨0, 0⟩, ⟨0, 0⟩, ⟨0, 0⟩, ⟨0, 0⟩⟩
    (fun _ _ => 0) (fun calls _ => (calls, (none : Option Unit)))
    (fun (calls : List (Int64 × List Bytes)) db args => calls ++ [(db, args)]) []
  have hcomplete : completes [{ tornLifetime with kept := 10 }, nextLifetime] Disk.empty
      = [⟨0, [ascii "SET", ascii "k", ascii "v"], by decide⟩,
        ⟨0, [ascii "SET", ascii "a", ascii "b"], by decide⟩] := by decide +kernel
  rw [hcomplete] at h
  exact ⟨replayed, h⟩

end Memcore
