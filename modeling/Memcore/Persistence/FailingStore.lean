import Memcore.Lib.FileWriter
import Memcore.Persistence.Durable

/-!
# The append log when writes and syncs fail

`appendlog.go` once more, now with the buffer of its writer and with writes and syncs of the active
segment that may fail at any call. `Append` returns the error it has met; the writer keeps the first
error of a write, so that after one every later `Append`, `Flush` and `Rotate` returns it.

Under the policy `always` an `Append` is a `Commit` of one record (`append_commit`), and however the
calls fail, the segment is a prefix of the records that were to be in it (`FailingStore.Inv`).
-/

namespace Memcore

open Go ByteStream Bufio

variable {ε : Type}

/-- `defaultBufSize` of `bufio`. -/
def defaultBufSize : Nat := 4096

/-- `Store.writer` with `Store.seg`. -/
abbrev LogWriter (ε : Type) := FileWriter ε defaultBufSize

/-! ## Records -/

namespace LogWriter

variable (faults : Nat → Option (Fault ε))

/-- `writeUvarint`. -/
def writeUvarint (x : Nat) : Prog (LogWriter ε) ε Unit := FileWriter.write faults (putUvarint x)

/-- `writeBytes`. -/
def writeBytes (b : Bytes) : Prog (LogWriter ε) ε Unit := do
  writeUvarint faults b.len
  FileWriter.write faults b.data

/-- The loop of `writeCommand`. -/
def writeEach : List Bytes → Prog (LogWriter ε) ε Unit
  | [] => pure ()
  | a :: args => do
      writeBytes faults a
      writeEach args

/-- `writeCommand`. -/
def writeCommand (db : Int64) (args : List Bytes) : Prog (LogWriter ε) ε Unit := do
  writeUvarint faults (toUint64 db)
  writeUvarint faults args.length
  writeEach faults args

variable {faults}

theorem writeEach_appends (args : List Bytes) (w : LogWriter ε) (herr : w.err = none) :
    FileWriter.Outcome faults w (args.flatMap Memcore.writeBytes) (writeEach faults args w) := by
  induction args generalizing w with
  | nil => exact .done herr herr (List.append_nil _).symm le_rfl (FileWriter.Clean.refl _)
  | cons a args ih =>
    have ha : FileWriter.Appends faults (writeBytes faults a) (Memcore.writeBytes a) :=
      (FileWriter.write_appends _).bind (FileWriter.write_appends _)
    exact (ha w).bind fun w₁ _ herr₁ => ih w₁ herr₁

/-- What `writeCommand` writes is the record. -/
theorem writeCommand_appends (c : LogCommand) :
    FileWriter.Appends faults (writeCommand faults c.db c.args) (Memcore.writeCommand c) := by
  intro w
  refine (FileWriter.write_appends _ w).bind fun w₁ _ _ => ?_
  exact (FileWriter.write_appends _ w₁).bind fun w₂ _ herr₂ => writeEach_appends c.args w₂ herr₂

end LogWriter

/-! ## The store -/

/-- `Store`, with its active segment in `writer`; `disk` has the other files. -/
structure FailingStore (ε : Type) where
  gen : Nat
  fsync : FSync
  writer : LogWriter ε
  disk : Disk

namespace FailingStore

/-- `openSegment`. -/
def openSegment (s : FailingStore ε) (gen : Nat) : FailingStore ε :=
  { s with gen, writer := .new ((s.disk.segs.lookup gen).getD File.empty) s.writer.calls }

/-- `Open`; there have been no calls yet. -/
def openStore (fsync : FSync) (disk : Disk) : FailingStore ε :=
  openSegment ⟨0, fsync, .new File.empty 0, disk⟩ (openGen disk)

/-- The files of the directory. -/
def files (s : FailingStore ε) : Disk :=
  { s.disk with segs := s.disk.segs.insert s.gen s.writer.file }

/-- A program of the writer. -/
def onWriter {α : Type} (p : Prog (LogWriter ε) ε α) : Prog (FailingStore ε) ε α := fun s =>
  ((p s.writer).1, { s with writer := (p s.writer).2 })

variable (faults : Nat → Option (Fault ε))

/-- `Store.flushLocked`, which is `Flush` under the lock. -/
def flushLocked : Prog (FailingStore ε) ε Unit :=
  onWriter do
    FileWriter.flush faults
    FileWriter.sync faults

/-- `Store.Append`. -/
def append (db : Int64) (args : List Bytes) (s : FailingStore ε) :
    Except ε Unit × FailingStore ε :=
  let program : Prog (FailingStore ε) ε Unit := do
    onWriter (LogWriter.writeCommand faults db args)
    if s.fsync = .always then flushLocked faults
  program s

/-- The end of `Store.Rotate`; closing the one file and opening the other do not fail. -/
def openNext : Prog (FailingStore ε) ε Nat := fun s =>
  (.ok (s.gen + 1), openSegment { s with disk := s.files } (s.gen + 1))

/-- `Store.Rotate`. -/
def rotate : Prog (FailingStore ε) ε Nat := do
  onWriter (FileWriter.flush faults)
  openNext

theorem append_always {s : FailingStore ε} (h : s.fsync = .always) (db : Int64)
    (args : List Bytes) :
    append faults db args s = onWriter (LogWriter.writeCommand faults db args
      >>= fun _ => FileWriter.flush faults >>= fun _ => FileWriter.sync faults) s := by
  simp only [append, h, if_true, flushLocked, onWriter, Prog.bind_apply]
  rcases LogWriter.writeCommand faults db args s.writer with ⟨_ | ⟨⟩, w₁⟩ <;> rfl

theorem append_buffered {s : FailingStore ε} (h : s.fsync ≠ .always) (db : Int64)
    (args : List Bytes) :
    append faults db args s = onWriter (LogWriter.writeCommand faults db args) s := by
  simp only [append, h, if_false, onWriter, Prog.bind_apply]
  rcases LogWriter.writeCommand faults db args s.writer with ⟨_ | ⟨⟩, w₁⟩ <;> rfl

/-- Under the policy `always` an `Append` commits the record. -/
theorem append_commit {s : FailingStore ε} (h : s.fsync = .always) (c : LogCommand) :
    ∃ w, (append faults c.db c.args s).2 = { s with writer := w } ∧
      FileWriter.Commit faults s.writer (writeCommand c) ((append faults c.db c.args s).1, w) := by
  have happends : FileWriter.Appends faults _ (writeCommand c) := LogWriter.writeCommand_appends c
  rw [append_always faults h]
  exact ⟨_, rfl, happends.commit s.writer⟩

/-- Between two calls, under the policy `always`: the segment was opened with `old` in it, and since
then `cmds` were to be appended. It was `Open` that opened it, and found `first`, or it was new. -/
structure Inv (first : List UInt8) (s : FailingStore ε) (old : List UInt8)
    (cmds : List LogCommand) : Prop where
  fsync : s.fsync = .always
  above : ∀ g, s.gen < g → s.disk.segs.lookup g = none
  opened : old = [] ∨ old = first
  segment : s.writer.Settled (old ++ cmds.flatMap writeCommand)

variable {faults} {first old : List UInt8} {s : FailingStore ε} {cmds : List LogCommand}

theorem openStore_inv (disk : Disk) :
    (openStore .always disk : FailingStore ε).Inv (segBytes disk.segs (openGen disk))
      (segBytes disk.segs (openGen disk)) [] := by
  have hfile : ((disk.segs.lookup (openGen disk)).getD File.empty).contents
      = segBytes disk.segs (openGen disk) := by
    unfold segBytes
    cases disk.segs.lookup (openGen disk) <;> rfl
  have hle : highestSegment disk.segs ≤ openGen disk := by
    rw [openGen_eq_max]
    exact le_max_left _ _
  refine ⟨rfl, fun g hg => lookup_above (hle.trans_lt hg), .inr rfl, ?_⟩
  rw [List.flatMap_nil, List.append_nil, ← hfile]
  exact FileWriter.Settled.new _ _

theorem Inv.append (h : s.Inv first old cmds) (c : LogCommand) :
    (append faults c.db c.args s).2.Inv first old (cmds ++ [c]) := by
  obtain ⟨w, hs, hcommit⟩ := append_commit faults h.fsync c
  rw [hs]
  refine ⟨h.fsync, h.above, h.opened, ?_⟩
  rw [List.flatMap_append, List.flatMap_singleton, ← List.append_assoc]
  exact h.segment.commit hcommit

/-- The record of an `Append` that returns no error is synced, behind all that was to be in the
segment. -/
theorem Inv.append_synced (h : s.Inv first old cmds) (c : LogCommand)
    (hok : (FailingStore.append faults c.db c.args s).1 = .ok ()) :
    (FailingStore.append faults c.db c.args s).2.writer.file
      = ⟨old ++ (cmds ++ [c]).flatMap writeCommand, []⟩ := by
  obtain ⟨w, hs, hcommit⟩ := append_commit faults h.fsync c
  rw [hok] at hcommit
  rw [hs, List.flatMap_append, List.flatMap_singleton, ← List.append_assoc]
  exact h.segment.synced hcommit

/-- An `Append` returns no error exactly when no write of the segment has failed before and none of
its own calls fails. -/
theorem Inv.append_ok_iff (h : s.Inv first old cmds) (c : LogCommand) :
    (FailingStore.append faults c.db c.args s).1 = .ok () ↔ s.writer.err = none ∧
      FileWriter.Clean faults s.writer.calls
        (FailingStore.append faults c.db c.args s).2.writer.calls := by
  obtain ⟨w, hs, hcommit⟩ := append_commit faults h.fsync c
  rw [hs]
  exact hcommit.ok_iff

theorem Inv.flush (h : s.Inv first old cmds) : (flushLocked faults s).2.Inv first old cmds := by
  refine ⟨h.fsync, h.above, h.opened, ?_⟩
  show ((FileWriter.flush faults >>= fun _ => FileWriter.sync faults) s.writer).2.Settled _
  have hsame : (FileWriter.flush faults s.writer).2 = s.writer := h.segment.flush
  rw [Prog.bind_apply]
  rcases hflush : FileWriter.flush faults s.writer with ⟨_ | _, w⟩ <;> rw [hflush] at hsame <;>
    cases hsame
  · exact h.segment
  · exact h.segment.sync

/-- A `Rotate` that returns no error opens a new segment; the writer of one that does keeps its
error. -/
theorem Inv.rotate (h : s.Inv first old cmds) :
    (rotate faults s).2.Inv first old cmds ∨ (rotate faults s).2.Inv first [] [] := by
  have hsame : (FileWriter.flush faults s.writer).2 = s.writer := h.segment.flush
  rw [FailingStore.rotate, Prog.bind_apply, onWriter]
  rcases hflush : FileWriter.flush faults s.writer with ⟨e | ⟨⟩, w⟩ <;> rw [hflush] at hsame <;>
    cases hsame
  · exact .inl h
  · have hnew (g : Nat) (hg : s.gen < g) : s.files.segs.lookup g = none := by
      rw [files, Finmap.lookup_insert_of_ne _ (Nat.ne_of_gt hg)]
      exact h.above g hg
    refine .inr ⟨h.fsync, fun g hg => hnew g ((Nat.lt_succ_self _).trans hg), .inl rfl, ?_⟩
    show (FileWriter.new ((s.files.segs.lookup (s.gen + 1)).getD File.empty) _ :
      LogWriter ε).Settled _
    rw [hnew _ (Nat.lt_succ_self _)]
    exact FileWriter.Settled.new _ _

end FailingStore

end Memcore
