import Memcore.Persistence.FailingStore

/-!
# The append log after a failed `Rotate`

`Rotate` flushes the active segment, closes it and opens the next one, and each of the three can
fail. The generation is set last, so that a failure leaves it as it was; but the writer keeps the
error of a flush, and a segment that was closed stays closed, and neither is undone.

`rotate_usable_iff` follows both through all later calls: a store whose `Rotate` has failed never
writes a byte again, however well the calls of the system go. A `Rotate` on an open segment and a
writer without an error, none of whose own calls fails, leaves a store that records every command up
to the next `Flush` where `Recover` finds it.
-/

namespace Memcore

open Go ByteStream Bufio

/-- The error of a call on a file: `os.ErrClosed`, or what the system reports. -/
inductive OsError where
  | errClosed
  | system (errno : Nat)
deriving DecidableEq

/-- `Store`, with the state of `seg`. -/
structure SegmentStore where
  store : FailingStore OsError
  isClosed : Bool

namespace SegmentStore

variable (faults : Nat → Option (Fault OsError))

/-- The calls on `seg`: once it is closed they are all refused. -/
def calls (s : SegmentStore) : Nat → Option (Fault OsError) :=
  if s.isClosed then FileWriter.refuse .errClosed else faults

/-- A program of the store that uses the segment. -/
def onStore {α : Type} (p : (Nat → Option (Fault OsError)) → Prog (FailingStore OsError) OsError α) :
    Prog SegmentStore OsError α := fun s =>
  ((p (s.calls faults) s.store).1, { s with store := (p (s.calls faults) s.store).2 })

/-- `Store.Append`. -/
def append (db : Int64) (args : List Bytes) : Prog SegmentStore OsError Unit :=
  onStore faults fun calls => FailingStore.append calls db args

/-- `Store.Flush`. -/
def flush : Prog SegmentStore OsError Unit := onStore faults FailingStore.flushLocked

/-- The number of the next call. -/
def nextCall (s : SegmentStore) : Nat := s.store.writer.calls

/-- A call that touches neither the writer nor the contents of a file. -/
def count (s : SegmentStore) : SegmentStore :=
  { s with store := { s.store with
      writer := { s.store.writer with calls := s.store.writer.calls + 1 } } }

/-- `seg.Close()`. The file is closed also when the system reports an error. -/
def closeSegment : Prog SegmentStore OsError Unit := fun s =>
  if s.isClosed then (.error .errClosed, s)
  else match faults s.nextCall with
    | some f => (.error f.error, { s.count with isClosed := true })
    | none => (.ok (), { s.count with isClosed := true })

/-- `openSegment` of the next generation, which sets the generation, the file and the writer only
when the file could be opened. -/
def openNext : Prog SegmentStore OsError Nat := fun s =>
  match faults s.nextCall with
  | some f => (.error f.error, s.count)
  | none => ((FailingStore.openNext s.count.store).1, ⟨(FailingStore.openNext s.count.store).2, false⟩)

/-- `writer.Flush()`. -/
def flushWriter : Prog SegmentStore OsError Unit :=
  onStore faults fun calls => FailingStore.onWriter (FileWriter.flush calls)

/-- `Store.Rotate`. -/
def rotate : Prog SegmentStore OsError Nat := do
  flushWriter faults
  closeSegment faults
  openNext faults

/-- `Store.Close`. -/
def close : Prog SegmentStore OsError Unit := do
  flush faults
  closeSegment faults

/-- `Open`. -/
def openStore (fsync : FSync) (disk : Disk) : SegmentStore := ⟨.openStore fsync disk, false⟩

end SegmentStore

/-- A call of the store. -/
inductive StoreCall where
  | append (c : LogCommand)
  | flush
  | rotate
  | close

/-- What a call returns, and the store after it. -/
def StoreCall.run (faults : Nat → Option (Fault OsError)) :
    StoreCall → Prog SegmentStore OsError Unit
  | .append c => SegmentStore.append faults c.db c.args
  | .flush => SegmentStore.flush faults
  | .rotate => do
      let _ ← SegmentStore.rotate faults
      pure ()
  | .close => SegmentStore.close faults

/-- Is the call an `Append` that leaves the record in the buffer? -/
def StoreCall.Buffers (s : SegmentStore) : StoreCall → Prop
  | .append _ => s.store.fsync ≠ .always
  | _ => False

namespace SegmentStore

/-- The store after some calls. -/
def after (faults : Nat → Option (Fault OsError)) (s : SegmentStore) (calls : List StoreCall) :
    SegmentStore :=
  calls.foldl (fun s c => (c.run faults s).2) s

/-! ## What a `Rotate` can do -/

section Rotate

variable {faults : Nat → Option (Fault OsError)} {s : SegmentStore}

/-- One of the three steps fails and the others are not made, or all are made. -/
inductive Rotates (faults : Nat → Option (Fault OsError)) (s : SegmentStore) :
    Except OsError Nat × SegmentStore → Prop where
  | flush {e : OsError} {s₁ : SegmentStore} (flush : flushWriter faults s = (.error e, s₁)) :
      Rotates faults s (.error e, s₁)
  | close {e : OsError} {s₁ s₂ : SegmentStore} (flush : flushWriter faults s = (.ok (), s₁))
      (close : closeSegment faults s₁ = (.error e, s₂)) : Rotates faults s (.error e, s₂)
  | opening {e : OsError} {s₁ s₂ s₃ : SegmentStore} (flush : flushWriter faults s = (.ok (), s₁))
      (close : closeSegment faults s₁ = (.ok (), s₂))
      (opening : openNext faults s₂ = (.error e, s₃)) : Rotates faults s (.error e, s₃)
  | done {gen : Nat} {s₁ s₂ s₃ : SegmentStore} (flush : flushWriter faults s = (.ok (), s₁))
      (close : closeSegment faults s₁ = (.ok (), s₂))
      (opening : openNext faults s₂ = (.ok gen, s₃)) : Rotates faults s (.ok gen, s₃)

theorem rotate_rotates (faults : Nat → Option (Fault OsError)) (s : SegmentStore) :
    Rotates faults s (rotate faults s) := by
  unfold rotate
  rcases hflush : flushWriter faults s with ⟨e | ⟨⟩, s₁⟩
  · rw [Prog.bind_apply_error hflush]
    exact .flush hflush
  · rw [Prog.bind_apply_ok hflush]
    rcases hclose : closeSegment faults s₁ with ⟨e | ⟨⟩, s₂⟩
    · rw [Prog.bind_apply_error hclose]
      exact .close hflush hclose
    · rw [Prog.bind_apply_ok hclose]
      rcases hopen : openNext faults s₂ with ⟨e | gen, s₃⟩
      · exact .opening hflush hclose hopen
      · exact .done hflush hclose hopen

/-- The first step changes the writer and its file only. -/
theorem flushWriter_frame {r : Except OsError Unit} {s₁ : SegmentStore}
    (h : flushWriter faults s = (r, s₁)) :
    s₁ = { s with store := { s.store with writer := s₁.store.writer } } := by
  cases h
  rfl

/-- An error of the first step stays with the writer. -/
theorem flushWriter_error {e : OsError} {s₁ : SegmentStore}
    (h : flushWriter faults s = (.error e, s₁)) : s₁.store.writer.err = some e := by
  have hout : FileWriter.Outcome (s.calls faults) s.store.writer []
      (FileWriter.flush (s.calls faults) s.store.writer) := FileWriter.flush_appends _
  have hresult : (FileWriter.flush (s.calls faults) s.store.writer).1 = .error e :=
    congrArg (fun out => out.1) h
  have hwriter : (FileWriter.flush (s.calls faults) s.store.writer).2 = s₁.store.writer :=
    congrArg (fun out => out.2.store.writer) h
  have hres : FileWriter.flush (s.calls faults) s.store.writer = (.error e, s₁.store.writer) :=
    Prod.ext hresult hwriter
  rw [hres] at hout
  generalize s₁.store.writer = w at hout
  cases hout with
  | stuck before => exact before
  | failed _ after => exact after

/-- The second step leaves the segment closed, whatever it returns. -/
theorem closeSegment_frame {r : Except OsError Unit} {s₂ : SegmentStore}
    (h : closeSegment faults s = (r, s₂)) :
    s₂.isClosed = true ∧ (s₂ = s ∨ s₂ = { s.count with isClosed := true }) := by
  unfold closeSegment at h
  split at h
  next hc =>
    cases h
    exact ⟨hc, .inl rfl⟩
  next =>
    split at h <;> cases h <;> exact ⟨rfl, .inr rfl⟩

end Rotate

/-! ## After a failure -/

/-- The segment is closed, or a write to it has failed. -/
def Dead (s : SegmentStore) : Prop := s.isClosed = true ∨ ∃ e, s.store.writer.err = some e

/-- The same generation and policy, and the same bytes in every file. -/
structure Kept (s s' : SegmentStore) : Prop where
  gen : s'.store.gen = s.store.gen
  fsync : s'.store.fsync = s.store.fsync
  disk : s'.store.disk = s.store.disk
  file : s'.store.writer.file = s.store.writer.file

theorem Kept.refl (s : SegmentStore) : Kept s s := ⟨rfl, rfl, rfl, rfl⟩

theorem Kept.trans {s t u : SegmentStore} (h : Kept s t) (h' : Kept t u) : Kept s u :=
  ⟨h'.gen.trans h.gen, h'.fsync.trans h.fsync, h'.disk.trans h.disk, h'.file.trans h.file⟩

theorem Kept.files {s s' : SegmentStore} (h : Kept s s') : s'.store.files = s.store.files := by
  rw [FailingStore.files, FailingStore.files, h.gen, h.disk, h.file]

variable {faults : Nat → Option (Fault OsError)} {s : SegmentStore}

/-- A writer that keeps an error returns it again, and nothing else happens. -/
theorem run_stuck {e : OsError} (h : s.store.writer.err = some e) (c : StoreCall) :
    c.run faults s = (.error e, s) := by
  have hflush (calls : Nat → Option (Fault OsError)) :
      FileWriter.flush calls s.store.writer = (.error e, s.store.writer) := by
    have happends : FileWriter.Appends calls (FileWriter.flush calls : Prog (LogWriter OsError) _ _)
        [] := FileWriter.flush_appends
    exact happends.stuck h
  have hlocked : flush faults s = (.error e, s) := by
    simp only [flush, onStore, FailingStore.flushLocked, FailingStore.onWriter, Prog.bind_apply,
      hflush]
  cases c with
  | append c =>
    have hwrite : LogWriter.writeCommand (s.calls faults) c.db c.args s.store.writer
        = (.error e, s.store.writer) := (LogWriter.writeCommand_appends c).stuck h
    simp only [StoreCall.run, append, onStore, FailingStore.append, FailingStore.onWriter,
      Prog.bind_apply, hwrite]
  | flush => exact hlocked
  | rotate =>
    simp only [StoreCall.run, rotate, flushWriter, onStore, FailingStore.onWriter,
      Prog.bind_apply, hflush]
  | close => simp only [StoreCall.run, close, Prog.bind_apply, hlocked]

theorem keeps_writeCommand (e : OsError) (db : Int64) (args : List Bytes) :
    FileWriter.Keeps (LogWriter.writeCommand (FileWriter.refuse e) db args) := by
  refine (FileWriter.keeps_write e _).bind ((FileWriter.keeps_write e _).bind ?_)
  induction args with
  | nil => exact fun _ => rfl
  | cons a args ih =>
    exact ((FileWriter.keeps_write e _).bind (FileWriter.keeps_write e _)).bind ih

variable (faults)

theorem calls_closed (h : s.isClosed = true) :
    s.calls faults = FileWriter.refuse .errClosed := by
  rw [calls, if_pos h]

/-- A program of the writer on a closed segment leaves the files as they are. -/
theorem onStore_kept {p : (Nat → Option (Fault OsError)) → Prog (LogWriter OsError) OsError Unit}
    (h : s.isClosed = true) (hp : FileWriter.Keeps (p (FileWriter.refuse .errClosed))) :
    Kept s (onStore faults (fun calls => FailingStore.onWriter (p calls)) s).2 := by
  refine ⟨rfl, rfl, rfl, ?_⟩
  simp only [onStore, calls_closed faults h]
  exact hp s.store.writer

theorem flush_closed (h : s.isClosed = true) :
    ∃ e, flush faults s = (.error e, (flush faults s).2) ∧ Kept s (flush faults s).2 := by
  obtain ⟨e, he⟩ := FileWriter.refused OsError.errClosed (pure ()) s.store.writer
  refine ⟨e, Prod.ext ?_ rfl, onStore_kept faults h ?_⟩
  · simp only [flush, onStore, calls_closed faults h]
    exact he
  · exact (FileWriter.keeps_flush _).bind (FileWriter.keeps_sync _)

theorem append_closed (h : s.isClosed = true) (db : Int64) (args : List Bytes) :
    Kept s (append faults db args s).2 ∧
      (s.store.fsync = .always → ∃ e, (append faults db args s).1 = .error e) := by
  have hwrite := keeps_writeCommand .errClosed db args
  by_cases hf : s.store.fsync = .always
  · have hrun : append faults db args s = onStore faults (fun calls => FailingStore.onWriter
        (LogWriter.writeCommand calls db args >>= fun _ => FileWriter.flush calls >>= fun _ =>
          FileWriter.sync calls)) s := by
      simp only [append, onStore, FailingStore.append_always _ hf]
    rw [hrun]
    refine ⟨onStore_kept faults h ?_, fun _ => ?_⟩
    · exact hwrite.bind ((FileWriter.keeps_flush _).bind (FileWriter.keeps_sync _))
    · simp only [onStore, calls_closed faults h]
      exact FileWriter.refused _ _ _
  · have hrun : append faults db args s = onStore faults (fun calls => FailingStore.onWriter
        (LogWriter.writeCommand calls db args)) s := by
      simp only [append, onStore, FailingStore.append_buffered _ hf]
    rw [hrun]
    exact ⟨onStore_kept faults h hwrite, fun hf' => absurd hf' hf⟩

theorem closeSegment_closed (h : s.isClosed = true) :
    closeSegment faults s = (.error .errClosed, s) := by
  rw [closeSegment, if_pos h]

/-- On a closed segment nothing is written, and only an `Append` that buffers returns no error. -/
theorem run_closed (h : s.isClosed = true) (c : StoreCall) :
    (c.run faults s).2.isClosed = true ∧ Kept s (c.run faults s).2 ∧
      (¬ c.Buffers s → ∃ e, (c.run faults s).1 = .error e) := by
  obtain ⟨e, hflush, hkept⟩ := flush_closed faults h
  cases c with
  | append c =>
    obtain ⟨hk, he⟩ := append_closed faults h c.db c.args
    exact ⟨h, hk, fun hnot => he (not_not.mp hnot)⟩
  | flush => exact ⟨h, hkept, fun _ => ⟨e, congrArg Prod.fst hflush⟩⟩
  | close =>
    have hrun : StoreCall.close.run faults s = (.error e, (flush faults s).2) :=
      Prog.bind_apply_error hflush
    rw [hrun]
    exact ⟨h, hkept, fun _ => ⟨e, rfl⟩⟩
  | rotate =>
    have hwriter : Kept s (flushWriter faults s).2 := onStore_kept faults h (FileWriter.keeps_flush _)
    have hrun : StoreCall.rotate.run faults s =
        ((rotate faults s).1.map fun _ => (), (rotate faults s).2) := by
      rw [StoreCall.run, Prog.bind_apply]
      rcases rotate faults s with ⟨e | gen, s'⟩ <;> rfl
    rw [hrun]
    have hrotates := rotate_rotates faults s
    generalize rotate faults s = out at hrotates
    cases hrotates with
    | flush hf =>
      rw [hf] at hwriter
      rw [flushWriter_frame hf]
      exact ⟨h, flushWriter_frame hf ▸ hwriter, fun _ => ⟨_, rfl⟩⟩
    | close hf hc =>
      -- nothing was in the buffer, and a second `Close` is refused
      rw [hf] at hwriter
      have h₁ := congrArg isClosed (flushWriter_frame hf)
      rw [closeSegment_closed faults (h₁.trans h)] at hc
      cases hc
      exact ⟨h₁.trans h, hwriter, fun _ => ⟨_, rfl⟩⟩
    | opening hf hc _ | done hf hc _ =>
      have h₁ := congrArg isClosed (flushWriter_frame hf)
      rw [closeSegment_closed faults (h₁.trans h)] at hc
      cases hc

/-- A dead store stays dead. It writes to no file, and every call returns an error, apart from an
`Append` that only buffers. -/
theorem Dead.run (h : s.Dead) (c : StoreCall) :
    (c.run faults s).2.Dead ∧ Kept s (c.run faults s).2 ∧
      (¬ c.Buffers s → ∃ e, (c.run faults s).1 = .error e) := by
  rcases h with hc | ⟨e, he⟩
  · obtain ⟨hc', hkept, herror⟩ := run_closed faults hc c
    exact ⟨.inl hc', hkept, herror⟩
  · rw [run_stuck he c]
    exact ⟨.inr ⟨e, he⟩, Kept.refl s, fun _ => ⟨e, rfl⟩⟩

theorem Dead.after (h : s.Dead) (cs : List StoreCall) :
    (s.after faults cs).Dead ∧ Kept s (s.after faults cs) := by
  induction cs generalizing s with
  | nil => exact ⟨h, Kept.refl s⟩
  | cons c cs ih =>
    obtain ⟨hdead, hkept, -⟩ := h.run faults c
    obtain ⟨hdead', hkept'⟩ := ih hdead
    exact ⟨hdead', hkept.trans hkept'⟩

/-- What the first two steps of a `Rotate` leave as it is. -/
theorem flush_close_frame {r₁ r₂ : Except OsError Unit} {s₁ s₂ : SegmentStore}
    (hf : flushWriter faults s = (r₁, s₁)) (hc : closeSegment faults s₁ = (r₂, s₂)) :
    s₂.isClosed = true ∧ s₂.store.gen = s.store.gen ∧ s₂.store.disk = s.store.disk := by
  have hframe := flushWriter_frame hf
  obtain ⟨hclosed, rfl | rfl⟩ := closeSegment_frame hc <;> refine ⟨hclosed, ?_⟩ <;> rw [hframe] <;>
    exact ⟨rfl, rfl⟩

/-- A `Rotate` that returns an error leaves the generation as it was, and a dead store. -/
theorem rotate_error {e : OsError} {s' : SegmentStore} (h : rotate faults s = (.error e, s')) :
    s'.Dead ∧ s'.store.gen = s.store.gen ∧ s'.store.disk = s.store.disk := by
  have hrotates := rotate_rotates faults s
  rw [h] at hrotates
  cases hrotates with
  | flush hf =>
    refine ⟨.inr ⟨e, flushWriter_error hf⟩, ?_⟩
    rw [flushWriter_frame hf]
    exact ⟨rfl, rfl⟩
  | close hf hc =>
    obtain ⟨hclosed, hsame⟩ := flush_close_frame faults hf hc
    exact ⟨.inl hclosed, hsame⟩
  | opening hf hc ho =>
    obtain ⟨hclosed, hsame⟩ := flush_close_frame faults hf hc
    unfold openNext at ho
    split at ho
    next =>
      cases ho
      exact ⟨.inl hclosed, hsame⟩
    next => cases ho

/-! ## After a success -/

variable {faults}

/-- A `Rotate` that returns no error has the next generation open, with a new writer. -/
theorem rotate_ok {gen : Nat} {s' : SegmentStore} (h : rotate faults s = (.ok gen, s')) :
    gen = s.store.gen + 1 ∧ s'.isClosed = false ∧ s'.store.gen = s.store.gen + 1 ∧
      ∃ file calls, s'.store.disk = { s.store.disk with
          segs := s.store.disk.segs.insert s.store.gen file } ∧
        s'.store.writer = .new ((s'.store.disk.segs.lookup (s.store.gen + 1)).getD File.empty)
          calls := by
  have hrotates := rotate_rotates faults s
  rw [h] at hrotates
  cases hrotates with
  | @done _ s₁ s₂ _ hf hc ho =>
    obtain ⟨-, hgen⟩ := flush_close_frame faults hf hc
    unfold openNext at ho
    split at ho
    next => cases ho
    next =>
      cases ho
      refine ⟨congrArg (· + 1) hgen.1, rfl, congrArg (· + 1) hgen.1, s₂.store.writer.file,
        s₂.store.writer.calls + 1, ?_, ?_⟩
      · show s₂.count.store.files = _
        rw [FailingStore.files, ← hgen.1, ← hgen.2]
        rfl
      · rw [← hgen.1]
        rfl

/-- The states a store can be in: it was opened on any directory, and then called; `InstallSnapshot`
changes the other files, and neither leaves a segment above the active one nor installs a snapshot
that begins behind it. -/
inductive Reachable (faults : Nat → Option (Fault OsError)) : SegmentStore → Prop where
  | opened (fsync : FSync) (disk : Disk) : Reachable faults (openStore fsync disk)
  | called {s : SegmentStore} (h : Reachable faults s) (c : StoreCall) :
      Reachable faults (c.run faults s).2
  | installed {s : SegmentStore} (h : Reachable faults s) (disk : Disk)
      (base : disk.base ≤ s.store.gen)
      (above : ∀ g, s.store.gen < g → disk.segs.lookup g = none) :
      Reachable faults { s with store := { s.store with disk } }

/-- The active segment is the last one, and `Recover` replays it. -/
structure Active (s : SegmentStore) : Prop where
  base : s.store.disk.base ≤ s.store.gen
  above : ∀ g, s.store.gen < g → s.store.disk.segs.lookup g = none

theorem Active.congr {s' : SegmentStore} (h : s.Active) (hgen : s'.store.gen = s.store.gen)
    (hdisk : s'.store.disk = s.store.disk) : s'.Active := by
  refine ⟨?_, ?_⟩
  · rw [hgen, hdisk]
    exact h.base
  · rw [hgen, hdisk]
    exact h.above

theorem Active.rotated {s' : SegmentStore} {file : File} (h : s.Active)
    (hgen : s'.store.gen = s.store.gen + 1)
    (hdisk : s'.store.disk =
      { s.store.disk with segs := s.store.disk.segs.insert s.store.gen file }) : s'.Active := by
  refine ⟨?_, fun g hg => ?_⟩
  · rw [hgen, hdisk]
    exact h.base.trans (Nat.le_succ _)
  · rw [hgen] at hg
    rw [hdisk, Finmap.lookup_insert_of_ne _ (by omega)]
    exact h.above g (by omega)

theorem openStore_active (fsync : FSync) (disk : Disk) : (openStore fsync disk).Active := by
  have hmax : max (highestSegment disk.segs) disk.base = openGen disk := (openGen_eq_max disk).symm
  refine ⟨?_, fun g hg => lookup_above (lt_of_le_of_lt ?_ hg)⟩
  · exact (le_max_right _ _).trans hmax.le
  · exact (le_max_left _ _).trans hmax.le

/-- An `Append` changes the writer and its file only. -/
theorem append_frame (faults : Nat → Option (Fault OsError)) (s : SegmentStore) (db : Int64)
    (args : List Bytes) :
    (append faults db args s).2.isClosed = s.isClosed ∧
      (append faults db args s).2.store =
        { s.store with writer := (append faults db args s).2.store.writer } := by
  refine ⟨rfl, ?_⟩
  by_cases hf : s.store.fsync = .always
  · simp only [append, onStore, FailingStore.append_always _ hf, FailingStore.onWriter]
  · simp only [append, onStore, FailingStore.append_buffered _ hf, FailingStore.onWriter]

theorem Active.run (h : s.Active) (c : StoreCall) : (c.run faults s).2.Active := by
  cases c with
  | append c =>
    obtain ⟨-, hframe⟩ := append_frame faults s c.db c.args
    exact h.congr (by rw [StoreCall.run, hframe]) (by rw [StoreCall.run, hframe])
  | flush => exact h.congr rfl rfl
  | close =>
    have hflush : (flush faults s).2.Active := h.congr rfl rfl
    rw [StoreCall.run, close, Prog.bind_apply]
    rcases hf : flush faults s with ⟨e | ⟨⟩, s₁⟩ <;> rw [hf] at hflush
    · exact hflush
    · show (closeSegment faults s₁).2.Active
      rcases hc : closeSegment faults s₁ with ⟨r, s₂⟩
      obtain ⟨-, rfl | rfl⟩ := closeSegment_frame hc
      · exact hflush
      · exact hflush.congr rfl rfl
  | rotate =>
    have hrun : (StoreCall.rotate.run faults s).2 = (rotate faults s).2 := by
      rw [StoreCall.run, Prog.bind_apply]
      rcases rotate faults s with ⟨e | gen, s'⟩ <;> rfl
    rw [hrun]
    rcases hr : rotate faults s with ⟨e | gen, s'⟩
    · obtain ⟨-, hgen, hdisk⟩ := rotate_error faults hr
      exact h.congr hgen hdisk
    · obtain ⟨-, -, hgen, file, calls, hdisk, -⟩ := rotate_ok hr
      exact h.rotated hgen hdisk

theorem Reachable.active (h : Reachable faults s) : s.Active := by
  induction h with
  | opened fsync disk => exact openStore_active fsync disk
  | called _ c ih => exact ih.run c
  | installed _ disk base above _ => exact ⟨base, above⟩

/-! ### Working calls -/

/-- No call fails. -/
def working : Nat → Option (Fault OsError) := fun _ => none

/-- A program that writes, on a writer without an error and with calls that work. -/
theorem writes_working {p : Prog (LogWriter OsError) OsError Unit} {bs : List UInt8}
    (hp : FileWriter.Appends working p bs) {w : LogWriter OsError} (h : w.err = none) :
    ∃ w', p w = (.ok (), w') ∧ w'.err = none ∧ w'.all = w.all ++ bs := by
  have hw := hp w
  rcases hpw : p w with ⟨e | ⟨⟩, w'⟩ <;> rw [hpw] at hw
  · cases hw with
    | stuck before =>
      rw [h] at before
      cases before
    | failed _ _ _ fault =>
      obtain ⟨k, -, -, hk⟩ := fault
      exact absurd rfl hk
  · cases hw with
    | done _ after all => exact ⟨w', rfl, after, all⟩

/-- The segment is open, and no write to it has failed. -/
structure Open (s : SegmentStore) : Prop where
  isOpen : s.isClosed = false
  err : s.store.writer.err = none

/-- With calls that work, an `Append` returns no error and has the record in the file or in the
buffer. -/
theorem Open.append (h : s.Open) (c : LogCommand) :
    ∃ s', append working c.db c.args s = (.ok (), s') ∧ s'.Open ∧
      s'.store.gen = s.store.gen ∧ s'.store.disk = s.store.disk ∧
      s'.store.writer.all = s.store.writer.all ++ writeCommand c := by
  have hcalls : s.calls working = working := by rw [calls, h.isOpen]; rfl
  obtain ⟨w₁, hw₁, herr₁, hall₁⟩ := writes_working (LogWriter.writeCommand_appends c) h.err
  by_cases hf : s.store.fsync = .always
  · obtain ⟨w₂, hw₂, herr₂, hall₂⟩ := writes_working FileWriter.flush_appends herr₁
    refine ⟨{ s with store := { s.store with writer := (FileWriter.sync working w₂).2 } }, ?_,
      ⟨h.isOpen, herr₂⟩, rfl, rfl, ?_⟩
    · simp only [SegmentStore.append, onStore, hcalls, FailingStore.append_always _ hf,
        FailingStore.onWriter, Prog.bind_apply, hw₁, hw₂]
      rfl
    · show w₂.file.sync.contents ++ w₂.buf = _
      rw [File.contents_sync, ← hall₁, ← List.append_nil w₁.all, ← hall₂]
      rfl
  · refine ⟨{ s with store := { s.store with writer := w₁ } }, ?_, ⟨h.isOpen, herr₁⟩, rfl, rfl, hall₁⟩
    simp only [SegmentStore.append, onStore, hcalls, FailingStore.append_buffered _ hf,
      FailingStore.onWriter, hw₁]

/-- With calls that work, a `Flush` returns no error and has everything in the file. -/
theorem Open.flush (h : s.Open) :
    ∃ s', flush working s = (.ok (), s') ∧ s'.store.gen = s.store.gen ∧
      s'.store.disk = s.store.disk ∧ s'.store.writer.file.contents = s.store.writer.all := by
  have hcalls : s.calls working = working := by rw [calls, h.isOpen]; rfl
  obtain ⟨w, hw, -, hall⟩ := writes_working FileWriter.flush_appends h.err
  refine ⟨{ s with store := { s.store with writer := (FileWriter.sync working w).2 } }, ?_, rfl, rfl,
    ?_⟩
  · simp only [SegmentStore.flush, onStore, hcalls, FailingStore.flushLocked, FailingStore.onWriter,
      Prog.bind_apply, hw]
    rfl
  · show w.file.sync.contents = _
    rw [FileWriter.all, FileWriter.flush_ok hw, List.append_nil, List.append_nil] at hall
    rw [File.contents_sync, hall]

/-- Commands appended one after the other, and a `Flush`; it returns no error if none of the calls
does. -/
def log (faults : Nat → Option (Fault OsError)) : List LogCommand → Prog SegmentStore OsError Unit
  | [] => flush faults
  | c :: cmds => do
      append faults c.db c.args
      log faults cmds

theorem Open.log (h : s.Open) (cmds : List LogCommand) :
    ∃ s', log working cmds s = (.ok (), s') ∧ s'.store.gen = s.store.gen ∧
      s'.store.disk = s.store.disk ∧ s'.store.writer.file.contents
        = s.store.writer.all ++ cmds.flatMap writeCommand := by
  induction cmds generalizing s with
  | nil =>
    rw [List.flatMap_nil, List.append_nil]
    exact h.flush
  | cons c cmds ih =>
    obtain ⟨s₁, happend, hopen₁, hgen₁, hdisk₁, hall₁⟩ := h.append c
    obtain ⟨s', hlog, hgen, hdisk, hfile⟩ := ih hopen₁
    refine ⟨s', ?_, hgen.trans hgen₁, hdisk.trans hdisk₁, ?_⟩
    · rw [SegmentStore.log, Prog.bind_apply_ok happend, hlog]
    · rw [hfile, hall₁, List.flatMap_cons, List.append_assoc]

/-- The command is replayed from a segment that `Recover` comes to. -/
def Recorded (disk : Disk) (c : LogCommand) : Prop :=
  ∃ g file, disk.base ≤ g ∧ disk.segs.lookup g = some file ∧
    (c.db, c.args) ∈ (replaySegment (fun (calls : List (Int64 × List Bytes)) db args =>
      (calls ++ [(db, args)], (none : Option Unit))) file.contents []).1

/-- Whatever is appended from here on and flushed, by calls that work, is recorded. -/
def Usable (s : SegmentStore) : Prop :=
  ∀ cmds : List LogCommand, ∃ s', log working cmds s = (.ok (), s') ∧
    ∀ c ∈ cmds, Recorded s'.store.files c

/-- A new segment that `Recover` replays takes what comes. -/
theorem Open.usable (h : s.Open) (hactive : s.Active) (hnew : s.store.writer.all = []) :
    s.Usable := by
  intro cmds
  obtain ⟨s', hlog, hgen, hdisk, hfile⟩ := h.log cmds
  rw [hnew, List.nil_append] at hfile
  refine ⟨s', hlog, fun c hc => ⟨s'.store.gen, s'.store.writer.file, ?_, ?_, ?_⟩⟩
  · rw [hgen]
    show s'.store.disk.base ≤ _
    rw [hdisk]
    exact hactive.base
  · exact Finmap.lookup_insert _
  · rw [hfile, replaySegment_calls List.prefix_rfl, wholeRecords_all]
    exact List.mem_map_of_mem hc

theorem Dead.not_usable (h : s.Dead) : ¬ s.Usable := by
  intro husable
  obtain ⟨s', hlog, -⟩ := husable []
  obtain ⟨-, -, herror⟩ := h.run working .flush
  obtain ⟨e, he⟩ := herror id
  have hflush : flush working s = (.ok (), s') := hlog
  rw [StoreCall.run, hflush] at he
  cases he

/-! ## When a `Rotate` fails -/

/-- The calls of the system a `Rotate` makes: it writes what is in the buffer, if anything is, and
closes and opens a file. -/
def rotateCalls (s : SegmentStore) : Nat := if s.store.writer.buf = [] then 2 else 3

/-- The first step, on an open segment and a writer without an error. -/
theorem Open.flushWriter (h : s.Open) (hclean : FileWriter.Clean faults s.nextCall
    (s.nextCall + s.rotateCalls)) :
    ∃ s₁, SegmentStore.flushWriter faults s = (.ok (), s₁) ∧ s₁.isClosed = false ∧
      s₁.nextCall + 2 = s.nextCall + s.rotateCalls := by
  have hcalls : s.calls faults = faults := by rw [calls, h.isOpen]; rfl
  unfold rotateCalls at hclean ⊢
  by_cases hbuf : s.store.writer.buf = []
  · have hflush : FileWriter.flush faults s.store.writer = (.ok (), s.store.writer) := by
      simp only [FileWriter.flush, h.err, if_pos hbuf]
    refine ⟨s, ?_, h.isOpen, by rw [if_pos hbuf]⟩
    simp only [SegmentStore.flushWriter, onStore, hcalls, FailingStore.onWriter, hflush]
  · rw [if_neg hbuf] at hclean ⊢
    have hwrite : faults s.store.writer.calls = none :=
      hclean s.nextCall (Nat.le_refl _) (Nat.lt_add_of_pos_right (by decide))
    have hflush : FileWriter.flush faults s.store.writer
        = (.ok (), .new (s.store.writer.file.write s.store.writer.buf) (s.nextCall + 1)) := by
      simp only [FileWriter.flush, h.err, if_neg hbuf, hwrite, nextCall]
    refine ⟨{ s with store := { s.store with
      writer := .new (s.store.writer.file.write s.store.writer.buf) (s.nextCall + 1) } }, ?_,
      h.isOpen, rfl⟩
    simp only [SegmentStore.flushWriter, onStore, hcalls, FailingStore.onWriter, hflush]

/-- The first step has succeeded: no error was kept, and the write, if there was one, has worked. -/
theorem flushWriter_ok {s₁ : SegmentStore} (hopen : s.isClosed = false)
    (h : SegmentStore.flushWriter faults s = (.ok (), s₁)) :
    s.store.writer.err = none ∧ s₁.nextCall + 2 = s.nextCall + s.rotateCalls ∧
      FileWriter.Clean faults s.nextCall s₁.nextCall := by
  have hcalls : s.calls faults = faults := by rw [calls, hopen]; rfl
  simp only [SegmentStore.flushWriter, onStore, hcalls, FailingStore.onWriter, Prod.mk.injEq] at h
  obtain ⟨hresult, hstate⟩ := h
  unfold rotateCalls
  cases herr : s.store.writer.err with
  | some e => simp only [FileWriter.flush, herr] at hresult; cases hresult
  | none =>
    by_cases hbuf : s.store.writer.buf = []
    · simp only [FileWriter.flush, herr, if_pos hbuf] at hstate
      rw [← hstate, if_pos hbuf]
      exact ⟨rfl, rfl, FileWriter.Clean.refl _⟩
    · cases hf : faults s.store.writer.calls with
      | some f => simp only [FileWriter.flush, herr, if_neg hbuf, hf] at hresult; cases hresult
      | none =>
        simp only [FileWriter.flush, herr, if_neg hbuf, hf] at hstate
        rw [← hstate, if_neg hbuf]
        exact ⟨rfl, rfl, FileWriter.Clean.succ hf⟩

theorem closeSegment_ok_iff {s₂ : SegmentStore} :
    closeSegment faults s = (.ok (), s₂) ↔
      s.isClosed = false ∧ faults s.nextCall = none ∧ s₂ = { s.count with isClosed := true } := by
  unfold closeSegment
  cases hclosed : s.isClosed with
  | true => simp
  | false =>
    cases hf : faults s.nextCall with
    | some f => simp
    | none => simp [eq_comm]

theorem openNext_ok_iff : (∃ gen, (openNext faults s).1 = .ok gen) ↔ faults s.nextCall = none := by
  unfold openNext
  cases faults s.nextCall with
  | some f => simp
  | none => exact iff_of_true ⟨_, rfl⟩ rfl

/-- **A `Rotate` succeeds exactly if** the segment is open, no write to it has failed before, and none
of the calls of this `Rotate` fails. -/
theorem rotate_ok_iff : (∃ gen, (rotate faults s).1 = .ok gen) ↔
    s.Open ∧ FileWriter.Clean faults s.nextCall (s.nextCall + s.rotateCalls) := by
  constructor
  · rintro ⟨gen, hok⟩
    have hrotates := rotate_rotates faults s
    rcases hr : rotate faults s with ⟨r, s'⟩
    rw [hr] at hok hrotates
    cases hok
    cases hrotates with
    | @done _ s₁ s₂ _ hf hc ho =>
      obtain ⟨hopen, hclose, rfl⟩ := closeSegment_ok_iff.mp hc
      have hclosed : s.isClosed = false := by
        rw [flushWriter_frame hf] at hopen
        exact hopen
      obtain ⟨herr, hcount, hclean⟩ := flushWriter_ok hclosed hf
      have hnext := openNext_ok_iff.mp ⟨gen, congrArg Prod.fst ho⟩
      refine ⟨⟨hclosed, herr⟩, ?_⟩
      rw [← hcount]
      exact hclean.trans ((FileWriter.Clean.succ hclose).trans (FileWriter.Clean.succ hnext))
  · rintro ⟨hopen, hclean⟩
    obtain ⟨s₁, hf, hclosed, hcount⟩ := hopen.flushWriter hclean
    have hle : s.nextCall ≤ s₁.nextCall := by
      unfold rotateCalls at hcount
      split at hcount <;> omega
    have hc := closeSegment_ok_iff.mpr ⟨hclosed, hclean s₁.nextCall hle (by omega), rfl⟩
    unfold rotate
    rw [Prog.bind_apply_ok hf, Prog.bind_apply_ok hc]
    refine openNext_ok_iff.mpr (hclean (s₁.nextCall + 1) ?_ ?_) <;> omega

/-- **A failed `Rotate` leaves a store that records nothing more.** Whatever `Rotate` fails at, the
generation stays as it was. But from then on no call writes to any file, whichever calls follow and
however the system answers them: every `Flush`, `Rotate` and `Close`, and under the policy `always`
every `Append`, returns an error, and under the other policies an `Append` may return none. The store
is usable after a `Rotate`, in that commands appended and flushed by calls that work are recorded where
`Recover` replays them, exactly when before it the segment was open and no write to it had failed, and
none of the calls of the `Rotate` itself has failed: not the write of the buffer, not the close, not the
open. -/
theorem rotate_usable_iff (h : Reachable faults s) :
    (∀ e, (rotate faults s).1 = .error e → (rotate faults s).2.store.gen = s.store.gen) ∧
    ((rotate faults s).2.Usable ↔
      s.Open ∧ ∀ k, s.nextCall ≤ k → k < s.nextCall + s.rotateCalls → faults k = none) ∧
    (∀ e, (rotate faults s).1 = .error e → ∀ (later : Nat → Option (Fault OsError))
      (cs : List StoreCall),
      ((rotate faults s).2.after later cs).store.gen = s.store.gen ∧
      ((rotate faults s).2.after later cs).store.files = (rotate faults s).2.store.files ∧
      ∀ c : StoreCall, ¬ c.Buffers ((rotate faults s).2.after later cs) →
        ∃ e, (c.run later ((rotate faults s).2.after later cs)).1 = .error e) := by
  have hiff : (∃ gen, (rotate faults s).1 = .ok gen) ↔
      s.Open ∧ ∀ k, s.nextCall ≤ k → k < s.nextCall + s.rotateCalls → faults k = none := rotate_ok_iff
  rw [← hiff]
  rcases hr : rotate faults s with ⟨e | gen, s'⟩
  · obtain ⟨hdead, hgen, -⟩ := rotate_error faults hr
    refine ⟨fun _ _ => hgen, iff_of_false hdead.not_usable ?_, fun _ _ later cs => ?_⟩
    · rintro ⟨gen, hok⟩
      cases hok
    · obtain ⟨hdead', hkept⟩ := hdead.after later cs
      exact ⟨hkept.gen.trans hgen, hkept.files, fun c hc => (hdead'.run later c).2.2 hc⟩
  · obtain ⟨rfl, hopen, hgen, file, calls, hdisk, hwriter⟩ := rotate_ok hr
    have hactive : s'.Active := h.active.rotated hgen hdisk
    have hnone : s'.store.disk.segs.lookup (s.store.gen + 1) = none := by
      rw [hdisk, Finmap.lookup_insert_of_ne _ (Nat.succ_ne_self _)]
      exact h.active.above _ (Nat.lt_succ_self _)
    rw [hnone] at hwriter
    refine ⟨fun e he => (by cases he), iff_of_true ?_ ⟨_, rfl⟩, fun e he => (by cases he)⟩
    exact Open.usable ⟨hopen, by rw [hwriter]; rfl⟩ hactive (by rw [hwriter]; rfl)

/-- A `Rotate` whose calls work. -/
theorem rotate_usable_iff_working :
    (rotate working (openStore .everySec Disk.empty)).2.Usable :=
  (rotate_usable_iff (.opened .everySec Disk.empty)).2.1.mpr ⟨⟨rfl, rfl⟩, fun _ _ _ => rfl⟩

/-- Too many files are open when `Rotate` comes to open the next segment, which is the second call;
every other call works. -/
def tooManyFiles : Nat → Option (Fault OsError) := fun k =>
  if k = 1 then some ⟨0, .system 24⟩ else none

/-- The command `DEL k` on database 0. -/
def delCommand : LogCommand := ⟨0, [ascii "DEL", ascii "k"], by decide⟩

/-- The open fails once. After that all calls work: an `Append` returns no error, the `Flush` behind
it does, a second `Rotate` does too, and `Recover` does not find the command. -/
theorem rotate_open_fails :
    let rotated := rotate tooManyFiles (openStore .everySec Disk.empty)
    let appended := append tooManyFiles delCommand.db delCommand.args rotated.2
    let flushed := flush tooManyFiles appended.2
    rotated.1 = .error (.system 24) ∧ appended.1 = .ok () ∧ flushed.1 = .error .errClosed ∧
      (rotate tooManyFiles flushed.2).1 = .error .errClosed ∧
      ¬ Recorded flushed.2.store.files delCommand := by
  refine ⟨rfl, rfl, rfl, rfl, ?_⟩
  rintro ⟨g, file, -, hlookup, hmem⟩
  -- the only segment is the one `Open` has created, and it is still empty
  have hempty : file = File.empty := by
    change Finmap.lookup g ((∅ : Finmap fun _ : Nat => File).insert 0 File.empty) = some file
      at hlookup
    by_cases hg : g = 0
    · rw [hg, Finmap.lookup_insert] at hlookup
      exact (Option.some.inj hlookup).symm
    · rw [Finmap.lookup_insert_of_ne _ hg, Finmap.lookup_empty] at hlookup
      cases hlookup
  rw [hempty] at hmem
  exact List.not_mem_nil hmem

end SegmentStore

end Memcore
