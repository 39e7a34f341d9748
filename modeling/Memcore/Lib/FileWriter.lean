import Memcore.Lib.File
import Memcore.Lib.Prog

/-!
# Buffered output to a file that may fail

Go's `bufio.Writer` over an `os.File`. Each `Write` and `Sync` of the file is a call, and `faults` says
of the calls, which are numbered, whether they fail and how far they get. The writer keeps the first
error of a `Write` and from then on does nothing but return it.

What a program on such a writer has done is said once (`Outcome`): it has written its bytes, or it was
stuck from the start, or a call has failed on the way. Programs that write compose
(`Appends.bind`).
-/

namespace File

/-- A `Sync` that fails when `done` more bytes have reached the disk. -/
def syncSome (f : File) (done : Nat) : File :=
  ⟨f.synced ++ f.unsynced.take done, f.unsynced.drop done⟩

@[simp] theorem contents_syncSome (f : File) (done : Nat) :
    (f.syncSome done).contents = f.contents := by
  rw [contents, syncSome, List.append_assoc, List.take_append_drop]
  rfl

end File

namespace Bufio

/-- A call that fails after `done` bytes. -/
structure Fault (ε : Type) where
  done : Nat
  error : ε

/-- A writer with a buffer of `size` bytes and its file; `calls` counts the calls. -/
structure FileWriter (ε : Type) (size : Nat) where
  buf : List UInt8
  err : Option ε
  file : File
  calls : Nat
  fits : buf.length ≤ size

namespace FileWriter

variable {ε : Type} {size : Nat}

/-- `NewWriter` on an open file. -/
def new (file : File) (calls : Nat) : FileWriter ε size := ⟨[], none, file, calls, Nat.zero_le _⟩

/-- What is in the file and in the buffer. -/
def all (w : FileWriter ε size) : List UInt8 := w.file.contents ++ w.buf

/-- `Available`. -/
def available (w : FileWriter ε size) : Nat := size - w.buf.length

/-- Copy as many bytes behind what is in the buffer as there is room for. -/
def copy (w : FileWriter ε size) (bs : List UInt8) : FileWriter ε size :=
  { w with
    buf := w.buf ++ bs.take w.available
    fits := by
      have hfits := w.fits
      have hlen := List.length_take_le w.available bs
      unfold available at hlen ⊢
      rw [List.length_append]
      omega }

theorem all_copy (w : FileWriter ε size) (bs : List UInt8) :
    (w.copy bs).all = w.all ++ bs.take w.available := (List.append_assoc _ _ _).symm

variable (faults : Nat → Option (Fault ε))

/-- `Flush`. -/
def flush : Prog (FileWriter ε size) ε Unit := fun w =>
  match w.err with
  | some e => (.error e, w)
  | none =>
    if w.buf = [] then (.ok (), w)
    else match faults w.calls with
      | none => (.ok (), new (w.file.write w.buf) (w.calls + 1))
      | some f => (.error f.error,
          { buf := w.buf.drop f.done
            err := some f.error
            file := w.file.write (w.buf.take f.done)
            calls := w.calls + 1
            fits := Nat.le_trans (List.drop_sublist _ _).length_le w.fits })

/-- `Write` into an empty buffer: a long write goes past it. -/
def writeEmpty (bs : List UInt8) : Prog (FileWriter ε size) ε Unit := fun w =>
  if bs.length ≤ w.available then (.ok (), w.copy bs)
  else match faults w.calls with
    | none => (.ok (), { w with file := w.file.write bs, calls := w.calls + 1 })
    | some f => (.error f.error, { w with
        err := some f.error
        file := w.file.write (bs.take f.done)
        calls := w.calls + 1 })

/-- `Write`. The loop of the source comes to its end in the second round, because `Flush` leaves an
empty buffer or an error. -/
def write (bs : List UInt8) : Prog (FileWriter ε size) ε Unit := fun w =>
  match w.err with
  | some e => (.error e, w)
  | none =>
    if bs.length ≤ w.available then (.ok (), w.copy bs)
    else if w.buf = [] then writeEmpty faults bs w
    else (flush faults >>= fun _ => writeEmpty faults (bs.drop w.available)) (w.copy bs)

/-- `Sync` of the file; the writer does not see its error. -/
def sync : Prog (FileWriter ε size) ε Unit := fun w =>
  match faults w.calls with
  | none => (.ok (), { w with file := w.file.sync, calls := w.calls + 1 })
  | some f => (.error f.error,
      { w with file := w.file.syncSome f.done, calls := w.calls + 1 })

/-! ## What was done -/

/-- None of the calls from number `i` up to number `j` fails. -/
def Clean (i j : Nat) : Prop := ∀ k, i ≤ k → k < j → faults k = none

/-- What a program that was to write `bs` has made of the writer `w`. -/
inductive Outcome (w : FileWriter ε size) (bs : List UInt8) :
    Except ε Unit × FileWriter ε size → Prop where
  /-- All of it is in the file or in the buffer. -/
  | done {w' : FileWriter ε size} (before : w.err = none) (after : w'.err = none)
      (all : w'.all = w.all ++ bs)
      (le : w.calls ≤ w'.calls) (clean : Clean faults w.calls w'.calls) :
      Outcome w bs (.ok (), w')
  /-- There was an error before. -/
  | stuck {e : ε} (before : w.err = some e) : Outcome w bs (.error e, w)
  /-- A call has failed; some of it is in the file. -/
  | failed {e : ε} {w' : FileWriter ε size} (before : w.err = none) (after : w'.err = some e)
      (only : w'.file.contents <+: w.all ++ bs)
      (fault : ∃ k, w.calls ≤ k ∧ k < w'.calls ∧ faults k ≠ none) :
      Outcome w bs (.error e, w')

/-- The program writes `bs`, as far as the file lets it. -/
def Appends (p : Prog (FileWriter ε size) ε Unit) (bs : List UInt8) : Prop :=
  ∀ w, Outcome faults w bs (p w)

variable {faults}

theorem Clean.refl (i : Nat) : Clean faults i i := fun _ hle hlt => absurd hle (Nat.not_le.mpr hlt)

theorem Clean.trans {i j k : Nat} (h : Clean faults i j) (h' : Clean faults j k) :
    Clean faults i k := by
  intro l hle hlt
  by_cases hl : l < j
  · exact h l hle hl
  · exact h' l (Nat.not_lt.mp hl) hlt

theorem Clean.succ {i : Nat} (h : faults i = none) : Clean faults i (i + 1) := by
  intro k hle hlt
  rwa [show k = i by omega]

theorem Outcome.trans {w w₁ : FileWriter ε size} {bs cs : List UInt8}
    {out : Except ε Unit × FileWriter ε size} (h : Outcome faults w bs (.ok (), w₁))
    (h' : Outcome faults w₁ cs out) : Outcome faults w (bs ++ cs) out := by
  cases h with
  | done before after all le clean =>
    cases h' with
    | stuck before' =>
      rw [after] at before'
      cases before'
    | done before' after' all' le' clean' =>
      refine .done before after' ?_ (Nat.le_trans le le') (clean.trans clean')
      rw [all', all, List.append_assoc]
    | failed before' after' only' fault' =>
      obtain ⟨k, hle, hlt, hk⟩ := fault'
      refine .failed before after' ?_ ⟨k, Nat.le_trans le hle, hlt, hk⟩
      rw [← List.append_assoc, ← all]
      exact only'

/-- What fails to write a part fails to write the whole. -/
theorem Outcome.more {w w' : FileWriter ε size} {bs : List UInt8} {e : ε}
    (h : Outcome faults w bs (.error e, w')) (cs : List UInt8) :
    Outcome faults w (bs ++ cs) (.error e, w') := by
  cases h with
  | stuck before => exact .stuck before
  | failed before after only fault =>
    refine .failed before after (only.trans ?_) fault
    rw [← List.append_assoc]
    exact List.prefix_append _ _

theorem Outcome.bind {p q : Prog (FileWriter ε size) ε Unit} {w : FileWriter ε size}
    {bs cs : List UInt8} (hp : Outcome faults w bs (p w))
    (hq : ∀ w₁, p w = (.ok (), w₁) → w₁.err = none → Outcome faults w₁ cs (q w₁)) :
    Outcome faults w (bs ++ cs) ((p >>= fun _ => q) w) := by
  rw [Prog.bind_apply]
  rcases hw : p w with ⟨e | ⟨⟩, w₁⟩
  · rw [hw] at hp
    exact hp.more cs
  · have hafter : w₁.err = none := by
      rw [hw] at hp
      cases hp with
      | done _ after => exact after
    have hw₁ := hq w₁ hw hafter
    rw [hw] at hp
    exact hp.trans hw₁

/-- A writer with an error does nothing but return it. -/
theorem Appends.stuck {p : Prog (FileWriter ε size) ε Unit} {bs : List UInt8}
    (hp : Appends faults p bs) {w : FileWriter ε size} {e : ε} (h : w.err = some e) :
    p w = (.error e, w) := by
  have hw := hp w
  generalize p w = out at hw
  cases hw with
  | stuck before =>
    rw [h] at before
    cases before
    rfl
  | done before | failed before =>
    rw [h] at before
    cases before

theorem Appends.bind {p q : Prog (FileWriter ε size) ε Unit} {bs cs : List UInt8}
    (hp : Appends faults p bs) (hq : Appends faults q cs) :
    Appends faults (p >>= fun _ => q) (bs ++ cs) :=
  fun w => (hp w).bind fun w₁ _ _ => hq w₁

/-! ## The calls of the writer -/

theorem Outcome.copy {w : FileWriter ε size} {bs : List UInt8} (h : w.err = none)
    (hle : bs.length ≤ w.available) : Outcome faults w bs (.ok (), w.copy bs) := by
  refine .done h h ?_ (Nat.le_refl _) (Clean.refl _)
  rw [all_copy, List.take_of_length_le hle]

/-- A call that writes `bs` to the file, or fails, with what is then left in the buffer. -/
theorem Outcome.call {w w' : FileWriter ε size} {bs cs : List UInt8} (h : w.err = none)
    (hcs : cs <+: w.buf ++ bs) (hcalls : w'.calls = w.calls + 1)
    (hfile : w'.file = w.file.write cs)
    {f : Fault ε} (hf : faults w.calls = some f) (herr : w'.err = some f.error) :
    Outcome faults w bs (.error f.error, w') := by
  have hfault : ∃ k, w.calls ≤ k ∧ k < w'.calls ∧ faults k ≠ none := by
    refine ⟨w.calls, Nat.le_refl _, hcalls ▸ Nat.lt_succ_self _, ?_⟩
    rw [hf]
    exact Option.some_ne_none f
  refine .failed h herr ?_ hfault
  rw [hfile, File.contents_write, all, List.append_assoc]
  exact (List.prefix_append_right_inj _).mpr hcs

theorem flush_appends : Appends faults (flush faults : Prog (FileWriter ε size) ε Unit) [] := by
  intro w
  unfold flush
  cases herr : w.err with
  | some e => exact .stuck herr
  | none =>
    simp only
    split
    next => exact .done herr herr (List.append_nil _).symm (Nat.le_refl _) (Clean.refl _)
    next =>
      cases hf : faults w.calls with
      | none =>
        refine .done herr rfl ?_ (Nat.le_succ _) (Clean.succ hf)
        simp [all, new]
      | some f =>
        refine Outcome.call herr ?_ rfl rfl hf rfl
        rw [List.append_nil]
        exact List.take_prefix _ _

/-- After a `Flush` that returns no error the buffer is empty. -/
theorem flush_ok {w w' : FileWriter ε size} (h : flush faults w = (.ok (), w')) : w'.buf = [] := by
  unfold flush at h
  cases herr : w.err with
  | some e =>
    simp only [herr] at h
    cases h
  | none =>
    simp only [herr] at h
    split at h
    next hbuf =>
      cases h
      exact hbuf
    next =>
      cases hf : faults w.calls with
      | none =>
        simp only [hf] at h
        cases h
        rfl
      | some f =>
        simp only [hf] at h
        cases h

theorem writeEmpty_outcome {w : FileWriter ε size} (bs : List UInt8) (herr : w.err = none)
    (hbuf : w.buf = []) : Outcome faults w bs (writeEmpty faults bs w) := by
  unfold writeEmpty
  split
  next hle => exact Outcome.copy herr hle
  next =>
    cases hf : faults w.calls with
    | none =>
      refine .done herr herr ?_ (Nat.le_succ _) (Clean.succ hf)
      simp [all, hbuf]
    | some f =>
      refine Outcome.call herr ?_ rfl rfl hf rfl
      rw [hbuf]
      exact List.take_prefix _ _

theorem write_appends (bs : List UInt8) :
    Appends faults (write faults bs : Prog (FileWriter ε size) ε Unit) bs := by
  intro w
  unfold write
  cases herr : w.err with
  | some e => exact .stuck herr
  | none =>
    simp only
    split
    next hle => exact Outcome.copy herr hle
    next =>
      split
      next hbuf => exact writeEmpty_outcome bs herr hbuf
      next =>
        -- the buffer is filled up and flushed, and the rest is written
        have hcopy : Outcome faults w (bs.take w.available) (.ok (), w.copy bs) :=
          .done herr herr (all_copy w bs) (Nat.le_refl _) (Clean.refl _)
        have hflush : Outcome faults (w.copy bs) [] (flush faults (w.copy bs)) := flush_appends _
        have hrest : Outcome faults (w.copy bs) ([] ++ bs.drop w.available) _ :=
          hflush.bind fun w₁ hw₁ herr₁ => writeEmpty_outcome _ herr₁ (flush_ok hw₁)
        have hall := hcopy.trans hrest
        rwa [List.nil_append, List.take_append_drop] at hall

/-! ## Writing, flushing and syncing -/

/-- What writing `bs` and then flushing and syncing has made of the writer `w`. -/
inductive Commit (faults : Nat → Option (Fault ε)) (w : FileWriter ε size) (bs : List UInt8) :
    Except ε Unit × FileWriter ε size → Prop where
  /-- All of it is synced. -/
  | synced {w' : FileWriter ε size} (before : w.err = none) (after : w'.err = none)
      (buf : w'.buf = []) (file : w'.file = ⟨w.all ++ bs, []⟩)
      (clean : Clean faults w.calls w'.calls) : Commit faults w bs (.ok (), w')
  /-- There was an error before. -/
  | stuck {e : ε} (before : w.err = some e) : Commit faults w bs (.error e, w)
  /-- A write has failed; some of it is in the file. -/
  | failed {e : ε} {w' : FileWriter ε size} (before : w.err = none) (after : w'.err = some e)
      (only : w'.file.contents <+: w.all ++ bs)
      (fault : ∃ k, w.calls ≤ k ∧ k < w'.calls ∧ faults k ≠ none) :
      Commit faults w bs (.error e, w')
  /-- The `Sync` has failed; all of it is in the file. -/
  | unsynced {e : ε} {w' : FileWriter ε size} (before : w.err = none) (after : w'.err = none)
      (buf : w'.buf = []) (contents : w'.file.contents = w.all ++ bs)
      (fault : ∃ k, w.calls ≤ k ∧ k < w'.calls ∧ faults k ≠ none) :
      Commit faults w bs (.error e, w')

/-- Programs that write, with `Flush` and `Sync` at the end. -/
theorem Appends.commit {p : Prog (FileWriter ε size) ε Unit} {bs : List UInt8}
    (hp : Appends faults p bs) (w : FileWriter ε size) :
    Commit faults w bs ((p >>= fun _ => flush faults >>= fun _ => sync faults) w) := by
  have hassoc : (p >>= fun _ => flush faults >>= fun _ => sync faults) w
      = ((p >>= fun _ => flush faults) >>= fun _ => sync faults) w := by
    simp only [Prog.bind_apply]
    rcases p w with ⟨_ | ⟨⟩, w₁⟩ <;> rfl
  rw [hassoc, Prog.bind_apply]
  have hflush := hp.bind flush_appends w
  rw [List.append_nil] at hflush
  rcases hw : (p >>= fun _ => flush faults) w with ⟨e | ⟨⟩, w₁⟩
  · rw [hw] at hflush
    cases hflush with
    | stuck before => exact .stuck before
    | failed before after only fault => exact .failed before after only fault
  · rw [hw] at hflush
    obtain ⟨⟨⟩, w₀, -, hlast⟩ := Prog.bind_eq_ok.mp hw
    have hbuf : w₁.buf = [] := flush_ok hlast
    cases hflush with
    | done before after all le clean =>
      have hcontents : w₁.file.contents = w.all ++ bs := by
        rw [← all, FileWriter.all, hbuf, List.append_nil]
      show Commit faults w bs (sync faults w₁)
      unfold sync
      cases hf : faults w₁.calls with
      | none =>
        refine .synced before after hbuf ?_ (clean.trans (Clean.succ hf))
        show w₁.file.sync = _
        rw [File.sync, hcontents]
      | some f =>
        refine .unsynced before after hbuf ?_
          ⟨w₁.calls, le, Nat.lt_succ_self _, by rw [hf]; exact Option.some_ne_none f⟩
        show (w₁.file.syncSome f.done).contents = _
        rw [File.contents_syncSome, hcontents]

/-- It returns no error exactly when there was none before and no call fails. -/
theorem Commit.ok_iff {w w' : FileWriter ε size} {bs : List UInt8} {out : Except ε Unit}
    (h : Commit faults w bs (out, w')) :
    out = .ok () ↔ w.err = none ∧ Clean faults w.calls w'.calls := by
  cases h with
  | synced before _ _ _ clean => exact ⟨fun _ => ⟨before, clean⟩, fun _ => rfl⟩
  | stuck before =>
    refine ⟨fun h => (by cases h), fun h => ?_⟩
    rw [before] at h
    cases h.1
  | failed _ _ _ fault | unsynced _ _ _ _ fault =>
    obtain ⟨k, hle, hlt, hk⟩ := fault
    exact ⟨fun h => (by cases h), fun h => absurd (h.2 k hle hlt) hk⟩

/-- Between two commits: the file is a prefix of `bs`, and all of it as long as no write has failed. -/
structure Settled (w : FileWriter ε size) (bs : List UInt8) : Prop where
  only : w.file.contents <+: bs
  whole : w.err = none → w.buf = [] ∧ w.file.contents = bs

theorem Settled.all {w : FileWriter ε size} {bs : List UInt8} (h : w.Settled bs)
    (herr : w.err = none) : w.all = bs := by
  obtain ⟨hbuf, hcontents⟩ := h.whole herr
  rw [FileWriter.all, hbuf, List.append_nil, hcontents]

theorem Settled.new (file : File) (calls : Nat) :
    (FileWriter.new file calls : FileWriter ε size).Settled file.contents :=
  ⟨List.prefix_rfl, fun _ => ⟨rfl, rfl⟩⟩

theorem Settled.commit {w w' : FileWriter ε size} {bs cs : List UInt8} {out : Except ε Unit}
    (h : w.Settled bs) (hc : Commit faults w cs (out, w')) : w'.Settled (bs ++ cs) := by
  cases hc with
  | synced before after buf file =>
    have hcontents : w'.file.contents = bs ++ cs := by
      rw [file, ← h.all before]
      exact List.append_nil _
    exact ⟨hcontents ▸ List.prefix_rfl, fun _ => ⟨buf, hcontents⟩⟩
  | stuck before =>
    refine ⟨h.only.trans (List.prefix_append _ _), fun herr => ?_⟩
    rw [before] at herr
    cases herr
  | failed before after only =>
    refine ⟨h.all before ▸ only, fun herr => ?_⟩
    rw [after] at herr
    cases herr
  | unsynced before after buf contents =>
    rw [h.all before] at contents
    exact ⟨contents ▸ List.prefix_rfl, fun _ => ⟨buf, contents⟩⟩

/-- A commit that returns no error has synced everything. -/
theorem Settled.synced {w w' : FileWriter ε size} {bs cs : List UInt8} (h : w.Settled bs)
    (hc : Commit faults w cs (.ok (), w')) : w'.file = ⟨bs ++ cs, []⟩ := by
  cases hc with
  | synced before _ _ file => rw [file, h.all before]

theorem Settled.flush {w : FileWriter ε size} {bs : List UInt8} (h : w.Settled bs) :
    (FileWriter.flush faults w).2 = w := by
  unfold FileWriter.flush
  cases herr : w.err with
  | some e => rfl
  | none =>
    simp only
    rw [if_pos (h.whole herr).1]

theorem Settled.sync {w : FileWriter ε size} {bs : List UInt8} (h : w.Settled bs) :
    (FileWriter.sync faults w).2.Settled bs := by
  unfold FileWriter.sync
  cases faults w.calls with
  | none =>
    refine ⟨?_, fun herr => ⟨(h.whole herr).1, ?_⟩⟩ <;> rw [File.contents_sync]
    · exact h.only
    · exact (h.whole herr).2
  | some f =>
    refine ⟨?_, fun herr => ⟨(h.whole herr).1, ?_⟩⟩ <;> rw [File.contents_syncSome]
    · exact h.only
    · exact (h.whole herr).2

/-! ## A file that is closed -/

/-- Every call is refused before it does anything. -/
def refuse (e : ε) : Nat → Option (Fault ε) := fun _ => some ⟨0, e⟩

/-- The program leaves the file as it is. -/
def Keeps (p : Prog (FileWriter ε size) ε Unit) : Prop := ∀ w, (p w).2.file = w.file

theorem Keeps.bind {p q : Prog (FileWriter ε size) ε Unit} (hp : Keeps p) (hq : Keeps q) :
    Keeps (p >>= fun _ => q) := by
  intro w
  rw [Prog.bind_apply]
  have hw := hp w
  rcases hpw : p w with ⟨e | ⟨⟩, w₁⟩ <;> rw [hpw] at hw
  · exact hw
  · exact (hq w₁).trans hw

theorem keeps_flush (e : ε) : Keeps (flush (refuse e) : Prog (FileWriter ε size) ε Unit) := by
  intro w
  unfold flush
  cases w.err with
  | some e => rfl
  | none =>
    simp only
    split
    next => rfl
    next => simp [refuse, File.write]

theorem keeps_writeEmpty (e : ε) (bs : List UInt8) :
    Keeps (writeEmpty (refuse e) bs : Prog (FileWriter ε size) ε Unit) := by
  intro w
  unfold writeEmpty
  split
  next => rfl
  next => simp [refuse, File.write]

theorem keeps_write (e : ε) (bs : List UInt8) :
    Keeps (write (refuse e) bs : Prog (FileWriter ε size) ε Unit) := by
  intro w
  unfold write
  cases w.err with
  | some e => rfl
  | none =>
    simp only
    split
    next => rfl
    next =>
      split
      next => exact keeps_writeEmpty e bs w
      next => exact (keeps_flush e).bind (keeps_writeEmpty e _) (w.copy bs)

theorem keeps_sync (e : ε) : Keeps (sync (refuse e) : Prog (FileWriter ε size) ε Unit) := by
  intro w
  simp [sync, refuse, File.syncSome]

/-- Flushing and syncing fails, whatever was to be written before: at a write, or at the sync. -/
theorem refused (e : ε) (p : Prog (FileWriter ε size) ε Unit) (w : FileWriter ε size) :
    ∃ e', ((p >>= fun _ => flush (refuse e) >>= fun _ => sync (refuse e)) w).1 = .error e' := by
  rw [Prog.bind_apply]
  rcases p w with ⟨e' | ⟨⟩, w₁⟩
  · exact ⟨e', rfl⟩
  · show ∃ e', ((flush (refuse e) >>= fun _ => sync (refuse e)) w₁).1 = .error e'
    rw [Prog.bind_apply]
    rcases flush (refuse e) w₁ with ⟨e' | ⟨⟩, w₂⟩
    · exact ⟨e', rfl⟩
    · exact ⟨e, rfl⟩

end FileWriter

end Bufio
