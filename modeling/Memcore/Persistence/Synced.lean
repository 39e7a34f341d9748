import Memcore.Persistence.Durable

/-!
# What a power failure leaves

A power failure keeps the synced bytes of a file and some of the rest, so more has to be known than
after a process crash. `Rotate` closes the active segment without syncing it. Until the snapshot is
installed, that segment is needed; when bytes of the next segment are on the disk meanwhile, a power
failure can leave a hole in the log. As long as this does not happen, everything before one generation
is synced and nothing is after it (`Node.SyncedTo`), and what was flushed survives
(`Node.Synced.gives`).
-/

namespace Memcore

open Go ByteStream

variable {σ E A : Type} {M : Semantics A} {a₀ : A} {R : Recovery σ E} {Shows : σ → A → Prop}
  {s : Node} {fsync : FSync} {b p : Nat} {old : List LogCommand} {cmds : Nat → List LogCommand}

/-- How many bytes of a segment are synced. -/
def syncedLen (segs : Finmap fun _ : Nat => File) (g : Nat) : Nat :=
  ((segs.lookup g).map fun f => f.synced.length).getD 0

theorem syncedLen_getD (disk : Disk) (g : Nat) :
    ((disk.segs.lookup g).getD File.empty).synced.length = syncedLen disk.segs g := by
  unfold syncedLen
  cases disk.segs.lookup g <;> rfl

theorem syncedLen_modifySeg (disk : Disk) (g : Nat) (f : File → File) :
    syncedLen (disk.modifySeg g f).segs g
      = (f ((disk.segs.lookup g).getD File.empty)).synced.length := by
  simp [syncedLen, Disk.modifySeg]

/-- `compact` has rotated, and its snapshot is not installed yet. -/
def Phase.window : Phase → Bool
  | .rotated .. | .writing .. | .written .. => true
  | _ => false

/-- Everything before generation `a` is synced, nothing is after it, and its synced bytes hold what
was flushed. -/
structure Node.SyncedTo (s : Node) (b p : Nat) (old : List LogCommand)
    (cmds : Nat → List LogCommand) (a : Nat) : Prop where
  base_le : b ≤ a
  le_gen : a ≤ s.store.gen
  before : ∀ g f, b ≤ g → g < a → s.disk.segs.lookup g = some f → f.unsynced = []
  after : ∀ g, a < g → g ≤ s.store.gen → segBytes s.disk.segs g = []
  flushed : Reaches b a (syncedLen s.disk.segs a) cmds old p s.flushed

/-- What a power failure cannot take away. -/
structure Node.Synced (s : Node) (b p : Nat) (old : List LogCommand)
    (cmds : Nat → List LogCommand) : Prop where
  snapshot : ∀ f, s.disk.snapshot = some f → f.unsynced = []
  upTo : ∃ a, s.SyncedTo b p old cmds a ∧ (s.phase.window = false → a = s.store.gen) ∧
    (s.store.fsync = .always → a = s.store.gen)
  returned : s.store.fsync = .always → s.returned ≤ s.flushed
  active : s.store.fsync = .always → s.pending = false → s.store.buf = [] ∧
    ∀ f, s.disk.segs.lookup s.store.gen = some f → f.unsynced = []

namespace Node.Synced

/-- Where the closed segments are synced, nothing that was flushed hangs on the active one alone. -/
theorem toGen (h : s.Synced b p old cmds) (hi : s.Inv M a₀ R Shows b p old cmds)
    (hclosed : s.store.fsync ≠ .always → s.ClosedSynced) :
    s.SyncedTo b p old cmds s.store.gen := by
  obtain ⟨a, hto, -, halways⟩ := h.upTo
  rcases hto.le_gen.eq_or_lt with rfl | hlt
  · exact hto
  · have hsynced := hclosed fun heq => hlt.ne (halways heq)
    unfold Node.ClosedSynced at hsynced
    rw [hi.covers.base_eq] at hsynced
    refine ⟨hi.onDisk.le, le_rfl, hsynced, fun g hlt hle => absurd hle (Nat.not_le_of_lt hlt), ?_⟩
    exact hto.flushed.raise hto.base_le hlt _

theorem append (h : s.Synced b p old cmds) (hfree : s.pending = false) (c : LogCommand) :
    Node.Synced
      { s with
        store := { s.store with buf := s.store.buf ++ writeCommand c }
        pending := decide (s.store.fsync = .always)
        appended := s.appended ++ [c] } b p old
      (Function.update cmds s.store.gen (cmds s.store.gen ++ [c])) where
  snapshot := h.snapshot
  upTo := by
    obtain ⟨a, hto, hwindow⟩ := h.upTo
    exact ⟨a, ⟨hto.base_le, hto.le_gen, hto.before, hto.after, hto.flushed.append hto.le_gen c⟩,
      hwindow⟩
  returned halways := by
    have hfsync : s.store.fsync = .always := halways
    simpa [Node.returned, hfsync, hfree] using h.returned hfsync
  active halways hpending := by
    rw [decide_eq_false_iff_not] at hpending
    exact absurd halways hpending

theorem spill (h : s.Synced b p old cmds) (hi : s.Inv M a₀ R Shows b p old cmds)
    (hcareful : s.store.fsync ≠ .always → s.ClosedSynced) (k : Nat) :
    Node.Synced
      { s with
        disk := s.disk.modifySeg s.store.gen fun f => f.write (s.store.buf.take k)
        store := { s.store with buf := s.store.buf.drop k } } b p old cmds := by
  have hto := h.toGen hi hcareful
  refine ⟨h.snapshot, ⟨s.store.gen, ⟨hto.base_le, le_rfl, ?_, ?_, ?_⟩, fun _ => rfl, fun _ => rfl⟩,
    h.returned, ?_⟩
  · intro g f hb hlt
    rw [lookup_modifySeg_ne _ hlt.ne]
    exact hto.before g f hb hlt
  · exact fun g hlt hle => absurd hle (Nat.not_le_of_lt hlt)
  · rw [syncedLen_modifySeg]
    exact syncedLen_getD s.disk s.store.gen ▸ hto.flushed
  · intro halways hpending
    obtain ⟨hbuf, hsync⟩ := h.active halways hpending
    refine ⟨by simp [hbuf], fun f hf => ?_⟩
    have htop := hi.onDisk.top
    cases hl : s.disk.segs.lookup s.store.gen with
    | none => exact absurd hl htop
    | some f₀ =>
      simp only [Disk.modifySeg, Finmap.lookup_insert, hl, hbuf, Option.getD_some,
        List.take_nil, Option.some.injEq] at hf
      rw [← hf, File.write, List.append_nil]
      exact hsync f₀ hl

theorem sync (h : s.Synced b p old cmds) (hi : s.Inv M a₀ R Shows b p old cmds)
    (hcareful : s.store.fsync ≠ .always → s.ClosedSynced) (hbuf : s.store.buf = []) :
    Node.Synced
      { s with
        disk := s.disk.modifySeg s.store.gen File.sync
        pending := false
        marked := s.appended.length
        flushed := s.appended.length } b p old cmds := by
  have hto := h.toGen hi hcareful
  refine ⟨h.snapshot, ⟨s.store.gen, ⟨hto.base_le, le_rfl, ?_, ?_, ?_⟩, fun _ => rfl, fun _ => rfl⟩,
    fun _ => le_rfl, fun _ _ => ⟨hbuf, fun f hf => ?_⟩⟩
  · intro g f hb hlt
    rw [lookup_modifySeg_ne _ hlt.ne]
    exact hto.before g f hb hlt
  · exact fun g hlt hle => absurd hle (Nat.not_le_of_lt hlt)
  · have hlen : (((s.disk.segs.lookup s.store.gen).getD File.empty).sync).synced.length
        = (segBytes s.disk.segs s.store.gen).length := by
      rw [← segBytes_getD]
      rfl
    rw [syncedLen_modifySeg, hlen]
    exact hi.reaches_all hbuf
  · simp only [Disk.modifySeg, Finmap.lookup_insert, Option.some.injEq] at hf
    rw [← hf]
    rfl

/-- A step of a compaction that leaves the snapshot and the segments alone. -/
theorem advance (h : s.Synced b p old cmds) {phase : Phase}
    (hwindow : phase.window = false → s.phase.window = false) (tmp : Option File) :
    Node.Synced { s with disk := { s.disk with tmp }, phase } b p old cmds := by
  obtain ⟨a, hto, hgen, halways⟩ := h.upTo
  exact ⟨h.snapshot, ⟨a, ⟨hto.base_le, hto.le_gen, hto.before, hto.after, hto.flushed⟩,
    fun hw => hgen (hwindow hw), halways⟩, h.returned, h.active⟩

theorem openNext (h : s.Synced b p old cmds) (hi : s.Inv M a₀ R Shows b p old cmds) {base : Nat}
    {snap : List UInt8} (hphase : s.phase = .closed base snap) :
    Node.Synced
      { s with
        disk := s.disk.openSegment (s.store.gen + 1)
        store := { s.store with gen := s.store.gen + 1 }
        phase := .rotated base snap
        marked := s.appended.length } b p old (Function.update cmds (s.store.gen + 1) []) := by
  have hfits := hi.phase
  simp only [Node.PhaseFits, hphase] at hfits
  obtain ⟨-, -, -, hpending, hbuf⟩ := hfits
  obtain ⟨a, hto, hgen, -⟩ := h.upTo
  obtain rfl := hgen (by rw [hphase]; rfl)
  have hlookup {g : Nat} (hg : g ≠ s.store.gen + 1) :
      (s.disk.openSegment (s.store.gen + 1)).segs.lookup g = s.disk.segs.lookup g :=
    Finmap.lookup_insert_of_ne _ hg
  have hnew : (s.disk.openSegment (s.store.gen + 1)).segs.lookup (s.store.gen + 1)
      = some File.empty := by
    rw [Disk.openSegment, Finmap.lookup_insert, hi.onDisk.above _ (Nat.lt_succ_self _)]
    rfl
  have hbefore : ∀ g f, b ≤ g → g < s.store.gen →
      (s.disk.openSegment (s.store.gen + 1)).segs.lookup g = some f → f.unsynced = [] := by
    intro g f hb hlt
    rw [hlookup (hlt.trans (Nat.lt_succ_self _)).ne]
    exact hto.before g f hb hlt
  have hflushed := hto.flushed.update_above (Nat.lt_succ_self _) []
  refine ⟨h.snapshot, ?_, h.returned, fun halways _ => ⟨hbuf, fun f hf => ?_⟩⟩
  · by_cases halways : s.store.fsync = .always
    · -- the segment just closed is synced
      refine ⟨s.store.gen + 1, ⟨hto.base_le.trans (Nat.le_succ _), le_rfl, ?_, ?_, ?_⟩,
        fun _ => rfl, fun _ => rfl⟩
      · intro g f hb hlt hf
        rcases Nat.lt_succ_iff_lt_or_eq.mp hlt with hlt | rfl
        · exact hbefore g f hb hlt hf
        · rw [hlookup hlt.ne] at hf
          exact (h.active halways hpending).2 f hf
      · exact fun g hlt hle => absurd hle (Nat.not_le_of_lt hlt)
      · exact hflushed.raise hto.base_le (Nat.lt_succ_self _) _
    -- otherwise the bound stays below it, and the new segment is empty
    · refine ⟨s.store.gen, ⟨hto.base_le, Nat.le_succ _, hbefore, ?_, ?_⟩,
        fun hwindow => absurd hwindow.symm Bool.false_ne_true, fun heq => absurd heq halways⟩
      · intro g hlt hle
        obtain rfl : g = s.store.gen + 1 := le_antisymm hle hlt
        rw [segBytes, hnew]
        rfl
      · rw [syncedLen, hlookup (Nat.lt_succ_self _).ne]
        exact hflushed
  · rw [hnew, Option.some.injEq] at hf
    rw [← hf]
    rfl

theorem rename (h : s.Synced b p old cmds) {q : Nat} {f : File} (hpq : p ≤ q)
    (hq : q ≤ s.appended.length)
    (hclosed : closedLog b s.store.gen cmds = old ++ (s.appended.take q).drop p)
    (htmp : s.disk.tmp = some f) (hsync : f.unsynced = []) (base : Nat) :
    Node.Synced
      { s with
        disk := { s.disk with snapshot := s.disk.tmp, tmp := none }
        phase := .installed base } s.store.gen q [] cmds := by
  obtain ⟨a, hto, -⟩ := h.upTo
  have hflushed : Reaches s.store.gen s.store.gen (syncedLen s.disk.segs s.store.gen) cmds [] q
      s.flushed := by
    have hlen := congrArg List.length hclosed
    rw [List.length_append, List.length_drop, List.length_take, Nat.min_eq_left hq] at hlen
    have hreach : Reaches b s.store.gen (syncedLen s.disk.segs s.store.gen) cmds old p
        s.flushed ∨ s.flushed ≤ q := by
      rcases hto.le_gen.eq_or_lt with rfl | hlt
      · exact .inl hto.flushed
      · have hle := (hto.flushed.raise hto.base_le hlt 0)
        unfold Reaches at hle
        rw [wholeRecords_zero, List.length_nil] at hle
        exact .inr (by omega)
    unfold Reaches at hreach ⊢
    rw [closedLog_self]
    simp only [List.length_nil]
    omega
  refine ⟨fun f' hf' => ?_, ⟨s.store.gen, ⟨le_rfl, le_rfl, ?_, ?_, hflushed⟩, fun _ => rfl,
    fun _ => rfl⟩, h.returned, h.active⟩
  · have heq : some f = some f' := htmp.symm.trans hf'
    cases heq
    exact hsync
  · exact fun g f hb hlt => absurd hlt (Nat.not_lt_of_le hb)
  · exact fun g hlt hle => absurd hle (Nat.not_le_of_lt hlt)

theorem remove (h : s.Synced b p old cmds) (hi : s.Inv M a₀ R Shows b p old cmds) {base next : Nat}
    (hphase : s.phase = .removing base next) (hnext : next < base) :
    Node.Synced
      { s with
        disk := { s.disk with segs := s.disk.segs.erase next }
        phase := .removing base (next + 1) } b p old cmds := by
  have hbase := hi.phase
  simp only [Node.PhaseFits, hphase] at hbase
  have hsame {g : Nat} (hb : b ≤ g) : (s.disk.segs.erase next).lookup g = s.disk.segs.lookup g :=
    Finmap.lookup_erase_ne ((hnext.trans_le hbase).trans_le hb).ne'
  obtain ⟨a, hto, hgen, halways⟩ := h.upTo
  refine ⟨h.snapshot, ⟨a, ⟨hto.base_le, hto.le_gen, ?_, ?_, ?_⟩, fun _ => hgen ?_, halways⟩,
    h.returned, ?_⟩
  · intro g f hb hlt
    rw [hsame hb]
    exact hto.before g f hb hlt
  · intro g hlt hle
    rw [segBytes, hsame (hto.base_le.trans hlt.le)]
    exact hto.after g hlt hle
  · rw [syncedLen, hsame hto.base_le]
    exact hto.flushed
  · rw [hphase]
    rfl
  · intro ha hp
    rw [hsame hi.onDisk.le]
    exact h.active ha hp

end Node.Synced

/-- Every file is completely synced. -/
structure Disk.AllSynced (disk : Disk) : Prop where
  snapshot : ∀ f, disk.snapshot = some f → f.unsynced = []
  segs : ∀ g f, disk.segs.lookup g = some f → f.unsynced = []

/-- A store that was just opened. -/
theorem Node.start_synced {disk : Disk} (hsync : disk.AllSynced)
    (hi : (Node.start fsync disk).Inv M a₀ R Shows b p old cmds) :
    (Node.start fsync disk).Synced b p old cmds := by
  have hsegs : ∀ g f, (Node.start fsync disk).disk.segs.lookup g = some f → f.unsynced = [] := by
    intro g f hf
    by_cases hg : g = openGen disk
    · subst hg
      have heq : some ((disk.segs.lookup (openGen disk)).getD File.empty) = some f :=
        (Finmap.lookup_insert _).symm.trans hf
      cases hl : disk.segs.lookup (openGen disk) with
      | none =>
        rw [hl] at heq
        cases heq
        rfl
      | some f₀ =>
        rw [hl] at heq
        cases heq
        exact hsync.segs _ _ hl
    · exact hsync.segs g f ((Finmap.lookup_insert_of_ne _ hg).symm.trans hf)
  refine ⟨hsync.snapshot, ⟨_, ⟨hi.onDisk.le, le_rfl, fun g f _ _ => hsegs g f, ?_, ?_⟩, fun _ => rfl,
    fun _ => rfl⟩, fun _ => le_rfl, fun _ _ => ⟨rfl, hsegs _⟩⟩
  · exact fun g hlt hle => absurd hle (Nat.not_le_of_lt hlt)
  · refine hi.marked.grow ?_
    have htop := hi.onDisk.top
    unfold segBytes syncedLen
    cases hl : (Node.start fsync disk).disk.segs.lookup (Node.start fsync disk).store.gen with
    | none => exact absurd hl htop
    | some f => simp [File.contents, hsegs _ f hl]

/-! ## Whole runs -/

variable {Good : A → Prop}

/-- One effect keeps what is known about the disk. -/
theorem Node.Inv.step (hf : Faithful M R Shows Good) (ha₀ : Good a₀)
    (h : s.Inv M a₀ R Shows b p old cmds) {e : FileEvent} {t : Node} (hstep : FileStep M a₀ s e t) :
    ∃ b' p' old' cmds', t.Inv M a₀ R Shows b' p' old' cmds' ∧
      (e.Careful s → s.Synced b p old cmds → t.Synced b' p' old' cmds') := by
  have hfits := h.phase
  cases hstep with
  | @append c hfree hlock hruns hfrozen =>
    -- the events of the log; the ones of a compaction follow
    exact ⟨_, _, _, _, h.append hlock hruns hfrozen _, fun _ hs => hs.append hfree c⟩
  | @spill k hlock => exact ⟨_, _, _, _, h.spill hlock k, fun hc hs => hs.spill h hc k⟩
  | sync hlock hbuf => exact ⟨_, _, _, _, h.sync hlock hbuf, fun hc hs => hs.sync h hc hbuf⟩
  | nextGen hfree hphase hint =>
    -- a phase that touches no file of the log only has to fit
    refine ⟨_, _, _, _, h.advance ⟨rfl, hint⟩, fun _ hs => hs.advance (fun _ => ?_) _⟩
    rw [hphase]
    rfl
  | capture hphase hsnap =>
    simp only [Node.PhaseFits, hphase] at hfits
    have hgood := Machine.good_run hf.good s.appended ha₀ h.runs
    refine ⟨_, _, _, _, h.advance ⟨hfits.1, hfits.2, hf.restore hgood hsnap⟩,
      fun _ hs => hs.advance (fun _ => ?_) _⟩
    rw [hphase]
    rfl
  | close hfree hphase hbuf =>
    simp only [Node.PhaseFits, hphase] at hfits
    obtain ⟨hbase, hint, hsnap⟩ := hfits
    refine ⟨_, _, _, _, h.advance ⟨hbase, hint, hsnap, hfree, hbuf⟩,
      fun _ hs => hs.advance (fun _ => ?_) _⟩
    rw [hphase]
    rfl
  | openNext hphase =>
    exact ⟨_, _, _, _, h.openNext hphase, fun _ hs => hs.openNext h hphase⟩
  | createTmp hphase =>
    simp only [Node.PhaseFits, hphase] at hfits
    exact ⟨_, _, _, _, h.advance hfits, fun _ hs => hs.advance (fun hw => by cases hw) _⟩
  | writeTmp hphase htmp =>
    refine ⟨_, _, _, _, h.advance ?_, fun _ hs => hs.advance id _⟩
    simp only [Node.PhaseFits, hphase] at hfits ⊢
    exact hfits
  | syncTmp hphase htmp hall =>
    simp only [Node.PhaseFits, hphase] at hfits
    exact ⟨_, _, _, _, h.advance ⟨hfits, _, rfl, (File.contents_sync _).trans hall, rfl⟩,
      fun _ hs => hs.advance (fun hw => by cases hw) _⟩
  | rename hphase =>
    obtain ⟨q, f, hpq, hclosed, htmp, hsync, hinv⟩ := h.rename hphase
    exact ⟨_, _, _, _, hinv, fun _ hs => hs.rename hpq hinv.le hclosed htmp hsync _⟩
  | lock hfree hphase =>
    simp only [Node.PhaseFits, hphase] at hfits
    refine ⟨_, _, _, _, h.advance hfits, fun _ hs => hs.advance (fun _ => ?_) _⟩
    rw [hphase]
    rfl
  | remove hphase hnext =>
    exact ⟨_, _, _, _, h.remove hphase hnext, fun _ hs => hs.remove h hphase hnext⟩
  | finish hphase =>
    refine ⟨_, _, _, _, h.advance trivial, fun _ hs => hs.advance (fun _ => ?_) _⟩
    rw [hphase]
    rfl

/-- What a directory gives that keeps the snapshot, everything before generation `a`, a part of `a`
and nothing after it. -/
theorem Node.Inv.gives (hf : Faithful M R Shows Good) (ha₀ : Good a₀)
    (h : s.Inv M a₀ R Shows b p old cmds) {disk : Disk} {a mark : Nat} (hba : b ≤ a)
    (hag : a ≤ s.store.gen)
    (hsnap : disk.snapshot.map File.contents = s.disk.snapshot.map File.contents)
    (htop : disk.segs.lookup s.store.gen ≠ none)
    (habove : ∀ g, s.store.gen < g → disk.segs.lookup g = none)
    (hbytes : ∀ g, b ≤ g → g ≤ s.store.gen → segBytes disk.segs g <+: segBytes s.disk.segs g)
    (hwhole : ∀ g, b ≤ g → g < a → segBytes disk.segs g = segBytes s.disk.segs g)
    (hempty : ∀ g, a < g → g ≤ s.store.gen → segBytes disk.segs g = [])
    (hmark : Reaches b a (segBytes disk.segs a).length cmds old p mark) :
    ∃ k, mark ≤ k ∧ k ≤ s.appended.length ∧
      R.Gives disk fun c => Shows c (M.run a₀ (s.appended.take k)) := by
  -- `k` counts the records that are whole on the disk
  obtain ⟨k, hpk, hmk, hk, hleft⟩ := hmark.exists_take hba hag h.le h.log
  have hsplit : s.appended.take p ++ (s.appended.take k).drop p = s.appended.take k := by
    have htake := List.take_append_drop p (s.appended.take k)
    rwa [List.take_take, Nat.min_eq_left hpk] at htake
  have hall : M.AllRun a₀ (s.appended.take k ++ s.appended.drop k) := by
    rw [List.take_append_drop]
    exact h.runs
  obtain ⟨hfirst, hrest⟩ := (M.allRun_append a₀ (s.appended.take p) ((s.appended.take k).drop p)).mp
    (by
      rw [hsplit]
      exact ((M.allRun_append _ _ _).mp hall).1)
  have hrecords : ∀ g, b ≤ g → g ≤ s.store.gen →
      segBytes disk.segs g <+: (cmds g).flatMap writeCommand := fun g hb hg => by
    refine (hbytes g hb hg).trans ?_
    rcases hg.eq_or_lt with rfl | hlt
    · exact h.onDisk.segBytes_prefix
    · rw [h.onDisk.closed g hb hlt]
  -- what recovery replays are those of them that the snapshot does not have
  have hkept : closedLog b (s.store.gen + 1)
      (fun g => wholeRecords (cmds g) (segBytes disk.segs g).length)
        = old ++ (s.appended.take k).drop p := by
    rw [← hleft]
    refine closedLog_whole hba hag (fun g hb hlt => ?_) fun g hlt hle => ?_
    · rw [hwhole g hb hlt, h.onDisk.closed g hb (hlt.trans_le hag)]
    · rw [hempty g hlt hle]
      rfl
  refine ⟨k, hmk, hk, ?_⟩
  rw [← hsplit, M.run_append]
  exact recover_whole hf (h.covers.congr hsnap) h.onDisk.le htop habove hrecords hkept
    (Machine.good_run hf.good _ ha₀ hfirst) hrest

/-- After a process crash. -/
theorem Node.Inv.gives_crash (hf : Faithful M R Shows Good) (ha₀ : Good a₀)
    (h : s.Inv M a₀ R Shows b p old cmds) :
    ∃ k, s.marked ≤ k ∧ k ≤ s.appended.length ∧
      R.Gives s.disk fun c => Shows c (M.run a₀ (s.appended.take k)) :=
  h.gives hf ha₀ h.onDisk.le le_rfl rfl h.onDisk.top h.onDisk.above
    (fun _ _ _ => List.prefix_rfl) (fun _ _ _ => rfl)
    (fun _ hlt hle => absurd hle (Nat.not_le_of_lt hlt)) h.marked

theorem FileLoss.eq_none_iff {o o' : Option File} (h : FileLoss o o') : o' = none ↔ o = none := by
  cases h with
  | none => exact Iff.rfl
  | some _ => exact ⟨nofun, nofun⟩

theorem FileLoss.contents_eq {o o' : Option File} (h : FileLoss o o')
    (hsync : ∀ f, o = some f → f.unsynced = []) :
    o'.map File.contents = o.map File.contents := by
  cases h with
  | none => rfl
  | some hs => exact congrArg some (hs.eq_contents (hsync _ rfl))

theorem FileLoss.contents_initial {o o' : Option File} (h : FileLoss o o') :
    (o'.map File.contents).getD [] <+: (o.map File.contents).getD [] := by
  cases h with
  | none => exact List.prefix_rfl
  | some hs => exact hs.prefix_contents

theorem FileLoss.synced_le {o o' : Option File} (h : FileLoss o o') :
    (o.map fun f => f.synced.length).getD 0 ≤ ((o'.map File.contents).getD []).length := by
  cases h with
  | none => exact le_rfl
  | some hs => exact hs.synced_prefix.length_le

/-- After a power failure. -/
theorem Node.Synced.gives (hf : Faithful M R Shows Good) (ha₀ : Good a₀)
    (hi : s.Inv M a₀ R Shows b p old cmds) (h : s.Synced b p old cmds) {disk : Disk}
    (hloss : PowerLoss s.disk disk) :
    ∃ k, s.flushed ≤ k ∧ k ≤ s.appended.length ∧
      R.Gives disk fun c => Shows c (M.run a₀ (s.appended.take k)) := by
  obtain ⟨a, hto, -⟩ := h.upTo
  refine hi.gives hf ha₀ hto.base_le hto.le_gen ?_ ?_ ?_ ?_ ?_ ?_ ?_
  · exact hloss.snapshot.contents_eq h.snapshot
  · rw [ne_eq, (hloss.segs _).eq_none_iff]
    exact hi.onDisk.top
  · intro g hlt
    rw [(hloss.segs g).eq_none_iff]
    exact hi.onDisk.above g hlt
  · exact fun g _ _ => (hloss.segs g).contents_initial
  · intro g hb hlt
    exact congrArg (Option.getD · []) ((hloss.segs g).contents_eq fun f => hto.before g f hb hlt)
  · intro g hlt hle
    have hpre : segBytes disk.segs g <+: segBytes s.disk.segs g := (hloss.segs g).contents_initial
    rw [hto.after g hlt hle] at hpre
    exact List.prefix_nil.mp hpre
  · exact hto.flushed.grow (hloss.segs a).synced_le

/-- **Compaction is safe against a process crash**, for any log whose replay and whose snapshots are
faithful. -/
theorem gives_of_run (hf : Faithful M R Shows Good) (ha₀ : Good a₀) {disk : Disk}
    (hwhole : disk.WholeRecords) (hrec : R.Gives disk fun c => Shows c a₀) {events : List FileEvent}
    (hrun : Run (FileStep M a₀) (Node.start fsync disk) events s) :
    ∃ k, s.marked ≤ k ∧ k ≤ s.appended.length ∧
      R.Gives s.disk fun c => Shows c (M.run a₀ (s.appended.take k)) := by
  choose cmds hcmds using hwhole
  obtain ⟨b, p, old, cmds, hi⟩ := hrun.invariant
    (fun s => ∃ b p old cmds, s.Inv M a₀ R Shows b p old cmds)
    ⟨_, _, _, _, Node.start_inv hrec hcmds fsync⟩ fun ⟨b, p, old, cmds, hi⟩ hstep => by
      obtain ⟨b', p', old', cmds', hi', -⟩ := hi.step hf ha₀ hstep
      exact ⟨b', p', old', cmds', hi'⟩
  exact hi.gives_crash hf ha₀

/-- **Careful runs are safe against a power failure.** -/
theorem gives_of_careful_run (hf : Faithful M R Shows Good) (ha₀ : Good a₀) {disk disk' : Disk}
    (hwhole : disk.WholeRecords) (hsync : disk.AllSynced) (hrec : R.Gives disk fun c => Shows c a₀)
    {events : List FileEvent} (hrun : Run (CarefulStep M a₀) (Node.start fsync disk) events s)
    (hloss : PowerLoss s.disk disk') :
    ∃ k, s.flushed ≤ k ∧ (s.store.fsync = .always → s.returned ≤ k) ∧ k ≤ s.appended.length ∧
      R.Gives disk' fun c => Shows c (M.run a₀ (s.appended.take k)) := by
  choose cmds hcmds using hwhole
  have hstart := Node.start_inv (M := M) hrec hcmds fsync
  obtain ⟨b, p, old, cmds, hi, hs⟩ := hrun.invariant
    (fun s => ∃ b p old cmds, s.Inv M a₀ R Shows b p old cmds ∧ s.Synced b p old cmds)
    ⟨_, _, _, _, hstart, Node.start_synced hsync hstart⟩ fun ⟨b, p, old, cmds, hi, hs⟩ hstep => by
      obtain ⟨b', p', old', cmds', hi', hs'⟩ := hi.step hf ha₀ hstep.1
      exact ⟨b', p', old', cmds', hi', hs' hstep.2 hs⟩
  obtain ⟨k, hflushed, hk, hgives⟩ := hs.gives hf ha₀ hi hloss
  exact ⟨k, hflushed, fun halways => (hs.returned halways).trans hflushed, hk, hgives⟩

end Memcore
