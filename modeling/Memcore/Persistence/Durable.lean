import Memcore.Persistence.Compaction

/-!
# What is on the disk at every moment

The segments a recovery replays hold, record after record, what some starting point of the log left
out: first what the snapshot does not cover of an earlier lifetime (`old`), then the commands of this
lifetime from number `p` on. `OnDisk` says this of a store, and is carried through every file effect;
what is done to it is stated once for each effect, and everything a process crash or a power failure
can leave is read off from it.
-/

namespace Memcore

open Go ByteStream

/-! ## The log in its segments -/

/-- The commands of the generations from `b` up to `gen`, without `gen` itself. -/
def closedLog (b gen : Nat) (cmds : Nat → List LogCommand) : List LogCommand :=
  (List.range' b (gen - b)).flatMap cmds

section ClosedLog

variable {b gen : Nat} {cmds : Nat → List LogCommand}

@[simp] theorem closedLog_self : closedLog gen gen cmds = [] := by simp [closedLog]

theorem closedLog_succ (h : b ≤ gen) :
    closedLog b (gen + 1) cmds = closedLog b gen cmds ++ cmds gen := by
  rw [closedLog, closedLog, Nat.succ_sub h, List.range'_concat, List.flatMap_append]
  simp [Nat.add_sub_cancel' h]

theorem closedLog_congr {cmds' : Nat → List LogCommand}
    (h : ∀ g, b ≤ g → g < gen → cmds' g = cmds g) :
    closedLog b gen cmds' = closedLog b gen cmds := by
  refine List.flatMap_congr fun g hg => ?_
  obtain ⟨hle, hlt⟩ := List.mem_range'_1.mp hg
  exact h g hle (by omega)

/-- What comes up to a closed generation is an initial part of the whole log. -/
theorem closedLog_initial {a : Nat} (hb : b ≤ a) (ha : a ≤ gen) :
    closedLog b a cmds ++ cmds a <+: closedLog b gen cmds ++ cmds gen := by
  induction gen, ha using Nat.le_induction with
  | base => exact List.prefix_rfl
  | succ gen hle ih =>
    rw [closedLog_succ (hb.trans hle)]
    exact ih.trans (List.prefix_append _ _)

/-- What is left when the segments before `a` are whole and those after it are empty. -/
theorem closedLog_whole {a : Nat} {lens : Nat → Nat} (hb : b ≤ a) (ha : a ≤ gen)
    (hwhole : ∀ g, b ≤ g → g < a → lens g = ((cmds g).flatMap writeCommand).length)
    (hempty : ∀ g, a < g → g ≤ gen → lens g = 0) :
    closedLog b (gen + 1) (fun g => wholeRecords (cmds g) (lens g))
      = closedLog b a cmds ++ wholeRecords (cmds a) (lens a) := by
  induction gen, ha using Nat.le_induction with
  | base =>
    rw [closedLog_succ hb]
    congr 1
    refine closedLog_congr fun g hle hlt => ?_
    rw [hwhole g hle hlt, wholeRecords_all]
  | succ gen hle ih =>
    rw [closedLog_succ (hb.trans (hle.trans (Nat.le_succ _))),
      ih fun g hlt hg => hempty g hlt (hg.trans (Nat.le_succ _)),
      hempty _ (Nat.lt_succ_of_le hle) le_rfl, wholeRecords_zero, List.append_nil]

end ClosedLog

/-- The segments from `b` on hold `cmds`; of the active one the end may still be buffered. -/
structure OnDisk (disk : Disk) (store : Store) (b : Nat) (cmds : Nat → List LogCommand) : Prop where
  le : b ≤ store.gen
  closed : ∀ g, b ≤ g → g < store.gen → segBytes disk.segs g = (cmds g).flatMap writeCommand
  active : segBytes disk.segs store.gen ++ store.buf = (cmds store.gen).flatMap writeCommand
  top : disk.segs.lookup store.gen ≠ none
  above : ∀ g, store.gen < g → disk.segs.lookup g = none

namespace OnDisk

variable {disk : Disk} {store : Store} {b : Nat} {cmds : Nat → List LogCommand}

theorem segBytes_prefix (h : OnDisk disk store b cmds) :
    segBytes disk.segs store.gen <+: (cmds store.gen).flatMap writeCommand :=
  ⟨store.buf, h.active⟩

theorem append (h : OnDisk disk store b cmds) (c : LogCommand) :
    OnDisk disk { store with buf := store.buf ++ writeCommand c } b
      (Function.update cmds store.gen (cmds store.gen ++ [c])) where
  le := h.le
  closed g hb hlt := by
    rw [Function.update_of_ne hlt.ne]
    exact h.closed g hb hlt
  active := by
    rw [Function.update_self, List.flatMap_append, ← h.active]
    simp
  top := h.top
  above := h.above

theorem modifySeg (h : OnDisk disk store b cmds) {f : File → File} {buf : List UInt8}
    (hf : ∀ file : File, file.contents = segBytes disk.segs store.gen →
      (f file).contents ++ buf = segBytes disk.segs store.gen ++ store.buf) :
    OnDisk (disk.modifySeg store.gen f) { store with buf := buf } b cmds where
  le := h.le
  closed g hb hlt := by
    rw [segBytes, lookup_modifySeg_ne _ hlt.ne]
    exact h.closed g hb hlt
  active := by
    rw [segBytes_modifySeg, hf _ (segBytes_getD disk store.gen)]
    exact h.active
  top := by simp [Disk.modifySeg]
  above g hlt := by
    rw [lookup_modifySeg_ne _ hlt.ne']
    exact h.above g hlt

theorem openNext (h : OnDisk disk store b cmds) (hbuf : store.buf = []) :
    OnDisk (disk.openSegment (store.gen + 1)) { store with gen := store.gen + 1 } b
      (Function.update cmds (store.gen + 1) []) where
  le := h.le.trans (Nat.le_succ _)
  closed g hb hlt := by
    have hbytes : segBytes (disk.openSegment (store.gen + 1)).segs g = segBytes disk.segs g := by
      rw [segBytes, Disk.openSegment, Finmap.lookup_insert_of_ne _ hlt.ne]
      rfl
    rw [hbytes, Function.update_of_ne hlt.ne]
    rcases Nat.lt_succ_iff_lt_or_eq.mp hlt with hlt | rfl
    · exact h.closed g hb hlt
    · rw [← h.active, hbuf, List.append_nil]
  active := by
    have hnone := h.above (store.gen + 1) (Nat.lt_succ_self _)
    rw [segBytes, Disk.openSegment, Finmap.lookup_insert, hnone, Function.update_self]
    simp [hbuf]
  top := by simp [Disk.openSegment]
  above g hlt := by
    have hlt' : store.gen + 1 < g := hlt
    rw [Disk.openSegment, Finmap.lookup_insert_of_ne _ hlt'.ne']
    exact h.above g (Nat.lt_of_succ_lt hlt')

/-- Segments below the base do not count. -/
theorem remove (h : OnDisk disk store b cmds) {g₀ : Nat} (hg : g₀ < b) :
    OnDisk { disk with segs := disk.segs.erase g₀ } store b cmds := by
  have hsame (g : Nat) (hb : b ≤ g) : (disk.segs.erase g₀).lookup g = disk.segs.lookup g :=
    Finmap.lookup_erase_ne (hg.trans_le hb).ne'
  refine ⟨h.le, fun g hb hlt => ?_, ?_, ?_, fun g hlt => ?_⟩
  · rw [segBytes, hsame g hb]
    exact h.closed g hb hlt
  · rw [segBytes, hsame _ h.le]
    exact h.active
  · rw [hsame _ h.le]
    exact h.top
  · rw [hsame g (h.le.trans hlt.le)]
    exact h.above g hlt

/-- A new snapshot covers all closed segments. -/
theorem raise (h : OnDisk disk store b cmds) : OnDisk disk store store.gen cmds where
  le := le_rfl
  closed _ hb hlt := absurd hlt (Nat.not_lt_of_le hb)
  active := h.active
  top := h.top
  above := h.above

/-- `OnDisk` reads the segments only. -/
theorem of_segs (h : OnDisk disk store b cmds) {disk' : Disk} (hsegs : disk'.segs = disk.segs) :
    OnDisk disk' store b cmds := by
  obtain ⟨hle, hclosed, hactive, htop, habove⟩ := h
  rw [← hsegs] at hclosed hactive htop habove
  exact ⟨hle, hclosed, hactive, htop, habove⟩

end OnDisk

/-! ## Loading the snapshot -/

section Recovering

variable {σ E A : Type}

theorem readRecords_counted (lim : Limits) (rngs : Nat → Rng) (apply : σ → Record → σ × Option E) :
    ∀ (fuel k : Nat) (buf : List UInt8) (s : σ) (loaded : Nat), ∃ loaded',
      readRecords lim rngs
          (fun (p : σ × Nat) r => (((apply p.1 r).1, p.2 + 1), (apply p.1 r).2)) fuel k buf (s, loaded)
        = (((readRecords lim rngs apply fuel k buf s).1, loaded'),
          (readRecords lim rngs apply fuel k buf s).2)
  | 0, _, _, _, loaded => ⟨loaded, rfl⟩
  | fuel + 1, k, buf, s, loaded => by
      rw [readRecords, readRecords]
      rcases readRecord lim (rngs k) buf with e | ⟨r, rest⟩
      · cases e <;> exact ⟨loaded, rfl⟩
      · simp only
        rcases happly : apply s r with ⟨s', _ | e⟩
        · exact readRecords_counted lim rngs apply fuel (k + 1) rest s' (loaded + 1)
        · exact ⟨loaded + 1, rfl⟩

/-- Counting the records while loading them changes nothing. -/
theorem loadSnapshot_eq (lim : Limits) (rngs : Nat → Rng) (restore : σ → Record → σ × Option E)
    {disk : Disk} {f : File} (hf : disk.snapshot = some f) (s : σ) : ∃ loaded,
      loadSnapshot lim rngs restore disk s
        = ((readSnapshot lim rngs restore f.contents s).1,
          (readSnapshot lim rngs restore f.contents s).2.1, loaded,
          (readSnapshot lim rngs restore f.contents s).2.2) := by
  simp only [loadSnapshot, hf, readSnapshot]
  rcases (readFull snapshotMagic.length : Read (List UInt8)) f.contents with e | ⟨magic, buf⟩
  · cases e <;> exact ⟨0, rfl⟩
  · simp only
    split
    · exact ⟨0, rfl⟩
    · rcases unexpectedEnd (readUvarint : Read Nat) buf with e | ⟨base, rest⟩
      · exact ⟨0, rfl⟩
      · obtain ⟨loaded, h⟩ := readRecords_counted lim rngs restore (rest.length + 1) 0 rest s 0
        refine ⟨loaded, ?_⟩
        simp only
        rw [h]

/-- When a snapshot can be read, `Open` sees the base generation that recovery starts from. -/
theorem snapshotBaseGen_of_readSnapshot {lim : Limits} {rngs : Nat → Rng}
    {apply : σ → Record → σ × Option E} {buf : List UInt8} {s s' : σ} {base : Int64}
    (h : readSnapshot lim rngs apply buf s = (s', base, none)) :
    snapshotBaseGen buf = some base ∨ (snapshotBaseGen buf = none ∧ base = 0) := by
  revert h
  unfold readSnapshot snapshotBaseGen
  rcases (readFull snapshotMagic.length : Read (List UInt8)) buf with e | ⟨magic, rest⟩
  · intro h
    cases e with
    | eof => exact .inr ⟨rfl, (congrArg (fun r => r.2.1) h).symm⟩
    | _ => simp at h
  · simp only
    split
    · intro h
      simp at h
    · unfold unexpectedEnd
      rcases (readUvarint : Read Nat) rest with e | ⟨gen, rest⟩
      · intro h
        cases e <;> simp at h
      · intro h
        exact .inl (congrArg (fun r => some r.2.1) h)

/-- What recovery needs to know about a log: replaying a command that was run does what it did, and a
snapshot restores the state it was taken of. `Good` is what states have in common. -/
structure Faithful (M : Semantics A) (R : Recovery σ E) (Shows : σ → A → Prop) (Good : A → Prop) :
    Prop where
  good : ∀ {a c}, Good a → M.Runs a c → Good (M.step a c)
  replay : ∀ {s a c}, Good a → M.Runs a c → Shows s a →
    ∃ s', callback R.replay s c = (s', none) ∧ Shows s' (M.step a c)
  restore : ∀ {a base snap}, Good a → M.Captures a base snap → ∃ s,
    readSnapshot R.lim R.rngs R.restore snap R.start = (s, Int64.ofNat base, none) ∧ Shows s a

variable {M : Semantics A} {R : Recovery σ E} {Shows : σ → A → Prop} {Good : A → Prop}

/-- The snapshot file, with base generation `b`, and then the commands `old` give `a`. -/
def Covers (R : Recovery σ E) (Shows : σ → A → Prop) (disk : Disk) (b : Nat)
    (old : List LogCommand) (a : A) : Prop :=
  ∃ s base loaded s', loadSnapshot R.lim R.rngs R.restore disk R.start = (s, base, loaded, none) ∧
    base.toInt.toNat = b ∧ callEach (callback R.replay) old s = (s', none) ∧ Shows s' a

/-- The bytes of a snapshot with base generation `base` give `a`. -/
def Restores (R : Recovery σ E) (Shows : σ → A → Prop) (snap : List UInt8) (base : Nat) (a : A) :
    Prop :=
  ∃ s, readSnapshot R.lim R.rngs R.restore snap R.start = (s, Int64.ofNat base, none) ∧ Shows s a

theorem Restores.covers {disk : Disk} {f : File} {base : Nat} {a : A} (hbase : base < 2 ^ 63)
    (hsnap : disk.snapshot = some f) (h : Restores R Shows f.contents base a) :
    Covers R Shows disk base [] a := by
  obtain ⟨s, hread, hs⟩ := h
  obtain ⟨loaded, hload⟩ := loadSnapshot_eq R.lim R.rngs R.restore hsnap R.start
  rw [hread] at hload
  refine ⟨s, Int64.ofNat base, loaded, s, hload, ?_, rfl, hs⟩
  rw [Int64.toInt_ofNat_of_lt hbase]
  rfl

/-- Recovery reads the snapshot only by its contents. -/
theorem Covers.congr {disk disk' : Disk} {b : Nat} {old : List LogCommand} {a : A}
    (h : Covers R Shows disk b old a)
    (hsnap : disk'.snapshot.map File.contents = disk.snapshot.map File.contents) :
    Covers R Shows disk' b old a := by
  have hload : loadSnapshot R.lim R.rngs R.restore disk' R.start
      = loadSnapshot R.lim R.rngs R.restore disk R.start := by
    unfold loadSnapshot
    revert hsnap
    rcases disk.snapshot with _ | f <;> rcases disk'.snapshot with _ | f' <;> intro hsnap
    · rfl
    · cases hsnap
    · cases hsnap
    · have hcontents : f'.contents = f.contents := Option.some.inj hsnap
      simp only [hcontents]
  unfold Covers
  rw [hload]
  exact h

/-- **Recovery gives the state after the commands whose records are left whole.** -/
theorem recover_whole (hf : Faithful M R Shows Good) {disk : Disk} {b gen : Nat}
    {old cs : List LogCommand} {cmds : Nat → List LogCommand} {a : A}
    (hcovers : Covers R Shows disk b old a) (hle : b ≤ gen) (htop : disk.segs.lookup gen ≠ none)
    (habove : ∀ g, gen < g → disk.segs.lookup g = none)
    (hbytes : ∀ g, b ≤ g → g ≤ gen → segBytes disk.segs g <+: (cmds g).flatMap writeCommand)
    (hwhole : closedLog b (gen + 1)
      (fun g => wholeRecords (cmds g) (segBytes disk.segs g).length) = old ++ cs)
    (hgood : Good a) (hruns : M.AllRun a cs) :
    R.Gives disk fun s => Shows s (M.run a cs) := by
  obtain ⟨s, base, loaded, s₁, hload, rfl, hold, hs₁⟩ := hcovers
  obtain ⟨s', hcs, hs'⟩ := Machine.callEach_run Shows hf.good hf.replay cs hgood hruns hs₁
  have hgens : ∀ g ∈ List.range' base.toInt.toNat (gen + 1 - base.toInt.toNat),
      segBytes disk.segs g <+: (cmds g).flatMap writeCommand := fun g hg => by
    obtain ⟨hge, hlt⟩ := List.mem_range'_1.mp hg
    exact hbytes g hge (by omega)
  obtain ⟨k, hreplay⟩ := replayGens_prefix R.replay disk.segs cmds _ 0 s hgens
  rw [← closedLog, hwhole, callEach_append, hold] at hreplay
  simp only [hcs, Option.map_none] at hreplay
  refine ⟨s', loaded, k, ?_, hs'⟩
  simp only [recover, hload, replaySegments, highestSegment_eq htop habove, hreplay]

end Recovering

/-- The first `len` bytes of generation `a`, after everything before it, hold `old` and the commands
from number `p` up to number `mark`. -/
def Reaches (b a len : Nat) (cmds : Nat → List LogCommand) (old : List LogCommand) (p mark : Nat) :
    Prop :=
  old.length + (mark - p) ≤ (closedLog b a cmds).length + (wholeRecords (cmds a) len).length

theorem Reaches.exists_take {b a gen len p mark : Nat} {cmds : Nat → List LogCommand}
    {old appended : List LogCommand} (h : Reaches b a len cmds old p mark) (hb : b ≤ a)
    (ha : a ≤ gen) (hp : p ≤ appended.length)
    (hlog : closedLog b gen cmds ++ cmds gen = old ++ appended.drop p) :
    ∃ k, p ≤ k ∧ mark ≤ k ∧ k ≤ appended.length ∧
      closedLog b a cmds ++ wholeRecords (cmds a) len = old ++ (appended.take k).drop p := by
  have hpre : closedLog b a cmds ++ wholeRecords (cmds a) len <+: old ++ appended.drop p := by
    rw [← hlog]
    exact ((List.prefix_append_right_inj _).mpr (wholeRecords_initial _ _)).trans
      (closedLog_initial hb ha)
  unfold Reaches at h
  rw [← List.length_append] at h
  generalize closedLog b a cmds ++ wholeRecords (cmds a) len = left at h hpre
  have hlen := hpre.length_le
  rw [List.length_append, List.length_drop] at hlen
  refine ⟨p + (left.length - old.length), Nat.le_add_right _ _, by omega, by omega, ?_⟩
  rw [List.drop_take, Nat.add_sub_cancel_left]
  calc left = (old ++ appended.drop p).take left.length := List.prefix_iff_eq_take.mp hpre
    _ = old ++ (appended.drop p).take (left.length - old.length) := by
        rw [List.take_append, List.take_of_length_le (by omega)]

theorem Reaches.append {b a gen len p mark : Nat} {cmds : Nat → List LogCommand}
    {old : List LogCommand} (h : Reaches b a len cmds old p mark) (ha : a ≤ gen) (c : LogCommand) :
    Reaches b a len (Function.update cmds gen (cmds gen ++ [c])) old p mark := by
  unfold Reaches at h ⊢
  rw [closedLog_congr fun g _ hlt => Function.update_of_ne (hlt.trans_le ha).ne _ _]
  rcases ha.eq_or_lt with rfl | hlt
  · rw [Function.update_self]
    exact h.trans (Nat.add_le_add_left (wholeRecords_mono [c] _ le_rfl).length_le _)
  · rwa [Function.update_of_ne hlt.ne]

theorem Reaches.update_above {b a g len p mark : Nat} {cmds : Nat → List LogCommand}
    {old : List LogCommand} (h : Reaches b a len cmds old p mark) (ha : a < g)
    (cs : List LogCommand) : Reaches b a len (Function.update cmds g cs) old p mark := by
  unfold Reaches at h ⊢
  rwa [closedLog_congr fun g' _ hlt => Function.update_of_ne (hlt.trans ha).ne _ _,
    Function.update_of_ne ha.ne]

theorem Reaches.grow {b a len len' p mark : Nat} {cmds : Nat → List LogCommand}
    {old : List LogCommand} (h : Reaches b a len cmds old p mark) (hlen : len ≤ len') :
    Reaches b a len' cmds old p mark := by
  have hmono := (wholeRecords_mono [] (cmds a) hlen).length_le
  rw [List.append_nil] at hmono
  exact h.trans (Nat.add_le_add_left hmono _)

/-- All of a closed generation is before the next ones. -/
theorem Reaches.raise {b a a' len p mark : Nat} {cmds : Nat → List LogCommand}
    {old : List LogCommand} (h : Reaches b a len cmds old p mark) (hb : b ≤ a) (ha : a < a')
    (len' : Nat) : Reaches b a' len' cmds old p mark := by
  have hpre : closedLog b a cmds ++ cmds a <+: closedLog b a' cmds := by
    obtain ⟨a', rfl⟩ := Nat.exists_eq_succ_of_ne_zero (Nat.ne_zero_of_lt ha)
    rw [closedLog_succ (hb.trans (Nat.lt_succ_iff.mp ha))]
    exact closedLog_initial hb (Nat.lt_succ_iff.mp ha)
  have hlen := hpre.length_le
  have hwhole := (wholeRecords_initial (cmds a) len).length_le
  unfold Reaches at h ⊢
  rw [List.length_append] at hlen
  omega

/-! ## The invariant -/

section Invariant

variable {σ E A : Type} (M : Semantics A) (a₀ : A) (R : Recovery σ E) (Shows : σ → A → Prop)

/-- The snapshot `snap` covers everything before the active generation, which began when `q` commands
had been appended. -/
def Node.Cut (s : Node) (p : Nat) (cmds : Nat → List LogCommand) (base : Nat) (snap : List UInt8) :
    Prop :=
  base = s.store.gen ∧ base < 2 ^ 63 ∧ ∃ q, p ≤ q ∧ q ≤ s.appended.length ∧
    cmds s.store.gen = s.appended.drop q ∧
    Restores R Shows snap base (M.run a₀ (s.appended.take q))

/-- What is known about the compaction that is going on. -/
def Node.PhaseFits (s : Node) (b p : Nat) (cmds : Nat → List LogCommand) : Prop :=
  match s.phase with
  | .idle => True
  | .planned base => base = s.store.gen + 1 ∧ base < 2 ^ 63
  | .captured base snap => base = s.store.gen + 1 ∧ base < 2 ^ 63 ∧
      Restores R Shows snap base (M.run a₀ s.appended)
  | .closed base snap => base = s.store.gen + 1 ∧ base < 2 ^ 63 ∧
      Restores R Shows snap base (M.run a₀ s.appended) ∧ s.pending = false ∧ s.store.buf = []
  | .rotated base snap | .writing base snap => s.Cut M a₀ R Shows p cmds base snap
  | .written base snap => s.Cut M a₀ R Shows p cmds base snap ∧
      ∃ f, s.disk.tmp = some f ∧ f.contents = snap ∧ f.unsynced = []
  | .installed base | .removing base _ => base ≤ b

/-- The snapshot on the disk, `old` after it, and then the commands of this lifetime from number `p`
on, in the segments `cmds` from generation `b` on. -/
structure Node.Inv (s : Node) (b p : Nat) (old : List LogCommand) (cmds : Nat → List LogCommand) :
    Prop where
  onDisk : OnDisk s.disk s.store b cmds
  log : closedLog b s.store.gen cmds ++ cmds s.store.gen = old ++ s.appended.drop p
  le : p ≤ s.appended.length
  covers : Covers R Shows s.disk b old (M.run a₀ (s.appended.take p))
  runs : M.AllRun a₀ s.appended
  marked : Reaches b s.store.gen (segBytes s.disk.segs s.store.gen).length cmds old p s.marked
  phase : s.PhaseFits M a₀ R Shows b p cmds

variable {M a₀ R Shows} {s : Node} {b p : Nat} {old : List LogCommand}
  {cmds : Nat → List LogCommand}

/-- Everything appended is in the log. -/
theorem Node.Inv.reaches_all (h : s.Inv M a₀ R Shows b p old cmds) (hbuf : s.store.buf = []) :
    Reaches b s.store.gen (segBytes s.disk.segs s.store.gen).length cmds old p
      s.appended.length := by
  have hbytes := h.onDisk.active
  rw [hbuf, List.append_nil] at hbytes
  have hlog := congrArg List.length h.log
  unfold Reaches
  rw [hbytes, wholeRecords_all]
  rw [List.length_append, List.length_append, List.length_drop] at hlog
  omega

/-! ### The store -/

theorem Node.Cut.append {base : Nat} {snap : List UInt8} (h : s.Cut M a₀ R Shows p cmds base snap)
    (c : LogCommand) (store : Store) (pending : Bool) (hgen : store.gen = s.store.gen) :
    Node.Cut M a₀ R Shows { s with store, pending, appended := s.appended ++ [c] } p
      (Function.update cmds s.store.gen (cmds s.store.gen ++ [c])) base snap := by
  obtain ⟨hbase, hint, q, hpq, hq, hcmds, hsnap⟩ := h
  refine ⟨hbase.trans hgen.symm, hint, q, hpq, ?_, ?_, ?_⟩
  · exact hq.trans (by simp)
  · simp only [hgen, Function.update_self, hcmds]
    exact (List.drop_append_of_le_length hq).symm
  · rwa [List.take_append_of_le_length hq]

theorem Node.Inv.append (h : s.Inv M a₀ R Shows b p old cmds) {c : LogCommand}
    (hlock : s.phase.unlocked = true) (hruns : M.Runs (M.run a₀ s.appended) c)
    (hfrozen : s.phase.frozen = true →
      M.step (M.run a₀ s.appended) c = M.run a₀ s.appended) (pending : Bool) :
    Node.Inv M a₀ R Shows
      { s with
        store := { s.store with buf := s.store.buf ++ writeCommand c }
        pending
        appended := s.appended ++ [c] } b p old
      (Function.update cmds s.store.gen (cmds s.store.gen ++ [c])) where
  onDisk := h.onDisk.append c
  log := by
    simp only [Function.update_self]
    rw [closedLog_congr fun g _ hlt => Function.update_of_ne hlt.ne _ _, ← List.append_assoc, h.log,
      List.drop_append_of_le_length h.le, List.append_assoc]
  le := h.le.trans (by simp)
  covers := by
    rw [List.take_append_of_le_length h.le]
    exact h.covers
  runs := M.allRun_snoc h.runs hruns
  marked := h.marked.append le_rfl c
  phase := by
    have hphase := h.phase
    unfold Node.PhaseFits at hphase ⊢
    revert hphase hlock hfrozen
    cases s.phase <;> intro hlock hfrozen hphase
    case captured base snap =>
        simp only [M.run_snoc, hfrozen rfl]
        exact hphase
    case rotated | writing => exact hphase.append c _ pending rfl
    case written => exact ⟨hphase.1.append c _ pending rfl, hphase.2⟩
    case closed => cases hlock
    all_goals exact hphase

/-- An effect on the active segment. -/
theorem Node.Inv.modifySeg (h : s.Inv M a₀ R Shows b p old cmds) (hlock : s.phase.unlocked = true)
    {f : File → File} {buf : List UInt8}
    (hf : ∀ file : File, file.contents = segBytes s.disk.segs s.store.gen →
      (f file).contents ++ buf = segBytes s.disk.segs s.store.gen ++ s.store.buf) (pending : Bool)
    {marked : Nat} (hmarked : Reaches b s.store.gen
      (segBytes (s.disk.modifySeg s.store.gen f).segs s.store.gen).length cmds old p marked)
    (flushed : Nat) :
    Node.Inv M a₀ R Shows
      { s with
        disk := s.disk.modifySeg s.store.gen f
        store := { s.store with buf }
        pending, marked, flushed } b p old cmds where
  onDisk := h.onDisk.modifySeg hf
  log := h.log
  le := h.le
  covers := h.covers.congr rfl
  runs := h.runs
  marked := hmarked
  phase := by
    have hphase := h.phase
    unfold Node.PhaseFits at hphase ⊢
    revert hphase hlock
    cases s.phase <;> intro hlock hphase
    case closed => cases hlock
    all_goals exact hphase

theorem Node.Inv.spill (h : s.Inv M a₀ R Shows b p old cmds) (hlock : s.phase.unlocked = true)
    (k : Nat) :
    Node.Inv M a₀ R Shows
      { s with
        disk := s.disk.modifySeg s.store.gen fun f => f.write (s.store.buf.take k)
        store := { s.store with buf := s.store.buf.drop k } } b p old cmds := by
  refine h.modifySeg hlock (fun file hfile => ?_) s.pending (h.marked.grow ?_) s.flushed
  · rw [File.contents_write, hfile, List.append_assoc, List.take_append_drop]
  · rw [segBytes_modifySeg, File.contents_write, segBytes_getD, List.length_append]
    exact Nat.le_add_right _ _

theorem Node.Inv.sync (h : s.Inv M a₀ R Shows b p old cmds) (hlock : s.phase.unlocked = true)
    (hbuf : s.store.buf = []) :
    Node.Inv M a₀ R Shows
      { s with
        disk := s.disk.modifySeg s.store.gen File.sync
        pending := false
        marked := s.appended.length
        flushed := s.appended.length } b p old cmds := by
  refine h.modifySeg hlock (fun file hfile => ?_) false ?_ s.appended.length
  · rw [File.contents_sync, hfile]
  · rw [segBytes_modifySeg, File.contents_sync, segBytes_getD]
    exact h.reaches_all hbuf

/-! ### Compaction -/

/-- A step of a compaction that leaves the snapshot and the segments alone. -/
theorem Node.Inv.advance (h : s.Inv M a₀ R Shows b p old cmds) {phase : Phase} {tmp : Option File}
    (hphase : Node.PhaseFits M a₀ R Shows
      { s with disk := { s.disk with tmp }, phase } b p cmds) :
    Node.Inv M a₀ R Shows { s with disk := { s.disk with tmp }, phase } b p old cmds where
  onDisk := h.onDisk.of_segs rfl
  log := h.log
  le := h.le
  covers := h.covers.congr rfl
  runs := h.runs
  marked := h.marked
  phase := hphase

theorem Node.Inv.openNext (h : s.Inv M a₀ R Shows b p old cmds) {base : Nat} {snap : List UInt8}
    (hphase : s.phase = .closed base snap) :
    Node.Inv M a₀ R Shows
      { s with
        disk := s.disk.openSegment (s.store.gen + 1)
        store := { s.store with gen := s.store.gen + 1 }
        phase := .rotated base snap
        marked := s.appended.length } b p old (Function.update cmds (s.store.gen + 1) []) := by
  have hfits := h.phase
  simp only [Node.PhaseFits, hphase] at hfits
  obtain ⟨hbase, hint, hsnap, -, hbuf⟩ := hfits
  have hlog : closedLog b (s.store.gen + 1) (Function.update cmds (s.store.gen + 1) [])
      = closedLog b s.store.gen cmds ++ cmds s.store.gen := by
    rw [closedLog_congr fun g _ hlt => Function.update_of_ne hlt.ne _ _, closedLog_succ h.onDisk.le]
  have hall := congrArg List.length h.log
  rw [List.length_append, List.length_append, List.length_drop] at hall
  refine ⟨h.onDisk.openNext hbuf, ?_, h.le, h.covers.congr rfl, h.runs, ?_, hbase, hint,
    s.appended.length, h.le, le_rfl, ?_, ?_⟩
  · simp only [hlog, Function.update_self, List.append_nil]
    exact h.log
  · unfold Reaches
    simp only [hlog, List.length_append]
    omega
  · simp
  · simpa using hsnap

/-- **Installing the snapshot**: from here on it stands for everything before the rotation. -/
theorem Node.Inv.rename (h : s.Inv M a₀ R Shows b p old cmds) {base : Nat} {snap : List UInt8}
    (hphase : s.phase = .written base snap) :
    ∃ q f, p ≤ q ∧ closedLog b s.store.gen cmds = old ++ (s.appended.take q).drop p ∧
      s.disk.tmp = some f ∧ f.unsynced = [] ∧
      Node.Inv M a₀ R Shows
        { s with
          disk := { s.disk with snapshot := s.disk.tmp, tmp := none }
          phase := .installed base } s.store.gen q [] cmds := by
  have hfits := h.phase
  simp only [Node.PhaseFits, hphase] at hfits
  obtain ⟨⟨hbase, hint, q, hpq, hq, hcmds, hsnap⟩, f, htmp, hcontents, hsync⟩ := hfits
  have hclosed : closedLog b s.store.gen cmds = old ++ (s.appended.take q).drop p := by
    have hlog := h.log
    have hsplit : s.appended.drop p = (s.appended.take q).drop p ++ s.appended.drop q := by
      rw [← List.drop_append_of_le_length (by simp [hpq, h.le]), List.take_append_drop]
    rw [hcmds, hsplit, ← List.append_assoc] at hlog
    exact List.append_cancel_right hlog
  refine ⟨q, f, hpq, hclosed, htmp, hsync, h.onDisk.raise.of_segs rfl, ?_, hq, ?_, h.runs, ?_,
    hbase.le⟩
  · simp [hcmds]
  · subst hbase
    exact Restores.covers hint htmp (hcontents ▸ hsnap)
  · have hlen := congrArg List.length hclosed
    have hmarked := h.marked
    unfold Reaches at hmarked ⊢
    rw [closedLog_self]
    rw [List.length_append, List.length_drop, List.length_take, Nat.min_eq_left hq] at hlen
    simp only [List.length_nil]
    omega

theorem Node.Inv.remove (h : s.Inv M a₀ R Shows b p old cmds) {base next : Nat}
    (hphase : s.phase = .removing base next) (hnext : next < base) :
    Node.Inv M a₀ R Shows
      { s with
        disk := { s.disk with segs := s.disk.segs.erase next }
        phase := .removing base (next + 1) } b p old cmds := by
  have hbase := h.phase
  simp only [Node.PhaseFits, hphase] at hbase
  have hlt : next < b := hnext.trans_le hbase
  refine ⟨h.onDisk.remove hlt, h.log, h.le, h.covers.congr rfl, h.runs, ?_, hbase⟩
  have hsame : segBytes (s.disk.segs.erase next) s.store.gen = segBytes s.disk.segs s.store.gen := by
    rw [segBytes, Finmap.lookup_erase_ne (hlt.trans_le h.onDisk.le).ne']
    rfl
  rw [hsame]
  exact h.marked

/-! ## The start -/

/-- Every segment ends with a whole record. -/
def Disk.WholeRecords (disk : Disk) : Prop :=
  ∀ g, ∃ cmds : List LogCommand, segBytes disk.segs g = cmds.flatMap writeCommand

/-- `Open` and `Recover` agree on the base generation. -/
theorem base_of_loadSnapshot {disk : Disk} {s : σ} {base : Int64} {loaded : Nat}
    (hload : loadSnapshot R.lim R.rngs R.restore disk R.start = (s, base, loaded, none)) :
    disk.base = base.toInt.toNat := by
  unfold Disk.base Disk.baseGen
  cases hsnap : disk.snapshot with
  | none =>
    simp only [loadSnapshot, hsnap, Prod.mk.injEq] at hload
    rw [← hload.2.1]
    rfl
  | some f =>
    obtain ⟨loaded', heq⟩ := loadSnapshot_eq R.lim R.rngs R.restore hsnap R.start
    rw [hload, Prod.mk.injEq, Prod.mk.injEq, Prod.mk.injEq] at heq
    obtain ⟨-, hbase, -, hnone⟩ := heq
    have hread : readSnapshot R.lim R.rngs R.restore f.contents R.start = (_, base, none) :=
      Prod.ext rfl (Prod.ext hbase.symm hnone.symm)
    rcases snapshotBaseGen_of_readSnapshot hread with hgen | ⟨hgen, hzero⟩
    · simp [hgen]
    · simp [hgen, hzero]

theorem Covers.base_eq {disk : Disk} {a : A} (h : Covers R Shows disk b old a) : disk.base = b := by
  obtain ⟨s, base, loaded, s', hload, rfl, -⟩ := h
  exact base_of_loadSnapshot hload

theorem openGen_eq_max (disk : Disk) : openGen disk = max (highestSegment disk.segs) disk.base := by
  unfold openGen Disk.base
  cases disk.baseGen with
  | none => simp
  | some base =>
    simp only
    split <;> omega

theorem lookup_above {disk : Disk} {g : Nat} (h : highestSegment disk.segs < g) :
    disk.segs.lookup g = none := by
  by_contra hsome
  have hmem : g ∈ disk.segs.keys := by
    rw [Finmap.mem_keys]
    by_contra hno
    exact hsome (Finmap.lookup_eq_none.mpr hno)
  exact Nat.not_le_of_lt h (Finset.le_sup (f := id) hmem)

theorem segBytes_openSegment (disk : Disk) (g g' : Nat) :
    segBytes (disk.openSegment g).segs g' = segBytes disk.segs g' := by
  by_cases hg : g' = g
  · subst hg
    simp only [segBytes, Disk.openSegment, Finmap.lookup_insert]
    cases disk.segs.lookup g' <;> rfl
  · rw [segBytes, Disk.openSegment, Finmap.lookup_insert_of_ne _ hg]
    rfl

/-- What a successful recovery of whole records says about the snapshot and the segments. -/
theorem Recovery.Gives.covers {disk : Disk} {a : A} (h : R.Gives disk fun c => Shows c a)
    (hcmds : ∀ g, segBytes disk.segs g = (cmds g).flatMap writeCommand) :
    Covers R Shows disk disk.base
      (closedLog disk.base (highestSegment disk.segs + 1) cmds) a := by
  obtain ⟨s', loaded, replayed, hrec, hs'⟩ := h
  rw [recover] at hrec
  rcases hload : loadSnapshot R.lim R.rngs R.restore disk R.start with ⟨s, base, loaded', err⟩
  rw [hload] at hrec
  cases err with
  | some e => simp at hrec
  | none =>
    rw [base_of_loadSnapshot hload]
    obtain ⟨k, hreplay⟩ := replayGens_prefix R.replay disk.segs cmds
      (List.range' base.toInt.toNat (highestSegment disk.segs + 1 - base.toInt.toNat)) 0 s
      fun g _ => by rw [hcmds g]
    simp only [hcmds, wholeRecords_all] at hreplay
    simp only [replaySegments, hreplay, Prod.mk.injEq, Option.map_eq_none_iff] at hrec
    obtain ⟨rfl, -, -, hnone⟩ := hrec
    exact ⟨s, base, loaded', _, hload, rfl, Prod.ext rfl hnone, hs'⟩

theorem eq_nil_of_flatMap {cs : List LogCommand} (h : cs.flatMap writeCommand = []) : cs = [] := by
  cases cs with
  | nil => rfl
  | cons c cs =>
    rw [List.flatMap_cons, List.append_eq_nil_iff] at h
    exact absurd h.1 (writeCommand_ne_nil c)

/-- A store that was just opened. -/
theorem Node.start_inv {disk : Disk} (hrec : R.Gives disk fun c => Shows c a₀)
    (hcmds : ∀ g, segBytes disk.segs g = (cmds g).flatMap writeCommand) (fsync : FSync) :
    (Node.start fsync disk).Inv M a₀ R Shows disk.base 0
      (closedLog disk.base (highestSegment disk.segs + 1) cmds) cmds := by
  have hgen : (Node.start fsync disk).store.gen = max (highestSegment disk.segs) disk.base :=
    openGen_eq_max disk
  -- opening the segment to append to adds no bytes
  have hbytes (g : Nat) : segBytes (Node.start fsync disk).disk.segs g
      = (cmds g).flatMap writeCommand := by
    rw [← hcmds g]
    exact segBytes_openSegment disk _ g
  have hlog : closedLog disk.base (Node.start fsync disk).store.gen cmds
        ++ cmds (Node.start fsync disk).store.gen
      = closedLog disk.base (highestSegment disk.segs + 1) cmds := by
    rw [hgen]
    rcases Nat.lt_or_ge (highestSegment disk.segs) disk.base with hlt | hge
    · -- the snapshot is past every segment
      have hnil : cmds disk.base = [] := eq_nil_of_flatMap (by
        rw [← hcmds, segBytes, lookup_above hlt]
        rfl)
      rw [Nat.max_eq_right hlt.le, closedLog_self, hnil, closedLog, Nat.sub_eq_zero_of_le hlt]
      rfl
    · rw [Nat.max_eq_left hge, closedLog_succ hge]
  refine ⟨⟨?_, ?_, ?_, ?_, ?_⟩, ?_, le_rfl, (hrec.covers hcmds).congr rfl, trivial, ?_, trivial⟩
  · rw [hgen]
    exact Nat.le_max_right _ _
  · exact fun g _ _ => hbytes g
  · exact (List.append_nil _).trans (hbytes _)
  · simp [Node.start, openStore, Disk.openSegment]
  · intro g hlt
    have hne : g ≠ openGen disk := hlt.ne'
    rw [hgen] at hlt
    exact (Finmap.lookup_insert_of_ne _ hne).trans (lookup_above ((Nat.le_max_left _ _).trans_lt hlt))
  · rw [hlog]
    exact (List.append_nil _).symm
  · unfold Reaches
    rw [hbytes, wholeRecords_all, ← hlog, List.length_append]
    exact le_rfl

end Invariant

end Memcore
