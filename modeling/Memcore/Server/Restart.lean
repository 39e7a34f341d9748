import Memcore.Server.RecoveredSettings
import Memcore.Server.Spec

/-!
# Restarts

A server that is shut down and started again on the same directory, any number of times, each time with
a configuration of its own: `openPersistence` opens the directory and recovers, requests, flushes and
compactions follow, and `finalizePersistence` flushes, compacts and closes. The requests of one uptime
run one after the other here, and no call to the operating system fails.

What `finalizePersistence` leaves is a snapshot of the databases and one empty segment (`Clean`), so the
next recovery replays nothing. It does not matter how many shards the databases had when the snapshot
was written, nor how they are hashed: a record knows its database and its key. What a restart changes
is what a record does not keep of a deadline (`AEntry.restored`), and with the sessions the settings
are gone.
-/

namespace Memcore

open Go Prog ByteStream

variable {κ : Type} {n m : Nat}

/-! ## Uptimes -/

/-- The configuration of a program with `n` databases, and what the runtime chooses while it
recovers. -/
structure Startup (n : Nat) where
  shards : Nat
  env : Env shards
  fsync : FSync
  boot : Reloadable
  now : Time
  ord : MapOrder
  rngs : Nat → Rng
  rng : Rng

/-- One run of the program. -/
structure Uptime (κ : Type) (n : Nat) extends Startup n where
  acts : List (Persistent.Action κ)
  /-- in the last compaction -/
  lastOrd : MapOrder
  lastOrds : Nat → MapOrder

namespace Persistent

/-- The request of an action. -/
def Action.request? : Action κ → Option (Request κ)
  | .request r => some r
  | .flush | .compact _ _ => none

variable [DecidableEq κ]

/-- `finalizePersistence`. Closing the segment flushes it once more. -/
def finalize (env : Env m) (p : Persistent κ n m) (ord : MapOrder) (ords : Nat → MapOrder) :
    Persistent κ n m :=
  ((p.act env .flush).act env (.compact ord ords)).act env .flush

end Persistent

/-- `openPersistence`, and the server before its first connection; `none` if recovery fails. -/
def Startup.openPersistence [NeZero n] (u : Startup n) (disk : Disk) :
    Option (Persistent κ n u.shards) :=
  let (store, disk) := openStore u.fsync disk
  match recover u.env.limits u.rngs (restore (u.env.at u.now u.ord)) (replay (u.env.at u.now u.ord))
      disk (Context.empty (some u.boot) 0 u.rng : Context n u.shards) with
  | (c, _, _, none) => some ⟨⟨c.databases, c.settings, fun _ => 0, []⟩, store, disk⟩
  | (_, _, _, some _) => none

namespace Uptime

/-- The requests of an uptime. -/
def requests (u : Uptime κ n) : List (Request κ) := u.acts.filterMap Persistent.Action.request?

/-- What an uptime adds to the collections and to the generations. -/
def weight (u : Uptime κ n) : Nat := (u.acts.map Persistent.Action.weight).sum + 1

variable [NeZero n] [DecidableEq κ]

/-- The replies of an uptime, and the directory it leaves. -/
def run (u : Uptime κ n) (disk : Disk) : Option (List Reply × Disk) :=
  (u.openPersistence disk).map fun (p : Persistent κ n u.shards) =>
    ((p.server.answers u.env u.requests).map Prod.snd,
      ((p.actAll u.env u.acts).finalize u.env u.lastOrd u.lastOrds).disk)

/-- Uptimes one after the other. -/
def runAll : List (Uptime κ n) → Disk → Option (List (List Reply) × Disk)
  | [], disk => some ([], disk)
  | u :: us, disk =>
    (u.run disk).bind fun (replies, disk) =>
      (runAll us disk).map fun (rest, disk) => (replies :: rest, disk)

end Uptime

/-! ## The abstract server -/

/-- What records keep of abstract databases. -/
def restoredAll (D : Fin n → ADB) : Fin n → ADB := fun d key => (D d key).map AEntry.restored

section Abstract

variable [NeZero n] [DecidableEq κ]

/-- The abstract server after a restart: the databases are still there. -/
def AServer.restart (boot : Reloadable) (D : Fin n → ADB) : AServer κ n :=
  ⟨restoredAll D, some boot, fun _ => 0⟩

/-- The abstract replies of uptimes one after the other. -/
def Uptime.expected : (Fin n → ADB) → List (Uptime κ n) → List (List AReply)
  | _, [] => []
  | D, u :: us =>
    (AServer.restart u.boot D : AServer κ n).answers u.env.limits u.env.host
        (u.requests.map Request.call)
      :: expected ((AServer.restart u.boot D : AServer κ n).serveAll u.env.limits u.env.host
        (u.requests.map Request.call)).databases us

end Abstract

/-! ## Requests, flushes and compactions -/

namespace Persistent

variable [DecidableEq κ] {env : Env m}

/-- The server of a run is the server of its requests. -/
theorem actAll_server (acts : List (Action κ)) : ∀ p : Persistent κ n m,
    (p.actAll env acts).server = p.server.serveAll env (acts.filterMap Action.request?) := by
  induction acts with
  | nil => exact fun _ => rfl
  | cons a acts ih =>
    intro p
    have hrest : (p.actAll env (a :: acts)).server
        = (p.act env a).server.serveAll env (acts.filterMap Action.request?) := ih _
    rw [hrest]
    cases a with
    | request r => rfl
    | flush => rfl
    | compact ord ords =>
      rw [act_compact_server]
      rfl

/-- The directory holds what it should through all of it. -/
theorem Inv.actAll (acts : List (Action κ)) : ∀ {p : Persistent κ n m} {k : Nat}
    {cmds : List LogCommand}, p.Inv env k cmds → k + (acts.map Action.weight).sum < 2 ^ 63 →
    ∃ cmds', (p.actAll env acts).Inv env (k + (acts.map Action.weight).sum) cmds' := by
  induction acts with
  | nil => exact fun h _ => ⟨_, h⟩
  | cons a acts ih =>
    intro p k cmds h hk
    have hsum : k + ((a :: acts).map Action.weight).sum
        = k + a.weight + (acts.map Action.weight).sum := by
      rw [List.map_cons, List.sum_cons, Nat.add_assoc]
    rw [hsum] at hk ⊢
    have hstep : ∃ cmds', (p.act env a).Inv env (k + a.weight) cmds' := by
      cases a with
      | request r => exact ⟨_, h.request r⟩
      | flush => exact ⟨_, h.flush⟩
      | compact ord ords => exact ⟨_, h.compact (by omega) ord ords⟩
    obtain ⟨cmds', h'⟩ := hstep
    exact ih h' hk

end Persistent

/-! ## Snapshots under another configuration -/

theorem restore_settings (env : Env m) (c : Context n m) (r : Record) :
    (restore env c r).1.settings = c.settings := by
  unfold restore
  split <;> rfl

theorem callEach_restore_settings (env : Env m) (rs : List Record) : ∀ c : Context n m,
    (callEach (restore env) rs c).1.settings = c.settings := by
  induction rs with
  | nil => exact fun _ => rfl
  | cons r rs ih =>
    intro c
    rw [callEach]
    have hkeep := restore_settings env c r
    rcases hstep : restore env c r with ⟨c', _ | e⟩
    · rw [hstep] at hkeep
      exact (ih c').trans hkeep
    · rw [hstep] at hkeep
      exact hkeep

/-- The bytes are a snapshot of databases that stand for `D`, whatever their shards. -/
def SnapshotOf (D : Fin n → ADB) (base : Nat) (bs : List UInt8) : Prop :=
  ∃ (m : Nat) (env : Env m) (dbs : Fin n → DB m) (ord : MapOrder) (ords : Nat → MapOrder),
    Databases.Repr env dbs D ∧ writeSnapshot ords (Int64.ofNat base) (emitRecords ord dbs) = .ok bs

/-- **A snapshot is restored into databases with other shards, another hash and other thresholds.** -/
theorem SnapshotOf.restore (hn : n < 2 ^ 63) {D : Fin n → ADB} {base : Nat} {bs : List UInt8}
    (h : SnapshotOf D base bs) (hsize : ∀ d key e, D d key = some e → e.value.size < 2 ^ 64)
    (env : Env m) (rngs : Nat → Rng) {c : Context n m}
    (hc : Databases.Repr env c.databases fun _ _ => none) :
    ∃ c', readSnapshot env.limits rngs (Memcore.restore env) bs c = (c', Int64.ofNat base, none) ∧
      c'.settings = c.settings ∧ Databases.Repr env c'.databases (restoredAll D) := by
  obtain ⟨m₀, env₀, dbs, ord, ords, hrepr, hwrite⟩ := h
  obtain ⟨enc, records, hw, hsame, -, hread⟩ := readSnapshot_writeSnapshot env.limits ords rngs
    (Int64.ofNat base) fun r hr => by
      obtain ⟨d, e, -, hD, hv, -, -⟩ := emitRecords_of hrepr ord r hr
      exact ⟨e.value, hv, hsize d _ e hD⟩
  obtain rfl : bs = enc := Except.ok.inj (hwrite.symm.trans hw)
  have hof : ∀ r ∈ records, r.Of env.limits D := by
    intro r' hr'
    obtain ⟨r, hr, hs⟩ := exists_of_forall₂_right hsame r' hr'
    obtain ⟨d, e, hdb, hD, hv, -, hts⟩ := emitRecords_of hrepr ord r hr
    obtain ⟨a, ha, ha', hb⟩ := hs.value
    have hval : e.value = a := (Value.obsEq_iff hv ha).mp ((Value.obsEq_iff ha ha).mpr rfl)
    exact ⟨d, e, hs.db.trans hdb, by rw [hs.key, hD], hval ▸ ha', hb, hs.expireAt.trans hts⟩
  have hall : ∀ d key e, D d key = some e → ∃ r ∈ records, r.db = Int64.ofNat d ∧ r.key = key := by
    intro d key e he
    obtain ⟨r, hr, hdb, hkey⟩ := exists_mem_emitRecords hrepr ord he
    obtain ⟨r', hr', hs⟩ := exists_of_forall₂_right hsame.flip r hr
    exact ⟨r', hr', hs.db.trans hdb, hs.key.trans hkey⟩
  obtain ⟨c', hcall, hrepr'⟩ := callEach_restore_all hn hof hall hc
  refine ⟨c', ?_, ?_, hrepr'⟩
  · rw [hread, hcall]
    rfl
  · have hkeep := callEach_restore_settings env records c
    rw [hcall] at hkeep
    exact hkeep

/-! ## What a shutdown leaves -/

/-- One segment at most, with nothing in it, and a snapshot of `D`; or a directory that was never used.
`k` bounds the collections. -/
structure Clean (disk : Disk) (D : Fin n → ADB) (k gen : Nat) : Prop where
  sized : ∀ d, (D d).Sized k
  only : ∀ g ≠ gen, disk.segs.lookup g = none
  bytes : segBytes disk.segs gen = []
  snapshot : disk.snapshot = none ∧ gen = 0 ∧ D = (fun _ _ => none) ∨
    ∃ f, disk.snapshot = some f ∧ SnapshotOf D gen f.contents

theorem Clean.empty : Clean (n := n) Disk.empty (fun _ _ => none) 0 0 := by
  refine ⟨fun d key e h => ?_, fun _ _ => rfl, rfl, .inl ⟨rfl, rfl, rfl⟩⟩
  cases h

section Opening

variable {disk : Disk} {gen : Nat}

theorem segBytes_of_lookup_none {segs : Finmap fun _ : Nat => File} {g : Nat}
    (h : segs.lookup g = none) : segBytes segs g = [] := by
  rw [segBytes, h]
  rfl

theorem highestSegment_le (hone : ∀ g ≠ gen, disk.segs.lookup g = none) :
    highestSegment disk.segs ≤ gen := by
  refine Finset.sup_le fun g hg => le_of_eq ?_
  by_contra hne
  exact Finmap.lookup_eq_none.mp (hone g hne) (Finmap.mem_keys.mp hg)

/-- `Open` goes on with the generation the snapshot starts from. -/
theorem openGen_of_base (hone : ∀ g ≠ gen, disk.segs.lookup g = none) (hbase : disk.base = gen) :
    openGen disk = gen := by
  rw [openGen_eq_max, hbase]
  exact max_eq_right (highestSegment_le hone)

/-- Recovery of a directory whose segments hold nothing is loading the snapshot. -/
theorem recover_loaded {σ E : Type} {lim : Limits} {rngs : Nat → Rng}
    {restore : σ → Record → σ × Option E} (replay : σ → Int64 → List Bytes → σ × Option E)
    {s s' : σ} {base : Int64} {loaded : Nat}
    (hload : loadSnapshot lim rngs restore disk s = (s', base, loaded, none))
    (hempty : ∀ g, segBytes disk.segs g = []) :
    ∃ replayed, recover lim rngs restore replay disk s = (s', loaded, replayed, none) := by
  obtain ⟨k, hreplay⟩ := replayGens_prefix replay disk.segs (fun _ => [])
    (List.range' base.toInt.toNat (highestSegment disk.segs + 1 - base.toInt.toNat)) 0 s'
    fun g _ => by rw [hempty g]; exact List.nil_prefix
  have hnone (gens : List Nat) : (gens.flatMap fun g =>
      wholeRecords [] (segBytes disk.segs g).length) = [] := by
    simp [hempty, wholeRecords_zero]
  rw [hnone] at hreplay
  refine ⟨k, ?_⟩
  simp only [recover, hload, replaySegments, hreplay]
  rfl

end Opening

section Uptimes

variable [NeZero n] [DecidableEq κ] {disk : Disk} {D : Fin n → ADB} {k gen : Nat}

omit [DecidableEq κ] in
/-- **A clean directory can be opened, whatever the configuration**, and the databases are there. -/
theorem Clean.openPersistence (hn : n < 2 ^ 63) (h : Clean disk D k gen) (hk : k < 2 ^ 63)
    (hgen : gen < 2 ^ 63) (u : Startup n) : ∃ p : Persistent κ n u.shards,
      u.openPersistence disk = some p ∧ p.Inv u.env (max k gen) [] ∧
      p.server.Shows u.env (AServer.restart u.boot D) := by
  obtain ⟨hsized, hone, hempty, hsnapshot⟩ := h
  have hbytes (g : Nat) : segBytes disk.segs g = [] := by
    by_cases hg : g = gen
    · rw [hg, hempty]
    · exact segBytes_of_lookup_none (hone g hg)
  let c₀ : Context n u.shards := Context.empty (some u.boot) 0 u.rng
  have hc₀ : Databases.Repr (u.env.at u.now u.ord) c₀.databases fun _ _ => none :=
    empty_repr (u.env.at u.now u.ord) (some u.boot) 0 u.rng
  have hsize : ∀ d key e, D d key = some e → e.value.size < 2 ^ 64 := fun d key e he =>
    (hsized d key e he).trans_lt (hk.trans (by decide))
  -- recovery loads the snapshot and replays nothing
  obtain ⟨c, loaded, hload, hsettings, hrepr⟩ : ∃ c loaded,
      loadSnapshot u.env.limits u.rngs (restore (u.env.at u.now u.ord)) disk c₀
        = (c, Int64.ofNat gen, loaded, none) ∧ c.settings = some u.boot ∧
      Databases.Repr u.env c.databases (restoredAll D) := by
    rcases hsnapshot with ⟨hnone, rfl, rfl⟩ | ⟨f, hf, hof⟩
    · refine ⟨c₀, 0, ?_, rfl, hc₀⟩
      rw [loadSnapshot, hnone]
      rfl
    · obtain ⟨c, hread, hsettings, hrepr⟩ :=
        hof.restore hn hsize (u.env.at u.now u.ord) u.rngs hc₀
      obtain ⟨loaded, hload⟩ := loadSnapshot_eq (u.env.at u.now u.ord).limits u.rngs
        (restore (u.env.at u.now u.ord)) hf c₀
      rw [hread] at hload
      exact ⟨c, loaded, hload, hsettings, hrepr⟩
  have hbase : disk.base = gen := by
    rw [base_of_loadSnapshot (R := serverRecovery u.env u.now u.ord u.rngs c₀) hload,
      Int64.toInt_ofNat_of_lt hgen]
    rfl
  have hopen : openGen disk = gen := openGen_of_base hone hbase
  have hload' : loadSnapshot u.env.limits u.rngs (restore (u.env.at u.now u.ord))
      (openStore u.fsync disk).2 c₀ = (c, Int64.ofNat gen, loaded, none) := hload
  obtain ⟨replayed, hrecover⟩ := recover_loaded (replay (u.env.at u.now u.ord)) hload'
    fun g => by
      rw [openStore, segBytes_openSegment]
      exact hbytes g
  refine ⟨⟨⟨c.databases, c.settings, fun _ => 0, []⟩, (openStore u.fsync disk).1,
    (openStore u.fsync disk).2⟩, ?_, ⟨⟨restoredAll D, hrepr, fun d key e he => ?_⟩, ?_, ?_,
      fun g hg => ?_, ?_, ?_⟩, ⟨hrepr, hsettings, rfl⟩⟩
  · unfold Startup.openPersistence
    simp only [hrecover, c₀]
  · obtain ⟨e₀, he₀, rfl⟩ := Option.map_eq_some_iff.mp he
    exact (hsized d key e₀ he₀).trans (le_max_left k gen)
  · rw [openStore, hopen]
    exact le_max_right k gen
  · rw [openStore, Disk.openSegment, Finmap.lookup_insert]
    exact Option.some_ne_none _
  · have hne : g ≠ openGen disk := hg
    show ((disk.openSegment (openGen disk)).segs).lookup g = none
    rw [Disk.openSegment, Finmap.lookup_insert_of_ne _ hne]
    exact hone g (hopen ▸ hne)
  · rw [openStore, segBytes_openSegment, hopen, hempty]
    rfl
  · show disk.snapshot = none ∧ openGen disk = 0 ∨
      ∃ f, disk.snapshot = some f ∧ IsSnapshot n (openGen disk) f.contents
    rw [hopen]
    rcases hsnapshot with ⟨hnone, hzero, -⟩ | ⟨f, hf, m₀, env₀, dbs, ord, ords, hdbs, hwrite⟩
    · exact .inl ⟨hnone, hzero⟩
    · refine .inr ⟨f, hf, _, ords, hwrite, fun r hr => ?_⟩
      obtain ⟨d, e, hdb, he, hv, -⟩ := emitRecords_of hdbs ord r hr
      exact ⟨⟨d, hdb⟩, e.value, hv, hsize d _ e he⟩

/-- No segment is later than the active one. -/
def NoneAbove (store : Store) (disk : Disk) : Prop := ∀ g, store.gen < g → disk.segs.lookup g = none

namespace NoneAbove

variable {store : Store}

omit [NeZero n] [DecidableEq κ]

theorem flush (h : NoneAbove store disk) :
    NoneAbove (store.flush disk).1 (store.flush disk).2 := fun g hg =>
  (lookup_modifySeg_ne _ (Nat.ne_of_gt hg)).trans (h g hg)

theorem rotate (h : NoneAbove store disk) :
    NoneAbove (store.rotate disk).1 (store.rotate disk).2 := by
  intro g hg
  have hlater : store.gen + 1 < g := hg
  refine (Finmap.lookup_insert_of_ne _ (Nat.ne_of_gt hlater)).trans ?_
  rw [lookup_modifySeg_ne _ (by omega), h g (by omega)]

/-- A compaction leaves the segment that it opens. -/
theorem lookup_compacted (h : NoneAbove store disk) (bs : List UInt8) (g : Nat) :
    ((store.rotate disk).2.installSnapshot bs (store.gen + 1)).segs.lookup g
      = if g = store.gen + 1 then some File.empty else none := by
  rw [Disk.installSnapshot, Persistent.lookup_removed]
  by_cases hg : g = store.gen + 1
  · subst hg
    rw [if_neg (lt_irrefl _), if_pos rfl, Store.rotate, Disk.openSegment, Finmap.lookup_insert,
      lookup_modifySeg_ne _ (Nat.succ_ne_self _), h _ (Nat.lt_succ_self _)]
    rfl
  · rw [if_neg hg]
    split
    next => rfl
    next hlt => exact h.rotate g (show store.gen + 1 < g by omega)

end NoneAbove

omit [NeZero n] in
/-- **A shutdown leaves a clean directory** that holds the databases, if no later segment is there. -/
theorem Persistent.finalize_clean {env : Env m} {p : Persistent κ n m}
    (habove : NoneAbove p.store p.disk)
    (hrepr : Databases.Repr env p.server.databases D) (hsized : ∀ d, (D d).Sized k)
    (hk : k < 2 ^ 63) (ord : MapOrder) (ords : Nat → MapOrder) :
    Clean (p.finalize env ord ords).disk D k (p.store.gen + 1) := by
  have hvalues : ∀ r ∈ emitRecords ord p.server.databases, ∃ a, r.value.Repr a ∧
      a.size < 2 ^ 64 := fun r hr => by
    obtain ⟨d, e, -, he, hv, -, -⟩ := emitRecords_of hrepr ord r hr
    exact ⟨e.value, hv, (hsized d _ e he).trans_lt (hk.trans (by decide))⟩
  obtain ⟨bs, -, hwrite, -⟩ := readSnapshot_writeSnapshot env.limits ords (fun _ _ => 0)
    (Int64.ofNat (p.store.gen + 1)) hvalues
  have hdisk : (p.finalize env ord ords).disk
      = ((((p.store.flush p.disk).1.rotate (p.store.flush p.disk).2).2.installSnapshot bs
          (p.store.gen + 1)).modifySeg (p.store.gen + 1) fun f => (f.write []).sync) := by
    have hwrite' : writeSnapshot ords (Int64.ofNat ((p.act env .flush).store.gen + 1))
        (emitRecords ord (p.act env .flush).server.databases) = .ok bs := hwrite
    unfold Persistent.finalize
    simp only [Persistent.act] at hwrite' ⊢
    simp only [hwrite']
    rfl
  have hlookup (g : Nat) : (((p.store.flush p.disk).1.rotate (p.store.flush p.disk).2).2.installSnapshot
      bs (p.store.gen + 1)).segs.lookup g = if g = p.store.gen + 1 then some File.empty else none :=
    habove.flush.lookup_compacted bs g
  rw [hdisk]
  refine ⟨hsized, fun g hg => ?_, ?_, .inr ⟨_, rfl, m, env, p.server.databases, ord, ords, hrepr, ?_⟩⟩
  · rw [lookup_modifySeg_ne _ hg, hlookup, if_neg hg]
  · rw [segBytes_modifySeg, hlookup, if_pos rfl]
    rfl
  · rw [File.contents_sync, File.contents_write]
    exact hwrite

/-- One uptime. -/
theorem Clean.run (hn : n < 2 ^ 63) (h : Clean disk D k gen) (hgen : gen ≤ k) (u : Uptime κ n)
    (hk : k + u.weight < 2 ^ 63) : ∃ replies disk', u.run disk = some (replies, disk') ∧
      List.Forall₂ AReply.Shows ((AServer.restart u.boot D : AServer κ n).answers u.env.limits
        u.env.host (u.requests.map Request.call)) replies ∧
      ∃ gen' ≤ k + u.weight, Clean disk' ((AServer.restart u.boot D : AServer κ n).serveAll
        u.env.limits u.env.host (u.requests.map Request.call)).databases (k + u.weight) gen' := by
  have hweight : u.weight = (u.acts.map Persistent.Action.weight).sum + 1 := rfl
  obtain ⟨p, hopen, hinv, hshows⟩ := h.openPersistence hn (by omega) (by omega) u.toStartup
  rw [max_eq_left hgen] at hinv
  obtain ⟨cmds, hinv'⟩ := hinv.actAll u.acts (by omega)
  obtain ⟨hreplies, hafter⟩ := hshows.answers u.requests
  have hserver : (p.actAll u.env u.acts).server = p.server.serveAll u.env u.requests :=
    Persistent.actAll_server u.acts p
  obtain ⟨A, hA, hsized⟩ := hinv'.databases
  obtain rfl : A = _ := hA.unique (hserver ▸ hafter.databases)
  have hgen' := hinv'.gen
  refine ⟨_, _, by rw [Uptime.run, hopen]; rfl, hreplies, _, ?_,
    Persistent.finalize_clean (fun g hg => hinv'.only g (Nat.ne_of_gt hg)) hA
      (fun d key e he => (hsized d key e he).trans (by omega)) hk u.lastOrd u.lastOrds⟩
  omega

/-- **A restart keeps everything but the sessions and the settings.** Any number of uptimes on one
directory, each with any number of shards, any hash, any thresholds and any fsync policy, with any
requests, flushes and compactions one after the other, and each ended by a shutdown; a handler reads the
clock once, and what the requests bring can be counted in an `int64`. Every start succeeds, and every
reply is one that the abstract server gives which never stopped: its databases are those of the uptime
before, each deadline as a record keeps it. -/
theorem restarts_keep_data (hn : n < 2 ^ 63) (us : List (Uptime κ n))
    (hsmall : (us.map Uptime.weight).sum < 2 ^ 63) : ∃ replies disk,
      Uptime.runAll us Disk.empty = some (replies, disk) ∧
      List.Forall₂ (List.Forall₂ AReply.Shows) (Uptime.expected (fun _ _ => none) us) replies := by
  have hall : ∀ (us : List (Uptime κ n)) (disk : Disk) (D : Fin n → ADB) (k gen : Nat),
      Clean disk D k gen → gen ≤ k → k + (us.map Uptime.weight).sum < 2 ^ 63 → ∃ replies disk',
        Uptime.runAll us disk = some (replies, disk') ∧
        List.Forall₂ (List.Forall₂ AReply.Shows) (Uptime.expected D us) replies := by
    intro us
    induction us with
    | nil => exact fun disk D k gen _ _ _ => ⟨[], disk, rfl, .nil⟩
    | cons u us ih =>
      intro disk D k gen h hgen hk
      rw [List.map_cons, List.sum_cons, ← Nat.add_assoc] at hk
      obtain ⟨replies, disk₁, hrun, hreplies, gen', hgen', hclean⟩ := h.run hn hgen u (by omega)
      obtain ⟨rest, disk₂, hrest, hexpected⟩ := ih disk₁ _ _ gen' hclean hgen' hk
      refine ⟨replies :: rest, disk₂, ?_, .cons hreplies hexpected⟩
      simp only [Uptime.runAll, hrun, Option.bind_some, hrest, Option.map_some]
  exact hall us Disk.empty _ 0 0 .empty le_rfl (by omega)

end Uptimes

/-- One shard, everything expanded, and `SET a 1`. -/
def settingUptime : Uptime Unit 1 :=
  ⟨⟨1, Env.single 0, .everySec, plainSettings, 0, MapOrder.default, fun _ _ => 0, fun _ => 0⟩,
    [.request (sole 0 ["SET", "a", "1"])], MapOrder.default, fun _ => MapOrder.default⟩

/-- Two shards, other thresholds, and `GET a` after a compaction. -/
def readingUptime : Uptime Unit 1 :=
  ⟨⟨2, ⟨0, ⟨⟨128, 64⟩, ⟨128, 64⟩, ⟨128, 64⟩, ⟨128, 64⟩⟩, .verbatim, fun key => Fin.ofNat 2 key.len,
      MapOrder.default⟩, .always, plainSettings, 0, MapOrder.default, fun _ _ => 0, fun _ => 0⟩,
    [.compact MapOrder.default fun _ => MapOrder.default, .request (sole 0 ["GET", "a"])],
    MapOrder.default, fun _ => MapOrder.default⟩

/-- What was set before the restart is read after it. -/
theorem restarts_keep_data_read : ∃ disk,
    Uptime.runAll [settingUptime, readingUptime] Disk.empty
      = some ([[.ok], [.bulk (ascii "1")]], disk) := by
  obtain ⟨replies, disk, hrun, hreplies⟩ :=
    restarts_keep_data (by decide) [settingUptime, readingUptime] (by decide)
  have hexpected : Uptime.expected (fun _ _ => none) [settingUptime, readingUptime]
      = [[.exact .ok], [.exact (.bulk (ascii "1"))]] := rfl
  rw [hexpected] at hreplies
  rcases hreplies with _ | ⟨h₁, _ | ⟨h₂, _ | _⟩⟩
  rcases h₁ with _ | ⟨h₁, _ | _⟩
  rcases h₂ with _ | ⟨h₂, _ | _⟩
  refine ⟨disk, ?_⟩
  rw [hrun, h₁, h₂]

end Memcore
