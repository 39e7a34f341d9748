import Memcore.Command.Growth
import Memcore.Persistence.Durable
import Memcore.Server.Serve

/-!
# A server with its data directory

`execute` with its call of `Append`, `Flush`, and `compact`, one after the other, from an empty
directory on. Each is taken as a whole here; what happens when a process stops in the middle of one is
the subject of `Persistence.Durable`.

At every moment there is one segment; it holds, with what is still buffered, the commands logged since
the last compaction, and the snapshot holds what the databases were then (`Persistent.Inv`).
-/

namespace Memcore

open Go ByteStream

variable {κ : Type} {n m : Nat}

/-! ## The calls -/

/-- `Store.Rotate`. -/
def Store.rotate (store : Store) (disk : Disk) : Store × Disk :=
  ({ store with gen := store.gen + 1, buf := [] },
    (disk.modifySeg store.gen fun f => f.write store.buf).openSegment (store.gen + 1))

/-- `Store.InstallSnapshot`. -/
def Disk.installSnapshot (disk : Disk) (snapshot : List UInt8) (baseGen : Nat) : Disk where
  snapshot := some (File.empty.write snapshot).sync
  tmp := none
  segs := (List.range baseGen).foldl (fun segs g => segs.erase g) disk.segs

/-- A logged command as a record of the log. No Go process has a slice of arguments that does not
fit into its memory. -/
def Logged.command (l : Logged n) : Option LogCommand :=
  if h : l.args.length * sliceHeader ≤ maxAlloc then some ⟨Int64.ofNat l.db, l.args, h⟩ else none

/-- What `execute` appends for a request. -/
def Server.logs (env : Env m) (s : Server κ n m) (r : Request κ) : Option LogCommand :=
  (request (env.at r.now r.ord) r.logNow r.args (s.context r)).2.1.bind Logged.command

theorem length_persistArgs (now : Time) (cmd : Command n m) (args : List Bytes) :
    (persistArgs now cmd args).length = args.length := by
  unfold persistArgs
  split
  · split
    · split <;> rfl
    · rfl
  · rfl

section Logs

variable {env : Env m} {s : Server κ n m} {r : Request κ}

theorem Server.logs_eq {cmd : Command n m} (hres : resolve r.args = .ok cmd) :
    s.logs env r =
      if isLogged cmd (cmd.run (env.at r.now r.ord) r.args (s.context r)).1 then
        Logged.command ⟨(cmd.run (env.at r.now r.ord) r.args (s.context r)).2.index,
          persistArgs r.logNow cmd r.args⟩
      else none := by
  simp only [logs, request, hres, execute]
  split <;> rfl

/-- What is appended is a command of the request, for the database selected after it. -/
theorem Server.mem_logs {c : LogCommand} (h : c ∈ s.logs env r) :
    ∃ cmd : Command n m, resolve r.args = .ok cmd ∧
      c.db = Int64.ofNat (cmd.run (env.at r.now r.ord) r.args (s.context r)).2.index ∧
      c.args = persistArgs r.logNow cmd r.args := by
  cases hres : (resolve r.args : Except Reply (Command n m)) with
  | error reply =>
    simp only [logs, request, hres] at h
    cases h
  | ok cmd =>
    rw [logs_eq hres] at h
    split at h
    next =>
      rw [Logged.command] at h
      split at h
      next =>
        cases h
        exact ⟨cmd, rfl, rfl, rfl⟩
      next => cases h
    next => cases h

theorem Server.logs_of_isLogged {cmd : Command n m} (hres : resolve r.args = .ok cmd)
    (hfits : r.args.length * sliceHeader ≤ maxAlloc)
    (hlogged : isLogged cmd (cmd.run (env.at r.now r.ord) r.args (s.context r)).1 = true) :
    ∃ c, s.logs env r = some c := by
  have hfits' : (persistArgs r.logNow cmd r.args).length * sliceHeader ≤ maxAlloc := by
    rwa [length_persistArgs]
  rw [logs_eq hres, if_pos hlogged, Logged.command, dif_pos hfits']
  exact ⟨_, rfl⟩

end Logs

/-- A server, its store and its directory. -/
structure Persistent (κ : Type) (n m : Nat) where
  server : Server κ n m
  store : Store
  disk : Disk

/-- What the server does. -/
inductive Persistent.Action (κ : Type) where
  | request (r : Request κ)
  | flush
  | compact (ord : MapOrder) (ords : Nat → MapOrder)

namespace Persistent

/-- The server before its first request, on an empty directory. -/
def start (fsync : FSync) (boot : Reloadable) (sessions : κ → Fin n) : Persistent κ n m :=
  ⟨Server.empty (some boot) sessions, (openStore fsync Disk.empty).1,
    (openStore fsync Disk.empty).2⟩

variable [DecidableEq κ]

/-- One action. -/
def act (env : Env m) (p : Persistent κ n m) : Action κ → Persistent κ n m
  | .request r =>
    let (store, disk) := match p.server.logs env r with
      | some c => p.store.append p.disk c
      | none => (p.store, p.disk)
    ⟨(p.server.serve env r).2, store, disk⟩
  | .flush =>
    let (store, disk) := p.store.flush p.disk
    ⟨p.server, store, disk⟩
  | .compact ord ords =>
    let baseGen := p.store.gen + 1
    let snapshot := writeSnapshot ords (Int64.ofNat baseGen) (emitRecords ord p.server.databases)
    let (store, disk) := p.store.rotate p.disk
    match snapshot with
    | .error _ => ⟨p.server, store, disk⟩
    | .ok snapshot => ⟨p.server, store, disk.installSnapshot snapshot baseGen⟩

theorem act_compact_server (env : Env m) (p : Persistent κ n m) (ord : MapOrder)
    (ords : Nat → MapOrder) : (p.act env (.compact ord ords)).server = p.server := by
  unfold act
  dsimp only
  split <;> rfl

/-- Actions one after the other. -/
def actAll (env : Env m) (p : Persistent κ n m) (acts : List (Action κ)) : Persistent κ n m :=
  acts.foldl (act env) p

end Persistent

/-! ## What is in the directory -/

/-- The bytes are a snapshot of records of `n` databases. -/
def IsSnapshot (n : Nat) (base : Nat) (bs : List UInt8) : Prop :=
  ∃ records ords, writeSnapshot ords (Int64.ofNat base) records = .ok bs ∧
    ∀ r ∈ records, (∃ d : Fin n, r.db = Int64.ofNat d) ∧ ∃ a, r.value.Repr a ∧ a.size < 2 ^ 64

namespace Persistent

/-- `k` bounds the generation and the collections; `cmds` was logged since the last compaction. -/
structure Inv (env : Env m) (p : Persistent κ n m) (k : Nat) (cmds : List LogCommand) : Prop where
  databases : ∃ A, Databases.Repr env p.server.databases A ∧ ∀ d, (A d).Sized k
  gen : p.store.gen ≤ k
  top : p.disk.segs.lookup p.store.gen ≠ none
  only : ∀ g, g ≠ p.store.gen → p.disk.segs.lookup g = none
  bytes : segBytes p.disk.segs p.store.gen ++ p.store.buf = cmds.flatMap writeCommand
  snapshot : p.disk.snapshot = none ∧ p.store.gen = 0 ∨
    ∃ f, p.disk.snapshot = some f ∧ IsSnapshot n p.store.gen f.contents

variable {env : Env m} {p : Persistent κ n m} {k : Nat} {cmds : List LogCommand}

theorem start_inv (env : Env m) (fsync : FSync) (boot : Reloadable) (sessions : κ → Fin n) :
    (start fsync boot sessions : Persistent κ n m).Inv env 0 [] := by
  have hgen : (start fsync boot sessions : Persistent κ n m).store.gen = 0 := rfl
  have hlookup (g : Nat) : (start fsync boot sessions : Persistent κ n m).disk.segs.lookup g
      = if g = 0 then some File.empty else none := by
    show ((∅ : Finmap fun _ : Nat => File).insert 0 File.empty).lookup g = _
    split
    next h =>
      subst h
      exact Finmap.lookup_insert _
    next h => exact Finmap.lookup_insert_of_ne _ h
  refine ⟨⟨fun _ _ => none, new_databases_repr env, fun d key e he => by cases he⟩, le_rfl, ?_,
    fun g hg => ?_, ?_, .inl ⟨rfl, rfl⟩⟩
  · rw [hgen, hlookup, if_pos rfl]
    exact Option.some_ne_none _
  · rw [hlookup, if_neg (hgen ▸ hg)]
  · rw [hgen, segBytes, hlookup, if_pos rfl]
    rfl

/-- Writing to the active segment. -/
theorem Inv.files (h : p.Inv env k cmds) {store : Store} {disk : Disk} {cmds' : List LogCommand}
    (hgen : store.gen = p.store.gen) (hsnap : disk.snapshot = p.disk.snapshot)
    (htop : disk.segs.lookup p.store.gen ≠ none)
    (honly : ∀ g, g ≠ p.store.gen → disk.segs.lookup g = p.disk.segs.lookup g)
    (hbytes : segBytes disk.segs p.store.gen ++ store.buf = cmds'.flatMap writeCommand) :
    Inv env ⟨p.server, store, disk⟩ k cmds' where
  databases := h.databases
  gen := hgen ▸ h.gen
  top := by
    show disk.segs.lookup store.gen ≠ none
    rwa [hgen]
  only g hg := by
    have hne : g ≠ p.store.gen := hgen ▸ hg
    exact (honly g hne).trans (h.only g hne)
  bytes := by
    show segBytes disk.segs store.gen ++ store.buf = _
    rwa [hgen]
  snapshot := by
    show disk.snapshot = none ∧ store.gen = 0 ∨
      ∃ f, disk.snapshot = some f ∧ IsSnapshot n store.gen f.contents
    rw [hgen, hsnap]
    exact h.snapshot

theorem Inv.flush (h : p.Inv env k cmds) :
    Inv env ⟨p.server, (p.store.flush p.disk).1, (p.store.flush p.disk).2⟩ k cmds := by
  refine h.files rfl rfl ?_ (fun g hg => lookup_modifySeg_ne _ hg) ?_
  · rw [Store.flush, Disk.modifySeg, Finmap.lookup_insert]
    exact Option.some_ne_none _
  · rw [Store.flush, segBytes_modifySeg, File.contents_sync, File.contents_write, segBytes_getD,
      List.append_nil]
    exact h.bytes

theorem Inv.append (h : p.Inv env k cmds) (c : LogCommand) :
    Inv env ⟨p.server, (p.store.append p.disk c).1, (p.store.append p.disk c).2⟩ k
      (cmds ++ [c]) := by
  have hbuf : Inv env ⟨p.server, { p.store with buf := p.store.buf ++ writeCommand c }, p.disk⟩ k
      (cmds ++ [c]) := by
    refine h.files rfl rfl h.top (fun _ _ => rfl) ?_
    rw [← List.append_assoc, h.bytes, List.flatMap_append, List.flatMap_singleton]
  unfold Store.append
  simp only
  split
  · exact hbuf.flush
  · exact hbuf

variable [DecidableEq κ]

theorem Inv.request (h : p.Inv env k cmds) (r : Request κ) :
    (p.act env (.request r)).Inv env (k + r.args.length)
      (cmds ++ (p.server.logs env r).toList) := by
  have hserver : Inv env ⟨(p.server.serve env r).2, p.store, p.disk⟩ (k + r.args.length) cmds := by
    obtain ⟨A, hA, hsized⟩ := h.databases
    refine ⟨?_, h.gen.trans (Nat.le_add_right _ _), h.top, h.only, h.bytes, h.snapshot⟩
    have hgrown (d : Fin n) : (A d).Sized (k + r.args.length) :=
      fun key e he => (hsized d key e he).trans (Nat.le_add_right _ _)
    have hA' : Databases.Repr (env.at r.now r.ord) (p.server.context r).databases A := hA
    rcases request_refines hA' r.logNow r.args with ⟨-, hsame⟩ | ⟨cmd, hres, -, -, -, hrepr⟩
    · refine ⟨A, ?_, hgrown⟩
      show Databases.Repr env (Memcore.request _ _ _ _).2.2.databases A
      rw [hsame]
      exact hA
    · refine ⟨_, hrepr, fun d => ?_⟩
      unfold effectOf
      simp only [hres]
      intro key e he
      by_cases hd : d = (Memcore.request (env.at r.now r.ord) r.logNow r.args
          (p.server.context r)).2.2.index
      · subst hd
        rw [Function.update_self] at he
        exact effect_size (hsized _) key e he
      · rw [Function.update_of_ne hd] at he
        exact hgrown d key e he
  cases hlogs : p.server.logs env r with
  | none =>
    rw [Option.toList_none, List.append_nil]
    simp only [act, hlogs]
    exact hserver
  | some c =>
    simp only [act, hlogs]
    exact hserver.append c

omit [DecidableEq κ] in
theorem lookup_removed (segs : Finmap fun _ : Nat => File) (b g : Nat) :
    ((List.range b).foldl (fun segs g => segs.erase g) segs).lookup g
      = if g < b then none else segs.lookup g := by
  induction b with
  | zero => rfl
  | succ b ih =>
    rw [List.range_succ, List.foldl_append, List.foldl_cons, List.foldl_nil]
    by_cases hg : g = b
    · subst hg
      rw [Finmap.lookup_erase, if_pos (Nat.lt_succ_self g)]
    · rw [Finmap.lookup_erase_ne hg, ih]
      exact if_congr (by omega) rfl rfl

/-- A compaction leaves a snapshot and an empty segment. -/
theorem Inv.compact (h : p.Inv env k cmds) (hk : k < 2 ^ 63) (ord : MapOrder)
    (ords : Nat → MapOrder) : (p.act env (.compact ord ords)).Inv env (k + 1) [] := by
  obtain ⟨A, hA, hsized⟩ := h.databases
  have hrecords : ∀ r ∈ emitRecords ord p.server.databases,
      (∃ d : Fin n, r.db = Int64.ofNat d) ∧ ∃ a, r.value.Repr a ∧ a.size < 2 ^ 64 := by
    intro r hr
    obtain ⟨d, e, hdb, he, hv, -⟩ := emitRecords_of hA ord r hr
    exact ⟨⟨d, hdb⟩, e.value, hv, (hsized d _ e he).trans_lt (hk.trans (by decide))⟩
  obtain ⟨enc, -, hwrite, -⟩ := readSnapshot_writeSnapshot env.limits ords (fun _ _ => 0)
    (Int64.ofNat (p.store.gen + 1)) fun r hr => (hrecords r hr).2
  have hfile : ((File.empty.write enc).sync).contents = enc := by
    rw [File.contents_sync, File.contents_write]
    rfl
  -- the segment that was opened is the only one left
  have hlookup (g : Nat) : (((p.store.rotate p.disk).2).installSnapshot enc
      (p.store.gen + 1)).segs.lookup g = if g = p.store.gen + 1 then some File.empty else none := by
    rw [Disk.installSnapshot, lookup_removed, Store.rotate, Disk.openSegment]
    by_cases hg : g = p.store.gen + 1
    · subst hg
      rw [if_neg (lt_irrefl _), if_pos rfl, Finmap.lookup_insert,
        lookup_modifySeg_ne _ (Nat.succ_ne_self _), h.only _ (Nat.succ_ne_self _)]
      rfl
    · rw [if_neg hg, Finmap.lookup_insert_of_ne _ hg]
      split
      next => rfl
      next hlt =>
        have hne : g ≠ p.store.gen := by omega
        rw [lookup_modifySeg_ne _ hne, h.only g hne]
  simp only [act, hwrite]
  refine ⟨⟨A, hA, fun d key e he => (hsized d key e he).trans (Nat.le_succ k)⟩,
    Nat.succ_le_succ h.gen, ?_, fun g hg => ?_, ?_, .inr ⟨_, rfl, ?_⟩⟩
  · show Finmap.lookup (p.store.gen + 1) _ ≠ none
    rw [hlookup, if_pos rfl]
    exact Option.some_ne_none _
  · rw [hlookup]
    exact if_neg hg
  · show segBytes _ (p.store.gen + 1) ++ [] = _
    rw [segBytes, hlookup, if_pos rfl]
    rfl
  · rw [hfile]
    exact ⟨_, ords, hwrite, hrecords⟩

end Persistent

end Memcore
