import Memcore.Persistence.FailingStore
import Memcore.Server.Durability
import Memcore.Server.Persistent

/-!
# Acknowledged writes

`execute` when writes and syncs of the active segment may fail. The handler has run when `Append` is
called, and an error of `Append` is only reported to the server's log: the client has the reply of the
handler either way. So a reply that is no error says that the record is synced only if `Append` has
returned none (`acknowledged_synced`), and not otherwise (`acknowledged_write_lost`).
-/

namespace Memcore

open Go ByteStream Bufio

variable {κ ε : Type} {n m : Nat}

/-- A server with its store, and the errors of `Append` it has reported. -/
structure FailingServer (κ : Type) (n m : Nat) (ε : Type) where
  server : Server κ n m
  store : FailingStore ε
  reported : List ε

namespace FailingServer

/-- What happens: a request, a `Flush`, or the `Rotate` of a compaction. -/
inductive Event (κ : Type) where
  | request (r : Request κ)
  | flush
  | rotate

/-- A server that has opened its directory. -/
def start (fsync : FSync) (disk : Disk) (server : Server κ n m) : FailingServer κ n m ε :=
  ⟨server, FailingStore.openStore fsync disk, []⟩

variable [DecidableEq κ] (faults : Nat → Option (Fault ε))

/-- `execute` for a request: the reply, what `Append` has returned if it was called, and the server
after it. -/
def serve (env : Env m) (p : FailingServer κ n m ε) (r : Request κ) :
    Reply × Option (Except ε Unit) × FailingServer κ n m ε :=
  let (reply, server) := p.server.serve env r
  match p.server.logs env r with
  | none => (reply, none, { p with server })
  | some c =>
    match p.store.append faults c.db c.args with
    | (.ok (), store) => (reply, some (.ok ()), ⟨server, store, p.reported⟩)
    | (.error e, store) => (reply, some (.error e), ⟨server, store, p.reported ++ [e]⟩)

/-- One event. -/
def handle (env : Env m) (p : FailingServer κ n m ε) : Event κ → FailingServer κ n m ε
  | .request r => (p.serve faults env r).2.2
  | .flush => { p with store := (p.store.flushLocked faults).2 }
  | .rotate => { p with store := (p.store.rotate faults).2 }

/-- Events one after the other. -/
def handleAll (env : Env m) (p : FailingServer κ n m ε) (evs : List (Event κ)) :
    FailingServer κ n m ε :=
  evs.foldl (handle faults env) p

variable {faults} {env : Env m} {p : FailingServer κ n m ε} {r : Request κ}

/-- The reply and the databases do not depend on what `Append` returns. -/
theorem serve_server : (p.serve faults env r).1 = (p.server.serve env r).1 ∧
    (p.serve faults env r).2.2.server = (p.server.serve env r).2 := by
  unfold serve
  dsimp only
  split
  · exact ⟨rfl, rfl⟩
  · split <;> exact ⟨rfl, rfl⟩

theorem serve_logged {c : LogCommand} (h : p.server.logs env r = some c) :
    (p.serve faults env r).2.1 = some (p.store.append faults c.db c.args).1 ∧
      (p.serve faults env r).2.2.store = (p.store.append faults c.db c.args).2 := by
  simp only [serve, h]
  rcases p.store.append faults c.db c.args with ⟨_ | ⟨⟩, store⟩ <;> exact ⟨rfl, rfl⟩

theorem serve_not_logged (h : p.server.logs env r = none) :
    (p.serve faults env r).2.2.store = p.store := by
  simp only [serve, h]

variable (faults env) in
/-- However the calls fail, the segment stays a prefix of the records that were to be in it. -/
theorem handleAll_inv (disk : Disk) (server : Server κ n m) (evs : List (Event κ)) :
    ∃ old cmds, ((start .always disk server).handleAll faults env evs).store.Inv
      (segBytes disk.segs (openGen disk)) old cmds := by
  induction evs using List.reverseRecOn with
  | nil => exact ⟨_, _, FailingStore.openStore_inv disk⟩
  | append_singleton evs ev ih =>
    obtain ⟨old, cmds, h⟩ := ih
    rw [handleAll, List.foldl_append, List.foldl_cons, List.foldl_nil, ← handleAll]
    generalize (start .always disk server).handleAll faults env evs = p at h
    cases ev with
    | flush => exact ⟨old, cmds, h.flush⟩
    | rotate =>
      rcases h.rotate with hsame | hnew
      · exact ⟨old, cmds, hsame⟩
      · exact ⟨[], [], hnew⟩
    | request r =>
      rw [handle]
      cases hlogs : p.server.logs env r with
      | none =>
        rw [serve_not_logged hlogs]
        exact ⟨old, cmds, h⟩
      | some c =>
        rw [(serve_logged hlogs).2]
        exact ⟨old, cmds ++ [c], h.append c⟩

end FailingServer

/-! ## What a reply says -/

variable [DecidableEq κ]

/-- A write command with a reply that is no error is appended, in the form of `persistArgs`. -/
theorem Server.logs_of_write {env : Env m} {s : Server κ n m} {r : Request κ} {cmd : Command n m}
    (hres : resolve r.args = .ok cmd) (hwrite : cmd.readOnly = false)
    (hfits : r.args.length * sliceHeader ≤ maxAlloc)
    (hreply : (s.serve env r).1.isError = false) :
    ∃ c, s.logs env r = some c ∧ c.db = Int64.ofNat ((s.serve env r).2.sessions r.conn) ∧
      c.args = persistArgs r.logNow cmd r.args := by
  have hindex : (s.serve env r).2.sessions r.conn
      = (cmd.run (env.at r.now r.ord) r.args (s.context r)).2.index := by
    simp only [Server.serve, request, hres, execute]
    exact Function.update_self _ _ _
  have hlogged : isLogged cmd (cmd.run (env.at r.now r.ord) r.args (s.context r)).1 = true := by
    simp only [Server.serve, request, hres, execute] at hreply
    rw [isLogged, hwrite, Bool.not_false, Bool.true_and]
    revert hreply
    cases (cmd.run (env.at r.now r.ord) r.args (s.context r)).1 with
    | ok reply => exact fun h => congrArg not h
    | error e => exact fun h => (by cases h)
  obtain ⟨c, hc⟩ := Server.logs_of_isLogged hres hfits hlogged
  obtain ⟨cmd', hres', hdb, hargs⟩ := Server.mem_logs hc
  obtain rfl : cmd = cmd' := Except.ok.inj (hres.symm.trans hres')
  exact ⟨c, hc, hindex ▸ hdb, hargs⟩

/-- Replaying the bytes calls back with the commands, one after the other, and meets no error. -/
def Replays (bs : List UInt8) (cmds : List LogCommand) : Prop :=
  ∀ (σ E : Type) (replay : σ → Int64 → List Bytes → σ) (s : σ),
    replaySegment (fun s db args => (replay s db args, (none : Option E))) bs s
      = (cmds.foldl (fun s c => replay s c.db c.args) s, cmds.length, none)

theorem replays_records (cmds : List LogCommand) : Replays (cmds.flatMap writeCommand) cmds := by
  intro σ E replay s
  have hcalls : callEach (callback fun s db args => (replay s db args, (none : Option E))) cmds s
      = _ := callEach_total _ _ s
  obtain ⟨k, hloop, hk⟩ := replayLoop_prefix
    (fun s db args => (replay s db args, (none : Option E))) cmds (cmds.flatMap writeCommand)
    ((cmds.flatMap writeCommand).length + 1) 0 s List.prefix_rfl (Nat.lt_succ_self _)
  rw [wholeRecords_all, hcalls] at hloop hk
  rw [replaySegment, hloop, hk rfl, Nat.zero_add]
  rfl

/-- **What a reply to a write says.** Under the policy `always`, after whatever requests, flushes and
rotations and however their calls have failed: a write command with a reply that is no error has been
appended. If `Append` has returned no error, the record is synced, behind everything that was to be in
the segment. After a power failure it is then replayed, provided the segment was new or held whole
records only when it was opened: behind a torn record nothing is read. `Append` returns no error exactly when no write of the segment has failed before and none of the calls
of this `Append` fails. -/
theorem acknowledged_synced (faults : Nat → Option (Fault ε)) (env : Env m) (disk : Disk)
    (server : Server κ n m) (evs : List (FailingServer.Event κ)) (r : Request κ)
    {cmd : Command n m} (hres : resolve r.args = .ok cmd) (hwrite : cmd.readOnly = false)
    (hfits : r.args.length * sliceHeader ≤ maxAlloc) :
    let p := (FailingServer.start .always disk server).handleAll faults env evs
    let out := p.serve faults env r
    out.1.isError = false → ∃ c res, out.2.1 = some res ∧
      c.db = Int64.ofNat (out.2.2.server.sessions r.conn) ∧
      c.args = persistArgs r.logNow cmd r.args ∧
      (res = .ok () ↔ p.store.writer.err = none ∧
        FileWriter.Clean faults p.store.writer.calls out.2.2.store.writer.calls) ∧
      (res = .ok () → ∃ old cmds, (old = [] ∨ old = segBytes disk.segs (openGen disk)) ∧
        out.2.2.store.writer.file = ⟨old ++ (cmds ++ [c]).flatMap writeCommand, []⟩ ∧
        ∀ before : List LogCommand, old = before.flatMap writeCommand →
          ∀ bs, out.2.2.store.writer.file.Survives bs → Replays bs (before ++ (cmds ++ [c]))) := by
  intro p out hreply
  obtain ⟨old, cmds, hinv⟩ := FailingServer.handleAll_inv faults env disk server evs
  have hsame : out.1 = (p.server.serve env r).1 ∧ out.2.2.server = (p.server.serve env r).2 :=
    FailingServer.serve_server
  rw [hsame.1] at hreply
  obtain ⟨c, hlogs, hdb, hargs⟩ := Server.logs_of_write hres hwrite hfits hreply
  obtain ⟨hres', hstore⟩ : out.2.1 = some _ ∧ out.2.2.store = _ := FailingServer.serve_logged hlogs
  refine ⟨c, _, hres', hsame.2 ▸ hdb, hargs, ?_, fun hok => ⟨old, cmds, hinv.opened, ?_, ?_⟩⟩
  · rw [hstore]
    exact hinv.append_ok_iff c
  · rw [hstore]
    exact hinv.append_synced c hok
  · intro before hbefore bs hbs
    have hfile := hinv.append_synced c hok
    rw [hstore, hfile] at hbs
    rw [hbs.eq_contents rfl, File.contents, List.append_nil, hbefore, ← List.flatMap_append]
    exact replays_records _

/-- SET of a key. -/
def setKey (key val : String) : Request Unit :=
  ⟨(), [ascii "SET", ascii key, ascii val], 0, 0, MapOrder.default, fun _ => 0⟩

/-- An empty server on an empty directory. -/
def alwaysServer : FailingServer Unit 1 1 Unit :=
  .start .always Disk.empty (Server.empty none fun _ => 0)

/-- Only the call with this number fails. -/
def onlyFails (k : Nat) (i : Nat) : Option (Fault Unit) := if i = k then some ⟨0, ()⟩ else none

/-- Two SETs; the call with number `k` fails. -/
def secondSet (k : Nat) : Reply × Option (Except Unit Unit) × FailingServer Unit 1 1 Unit :=
  (alwaysServer.handleAll (onlyFails k) (Env.single 0) [.request (setKey "a" "1")]).serve
    (onlyFails k) (Env.single 0) (setKey "b" "2")

theorem secondSet_acknowledged :
    (secondSet 1).1.isError = false ∧ (secondSet 1).2.1 = some (.ok ()) := by
  decide +kernel

/-- When the `Sync` of the first SET fails, the second SET has its record synced. -/
theorem acknowledged_synced_after_failure :
    ∃ old cmds c, c.args = [ascii "SET", ascii "b", ascii "2"] ∧
      (secondSet 1).2.2.store.writer.file = ⟨old ++ (cmds ++ [c]).flatMap writeCommand, []⟩ := by
  obtain ⟨hreply, hok⟩ := secondSet_acknowledged
  obtain ⟨c, res, hres, -, hargs, -, hsynced⟩ := acknowledged_synced (onlyFails 1) (Env.single 0)
    Disk.empty (Server.empty none fun _ => 0 : Server Unit 1 1) [.request (setKey "a" "1")]
    (setKey "b" "2") rfl rfl (by decide) hreply
  obtain ⟨old, cmds, -, hfile, -⟩ := hsynced (Option.some.inj (hres.symm.trans hok))
  exact ⟨old, cmds, c, hargs, hfile⟩

/-- **An acknowledged write is lost.** The first write of the segment fails, and both SETs are
answered OK: nothing is ever in the file, and recovery has neither key. -/
theorem acknowledged_write_lost :
    let out := alwaysServer.serve (onlyFails 0) (Env.single 0) (setKey "a" "1")
    out.1.isError = false ∧ (secondSet 0).1.isError = false ∧
      (secondSet 0).2.2.store.writer.file.contents = [] ∧
      let c := (recover (Env.single 0).limits (fun _ _ => 0) (restore (n := 1) (Env.single 0))
        (replay (Env.single 0)) (secondSet 0).2.2.store.files (Context.empty none 0 fun _ => 0)).1
      ((c.databases 0 0).entries.lookup (ascii "a")).isSome = false ∧
        ((c.databases 0 0).entries.lookup (ascii "b")).isSome = false := by
  decide +kernel

end Memcore
