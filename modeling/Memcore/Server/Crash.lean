import Memcore.Command.Growth
import Memcore.Server.Durability
import Memcore.Server.Persistent
import Memcore.Server.SnapshotCut

/-!
# A crash in the middle of everything

The connections and the compaction of `Concurrent` next to the files of `Persistence.Compaction`, one
effect on a file at a time. A connection appends under the locks of its shards and, with the policy
`always`, does not go on before the sync; the compaction serializes what is in memory and hands the
bytes to the store. The process can stop between any two steps.

What `Durable` assumes of a log, that its commands were run and that a snapshot is of the state they
gave, is what the locks make true here (`Together.step`). So whatever was going on when the process
stopped, recovery finds the databases after a first part of the order that explains all replies.
-/

namespace Memcore

open Go Prog ByteStream

variable {κ : Type} {n m : Nat}

/-! ## States and steps -/

/-- The server with its files; `appending` is the connection whose `Append` has not returned. -/
structure Durable (κ : Type) (n m : Nat) where
  system : System κ n m
  node : Node
  appending : Option κ

/-- What happens: in memory, in a file, or in both. -/
inductive Durable.Event (κ : Type) where
  | memory (a : Action κ)
  | file (e : FileEvent)
  | both (a : Action κ) (e : FileEvent)

/-- Effects on files alone, whatever they mean. -/
def bareFiles : Semantics Unit where
  step _ _ := ()
  Runs _ _ := True
  Captures _ _ _ := True

/-- A step that calls the store. -/
def Action.calls : Action κ → Bool
  | .append _ | .nextGen | .serialize _ | .rotate => true
  | _ => false

/-- An effect that is the other half of such a step. -/
def FileEvent.called : FileEvent → Bool
  | .append _ | .nextGen | .capture _ | .openNext => true
  | _ => false

/-- A connection that goes on after its `Append`. -/
def Action.resumes : Action κ → Option κ
  | .release k | .finish k => some k
  | _ => none

/-- A server that has opened its directory and has these databases in memory. -/
def Durable.start (fsync : FSync) (disk : Disk) (databases : Fin n → DB m)
    (settings : Option Reloadable) (sessions : κ → Fin n) : Durable κ n m where
  system := System.start databases settings sessions (openStore fsync disk).1.gen
  node := Node.start fsync disk
  appending := none

variable [DecidableEq κ]

/-- One step. -/
inductive DurableStep (env : Env m) : Durable κ n m → Durable.Event κ → Durable κ n m → Prop where
  | memory {s : Durable κ n m} {a : Action κ} {t : System κ n m} (hstep : SysStep env s.system a t)
      (hcalls : a.calls = false) (hwait : ∀ k, a.resumes = some k → s.appending ≠ some k) :
      DurableStep env s (.memory a) { s with system := t }
  | file {s : Durable κ n m} {e : FileEvent} {u : Node} (hfile : FileStep bareFiles () s.node e u)
      (hcalled : e.called = false) :
      DurableStep env s (.file e)
        { s with node := u, appending := if u.pending then s.appending else none }
  | append {s : Durable κ n m} {k : κ} {job : Job κ n m} {outcome : Result Reply} {c : LogCommand}
      {u : Node} (hconn : s.system.conns k = .ran job outcome)
      (hcmd : Logged.command ⟨s.system.sessions k, persistArgs job.req.logNow job.cmd job.req.args⟩
        = some c)
      (hfile : FileStep bareFiles () s.node (.append c) u) :
      DurableStep env s (.both (.append k) (.append c))
        ⟨s.system.append k job outcome, u, if u.pending then some k else none⟩
  | nextGen {s : Durable κ n m} {t : System κ n m} {u : Node}
      (hstep : SysStep env s.system .nextGen t) (hfile : FileStep bareFiles () s.node .nextGen u) :
      DurableStep env s (.both .nextGen .nextGen) { s with system := t, node := u }
  | capture {s : Durable κ n m} {t : System κ n m} {u : Node} {base : Nat}
      {held : List (Fin n × Fin m)} {ord : MapOrder} (ords : Nat → MapOrder) {snap : List UInt8}
      (hcomp : s.system.compactor = .locking base held [])
      (hstep : SysStep env s.system (.serialize ord) t)
      (hsnap : writeSnapshot ords (Int64.ofNat base) (emitRecords ord s.system.databases) = .ok snap)
      (hfile : FileStep bareFiles () s.node (.capture snap) u) :
      DurableStep env s (.both (.serialize ord) (.capture snap)) { s with system := t, node := u }
  | rotate {s : Durable κ n m} {t : System κ n m} {u : Node}
      (hstep : SysStep env s.system .rotate t) (hfile : FileStep bareFiles () s.node .openNext u) :
      DurableStep env s (.both .rotate .openNext) { s with system := t, node := u }

/-! ## Files that mean something -/

/-- What is to be shown of an effect on a file. -/
def FileEvent.Means {A : Type} (M : Semantics A) (a₀ : A) (s : Node) : FileEvent → Prop
  | .append c => M.Runs (M.run a₀ s.appended) c ∧
      (s.phase.frozen = true → M.step (M.run a₀ s.appended) c = M.run a₀ s.appended)
  | .capture snap => ∀ base, s.phase = .planned base → M.Captures (M.run a₀ s.appended) base snap
  | _ => True

theorem FileStep.of_bare {A : Type} {M : Semantics A} {a₀ : A} {s t : Node} {e : FileEvent}
    (h : FileStep bareFiles () s e t) (hmeans : e.Means M a₀ s) : FileStep M a₀ s e t := by
  cases h with
  | append hfree hlock => exact .append hfree hlock hmeans.1 hmeans.2
  | spill hlock => exact .spill hlock
  | sync hlock hbuf => exact .sync hlock hbuf
  | nextGen hfree hphase hint => exact .nextGen hfree hphase hint
  | capture hphase => exact .capture hphase (hmeans _ hphase)
  | close hfree hphase hbuf => exact .close hfree hphase hbuf
  | openNext hphase => exact .openNext hphase
  | createTmp hphase => exact .createTmp hphase
  | writeTmp hphase htmp => exact .writeTmp hphase htmp
  | syncTmp hphase htmp hall => exact .syncTmp hphase htmp hall
  | rename hphase => exact .rename hphase
  | lock hfree hphase => exact .lock hfree hphase
  | remove hphase hnext => exact .remove hphase hnext
  | finish hphase => exact .finish hphase

/-- The records of the files are the commands of the log. -/
def Records (log : List (Logged n)) (cs : List LogCommand) : Prop :=
  List.Forall₂ (fun l c => Logged.command l = some c) log cs

theorem Logged.command_eq_some {l : Logged n} {c : LogCommand} (h : l.command = some c) :
    c.db = Int64.ofNat l.db ∧ c.args = l.args := by
  unfold Logged.command at h
  split at h
  · cases h
    exact ⟨rfl, rfl⟩
  · cases h

theorem Records.run_eq (hn : n < 2 ^ 63) (env : Env m) {log : List (Logged n)}
    {cs : List LogCommand} (h : Records log cs) (A : Fin n → ADB) :
    (logSemantics n env).run A cs = (logMachine n env).run A log := by
  induction h generalizing A with
  | nil => rfl
  | @cons l c log cs hc _ ih =>
    obtain ⟨hdb, hargs⟩ := Logged.command_eq_some hc
    have hstep : (logSemantics n env).step A c = (logMachine n env).step A l := by
      show applyCommand env A c = effectOf env l.db l.args A
      rw [applyCommand_eq hn env A hdb, hargs]
    show (logSemantics n env).run ((logSemantics n env).step A c) cs
      = (logMachine n env).run ((logMachine n env).step A l) log
    rw [hstep]
    exact ih _

/-- A log adds at most an element for each argument. -/
def weight (log : List (Logged n)) : Nat := (log.map fun l => l.args.length).sum

theorem run_sized {env : Env m} (log : List (Logged n)) : ∀ {A : Fin n → ADB} {k : Nat},
    (∀ d, (A d).Sized k) → ∀ d, ((logMachine n env).run A log d).Sized (k + weight log) := by
  induction log with
  | nil => exact fun h => h
  | cons l log ih =>
    intro A k h
    have hstep : ∀ d, ((logMachine n env).step A l d).Sized (k + l.args.length) := by
      intro d key e he
      have hgrown : ∀ d, (A d).Sized (k + l.args.length) := fun d key e he =>
        (h d key e he).trans (Nat.le_add_right _ _)
      have he' : effectOf env l.db l.args A d key = some e := he
      unfold effectOf at he'
      cases hres : (resolve l.args : Except Reply (Command n m)) with
      | error reply =>
        simp only [hres] at he'
        exact hgrown d key e he'
      | ok cmd =>
        simp only [hres] at he'
        by_cases hd : d = l.db
        · subst hd
          rw [Function.update_self] at he'
          exact effect_size (h _) key e he'
        · rw [Function.update_of_ne hd] at he'
          exact hgrown d key e he'
    have hweight : weight (l :: log) = l.args.length + weight log := List.sum_cons
    rw [hweight, ← Nat.add_assoc]
    exact ih hstep

/-- The compaction of the server and the one of its store are at the same point. -/
def Coupled : Compactor n m → Phase → Prop
  | .locking base _ _, .planned base' => base = base'
  | .serialized base _, .captured base' _ | .serialized base _, .closed base' _ => base = base'
  | .idle, .idle | .idle, .rotated .. | .idle, .writing .. | .idle, .written ..
  | .idle, .installed _ | .idle, .removing .. => True
  | .unlocking _, .idle | .unlocking _, .rotated .. | .unlocking _, .writing ..
  | .unlocking _, .written .. | .unlocking _, .installed _ | .unlocking _, .removing .. => True
  | _, _ => False

/-- No command of the log sets a deadline, and no collection gets too large for a file. -/
structure Plain (m : Nat) (k₀ : Nat) (log : List (Logged n)) : Prop where
  deadlines : SetsNoDeadline m log
  small : k₀ + weight log < 2 ^ 64

theorem Plain.of_append {k₀ : Nat} {log log' : List (Logged n)} (h : Plain m k₀ (log ++ log')) :
    Plain m k₀ log := by
  refine ⟨fun l hl => h.deadlines l (List.mem_append_left _ hl), lt_of_le_of_lt ?_ h.small⟩
  simp only [weight, List.map_append, List.sum_append]
  omega

/-- The replies are explained by `order`, the files hold its log, and the files are those of a store
whose commands were run and whose snapshots are of the state they gave. -/
structure Together (env : Env m) (S₀ : Server κ n m) (A₀ : Fin n → ADB) (start : Node)
    (s : Durable κ n m) (order : List (Request κ)) : Prop where
  serial : Serial env S₀ s.system order
  log : Records (s.system.log.map Prod.snd) s.node.appended
  gen : s.system.gen = s.node.store.gen
  coupled : Coupled s.system.compactor s.node.phase
  files : ∃ events, Run (FileStep (logSemantics n env) A₀) start events s.node

/-- A file effect that no step in memory goes with. -/
theorem FileStep.uncalled {A : Type} {M : Semantics A} {a₀ : A} {u u' : Node} {e : FileEvent}
    (h : FileStep M a₀ u e u') (hcalled : e.called = false) :
    u'.appended = u.appended ∧ u'.store.gen = u.store.gen ∧
      ∀ comp : Compactor n m, Coupled comp u.phase → Coupled comp u'.phase := by
  cases h with
  | append | nextGen | capture | openNext => cases hcalled
  | spill | sync | writeTmp => exact ⟨rfl, rfl, fun _ h => h⟩
  | close _ hphase _ | createTmp hphase | syncTmp hphase _ _ | rename hphase | lock _ hphase
  | remove hphase _ | finish hphase =>
    refine ⟨rfl, rfl, fun comp hcomp => ?_⟩
    rw [hphase] at hcomp
    cases comp <;> exact hcomp

/-- A step in memory that does not call the store. -/
theorem SysStep.uncalled {env : Env m} {s t : System κ n m} {a : Action κ} (h : SysStep env s a t)
    (hcalls : a.calls = false) :
    t.log = s.log ∧ t.gen = s.gen ∧ ∀ phase, Coupled s.compactor phase → Coupled t.compactor phase := by
  cases h with
  | append | nextGen | serialize | rotate => cases hcalls
  | reject | start | acquire | run | release | finish => exact ⟨rfl, rfl, fun _ h => h⟩
  | lock hcomp _ | unlock hcomp | done hcomp =>
    refine ⟨rfl, rfl, fun phase hphase => ?_⟩
    rw [hcomp] at hphase
    cases phase <;> exact hphase

section Steps

variable {env : Env m} {S₀ : Server κ n m} {A₀ : Fin n → ADB} {start : Node} {s : Durable κ n m}
  {order : List (Request κ)}

namespace Together

/-- An effect on a file, without a step in memory. -/
theorem file (h : Together env S₀ A₀ start s order) {e : FileEvent} {u : Node}
    (hfile : FileStep bareFiles () s.node e u) (hcalled : e.called = false) (appending : Option κ) :
    Together env S₀ A₀ start { s with node := u, appending } order := by
  obtain ⟨happended, hgen, hcoupled⟩ := hfile.uncalled (n := n) (m := m) hcalled
  obtain ⟨events, hrun⟩ := h.files
  have hmeans : e.Means (logSemantics n env) A₀ s.node := by
    cases e <;> trivial
  refine ⟨h.serial, ?_, ?_, hcoupled _ h.coupled, _, hrun.snoc (hfile.of_bare hmeans)⟩
  · show Records _ u.appended
    rw [happended]
    exact h.log
  · show s.system.gen = u.store.gen
    rw [hgen]
    exact h.gen

/-- A step in memory, without an effect on a file. -/
theorem memory (h : Together env S₀ A₀ start s order) {a : Action κ} {t : System κ n m}
    (hstep : SysStep env s.system a t) (hcalls : a.calls = false) :
    ∃ rs, Together env S₀ A₀ start { s with system := t } (order ++ rs) := by
  obtain ⟨hlog, hgen, hcoupled⟩ := hstep.uncalled hcalls
  obtain ⟨rs, hserial⟩ := h.serial.step hstep
  refine ⟨rs, hserial, ?_, ?_, hcoupled _ h.coupled, h.files⟩
  · show Records (t.log.map Prod.snd) _
    rw [hlog]
    exact h.log
  · show t.gen = _
    rw [hgen]
    exact h.gen

/-- `NextGen`. -/
theorem nextGen (h : Together env S₀ A₀ start s order) {t : System κ n m} {u : Node}
    (hstep : SysStep env s.system .nextGen t) (hfile : FileStep bareFiles () s.node .nextGen u) :
    ∃ rs, Together env S₀ A₀ start { s with system := t, node := u } (order ++ rs) := by
  obtain ⟨rs, hserial⟩ := h.serial.step hstep
  obtain ⟨events, hrun⟩ := h.files
  refine ⟨rs, hserial, ?_, ?_, ?_, _, hrun.snoc (hfile.of_bare trivial)⟩
  · cases hstep
    cases hfile
    exact h.log
  · cases hstep
    cases hfile
    exact h.gen
  · cases hstep
    cases hfile
    exact congrArg (· + 1) h.gen

/-- `Rotate` opens the next segment. -/
theorem rotate (h : Together env S₀ A₀ start s order) {t : System κ n m} {u : Node}
    (hstep : SysStep env s.system .rotate t) (hfile : FileStep bareFiles () s.node .openNext u) :
    ∃ rs, Together env S₀ A₀ start { s with system := t, node := u } (order ++ rs) := by
  obtain ⟨rs, hserial⟩ := h.serial.step hstep
  obtain ⟨events, hrun⟩ := h.files
  refine ⟨rs, hserial, ?_, ?_, ?_, _, hrun.snoc (hfile.of_bare trivial)⟩
  · cases hstep
    cases hfile
    exact h.log
  · cases hstep
    cases hfile
    exact congrArg (· + 1) h.gen
  · cases hstep
    cases hfile
    exact trivial

section Meaning

variable (hn : n < 2 ^ 63) (hA₀ : Timeless A₀) (hrepr : Databases.Repr env S₀.databases A₀)
  (hempty : S₀.log = []) {k₀ : Nat}

include hn hA₀ hrepr hempty

/-- A command is appended: it was run in the state the log gives, and if the databases have just been
serialized it is one that leaves them alone. -/
theorem append (h : Together env S₀ A₀ start s order) {k : κ} {job : Job κ n m}
    {outcome : Result Reply} {c : LogCommand} {u : Node}
    (hconn : s.system.conns k = .ran job outcome)
    (hcmd : Logged.command ⟨s.system.sessions k, persistArgs job.req.logNow job.cmd job.req.args⟩
      = some c)
    (hfile : FileStep bareFiles () s.node (.append c) u) (appending : Option κ)
    (hplain : Plain m k₀ ((s.system.append k job outcome).log.map Prod.snd)) :
    ∃ rs, Together env S₀ A₀ start ⟨s.system.append k job outcome, u, appending⟩ (order ++ rs) := by
  have hstep : SysStep env s.system (.append k) (s.system.append k job outcome) := .append hconn
  obtain ⟨rs, hserial⟩ := h.serial.step hstep
  obtain ⟨events, hrun⟩ := h.files
  let l : Logged n := ⟨s.system.sessions k, persistArgs job.req.logNow job.cmd job.req.args⟩
  have hlog : (s.system.append k job outcome).log.map Prod.snd = s.system.log.map Prod.snd ++ [l] := by
    simp [System.append, l]
  have hbefore : SetsNoDeadline m (s.system.log.map Prod.snd) := by
    rw [hlog] at hplain
    exact hplain.of_append.deadlines
  have hrecords : Records (s.system.log.map Prod.snd ++ [l]) (s.node.appended ++ [c]) :=
    List.rel_append h.log (.cons hcmd .nil)
  have hstate := h.log.run_eq hn env A₀
  have hdb := Logged.command_eq_some hcmd
  -- the command was run where the log ends
  have hall := (serveAll_machine hA₀ hrepr hempty (order ++ rs)
    (by rw [hserial.linked.log]; exact hplain.deadlines)).2
  rw [hserial.linked.log, hlog, Machine.allRun_append] at hall
  have hmeans : (FileEvent.append c).Means (logSemantics n env) A₀ s.node := by
    refine ⟨⟨l.db, hdb.1, ?_⟩, fun hfrozen => ?_⟩
    · rw [hstate, hdb.2]
      exact hall.2.1
    · -- nobody has a lock, before or after
      cases hphase : s.node.phase with
      | captured base snap =>
        have hcoupled := h.coupled
        rw [hphase] at hcoupled
        obtain ⟨held, hcomp⟩ : ∃ held, s.system.compactor = .serialized base held := by
          cases hc : s.system.compactor with
          | serialized base' held =>
            rw [hc] at hcoupled
            exact ⟨held, by rw [show base' = base from hcoupled]⟩
          | idle | locking | unlocking =>
            rw [hc] at hcoupled
            exact hcoupled.elim
        have hquiet : ∀ k' job', (s.system.conns k').job = some job' → job'.held = [] := by
          intro k' job' hjob'
          have hfits := h.serial.valid.compactor
          rw [hcomp] at hfits
          exact h.serial.valid.unlocked (by rw [hcomp]; exact hfits.2) hjob'
        have hquiet' : ∀ k' job', ((s.system.append k job outcome).conns k').job = some job' →
            job'.held = [] := by
          intro k' job' hjob'
          have hfits := hserial.valid.compactor
          rw [show (s.system.append k job outcome).compactor = _ from hcomp] at hfits
          exact hserial.valid.unlocked
            (by rw [show (s.system.append k job outcome).compactor = _ from hcomp]; exact hfits.2)
            hjob'
        have hnow := (h.serial.databases_machine hA₀ hrepr hempty hquiet hbefore).1
        have hnext := (hserial.databases_machine hA₀ hrepr hempty hquiet' hplain.deadlines).1
        have hsame := Databases.Repr.unique hnext hnow
        rw [hlog, Machine.run_snoc] at hsame
        have hrun' := hrecords.run_eq hn env A₀
        rw [Machine.run_snoc, Machine.run_snoc] at hrun'
        rw [hrun', hstate]
        exact hsame
      | idle | planned | closed | rotated | writing | written | installed | removing =>
        rw [hphase] at hfrozen
        cases hfrozen
  refine ⟨rs, hserial, ?_, ?_, ?_, _, hrun.snoc (hfile.of_bare hmeans)⟩
  · cases hfile
    rw [hlog]
    exact hrecords
  · cases hfile
    exact h.gen
  · cases hfile
    exact h.coupled

/-- The databases are serialized: they are what the log gives. -/
theorem capture (h : Together env S₀ A₀ start s order) {t : System κ n m} {u : Node} {base : Nat}
    {held : List (Fin n × Fin m)} {ord : MapOrder} {ords : Nat → MapOrder} {snap : List UInt8}
    (hcomp : s.system.compactor = .locking base held [])
    (hstep : SysStep env s.system (.serialize ord) t)
    (hsnap : writeSnapshot ords (Int64.ofNat base) (emitRecords ord s.system.databases) = .ok snap)
    (hfile : FileStep bareFiles () s.node (.capture snap) u) (hsized : ∀ d, (A₀ d).Sized k₀)
    (hplain : Plain m k₀ (s.system.log.map Prod.snd)) :
    ∃ rs, Together env S₀ A₀ start { s with system := t, node := u } (order ++ rs) := by
  obtain ⟨rs, hserial⟩ := h.serial.step hstep
  obtain ⟨events, hrun⟩ := h.files
  -- the compactor holds every shard, so no request is at work
  have hquiet : ∀ k job, (s.system.conns k).job = some job → job.held = [] := by
    intro k job hjob
    have hfits := h.serial.valid.compactor
    rw [hcomp] at hfits
    exact h.serial.valid.unlocked (by rw [hcomp]; exact (List.append_nil held).symm.trans hfits.2) hjob
  have hlive := (h.serial.databases_machine hA₀ hrepr hempty hquiet hplain.deadlines).1
  -- the snapshot shows the state that the appended records make
  have hmeans : (FileEvent.capture snap).Means (logSemantics n env) A₀ s.node := by
    intro base' hphase
    have hcoupled := h.coupled
    rw [hcomp, hphase] at hcoupled
    obtain rfl : base = base' := hcoupled
    rw [h.log.run_eq hn env A₀]
    refine ⟨s.system.databases, ord, ords, hlive, fun d key e he => ?_, hsnap⟩
    exact (run_sized _ hsized d key e he).trans_lt hplain.small
  refine ⟨rs, hserial, ?_, ?_, ?_, _, hrun.snoc (hfile.of_bare hmeans)⟩
  · cases hstep
    cases hfile
    exact h.log
  · cases hstep
    cases hfile
    exact h.gen
  · have hcoupled := h.coupled
    cases hfile with
    | capture hphase =>
      rw [hphase] at hcoupled
      cases hstep with
      | serialize hcomp' =>
        rw [hcomp'] at hcoupled
        exact hcoupled

/-- **Memory and files stay together**, whatever happens next. -/
theorem step (h : Together env S₀ A₀ start s order) {e : Durable.Event κ} {t : Durable κ n m}
    (hstep : DurableStep env s e t) (hsized : ∀ d, (A₀ d).Sized k₀)
    (hplain : Plain m k₀ (t.system.log.map Prod.snd)) :
    ∃ rs, Together env S₀ A₀ start t (order ++ rs) := by
  cases hstep with
  | memory hstep hcalls hwait => exact h.memory hstep hcalls
  | file hfile hcalled => exact ⟨[], by rw [List.append_nil]; exact h.file hfile hcalled _⟩
  | append hconn hcmd hfile => exact h.append hn hA₀ hrepr hempty hconn hcmd hfile _ hplain
  | nextGen hstep hfile => exact h.nextGen hstep hfile
  | @capture t u base held ord ords snap hcomp hstep hsnap hfile =>
    have hlog : t.log = s.system.log := by
      cases hstep
      rfl
    rw [hlog] at hplain
    exact h.capture hn hA₀ hrepr hempty hcomp hstep hsnap hfile hsized hplain
  | rotate hstep hfile => exact h.rotate hstep hfile

end Meaning

end Together

end Steps

end Memcore
