import Memcore.Lib.Run
import Memcore.Server.Confined

/-!
# Connections and compaction side by side

`Server.execute` of every connection as separate steps: take the locks of the shards one by one, run
the handler, append to the log, give the locks back. Next to them the goroutine of `compact`: read the
next generation, lock every shard of every database, serialize, rotate the log, unlock. Any step of
any of them can come next; a lock is taken only when nobody else stands in the way.

What is proved here is what the locks are for: two connections share a shard only to read it, and
nobody shares one with the compaction (`Valid`).
-/

namespace Memcore

open Go Prog

variable {κ : Type} {n m : Nat}

/-! ## States -/

/-- A request being executed, with the database it runs in and the shards it has locked. -/
structure Job (κ : Type) (n m : Nat) where
  req : Request κ
  cmd : Command n m
  db : Fin n
  held : List (Fin m)

/-- Where a connection is with its request. -/
inductive Conn (κ : Type) (n m : Nat) where
  | idle
  /-- locking the shards `todo` next -/
  | locking (job : Job κ n m) (todo : List (Fin m))
  /-- a write that the handler has done and that is not in the log yet -/
  | ran (job : Job κ n m) (outcome : Result Reply)
  /-- nothing left to do but to unlock -/
  | releasing (job : Job κ n m) (reply : Reply)

/-- The request of a connection. -/
def Conn.job : Conn κ n m → Option (Job κ n m)
  | .idle => none
  | .locking job _ | .ran job _ | .releasing job _ => some job

/-- Where `compact` is. -/
inductive Compactor (n m : Nat) where
  | idle
  | locking (base : Nat) (held todo : List (Fin n × Fin m))
  | serialized (base : Nat) (held : List (Fin n × Fin m))
  | unlocking (held : List (Fin n × Fin m))

/-- The locks of the compaction. -/
def Compactor.held : Compactor n m → List (Fin n × Fin m)
  | .idle => []
  | .locking _ held _ | .serialized _ held | .unlocking held => held

/-- The shards `lockAllDatabases` locks, in its order. -/
def allShards (n m : Nat) : List (Fin n × Fin m) :=
  (List.finRange n).flatMap fun d => (List.finRange m).map fun i => (d, i)

/-- The server with its connections and its compaction. -/
structure System (κ : Type) (n m : Nat) where
  databases : Fin n → DB m
  settings : Option Reloadable
  sessions : κ → Fin n
  conns : κ → Conn κ n m
  /-- the log, each command with the generation of its segment -/
  log : List (Nat × Logged n)
  gen : Nat
  compactor : Compactor n m
  /-- the snapshots so far: the base generation and the records -/
  snapshots : List (Nat × List Record)
  /-- the requests answered so far, with the replies -/
  answered : List (Request κ × Reply)

namespace System

/-- Nothing is going on, and nothing is logged yet. -/
def start (databases : Fin n → DB m) (settings : Option Reloadable) (sessions : κ → Fin n)
    (gen : Nat) : System κ n m :=
  ⟨databases, settings, sessions, fun _ => .idle, [], gen, .idle, [], []⟩

/-- The lock of a shard can be taken in this mode. -/
def Free (s : System κ n m) (mode : LockMode) (d : Fin n) (i : Fin m) : Prop :=
  (d, i) ∉ s.compactor.held ∧
    ∀ k job, (s.conns k).job = some job → job.db = d → i ∈ job.held →
      mode = .read ∧ lockMode job.cmd = .read

/-- While nobody holds a lock, every lock is free. -/
theorem free_of_unlocked {s : System κ n m} (hcomp : s.compactor.held = [])
    (hconns : ∀ k, (s.conns k).job.elim [] Job.held = []) {mode : LockMode} {d : Fin n} {i : Fin m} :
    s.Free mode d i := by
  refine ⟨hcomp ▸ List.not_mem_nil, fun k job hjob _ hi => ?_⟩
  have hheld := hconns k
  rw [hjob] at hheld
  rw [show job.held = [] from hheld] at hi
  cases hi

variable [DecidableEq κ]

/-- A connection goes on. -/
def setConn (s : System κ n m) (k : κ) (c : Conn κ n m) : System κ n m :=
  { s with conns := Function.update s.conns k c }

/-- The context a handler runs in. -/
def context (s : System κ n m) (k : κ) (r : Request κ) : Context n m :=
  ⟨s.databases, s.settings, s.sessions k, r.rng⟩

/-- The handler of a request runs. -/
def runHandler (env : Env m) (s : System κ n m) (k : κ) (job : Job κ n m) : System κ n m :=
  let (outcome, c) := job.cmd.run (env.at job.req.now job.req.ord) job.req.args (s.context k job.req)
  { s with
    databases := c.databases
    settings := c.settings
    sessions := Function.update s.sessions k c.index
    conns := Function.update s.conns k
      (if isLogged job.cmd outcome then .ran job outcome else .releasing job (replyOf outcome)) }

/-- The command of a request goes into the active segment. -/
def append (s : System κ n m) (k : κ) (job : Job κ n m) (outcome : Result Reply) : System κ n m :=
  { s with
    log := s.log ++ [(s.gen, ⟨s.sessions k, persistArgs job.req.logNow job.cmd job.req.args⟩)]
    conns := Function.update s.conns k (.releasing job (replyOf outcome)) }

end System

/-! ## Steps -/

/-- What happens next. -/
inductive Action (κ : Type) where
  | reject (r : Request κ)
  | start (r : Request κ)
  | acquire (k : κ)
  | run (k : κ)
  | append (k : κ)
  | release (k : κ)
  | finish (k : κ)
  | nextGen
  | lock
  | serialize (ord : MapOrder)
  | rotate
  | unlock
  | done

variable [DecidableEq κ]

/-- One step of one connection or of the compaction. -/
inductive SysStep (env : Env m) : System κ n m → Action κ → System κ n m → Prop where
  | reject {s : System κ n m} {r : Request κ} {reply : Reply} (hidle : s.conns r.conn = .idle)
      (hres : (resolve r.args : Except Reply (Command n m)) = .error reply) :
      SysStep env s (.reject r) { s with answered := s.answered ++ [(r, reply)] }
  | start {s : System κ n m} {r : Request κ} {cmd : Command n m} {shards : List (Fin m)}
      (hidle : s.conns r.conn = .idle) (hres : resolve r.args = .ok cmd)
      (hshards : lockShards env.route cmd r.args = .ok shards) :
      SysStep env s (.start r)
        (s.setConn r.conn (.locking ⟨r, cmd, s.sessions r.conn, []⟩ shards))
  | acquire {s : System κ n m} {k : κ} {job : Job κ n m} {i : Fin m} {todo : List (Fin m)}
      (hconn : s.conns k = .locking job (i :: todo)) (hfree : s.Free (lockMode job.cmd) job.db i) :
      SysStep env s (.acquire k)
        (s.setConn k (.locking { job with held := job.held ++ [i] } todo))
  | run {s : System κ n m} {k : κ} {job : Job κ n m} (hconn : s.conns k = .locking job []) :
      SysStep env s (.run k) (s.runHandler env k job)
  | append {s : System κ n m} {k : κ} {job : Job κ n m} {outcome : Result Reply}
      (hconn : s.conns k = .ran job outcome) :
      SysStep env s (.append k) (s.append k job outcome)
  | release {s : System κ n m} {k : κ} {job : Job κ n m} {reply : Reply} {held : List (Fin m)}
      {i : Fin m} (hconn : s.conns k = .releasing job reply) (hheld : job.held = held ++ [i]) :
      SysStep env s (.release k) (s.setConn k (.releasing { job with held } reply))
  | finish {s : System κ n m} {k : κ} {job : Job κ n m} {reply : Reply}
      (hconn : s.conns k = .releasing job reply) (hheld : job.held = []) :
      SysStep env s (.finish k)
        { s.setConn k .idle with answered := s.answered ++ [(job.req, reply)] }
  | nextGen {s : System κ n m} (hidle : s.compactor = .idle) :
      SysStep env s .nextGen { s with compactor := .locking (s.gen + 1) [] (allShards n m) }
  | lock {s : System κ n m} {base : Nat} {held todo : List (Fin n × Fin m)} {x : Fin n × Fin m}
      (hcomp : s.compactor = .locking base held (x :: todo)) (hfree : s.Free .write x.1 x.2) :
      SysStep env s .lock { s with compactor := .locking base (held ++ [x]) todo }
  | serialize {s : System κ n m} {base : Nat} {held : List (Fin n × Fin m)} {ord : MapOrder}
      (hcomp : s.compactor = .locking base held []) :
      SysStep env s (.serialize ord)
        { s with
          compactor := .serialized base held
          snapshots := s.snapshots ++ [(base, emitRecords ord s.databases)] }
  | rotate {s : System κ n m} {base : Nat} {held : List (Fin n × Fin m)}
      (hcomp : s.compactor = .serialized base held) :
      SysStep env s .rotate { s with gen := s.gen + 1, compactor := .unlocking held }
  | unlock {s : System κ n m} {held : List (Fin n × Fin m)} {x : Fin n × Fin m}
      (hcomp : s.compactor = .unlocking (held ++ [x])) :
      SysStep env s .unlock { s with compactor := .unlocking held }
  | done {s : System κ n m} (hcomp : s.compactor = .unlocking []) :
      SysStep env s .done { s with compactor := .idle }

/-! ## What the locks exclude -/

/-- A connection `k` with database `d` selected can be here. -/
def Conn.Fits (env : Env m) (d : Fin n) (k : κ) : Conn κ n m → Prop
  | .idle => True
  | .locking job todo => job.req.conn = k ∧ resolve job.req.args = .ok job.cmd ∧ d = job.db ∧
      lockShards env.route job.cmd job.req.args = .ok (job.held ++ todo)
  | .ran job outcome => job.req.conn = k ∧ resolve job.req.args = .ok job.cmd ∧
      lockShards env.route job.cmd job.req.args = .ok job.held ∧ isLogged job.cmd outcome = true
  | .releasing job _ => job.req.conn = k

/-- A compaction can be here while the active generation is `gen`. -/
def Compactor.Fits (gen : Nat) : Compactor n m → Prop
  | .locking base held todo => base = gen + 1 ∧ held ++ todo = allShards n m
  | .serialized base held => base = gen + 1 ∧ held = allShards n m
  | .idle | .unlocking _ => True

/-- Two connections hold the lock of one shard only to read, and none holds one of the
compaction's. -/
structure Valid (env : Env m) (s : System κ n m) : Prop where
  fits : ∀ k, (s.conns k).Fits env (s.sessions k) k
  exclusive : ∀ k k' job job' i, k ≠ k' → (s.conns k).job = some job →
    (s.conns k').job = some job' → job.db = job'.db → i ∈ job.held → i ∈ job'.held →
    lockMode job.cmd = .read ∧ lockMode job'.cmd = .read
  compacting : ∀ k job i, (s.conns k).job = some job → i ∈ job.held →
    (job.db, i) ∉ s.compactor.held
  compactor : s.compactor.Fits s.gen

namespace Valid

variable {env : Env m} {s s' : System κ n m} {k : κ}

/-- A connection goes on, with locks it had or that were free. -/
theorem move (h : Valid env s) {c : Conn κ n m} (hconns : s'.conns = Function.update s.conns k c)
    (hcomp : s'.compactor = s.compactor) (hgen : s'.gen = s.gen)
    (hsessions : ∀ k' ≠ k, s'.sessions k' = s.sessions k') (hfits : c.Fits env (s'.sessions k) k)
    (hheld : ∀ job, c.job = some job → ∀ i ∈ job.held, s.Free (lockMode job.cmd) job.db i ∨
      ∃ job', (s.conns k).job = some job' ∧ job'.db = job.db ∧
        lockMode job'.cmd = lockMode job.cmd ∧ i ∈ job'.held) : Valid env s' := by
  have hold {k' : κ} (hk : k' ≠ k) : s'.conns k' = s.conns k' := by
    rw [hconns, Function.update_of_ne hk]
  have hnew : s'.conns k = c := by rw [hconns, Function.update_self]
  -- the lock of `k` against the lock of another connection
  have hother : ∀ k' job job' i, k' ≠ k → c.job = some job → (s.conns k').job = some job' →
      job.db = job'.db → i ∈ job.held → i ∈ job'.held →
      lockMode job.cmd = .read ∧ lockMode job'.cmd = .read := by
    intro k' job job' i hk hjob hjob' hdb hi hi'
    rcases hheld job hjob i hi with hfree | ⟨job₀, hjob₀, hdb₀, hmode, hi₀⟩
    · exact hfree.2 k' job' hjob' hdb.symm hi'
    · rw [← hmode]
      exact h.exclusive k k' job₀ job' i hk.symm hjob₀ hjob' (hdb₀.trans hdb) hi₀ hi'
  refine ⟨fun k' => ?_, ?_, ?_, ?_⟩
  · by_cases hk : k' = k
    · subst hk
      rwa [hnew]
    · rw [hold hk, hsessions k' hk]
      exact h.fits k'
  · intro k₁ k₂ job job' i hne hjob hjob' hdb hi hi'
    by_cases h₁ : k₁ = k
    · subst h₁
      rw [hnew] at hjob
      rw [hold hne.symm] at hjob'
      exact hother k₂ job job' i hne.symm hjob hjob' hdb hi hi'
    · rw [hold h₁] at hjob
      by_cases h₂ : k₂ = k
      · subst h₂
        rw [hnew] at hjob'
        exact (hother k₁ job' job i h₁ hjob' hjob hdb.symm hi' hi).symm
      · rw [hold h₂] at hjob'
        exact h.exclusive k₁ k₂ job job' i hne hjob hjob' hdb hi hi'
  · intro k' job i hjob hi
    rw [hcomp]
    by_cases hk : k' = k
    · subst hk
      rw [hnew] at hjob
      rcases hheld job hjob i hi with hfree | ⟨job₀, hjob₀, hdb₀, -, hi₀⟩
      · exact hfree.1
      · rw [← hdb₀]
        exact h.compacting k' job₀ i hjob₀ hi₀
    · rw [hold hk] at hjob
      exact h.compacting k' job i hjob hi
  · rw [hcomp, hgen]
    exact h.compactor

omit [DecidableEq κ] in
/-- The compaction goes on, with locks it had or that were free. -/
theorem compact (h : Valid env s) (hconns : s'.conns = s.conns)
    (hsessions : s'.sessions = s.sessions) (hfits : s'.compactor.Fits s'.gen)
    (hheld : ∀ x ∈ s'.compactor.held, x ∈ s.compactor.held ∨ s.Free .write x.1 x.2) :
    Valid env s' := by
  refine ⟨fun k => ?_, ?_, ?_, hfits⟩
  · rw [hconns, hsessions]
    exact h.fits k
  · rw [hconns]
    exact h.exclusive
  · intro k job i hjob hi hmem
    rw [hconns] at hjob
    rcases hheld _ hmem with hold | hfree
    · exact h.compacting k job i hjob hi hold
    · cases (hfree.2 k job hjob rfl hi).1

omit [DecidableEq κ] in
theorem start (env : Env m) (databases : Fin n → DB m) (settings : Option Reloadable)
    (sessions : κ → Fin n) (gen : Nat) :
    Valid env (System.start databases settings sessions gen) := by
  refine ⟨fun _ => trivial, ?_, ?_, trivial⟩
  · intro k k' job job' i hne hjob
    cases hjob
  · intro k job i hjob
    cases hjob

/-- **Every step keeps the locks exclusive.** -/
theorem step (h : Valid env s) {a : Action κ} (hstep : SysStep env s a s') : Valid env s' := by
  cases hstep with
  | reject => exact ⟨h.fits, h.exclusive, h.compacting, h.compactor⟩
  | start hidle hres hshards =>
    refine h.move rfl rfl rfl (fun _ _ => rfl) ⟨rfl, hres, rfl, hshards⟩ fun job hjob i hi => ?_
    cases hjob
    cases hi
  | @acquire k job i todo hconn hfree =>
    have hfits := h.fits k
    rw [hconn] at hfits
    obtain ⟨hreq, hres, hdb, hshards⟩ := hfits
    refine h.move rfl rfl rfl (fun _ _ => rfl) ⟨hreq, hres, hdb, ?_⟩ fun job' hjob i' hi => ?_
    · simpa using hshards
    · cases hjob
      -- a shard it held before, or the one it takes now
      rcases List.mem_append.mp hi with hi | hi
      · exact .inr ⟨job, by rw [hconn]; rfl, rfl, rfl, hi⟩
      · rw [List.mem_singleton.mp hi]
        exact .inl hfree
  | @run k job hconn =>
    have hfits := h.fits k
    rw [hconn] at hfits
    obtain ⟨hreq, hres, -, hshards⟩ := hfits
    rw [List.append_nil] at hshards
    refine h.move rfl rfl rfl (fun k' hk => Function.update_of_ne hk _ _) ?_
      fun job' hjob i hi => .inr ⟨job, by rw [hconn]; rfl, ?_⟩
    · split
      next hlog => exact ⟨hreq, hres, hshards, hlog⟩
      next => exact hreq
    -- the handler runs with the locks it has, whether the request is logged or not
    · have hsame : job = job' := by
        split at hjob <;> exact Option.some.inj hjob
      subst hsame
      exact ⟨rfl, rfl, hi⟩
  | @append k job outcome hconn =>
    have hfits := h.fits k
    rw [hconn] at hfits
    refine h.move rfl rfl rfl (fun _ _ => rfl) hfits.1 fun job' hjob i hi =>
      .inr ⟨job, by rw [hconn]; rfl, ?_⟩
    cases hjob
    exact ⟨rfl, rfl, hi⟩
  | @release k job reply held i hconn hheld =>
    have hfits := h.fits k
    rw [hconn] at hfits
    refine h.move rfl rfl rfl (fun _ _ => rfl) hfits fun job' hjob i' hi =>
      .inr ⟨job, by rw [hconn]; rfl, ?_⟩
    cases hjob
    exact ⟨rfl, rfl, hheld ▸ List.mem_append_left _ hi⟩
  | finish hconn hheld =>
    refine h.move rfl rfl rfl (fun _ _ => rfl) trivial fun job' hjob => ?_
    cases hjob
  | nextGen hidle => exact h.compact rfl rfl ⟨rfl, rfl⟩ fun x hx => by cases hx
  | @lock base held todo x hcomp hfree =>
    have hfits := h.compactor
    rw [hcomp] at hfits
    refine h.compact rfl rfl ⟨hfits.1, by simpa using hfits.2⟩ fun y hy => ?_
    rcases List.mem_append.mp hy with hy | hy
    · exact .inl (by rw [hcomp]; exact hy)
    · rw [List.mem_singleton.mp hy]
      exact .inr hfree
  | serialize hcomp =>
    have hfits := h.compactor
    rw [hcomp] at hfits
    exact h.compact rfl rfl ⟨hfits.1, by simpa using hfits.2⟩ fun y hy =>
      .inl (by rw [hcomp]; exact hy)
  | rotate hcomp => exact h.compact rfl rfl trivial fun y hy => .inl (by rw [hcomp]; exact hy)
  | unlock hcomp =>
    exact h.compact rfl rfl trivial fun y hy => .inl (by
      rw [hcomp]
      exact List.mem_append_left _ hy)
  | done hcomp => exact h.compact rfl rfl trivial fun y hy => by cases hy

end Valid

end Memcore
