import Memcore.Lib.Exclusion
import Memcore.Server.ActiveExpiry
import Memcore.Server.Concurrent
import Memcore.Server.RecoveredSettings

/-!
# The server while it runs

The goroutines of a server with what they share, in the grain in which they can get in each other's
way. A connection locks the shards of its request one by one; its handler then looks at them one by
one, in any order, works on what it has seen, and writes them one by one; the command is appended to
the log, and the locks are given back. The compaction locks every shard of every database. Active
expiry wakes up, reads the clock once, and then goes from shard to shard and locks one at a time. The
clock goes on.

What a handler has seen of the shards is what they still are, because it holds their locks
(`Live.Valid`). There is no lock for the settings: a handler loads them when it starts, and a CONFIG SET
stores them whole, as it has loaded them but for one parameter.

The clock goes on between any two steps, and a handler reads it once, when it has seen its shards
(`LiveStep.run`). `Concurrent` is the same server in a coarser grain; `Grain` has its runs among those
of this one.
-/

namespace Memcore

open Go

variable {κ : Type} {n m : Nat}

/-! ## States -/

/-- Where a connection is with its request. -/
inductive Worker (κ : Type) (n m : Nat) where
  | idle
  /-- locking the shards `todo` next -/
  | locking (job : Job κ n m) (todo : List (Fin m))
  /-- the handler has loaded the settings and looked at its shards, at those of `todo` not yet -/
  | reading (job : Job κ n m) (copy : DB m) (settings : Option Reloadable) (todo : List (Fin m))
  /-- the handler has written its shards, those of `todo` not yet -/
  | writing (job : Job κ n m) (outcome : Result Reply) (shards : DB m) (todo : List (Fin m))
  /-- a write that is not in the log yet -/
  | ran (job : Job κ n m) (outcome : Result Reply)
  /-- nothing left to do but to unlock -/
  | releasing (job : Job κ n m) (reply : Reply)

namespace Worker

/-- The request of a connection. -/
def job : Worker κ n m → Option (Job κ n m)
  | .idle => none
  | .locking job _ | .reading job _ _ _ | .writing job _ _ _ | .ran job _ | .releasing job _ => some job

/-- The shard `i` of database `d` is about to become `ks`. -/
def Writes : Worker κ n m → Fin n → Fin m → Keyspace → Prop
  | .writing job _ shards todo, d, i, ks => job.db = d ∧ i ∈ todo ∧ ks = shards i
  | _, _, _, _ => False

/-- A reply that is certain and not sent yet. -/
def reply : Worker κ n m → List (Request κ × Reply)
  | .writing job outcome _ _ | .ran job outcome => [(job.req, replyOf outcome)]
  | .releasing job reply => [(job.req, reply)]
  | .idle | .locking _ _ | .reading _ _ _ _ => []

end Worker

/-- Where active expiry is: `now` is its reading of the clock. -/
inductive Sweeper (n m : Nat) where
  | idle
  | sweeping (now : Time) (limit : Int) (todo : List (Fin n × Fin m))
  | locked (now : Time) (limit : Int) (x : Fin n × Fin m) (todo : List (Fin n × Fin m))
  | swept (now : Time) (limit : Int) (x : Fin n × Fin m) (todo : List (Fin n × Fin m))

namespace Sweeper

/-- The lock active expiry has. -/
def held : Sweeper n m → Option (Fin n × Fin m)
  | .locked _ _ x _ | .swept _ _ x _ => some x
  | .idle | .sweeping _ _ _ => none

/-- Its reading of the clock. -/
def now? : Sweeper n m → Option Time
  | .idle => none
  | .sweeping now _ _ | .locked now _ _ _ | .swept now _ _ _ => some now

end Sweeper

/-- Who can make a step. -/
inductive Actor (κ : Type) where
  | conn (k : κ)
  | compactor
  | sweeper
  | clock

/-- The server with its goroutines. -/
@[ext]
structure Live (κ : Type) (n m : Nat) where
  memory : Fin n → DB m
  settings : Option Reloadable
  sessions : κ → Fin n
  workers : κ → Worker κ n m
  /-- the log, each command with the generation of its segment -/
  log : List (Nat × Logged n)
  gen : Nat
  compactor : Compactor n m
  /-- the snapshots so far: the base generation and the records -/
  snapshots : List (Nat × List Record)
  sweeper : Sweeper n m
  clock : Time
  /-- the requests answered so far, with the replies -/
  answered : List (Request κ × Reply)

namespace Live

/-- Nothing is going on. -/
def opened (memory : Fin n → DB m) (settings : Option Reloadable) (sessions : κ → Fin n) (gen : Nat)
    (clock : Time) : Live κ n m :=
  ⟨memory, settings, sessions, fun _ => .idle, [], gen, .idle, [], .idle, clock, []⟩

/-- Nothing is going on, and nothing is stored. -/
def start (settings : Option Reloadable) (sessions : κ → Fin n) (gen : Nat) (clock : Time) :
    Live κ n m :=
  opened (fun _ _ => Keyspace.new) settings sessions gen clock

/-- Who holds the lock of which shard. -/
def Holds (l : Live κ n m) : Actor κ → Fin n × Fin m → LockMode → Prop
  | .conn k, x, mode =>
    ∃ job, (l.workers k).job = some job ∧ job.db = x.1 ∧ x.2 ∈ job.held ∧ lockMode job.cmd = mode
  | .compactor, x, mode => x ∈ l.compactor.held ∧ mode = .write
  | .sweeper, x, mode => l.sweeper.held = some x ∧ mode = .write
  | .clock, _, _ => False

/-- The lock of a shard can be taken. -/
def Free (l : Live κ n m) (who : Actor κ) (x : Fin n × Fin m) (mode : LockMode) : Prop :=
  FreeFor (· = .read) l.Holds who x mode

variable [DecidableEq κ]

/-- A connection goes on. -/
def setWorker (l : Live κ n m) (k : κ) (w : Worker κ n m) : Live κ n m :=
  { l with workers := Function.update l.workers k w }

/-- A shard has become `ks`. -/
def store (l : Live κ n m) (d : Fin n) (i : Fin m) (ks : Keyspace) : Live κ n m :=
  { l with memory := Function.update l.memory d (Function.update (l.memory d) i ks) }

/-- The handler of a request runs, on the shards it has looked at and no others. -/
def runHandler (env : Env m) (l : Live κ n m) (k : κ) (job : Job κ n m) (copy : DB m)
    (settings : Option Reloadable) : Live κ n m :=
  let res := job.cmd.run (env.at job.req.now job.req.ord) job.req.args
    ⟨fun _ => copy, settings, l.sessions k, job.req.rng⟩
  { l with
    -- only an accepted CONFIG SET stores
    settings := if (configAssign env.host job.req.args).isSome then res.2.settings else l.settings
    sessions := Function.update l.sessions k res.2.index
    workers := Function.update l.workers k
      (if lockMode job.cmd = .read then .releasing job (replyOf res.1)
      else .writing job res.1 (res.2.databases job.db) job.held) }

end Live

/-! ## Steps -/

variable [DecidableEq κ]

/-- One step of one goroutine, or of the clock. -/
inductive LiveStep (env : Env m) : Live κ n m → Actor κ → Live κ n m → Prop where
  | reject {l : Live κ n m} {r : Request κ} {reply : Reply} (hidle : l.workers r.conn = .idle)
      (hres : (resolve r.args : Except Reply (Command n m)) = .error reply) :
      LiveStep env l (.conn r.conn) { l with answered := l.answered ++ [(r, reply)] }
  | start {l : Live κ n m} {r : Request κ} {cmd : Command n m} {shards : List (Fin m)}
      (hidle : l.workers r.conn = .idle) (hres : resolve r.args = .ok cmd)
      (hshards : lockShards env.route cmd r.args = .ok shards) :
      LiveStep env l (.conn r.conn)
        (l.setWorker r.conn (.locking ⟨r, cmd, l.sessions r.conn, []⟩ shards))
  | acquire {l : Live κ n m} {k : κ} {job : Job κ n m} {i : Fin m} {todo : List (Fin m)}
      (hw : l.workers k = .locking job (i :: todo))
      (hfree : l.Free (.conn k) (job.db, i) (lockMode job.cmd)) :
      LiveStep env l (.conn k) (l.setWorker k (.locking { job with held := job.held ++ [i] } todo))
  | enter {l : Live κ n m} {k : κ} {job : Job κ n m} (hw : l.workers k = .locking job [])
      (copy : DB m) : LiveStep env l (.conn k) (l.setWorker k (.reading job copy l.settings job.held))
  | look {l : Live κ n m} {k : κ} {job : Job κ n m} {copy : DB m} {settings : Option Reloadable}
      {todo : List (Fin m)} {i : Fin m} (hw : l.workers k = .reading job copy settings todo)
      (hi : i ∈ todo) :
      LiveStep env l (.conn k) (l.setWorker k
        (.reading job (Function.update copy i (l.memory job.db i)) settings (todo.erase i)))
  | run {l : Live κ n m} {k : κ} {job : Job κ n m} {copy : DB m} {settings : Option Reloadable}
      (hw : l.workers k = .reading job copy settings []) (hnow : job.req.now = l.clock) :
      LiveStep env l (.conn k) (l.runHandler env k job copy settings)
  | write {l : Live κ n m} {k : κ} {job : Job κ n m} {outcome : Result Reply} {shards : DB m}
      {todo : List (Fin m)} {i : Fin m} (hw : l.workers k = .writing job outcome shards todo)
      (hi : i ∈ todo) :
      LiveStep env l (.conn k)
        ((l.setWorker k (.writing job outcome shards (todo.erase i))).store job.db i (shards i))
  | wrote {l : Live κ n m} {k : κ} {job : Job κ n m} {outcome : Result Reply} {shards : DB m}
      (hw : l.workers k = .writing job outcome shards []) :
      LiveStep env l (.conn k) (l.setWorker k
        (if isLogged job.cmd outcome then .ran job outcome else .releasing job (replyOf outcome)))
  | append {l : Live κ n m} {k : κ} {job : Job κ n m} {outcome : Result Reply}
      (hw : l.workers k = .ran job outcome) :
      LiveStep env l (.conn k)
        { l.setWorker k (.releasing job (replyOf outcome)) with
          log := l.log
            ++ [(l.gen, ⟨l.sessions k, persistArgs job.req.logNow job.cmd job.req.args⟩)] }
  | release {l : Live κ n m} {k : κ} {job : Job κ n m} {reply : Reply} {held : List (Fin m)}
      {i : Fin m} (hw : l.workers k = .releasing job reply) (hheld : job.held = held ++ [i]) :
      LiveStep env l (.conn k) (l.setWorker k (.releasing { job with held } reply))
  | finish {l : Live κ n m} {k : κ} {job : Job κ n m} {reply : Reply}
      (hw : l.workers k = .releasing job reply) (hheld : job.held = []) :
      LiveStep env l (.conn k)
        { l.setWorker k .idle with answered := l.answered ++ [(job.req, reply)] }
  | nextGen {l : Live κ n m} (hidle : l.compactor = .idle) :
      LiveStep env l .compactor { l with compactor := .locking (l.gen + 1) [] (allShards n m) }
  | lock {l : Live κ n m} {base : Nat} {held todo : List (Fin n × Fin m)} {x : Fin n × Fin m}
      (hcomp : l.compactor = .locking base held (x :: todo)) (hfree : l.Free .compactor x .write) :
      LiveStep env l .compactor { l with compactor := .locking base (held ++ [x]) todo }
  | serialize {l : Live κ n m} {base : Nat} {held : List (Fin n × Fin m)} (ord : MapOrder)
      (hcomp : l.compactor = .locking base held []) :
      LiveStep env l .compactor
        { l with
          compactor := .serialized base held
          snapshots := l.snapshots ++ [(base, emitRecords ord l.memory)] }
  | rotate {l : Live κ n m} {base : Nat} {held : List (Fin n × Fin m)}
      (hcomp : l.compactor = .serialized base held) :
      LiveStep env l .compactor { l with gen := l.gen + 1, compactor := .unlocking held }
  | unlock {l : Live κ n m} {held : List (Fin n × Fin m)} {x : Fin n × Fin m}
      (hcomp : l.compactor = .unlocking (held ++ [x])) :
      LiveStep env l .compactor { l with compactor := .unlocking held }
  | done {l : Live κ n m} (hcomp : l.compactor = .unlocking []) :
      LiveStep env l .compactor { l with compactor := .idle }
  | wake {l : Live κ n m} {r : Reloadable} (hidle : l.sweeper = .idle)
      (hsettings : l.settings = some r) (hpos : 0 < r.expirySample) :
      LiveStep env l .sweeper
        { l with sweeper := .sweeping l.clock r.expirySample (allShards n m) }
  | sweepLock {l : Live κ n m} {now : Time} {limit : Int} {x : Fin n × Fin m}
      {todo : List (Fin n × Fin m)} (hs : l.sweeper = .sweeping now limit (x :: todo))
      (hfree : l.Free .sweeper x .write) :
      LiveStep env l .sweeper { l with sweeper := .locked now limit x todo }
  | sample {l : Live κ n m} {now : Time} {limit : Int} {x : Fin n × Fin m}
      {todo : List (Fin n × Fin m)} (ord : MapOrder) (hs : l.sweeper = .locked now limit x todo) :
      LiveStep env l .sweeper
        { l.store x.1 x.2 ((l.memory x.1 x.2).sampleExpired ord now limit).2 with
          sweeper := .swept now limit x todo }
  | sweepUnlock {l : Live κ n m} {now : Time} {limit : Int} {x : Fin n × Fin m}
      {todo : List (Fin n × Fin m)} (hs : l.sweeper = .swept now limit x todo) :
      LiveStep env l .sweeper { l with sweeper := .sweeping now limit todo }
  | rest {l : Live κ n m} {now : Time} {limit : Int} (hs : l.sweeper = .sweeping now limit []) :
      LiveStep env l .sweeper { l with sweeper := .idle }
  | tick {l : Live κ n m} {t : Time} (hle : l.clock ≤ t) :
      LiveStep env l .clock { l with clock := t }

/-! ## What the locks are for -/

/-- A connection `k` with database `d` selected can be here. -/
def Worker.Fits (env : Env m) (d : Fin n) (k : κ) : Worker κ n m → Prop
  | .idle => True
  | .locking job todo => job.req.conn = k ∧ resolve job.req.args = .ok job.cmd ∧ d = job.db ∧
      lockShards env.route job.cmd job.req.args = .ok (job.held ++ todo)
  | .reading job _ _ _ => job.req.conn = k ∧ resolve job.req.args = .ok job.cmd ∧ d = job.db ∧
      lockShards env.route job.cmd job.req.args = .ok job.held
  | .writing job _ _ todo => job.req.conn = k ∧ lockMode job.cmd = .write ∧ ∀ i ∈ todo, i ∈ job.held
  | .ran job _ | .releasing job _ => job.req.conn = k

/-- The locks exclude each other, and so what a handler has seen is still there. -/
structure Live.Valid (env : Env m) (l : Live κ n m) : Prop where
  fits : ∀ k, (l.workers k).Fits env (l.sessions k) k
  exclusive : Exclusive (· = .read) l.Holds
  seen : ∀ {k job copy settings todo}, l.workers k = .reading job copy settings todo →
    settings.isSome = l.settings.isSome ∧ ∀ i ∈ job.held, i ∉ todo → copy i = l.memory job.db i
  past : ∀ now, l.sweeper.now? = some now → now ≤ l.clock

namespace Live

variable {env : Env m} {l l' : Live κ n m} {k : κ} {job : Job κ n m}

omit [DecidableEq κ] in
/-- The locks of others depend on the workers, the compaction and active expiry. -/
theorem Holds.congr {who : Actor κ} {x : Fin n × Fin m} {mode : LockMode} (hw : l'.Holds who x mode)
    (hworkers : ∀ k, who = .conn k → l'.workers k = l.workers k)
    (hcomp : who = .compactor → l'.compactor = l.compactor)
    (hsweeper : who = .sweeper → l'.sweeper = l.sweeper) : l.Holds who x mode := by
  cases who with
  | conn k =>
    obtain ⟨job, hjob, hrest⟩ := hw
    exact ⟨job, hworkers k rfl ▸ hjob, hrest⟩
  | compactor => exact ⟨hcomp rfl ▸ hw.1, hw.2⟩
  | sweeper => exact ⟨hsweeper rfl ▸ hw.1, hw.2⟩
  | clock => exact hw

omit [DecidableEq κ] in
theorem Holds.of_job (hjob : (l.workers k).job = some job) {i : Fin m} (hi : i ∈ job.held) :
    l.Holds (.conn k) (job.db, i) (lockMode job.cmd) :=
  ⟨job, hjob, rfl, hi, rfl⟩

namespace Valid

omit [DecidableEq κ] in
theorem opened (env : Env m) (memory : Fin n → DB m) (settings : Option Reloadable)
    (sessions : κ → Fin n) (gen : Nat) (clock : Time) :
    (Live.opened memory settings sessions gen clock).Valid env := by
  refine ⟨fun _ => trivial, fun {w w' x a b} _ hw _ => ?_, fun hw => ?_, fun now hnow => ?_⟩
  · cases w with
    | conn k =>
      obtain ⟨job, hjob, -⟩ := hw
      cases hjob
    | compactor => cases hw.1
    | sweeper => cases hw.1
    | clock => exact hw.elim
  · cases hw
  · cases hnow

omit [DecidableEq κ] in
/-- A shard that `who` may write is not the one another goroutine has locked. -/
theorem not_holds_of_write (h : l.Valid env) {who who' : Actor κ} {x : Fin n × Fin m}
    {mode : LockMode} (hwrite : l.Holds who x .write) (hne : who ≠ who') : ¬ l.Holds who' x mode := by
  intro hheld
  cases (h.exclusive hne hwrite hheld).1

omit [DecidableEq κ] in
/-- A step of `who`: it takes locks that are free, and writes shards it has locked. -/
theorem of_step (h : l.Valid env) (who : Actor κ)
    (hothers : ∀ w x mode, w ≠ who → l'.Holds w x mode → l.Holds w x mode)
    (hown : ∀ x mode, l'.Holds who x mode → l.Holds who x mode ∨ l.Free who x mode)
    (hfits : ∀ k, (l'.workers k).Fits env (l'.sessions k) k)
    (hsettings : l'.settings.isSome = l.settings.isSome)
    (hmemory : ∀ d i, l'.memory d i ≠ l.memory d i → l.Holds who (d, i) .write)
    (hseen : ∀ {k job copy settings todo}, l'.workers k = .reading job copy settings todo →
      (who ≠ .conn k ∧ l.workers k = .reading job copy settings todo) ∨
        settings.isSome = l.settings.isSome ∧
          ∀ i ∈ job.held, i ∉ todo → copy i = l'.memory job.db i)
    (hpast : ∀ now, l'.sweeper.now? = some now → now ≤ l'.clock) : l'.Valid env := by
  refine ⟨hfits, h.exclusive.step who hothers hown, fun {k job copy settings todo} hw => ?_, hpast⟩
  rw [hsettings]
  rcases hseen hw with ⟨hne, hw₀⟩ | hnew
  · refine ⟨(h.seen hw₀).1, fun i hi hdone => ?_⟩
    rw [(h.seen hw₀).2 i hi hdone]
    by_contra hchanged
    exact h.not_holds_of_write (hmemory _ _ (Ne.symm hchanged)) hne
      (Holds.of_job (by rw [hw₀]; rfl) hi)
  · exact hnew

/-- A step of a connection. -/
theorem work (h : l.Valid env) {w : Worker κ n m}
    (hworkers : l'.workers = Function.update l.workers k w) (hcomp : l'.compactor = l.compactor)
    (hsweeper : l'.sweeper = l.sweeper) (hclock : l'.clock = l.clock)
    (hsessions : ∀ k' ≠ k, l'.sessions k' = l.sessions k')
    (hsettings : l'.settings.isSome = l.settings.isSome) (hfits : w.Fits env (l'.sessions k) k)
    (hheld : ∀ job, w.job = some job → ∀ i ∈ job.held,
      l.Holds (.conn k) (job.db, i) (lockMode job.cmd) ∨
        l.Free (.conn k) (job.db, i) (lockMode job.cmd))
    (hmemory : ∀ d i, l'.memory d i ≠ l.memory d i → l.Holds (.conn k) (d, i) .write)
    (hseen : ∀ {job copy settings todo}, w = .reading job copy settings todo →
      settings.isSome = l.settings.isSome ∧
        ∀ i ∈ job.held, i ∉ todo → copy i = l'.memory job.db i) : l'.Valid env := by
  have hold {k' : κ} (hk : k' ≠ k) : l'.workers k' = l.workers k' := by
    rw [hworkers, Function.update_of_ne hk]
  have hnew : l'.workers k = w := by rw [hworkers, Function.update_self]
  refine h.of_step (.conn k) (fun who x mode hne hw => ?_) (fun x mode hw => ?_) (fun k' => ?_)
    hsettings hmemory (fun {k' job copy settings todo} hw => ?_) ?_
  -- what the others hold is as before; what this one holds it held, or it was free
  · exact hw.congr (fun k' hk' => hold fun hk => hne (hk' ▸ hk ▸ rfl)) (fun _ => hcomp)
      fun _ => hsweeper
  · obtain ⟨job, hjob, hdb, hi, rfl⟩ := hw
    rw [hnew] at hjob
    obtain ⟨d, i⟩ := x
    obtain rfl : job.db = d := hdb
    exact hheld job hjob i hi
  · by_cases hk : k' = k
    · subst hk
      rwa [hnew]
    · rw [hold hk, hsessions k' hk]
      exact h.fits k'
  · by_cases hk : k' = k
    · subst hk
      rw [hnew] at hw
      exact .inr (hseen hw)
    · rw [hold hk] at hw
      exact .inl ⟨fun heq => hk (Actor.conn.inj heq).symm, hw⟩
  · rw [hsweeper, hclock]
    exact h.past

/-- A step of a connection that keeps the locks it has, and writes nothing. -/
theorem proceed (h : l.Valid env) {w : Worker κ n m}
    (hworkers : l'.workers = Function.update l.workers k w) (hcomp : l'.compactor = l.compactor)
    (hsweeper : l'.sweeper = l.sweeper) (hclock : l'.clock = l.clock)
    (hsessions : ∀ k' ≠ k, l'.sessions k' = l.sessions k')
    (hsettings : l'.settings.isSome = l.settings.isSome) (hmemory : l'.memory = l.memory)
    (hfits : w.Fits env (l'.sessions k) k) (hjob : (l.workers k).job = some job)
    (hheld : ∀ job', w.job = some job' → job'.db = job.db ∧ job'.cmd = job.cmd ∧
      ∀ i ∈ job'.held, i ∈ job.held)
    (hseen : ∀ {job copy settings todo}, w = .reading job copy settings todo →
      settings.isSome = l.settings.isSome ∧
        ∀ i ∈ job.held, i ∉ todo → copy i = l.memory job.db i) : l'.Valid env := by
  refine h.work hworkers hcomp hsweeper hclock hsessions hsettings hfits (fun job' hjob' i hi => ?_)
    (fun d i hne => absurd (by rw [hmemory]) hne) (by rw [hmemory]; exact hseen)
  obtain ⟨hdb, hcmd, hsub⟩ := hheld job' hjob'
  rw [hdb, hcmd]
  exact .inl (Holds.of_job hjob (hsub i hi))

omit [DecidableEq κ] in
/-- A step of a goroutine in the background. -/
theorem background (h : l.Valid env) (who : Actor κ) (hwho : ∀ k, who ≠ .conn k)
    (hworkers : l'.workers = l.workers) (hsessions : l'.sessions = l.sessions)
    (hsettings : l'.settings = l.settings)
    (hothers : ∀ w x mode, w ≠ who → l'.Holds w x mode → l.Holds w x mode)
    (hown : ∀ x mode, l'.Holds who x mode → l.Holds who x mode ∨ l.Free who x mode)
    (hmemory : ∀ d i, l'.memory d i ≠ l.memory d i → l.Holds who (d, i) .write)
    (hpast : ∀ now, l'.sweeper.now? = some now → now ≤ l'.clock) : l'.Valid env := by
  refine h.of_step who hothers hown (fun k => ?_) (by rw [hsettings]) hmemory
    (fun {k job copy settings todo} hw => ?_) hpast
  · rw [hworkers, hsessions]
    exact h.fits k
  · rw [hworkers] at hw
    exact .inl ⟨hwho k, hw⟩

omit [DecidableEq κ] in
/-- A step of the compaction. -/
theorem compact (h : l.Valid env) (hworkers : l'.workers = l.workers)
    (hsessions : l'.sessions = l.sessions) (hsettings : l'.settings = l.settings)
    (hsweeper : l'.sweeper = l.sweeper) (hclock : l'.clock = l.clock) (hmemory : l'.memory = l.memory)
    (hheld : ∀ x ∈ l'.compactor.held, x ∈ l.compactor.held ∨ l.Free .compactor x .write) :
    l'.Valid env := by
  refine h.background .compactor (fun k heq => by cases heq) hworkers hsessions hsettings
    (fun who x mode hne hw => ?_)
    (fun x mode hw => ?_) (fun d i hne => absurd (by rw [hmemory]) hne) ?_
  · exact hw.congr (fun k _ => congrFun hworkers k) (fun heq => absurd heq hne) fun _ => hsweeper
  · obtain ⟨hx, rfl⟩ := hw
    exact (hheld x hx).imp_left fun hx => ⟨hx, rfl⟩
  · rw [hsweeper, hclock]
    exact h.past

omit [DecidableEq κ] in
/-- A step of active expiry. -/
theorem sweep (h : l.Valid env) (hworkers : l'.workers = l.workers)
    (hsessions : l'.sessions = l.sessions) (hsettings : l'.settings = l.settings)
    (hcomp : l'.compactor = l.compactor)
    (hheld : ∀ x, l'.sweeper.held = some x → l.sweeper.held = some x ∨ l.Free .sweeper x .write)
    (hmemory : ∀ d i, l'.memory d i ≠ l.memory d i → l.sweeper.held = some (d, i))
    (hpast : ∀ now, l'.sweeper.now? = some now → now ≤ l'.clock) : l'.Valid env := by
  refine h.background .sweeper (fun k heq => by cases heq) hworkers hsessions hsettings
    (fun who x mode hne hw => ?_)
    (fun x mode hw => ?_) (fun d i hne => ⟨hmemory d i hne, rfl⟩) hpast
  · exact hw.congr (fun k _ => congrFun hworkers k) (fun _ => hcomp) fun heq => absurd heq hne
  · obtain ⟨hx, rfl⟩ := hw
    exact (hheld x hx).imp_left fun hx => ⟨hx, rfl⟩

omit [DecidableEq κ] in
/-- A step that leaves the shards and their locks alone. -/
theorem quiet (h : l.Valid env) (hworkers : l'.workers = l.workers)
    (hsessions : l'.sessions = l.sessions) (hsettings : l'.settings = l.settings)
    (hcomp : l'.compactor = l.compactor)
    (hsweeper : l'.sweeper = l.sweeper) (hmemory : l'.memory = l.memory)
    (hclock : l.clock ≤ l'.clock) : l'.Valid env := by
  refine h.background .clock (fun k heq => by cases heq) hworkers hsessions hsettings
    (fun who x mode _ hw => ?_)
    (fun x mode hw => .inl hw) (fun d i hne => absurd (by rw [hmemory]) hne) (fun now hnow => ?_)
  · exact hw.congr (fun k _ => congrFun hworkers k) (fun _ => hcomp) fun _ => hsweeper
  · rw [hsweeper] at hnow
    exact (h.past now hnow).trans hclock

theorem acquire (h : l.Valid env) {i : Fin m} {todo : List (Fin m)}
    (hw : l.workers k = .locking job (i :: todo))
    (hfree : l.Free (.conn k) (job.db, i) (lockMode job.cmd)) :
    (l.setWorker k (.locking { job with held := job.held ++ [i] } todo)).Valid env := by
  have hfits := h.fits k
  rw [hw] at hfits
  obtain ⟨hk, hres, hdb, hshards⟩ := hfits
  have hjob : (l.workers k).job = some job := by rw [hw]; rfl
  refine h.work rfl rfl rfl rfl (fun _ _ => rfl) rfl
    ⟨hk, hres, hdb, by simpa only [List.append_assoc, List.singleton_append] using hshards⟩
    (fun job' hjob' j hj => ?_) (fun _ _ hne => absurd rfl hne) (fun hw => by cases hw)
  cases hjob'
  rcases List.mem_append.mp hj with hj | hj
  · have hheld := Holds.of_job hjob hj
    exact .inl hheld
  · rw [List.mem_singleton.mp hj]
    exact .inr hfree

/-- A handler that has looked at nothing yet. -/
theorem enter (h : l.Valid env) (hw : l.workers k = .locking job []) (copy : DB m) :
    (l.setWorker k (.reading job copy l.settings job.held)).Valid env := by
  have hfits := h.fits k
  rw [hw] at hfits
  obtain ⟨hk, hres, hdb, hshards⟩ := hfits
  rw [List.append_nil] at hshards
  refine h.proceed rfl rfl rfl rfl (fun _ _ => rfl) rfl rfl ⟨hk, hres, hdb, hshards⟩
    (by rw [hw]; rfl) (fun job' hjob' => ?_) (fun hw' => ?_)
  · cases hjob'
    exact ⟨rfl, rfl, fun _ hi => hi⟩
  · cases hw'
    exact ⟨rfl, fun i hi hdone => absurd hi hdone⟩

/-- What a handler sees of one more shard is what is there. -/
theorem look (h : l.Valid env) {copy : DB m} {settings : Option Reloadable} {todo : List (Fin m)}
    {i : Fin m} (hw : l.workers k = .reading job copy settings todo) :
    (l.setWorker k (.reading job (Function.update copy i (l.memory job.db i)) settings
      (todo.erase i))).Valid env := by
  have hfits := h.fits k
  rw [hw] at hfits
  refine h.proceed rfl rfl rfl rfl (fun _ _ => rfl) rfl rfl hfits (by rw [hw]; rfl)
    (fun job' hjob' => ?_) (fun hw' => ?_)
  · cases hjob'
    exact ⟨rfl, rfl, fun _ hi => hi⟩
  · cases hw'
    refine ⟨(h.seen hw).1, fun j hj hdone => ?_⟩
    by_cases hji : j = i
    · rw [hji, Function.update_self]
    · rw [Function.update_of_ne hji]
      exact (h.seen hw).2 j hj fun htodo => hdone ((List.mem_erase_of_ne hji).mpr htodo)

/-- A handler runs: it has no more locks than before, and those for writing if it writes. -/
theorem run (h : l.Valid env) {copy : DB m} {settings : Option Reloadable}
    (hw : l.workers k = .reading job copy settings []) :
    (l.runHandler env k job copy settings).Valid env := by
  have hfits := h.fits k
  rw [hw] at hfits
  obtain ⟨hcmd, hacc, -⟩ := resolve_ok hfits.2.1
  obtain ⟨_, -, hconfined, -⟩ := run_confined (env.at job.req.now job.req.ord) hcmd hacc
  refine h.proceed rfl rfl rfl rfl (fun k' hk => Function.update_of_ne hk _ _) ?_ rfl ?_
    (by rw [hw]; rfl) (fun job' hjob' => ?_) (fun hw' => ?_)
  · simp only [Live.runHandler]
    split
    · exact (hconfined.settings _).trans (h.seen hw).1
    · rfl
  · split
    · exact hfits.1
    · next hmode => exact ⟨hfits.1, by cases hm : lockMode job.cmd <;> simp_all, fun _ hi => hi⟩
  · split at hjob' <;> cases hjob' <;> exact ⟨rfl, rfl, fun _ hi => hi⟩
  · split at hw' <;> cases hw'

/-- A handler writes a shard, which it has locked. -/
theorem write (h : l.Valid env) {outcome : Result Reply} {shards : DB m} {todo : List (Fin m)}
    {i : Fin m} (hw : l.workers k = .writing job outcome shards todo) (hi : i ∈ todo) :
    ((l.setWorker k (.writing job outcome shards (todo.erase i))).store job.db i
      (shards i)).Valid env := by
  have hfits := h.fits k
  rw [hw] at hfits
  obtain ⟨hk, hmode, htodo⟩ := hfits
  have hjob : (l.workers k).job = some job := by rw [hw]; rfl
  refine h.work rfl rfl rfl rfl (fun _ _ => rfl) rfl
    ⟨hk, hmode, fun j hj => htodo j (List.mem_of_mem_erase hj)⟩ (fun job' hjob' j hj => ?_)
    (fun d j hne => ?_) (fun hw => by cases hw)
  · cases hjob'
    exact .inl (Holds.of_job hjob hj)
  · obtain ⟨rfl, rfl⟩ : d = job.db ∧ j = i := by
      by_contra hother
      refine hne ?_
      simp only [Live.store, Live.setWorker, Function.update_apply]
      grind
    exact hmode ▸ Holds.of_job hjob (htodo j hi)

theorem conn_step (h : l.Valid env) (hstep : LiveStep env l (.conn k) l') : l'.Valid env := by
  cases hstep with
  | reject hidle hres => exact h.quiet rfl rfl rfl rfl rfl rfl le_rfl
  | start hidle hres hshards =>
    refine h.work rfl rfl rfl rfl (fun _ _ => rfl) rfl ⟨rfl, hres, rfl, hshards⟩
      (fun job hjob i hi => ?_) (fun _ _ hne => absurd rfl hne) (fun hw => by cases hw)
    cases hjob
    cases hi
  | acquire hw hfree => exact h.acquire hw hfree
  | enter hw copy => exact h.enter hw copy
  | look hw hi => exact h.look hw
  | run hw hnow => exact h.run hw
  | write hw hi => exact h.write hw hi
  | @wrote _ job outcome shards hw =>
    -- the locks stay as they are, or fewer
    have hfits := h.fits k
    rw [hw] at hfits
    refine h.proceed rfl rfl rfl rfl (fun _ _ => rfl) rfl rfl ?_ (by rw [hw]; rfl)
      (fun job' hjob' => ?_) (fun hw' => ?_)
    · split <;> exact hfits.1
    · split at hjob' <;> cases hjob' <;> exact ⟨rfl, rfl, fun _ hi => hi⟩
    · split at hw' <;> cases hw'
  | append hw =>
    have hfits := h.fits k
    rw [hw] at hfits
    refine h.proceed rfl rfl rfl rfl (fun _ _ => rfl) rfl rfl hfits (by rw [hw]; rfl)
      (fun job' hjob' => ?_) (fun hw' => by cases hw')
    cases hjob'
    exact ⟨rfl, rfl, fun _ hi => hi⟩
  | release hw hheld =>
    have hfits := h.fits k
    rw [hw] at hfits
    refine h.proceed rfl rfl rfl rfl (fun _ _ => rfl) rfl rfl hfits (by rw [hw]; rfl)
      (fun job' hjob' => ?_) (fun hw' => by cases hw')
    cases hjob'
    exact ⟨rfl, rfl, fun j hj => hheld ▸ List.mem_append_left _ hj⟩
  | finish hw hheld =>
    exact h.proceed rfl rfl rfl rfl (fun _ _ => rfl) rfl rfl trivial (by rw [hw]; rfl)
      (fun job' hjob' => by cases hjob') (fun hw' => by cases hw')

theorem compactor_step (h : l.Valid env) (hstep : LiveStep env l .compactor l') : l'.Valid env := by
  cases hstep with
  | nextGen hidle => exact h.compact rfl rfl rfl rfl rfl rfl fun x hx => by cases hx
  | lock hcomp hfree =>
    refine h.compact rfl rfl rfl rfl rfl rfl fun y hy => ?_
    rw [hcomp]
    rcases List.mem_append.mp hy with hy | hy
    · exact .inl hy
    · rw [List.mem_singleton.mp hy]
      exact .inr hfree
  | serialize ord hcomp =>
    exact h.compact rfl rfl rfl rfl rfl rfl fun y hy => .inl (by rw [hcomp]; exact hy)
  | rotate hcomp =>
    exact h.compact rfl rfl rfl rfl rfl rfl fun y hy => .inl (by rw [hcomp]; exact hy)
  | unlock hcomp =>
    exact h.compact rfl rfl rfl rfl rfl rfl fun y hy =>
      .inl (by rw [hcomp]; exact List.mem_append_left _ hy)
  | done hcomp => exact h.compact rfl rfl rfl rfl rfl rfl fun x hx => by cases hx

theorem sweeper_step (h : l.Valid env) (hstep : LiveStep env l .sweeper l') : l'.Valid env := by
  cases hstep with
  | wake hidle hsettings hpos =>
    refine h.sweep rfl rfl rfl rfl (fun x hx => by cases hx) (fun _ _ hne => absurd rfl hne)
      fun now hnow => ?_
    cases hnow
    exact le_rfl
  | sweepLock hs hfree =>
    refine h.sweep rfl rfl rfl rfl (fun x hx => ?_) (fun _ _ hne => absurd rfl hne) fun now hnow => ?_
    · cases hx
      exact .inr hfree
    · exact h.past now (by rw [hs]; exact hnow)
  | @sample now limit x todo ord hs =>
    refine h.sweep rfl rfl rfl rfl (fun y hy => .inl (by rw [hs]; exact hy)) (fun d i hne => ?_)
      fun now hnow => h.past now (by rw [hs]; exact hnow)
    rw [hs]
    by_contra hother
    refine hne ?_
    have hx : ¬ (d = x.1 ∧ i = x.2) := fun heq => hother (by rw [heq.1, heq.2]; rfl)
    simp only [Live.store, Function.update_apply]
    grind
  | sweepUnlock hs =>
    exact h.sweep rfl rfl rfl rfl (fun x hx => by cases hx) (fun _ _ hne => absurd rfl hne)
      fun now hnow => h.past now (by rw [hs]; exact hnow)
  | rest hs =>
    exact h.sweep rfl rfl rfl rfl (fun x hx => by cases hx) (fun _ _ hne => absurd rfl hne)
      fun now hnow => by cases hnow

/-- **The locks of the shards work.** Whatever the goroutines do. -/
theorem step {who : Actor κ} (h : l.Valid env) (hstep : LiveStep env l who l') : l'.Valid env := by
  cases who with
  | conn k => exact h.conn_step hstep
  | compactor => exact h.compactor_step hstep
  | sweeper => exact h.sweeper_step hstep
  | clock =>
    cases hstep with
    | tick hle => exact h.quiet rfl rfl rfl rfl rfl rfl hle

end Valid

end Live

/-! ## Busy connections -/

omit [DecidableEq κ]

/-- The request a connection is busy with. -/
def Live.serving (l : Live κ n m) (k : κ) : Option (Request κ) := (l.workers k).job.map Job.req

theorem Live.idle_of_serving (l : Live κ n m) {k : κ} (h : l.serving k = none) :
    l.workers k = .idle := by
  unfold Live.serving at h
  cases hw : l.workers k with
  | idle => rfl
  | locking | reading | writing | ran | releasing =>
    rw [hw] at h
    cases h

/-- The reply that is certain is that of the request the connection is busy with. -/
theorem Live.reply_serving (l : Live κ n m) (k : κ) :
    (l.workers k).reply = [] ∨
      ∃ r reply, l.serving k = some r ∧ (l.workers k).reply = [(r, reply)] := by
  unfold Live.serving
  cases l.workers k with
  | idle | locking | reading => exact .inl rfl
  | writing job outcome | ran job outcome => exact .inr ⟨job.req, replyOf outcome, rfl, rfl⟩
  | releasing job reply => exact .inr ⟨job.req, reply, rfl, rfl⟩

/-- A connection is busy with a request of its own. -/
theorem Live.Valid.conn_of_serving {env : Env m} {l : Live κ n m} (h : l.Valid env) {k : κ}
    {r : Request κ} (hbusy : l.serving k = some r) : r.conn = k := by
  have hfits := h.fits k
  unfold Live.serving at hbusy
  cases hw : l.workers k with
  | idle =>
    rw [hw] at hbusy
    cases hbusy
  | locking | reading | writing =>
    rw [hw] at hbusy hfits
    cases hbusy
    exact hfits.1
  | ran | releasing =>
    rw [hw] at hbusy hfits
    cases hbusy
    exact hfits

end Memcore
