import Mathlib.Data.Finset.Piecewise
import Memcore.Server.Linearizable

/-!
# Two grains of one server

In `Concurrent` a handler runs in one step. In `Live` it looks at its shards one by one and writes them
one by one, and the others go on meanwhile. The first is the second with nobody in between: a state of
`Concurrent` is a state of `Live` in which no handler is at work and active expiry rests (`System.live`),
and a step from one to the next is a run of `Live` (`SysStep.live`), as long as the clock does not go back
from one handler to the other. So what holds in every run of `Live` holds in these runs of `Concurrent`;
linearizability is one such thing (`System.linearizes`).
-/

namespace Memcore

open Go Prog Cmd

variable {κ : Type} {n m : Nat}

/-! ## A handler alone with its database -/

/-- CONFIG reads the settings and nothing else. -/
theorem cmdConfig_matches (env : Env m) (args : List Bytes) :
    Matches (fun c d : Context n m => c.settings = d.settings) (fun _ => False)
      (cmdConfig env args) (cmdConfig env args) := by
  unfold cmdConfig
  refine .bind (fun c d h => .inr ⟨congrArg Except.ok h, h⟩) fun settings => ?_
  cases settings with
  | none => exact .pure _
  | some r =>
    refine .bind (.lift _) fun arg1 => ?_
    split
    · split
      · exact .pure _
      · exact .bind (.lift _) fun pattern => .pure _
    · split
      · split
        · exact .pure _
        · refine .bind (.lift _) fun name => .bind (.lift _) fun val => ?_
          cases r.set env.host (env.host.toLower name) val with
          | error text => exact .pure _
          | ok r' => exact .bind (fun _ _ _ => .inr ⟨rfl, rfl⟩) fun _ => .pure _
      · exact .pure _

/-- The context of a handler that has looked at the selected database and no other. -/
def Context.alone (c : Context n m) : Context n m :=
  { c with databases := fun _ => c.databases c.index }

theorem Context.alone_similar (S : List (Fin m)) (c : Context n m) : Similar S c.alone c :=
  ⟨rfl, rfl, rfl, fun _ _ => rfl⟩

section Handler

variable {env : Env m} {job : Job κ n m}

/-- The handler of a request is what `dispatch` runs. -/
theorem Job.dispatch_eq (env : Env m) (hres : resolve job.req.args = .ok job.cmd) (c : Context n m) :
    dispatch (env.at job.req.now job.req.ord) job.req.args c = job.handler env c := by
  unfold dispatch
  rw [hres]
  rfl

/-- What a handler does to the settings. -/
theorem Job.handler_settings (env : Env m) (hres : resolve job.req.args = .ok job.cmd)
    (c : Context n m) : (job.handler env c).2.settings
      = c.settings.map (settle env.host job.req.args) := by
  cases hc : c.settings with
  | some r =>
    have hsettings := (dispatch_settings (env.at job.req.now job.req.ord) job.req.args hc).1
    rwa [Job.dispatch_eq env hres] at hsettings
  | none =>
    obtain ⟨hcmd, hacc, -⟩ := resolve_ok hres
    obtain ⟨_, -, hconfined, -⟩ := run_confined (env.at job.req.now job.req.ord) hcmd hacc
    have hsome := hconfined.settings c
    rw [hc] at hsome
    exact Option.not_isSome_iff_eq_none.mp (Bool.eq_false_iff.mp hsome)

/-- What a handler replies does not depend on the databases it has not selected. -/
theorem Job.handler_alone (hres : resolve job.req.args = .ok job.cmd)
    (hshards : lockShards env.route job.cmd job.req.args = .ok job.held) (c : Context n m) :
    (job.handler env c.alone).1 = (job.handler env c).1 := by
  cases hget : isConfigGet env.host job.req.args with
  | false => exact (Job.confined hres hshards).2 hget _ _ (c.alone_similar _)
  | true =>
    -- CONFIG GET replies with settings, and these are the same
    have hconfig : job.cmd = .plain "config" (-2) cmdConfig := by
      obtain ⟨hcmd, hacc, name, rest, hargs, hname⟩ := resolve_ok hres
      have hfold : foldName name = ascii "config" := by
        rw [isConfigGet, hargs, Bool.and_eq_true] at hget
        exact of_decide_eq_true hget.1
      have hlookup := lookupFold_config (n := n) (m := m) hfold
      rw [hargs] at hres
      simp only [resolve, hlookup] at hres
      split at hres
      · cases hres
      · exact (Except.ok.inj hres).symm
    have hmatch := cmdConfig_matches (env.at job.req.now job.req.ord) job.req.args c.alone c rfl
    rw [Job.handler, hconfig]
    rcases hmatch with ⟨_, -, hnever⟩ | hsame
    · exact hnever.elim
    · exact hsame.1

/-- What a handler does in all databases, in terms of what it does when it sees its own only. -/
theorem Job.handler_databases (hres : resolve job.req.args = .ok job.cmd)
    (hshards : lockShards env.route job.cmd job.req.args = .ok job.held) (c : Context n m) :
    (job.handler env c).2.databases = Function.update c.databases c.index
      (job.held.toFinset.piecewise ((job.handler env c.alone).2.databases c.index)
        (c.databases c.index)) := by
  obtain ⟨hconfined, -⟩ := Job.confined hres hshards
  funext d i
  by_cases hd : d = c.index
  · subst hd
    rw [Function.update_self, Finset.piecewise]
    split
    next hi => exact (hconfined.inside _ _ (c.alone_similar _) i (List.mem_toFinset.mp hi)).symm
    next hi => exact hconfined.outside c i fun hmem => hi (List.mem_toFinset.mpr hmem)
  · rw [Function.update_of_ne hd]
    exact congrFun (hconfined.others c d hd) i

/-- A handler that locks its shards for reading changes none. -/
theorem Job.handler_reads (env : Env m) (hres : resolve job.req.args = .ok job.cmd)
    (hmode : lockMode job.cmd = .read) (c : Context n m) :
    (job.handler env c).2.databases = c.databases ∧ ∀ outcome, isLogged job.cmd outcome = false := by
  have hreadOnly : job.cmd.readOnly = true := by
    cases hro : job.cmd.readOnly with
    | true => rfl
    | false => simp [lockMode, hro] at hmode
  obtain ⟨hcmd, hacc, -⟩ := resolve_ok hres
  refine ⟨(run_looks _ hcmd hreadOnly hacc c).databases, fun outcome => ?_⟩
  rw [isLogged, hreadOnly]
  rfl

end Handler

/-! ## A run of a handler, shard by shard -/

variable [DecidableEq κ]

namespace Live

variable {env : Env m} {l : Live κ n m} {k : κ} {job : Job κ n m}

/-- A handler looks at its shards one after the other, and has seen them all. -/
theorem looks (env : Env m) {settings : Option Reloadable} {todo : List (Fin m)}
    (hw : l.workers k = .reading job (l.memory job.db) settings todo) :
    ∃ as, Run (LiveStep env) l as (l.setWorker k (.reading job (l.memory job.db) settings [])) := by
  induction todo generalizing l with
  | nil =>
    have hsame : l.setWorker k (.reading job (l.memory job.db) settings []) = l := by
      rw [← hw, Live.setWorker, Function.update_eq_self]
    exact ⟨[], hsame.symm ▸ .nil l⟩
  | cons i todo ih =>
    have hlook : LiveStep env l (.conn k) _ := .look hw List.mem_cons_self
    rw [Function.update_eq_self, List.erase_cons_head] at hlook
    obtain ⟨as, hrun⟩ := ih (l := l.setWorker k (.reading job (l.memory job.db) settings todo))
      (Function.update_self _ _ _)
    have hset : (l.setWorker k (.reading job (l.memory job.db) settings todo)).setWorker k
        (.reading job (l.memory job.db) settings [])
          = l.setWorker k (.reading job (l.memory job.db) settings []) := by
      simp only [Live.setWorker, Function.update_idem]
    exact ⟨_, hset ▸ ((Run.nil l).snoc hlook).trans hrun⟩

/-- The shards of `todo` have been written. -/
def written (l : Live κ n m) (k : κ) (job : Job κ n m) (outcome : Result Reply) (shards : DB m)
    (todo : List (Fin m)) : Live κ n m :=
  { l.setWorker k (.writing job outcome shards []) with
    memory := Function.update l.memory job.db (todo.toFinset.piecewise shards (l.memory job.db)) }

/-- A handler writes its shards one after the other. -/
theorem writes (env : Env m) {outcome : Result Reply} {shards : DB m} {todo : List (Fin m)}
    (hw : l.workers k = .writing job outcome shards todo) :
    ∃ as, Run (LiveStep env) l as (l.written k job outcome shards todo) := by
  induction todo generalizing l with
  | nil =>
    have hsame : l.written k job outcome shards [] = l := by
      have hnone : ([] : List (Fin m)).toFinset.piecewise shards (l.memory job.db)
          = l.memory job.db := Finset.piecewise_empty _ _
      simp only [written, hnone, Live.setWorker, ← hw, Function.update_eq_self]
    exact ⟨[], hsame.symm ▸ .nil l⟩
  | cons i todo ih =>
    have hwrite : LiveStep env l (.conn k) _ := .write hw List.mem_cons_self
    rw [List.erase_cons_head] at hwrite
    obtain ⟨as, hrun⟩ := ih
      (l := (l.setWorker k (.writing job outcome shards todo)).store job.db i (shards i))
      (Function.update_self _ _ _)
    have hset : ((l.setWorker k (.writing job outcome shards todo)).store job.db i
        (shards i)).written k job outcome shards todo = l.written k job outcome shards (i :: todo) := by
      have hmemory : todo.toFinset.piecewise shards (Function.update (l.memory job.db) i (shards i))
          = (i :: todo).toFinset.piecewise shards (l.memory job.db) := by
        rw [List.toFinset_cons, Finset.piecewise_insert, Finset.update_piecewise,
          Function.update_eq_self]
      simp only [written, Live.setWorker, Live.store, Function.update_idem, Function.update_self,
        hmemory]
    exact ⟨_, hset ▸ ((Run.nil l).snoc hwrite).trans hrun⟩

/-- The state after a handler that has looked at its shards has run and written them. -/
def ranAlone (env : Env m) (l : Live κ n m) (k : κ) (job : Job κ n m) : Live κ n m :=
  let res := job.handler env ⟨fun _ => l.memory job.db, l.settings, l.sessions k, job.req.rng⟩
  { l with
    memory := Function.update l.memory job.db
      (job.held.toFinset.piecewise (res.2.databases job.db) (l.memory job.db))
    settings := if (configAssign env.host job.req.args).isSome then res.2.settings else l.settings
    sessions := Function.update l.sessions k res.2.index
    workers := Function.update l.workers k
      (if isLogged job.cmd res.1 then .ran job res.1 else .releasing job (replyOf res.1)) }

/-- It runs, writes what it has to write, and leaves that state. -/
theorem run_ranAlone (env : Env m) (hres : resolve job.req.args = .ok job.cmd)
    (hw : l.workers k = .reading job (l.memory job.db) l.settings []) (hnow : job.req.now = l.clock) :
    ∃ as, Run (LiveStep env) l as (ranAlone env l k job) := by
  have hrun : LiveStep env l (.conn k) _ := .run hw hnow
  cases hmode : lockMode job.cmd with
  | read =>
    obtain ⟨hdatabases, hlogged⟩ := Job.handler_reads env hres hmode
      ⟨fun _ => l.memory job.db, l.settings, l.sessions k, job.req.rng⟩
    have hsame : ranAlone env l k job = l.runHandler env k job (l.memory job.db) l.settings := by
      refine Live.ext ?_ rfl rfl ?_ rfl rfl rfl rfl rfl rfl rfl
      · simp only [ranAlone, hdatabases, Finset.piecewise_same, Function.update_eq_self]
        rfl
      · simp only [ranAlone, runHandler, hmode, hlogged, Bool.false_eq_true, if_false, if_true]
        rfl
    exact ⟨_, hsame ▸ (Run.nil l).snoc hrun⟩
  | write =>
    obtain ⟨res, hhandler⟩ : ∃ res, job.handler env
        ⟨fun _ => l.memory job.db, l.settings, l.sessions k, job.req.rng⟩ = res := ⟨_, rfl⟩
    have hwriting : (l.runHandler env k job (l.memory job.db) l.settings).workers k
        = .writing job res.1 (res.2.databases job.db) job.held := by
      simp only [runHandler, Function.update_self, hmode, reduceCtorEq, if_false, ← hhandler]
      rfl
    obtain ⟨as, hwrites⟩ := writes env hwriting
    have hwrote := (((Run.nil l).snoc hrun).trans hwrites).snoc
      (.wrote (Function.update_self _ _ _))
    refine ⟨_, hwrote.to_eq (Live.ext ?_ rfl rfl ?_ rfl rfl rfl rfl rfl rfl rfl)⟩
    · simp only [ranAlone, hhandler]
      rfl
    · simp only [ranAlone, hhandler, written, runHandler, setWorker, Function.update_idem]

end Live

/-! ## States -/

section States

omit [DecidableEq κ]

/-- Where the connection is in the finer grain. -/
def Conn.worker : Conn κ n m → Worker κ n m
  | .idle => .idle
  | .locking job todo => .locking job todo
  | .ran job outcome => .ran job outcome
  | .releasing job reply => .releasing job reply

theorem Conn.worker_job (c : Conn κ n m) : c.worker.job = c.job := by
  cases c <;> rfl

/-- The state in the finer grain. -/
def System.live (s : System κ n m) (clock : Time) : Live κ n m where
  memory := s.databases
  settings := s.settings
  sessions := s.sessions
  workers k := (s.conns k).worker
  log := s.log
  gen := s.gen
  compactor := s.compactor
  snapshots := s.snapshots
  sweeper := .idle
  clock := clock
  answered := s.answered

/-- A lock that is free is free for anybody. -/
theorem System.Free.live {s : System κ n m} {mode : LockMode} {d : Fin n} {i : Fin m}
    (h : s.Free mode d i) (clock : Time) (who : Actor κ) : (s.live clock).Free who (d, i) mode := by
  intro who' mode' _ hholds
  cases who' with
  | conn k =>
    obtain ⟨job, hjob, hdb, hi, rfl⟩ := hholds
    exact h.2 k job ((s.conns k).worker_job ▸ hjob) hdb hi
  | compactor => exact absurd hholds.1 h.1
  | sweeper => cases hholds.1
  | clock => exact hholds.elim

end States

/-- A connection goes on. -/
theorem worker_update (conns : κ → Conn κ n m) (k : κ) (c : Conn κ n m) :
    (fun k' => (Function.update conns k c k').worker)
      = Function.update (fun k' => (conns k').worker) k c.worker := by
  funext k'
  exact Function.apply_update (fun _ => Conn.worker) conns k c k'

theorem System.live_setConn (s : System κ n m) (k : κ) (c : Conn κ n m) (clock : Time) :
    (s.setConn k c).live clock = (s.live clock).setWorker k c.worker := by
  simp only [System.live, System.setConn, Live.setWorker, worker_update]

/-! ## Steps -/

section Steps

variable {env : Env m} {s s' : System κ n m} {k : κ} {job : Job κ n m}

/-- What a handler does in one step, in terms of what it does when it sees its own database only. -/
theorem System.live_runHandler (hres : resolve job.req.args = .ok job.cmd) (hdb : s.sessions k = job.db)
    (hshards : lockShards env.route job.cmd job.req.args = .ok job.held) (clock : Time) :
    (s.runHandler env k job).live clock =
      { s.live clock with
        memory := Function.update s.databases job.db (job.held.toFinset.piecewise
          ((job.handler env (s.context k job.req).alone).2.databases job.db) (s.databases job.db))
        settings := s.settings.map (settle env.host job.req.args)
        sessions := Function.update s.sessions k (job.handler env (s.context k job.req).alone).2.index
        workers := Function.update (s.live clock).workers k
          (if isLogged job.cmd (job.handler env (s.context k job.req).alone).1 then
            .ran job (job.handler env (s.context k job.req).alone).1
          else .releasing job (replyOf (job.handler env (s.context k job.req).alone).1)) } := by
  have hindex : (s.context k job.req).index = job.db := hdb
  obtain ⟨hconfined, -⟩ := Job.confined hres hshards
  have hdatabases := Job.handler_databases hres hshards (s.context k job.req)
  rw [hindex] at hdatabases
  rw [Job.handler_alone hres hshards, hconfined.index _ _ ((s.context k job.req).alone_similar _)]
  refine Live.ext hdatabases (Job.handler_settings env hres _) rfl ?_ rfl rfl rfl rfl rfl rfl rfl
  exact (worker_update s.conns k _).trans (congrArg _ (apply_ite Conn.worker _ _ _))

/-- **A handler that nobody comes in between** does shard by shard what it does in one step. -/
theorem System.run_live (hv : Valid env s) (hconn : s.conns k = .locking job []) :
    ∃ as, Run (LiveStep env) (s.live job.req.now) as
      ((s.runHandler env k job).live job.req.now) := by
  have hfits := hv.fits k
  rw [hconn] at hfits
  obtain ⟨-, hres, hdb, hshards⟩ := hfits
  rw [List.append_nil] at hshards
  -- it loads the settings and looks
  have henter : LiveStep env (s.live job.req.now) (.conn k) _ :=
    .enter (show (s.conns k).worker = .locking job [] by rw [hconn]; rfl) (s.databases job.db)
  obtain ⟨as, hlooks⟩ := Live.looks env (l := (s.live job.req.now).setWorker k
    (.reading job (s.databases job.db) s.settings job.held)) (Function.update_self _ _ _)
  have hcontext : (⟨fun _ => s.databases job.db, s.settings, s.sessions k, job.req.rng⟩ : Context n m)
      = (s.context k job.req).alone := by
    rw [Context.alone, System.context, hdb]
  have hsettings : (if (configAssign env.host job.req.args).isSome then
      (job.handler env (s.context k job.req).alone).2.settings else s.settings)
        = s.settings.map (settle env.host job.req.args) := by
    rw [Job.handler_settings env hres]
    split
    next => rfl
    next hnone =>
      rw [Bool.not_eq_true, Option.isSome_eq_false_iff, Option.isNone_iff_eq_none] at hnone
      have hid : settle env.host job.req.args = id := by
        funext r
        rw [settle, hnone]
        rfl
      rw [hid, Option.map_id_apply]
  obtain ⟨bs, hran⟩ := Live.run_ranAlone env (l := ((s.live job.req.now).setWorker k
    (.reading job (s.databases job.db) s.settings job.held)).setWorker k
      (.reading job (s.databases job.db) s.settings [])) hres (Function.update_self _ _ _) rfl
  refine ⟨_, ((((Run.nil _).snoc henter).trans hlooks).trans hran).to_eq ?_⟩
  rw [System.live_runHandler hres hdb hshards]
  have hhandler : job.handler env
      ⟨fun _ => s.databases job.db, s.settings, s.sessions k, job.req.rng⟩
        = job.handler env (s.context k job.req).alone := congrArg _ hcontext
  simp only [Live.ranAlone, Live.setWorker, System.live, hhandler, hsettings, Function.update_idem]

/-- **A step is a run of the finer grain**, the clock going on before it. -/
theorem SysStep.live {a : Action κ} (hv : Valid env s) (hstep : SysStep env s a s') {t t' : Time}
    (hle : t ≤ t')
    (hnow : ∀ k job, a = .run k → s.conns k = .locking job [] → job.req.now = t') :
    ∃ as, Run (LiveStep env) (s.live t) as (s'.live t') := by
  have htick : Run (LiveStep env) (s.live t) _ (s.live t') := (Run.nil _).snoc (.tick hle)
  have hone {who : Actor κ} {l l' : Live κ n m} (h : LiveStep env (s.live t') who l) (heq : l' = l) :
      ∃ as, Run (LiveStep env) (s.live t) as l' := ⟨_, (htick.snoc h).to_eq heq.symm⟩
  have hworker {k : κ} {c : Conn κ n m} (hconn : s.conns k = c) :
      (s.live t').workers k = c.worker := congrArg Conn.worker hconn
  cases hstep with
  | @reject r reply hidle hres => exact hone (.reject (r := r) (hworker hidle) hres) rfl
  | @start r cmd shards hidle hres hshards =>
    exact hone (.start (r := r) (hworker hidle) hres hshards) (System.live_setConn s _ _ _)
  | acquire hconn hfree =>
    exact hone (.acquire (hworker hconn) (hfree.live _ _)) (System.live_setConn s _ _ _)
  | @run k job hconn =>
    obtain rfl := hnow k job rfl hconn
    obtain ⟨as, hrun⟩ := System.run_live hv hconn
    exact ⟨_, htick.trans hrun⟩
  | @append k job outcome hconn =>
    refine hone (.append (hworker hconn)) (Live.ext rfl rfl rfl ?_ rfl rfl rfl rfl rfl rfl rfl)
    exact worker_update s.conns k (.releasing job (replyOf outcome))
  | release hconn hheld =>
    exact hone (.release (hworker hconn) hheld) (System.live_setConn s _ _ _)
  | @finish k job reply hconn hheld =>
    refine hone (.finish (hworker hconn) hheld) (Live.ext rfl rfl rfl ?_ rfl rfl rfl rfl rfl rfl rfl)
    exact worker_update s.conns k .idle
  | nextGen hidle => exact hone (.nextGen hidle) rfl
  | lock hcomp hfree => exact hone (.lock hcomp (hfree.live _ _)) rfl
  | @serialize base held ord hcomp => exact hone (.serialize ord hcomp) rfl
  | rotate hcomp => exact hone (.rotate hcomp) rfl
  | unlock hcomp => exact hone (.unlock hcomp) rfl
  | done hcomp => exact hone (.done hcomp) rfl

end Steps

/-! ## Runs -/

/-- A step and the clock, which the handlers read and which does not go back. -/
def SysStep.At (env : Env m) (x : System κ n m × Time) (a : Action κ) (y : System κ n m × Time) :
    Prop :=
  SysStep env x.1 a y.1 ∧ x.2 ≤ y.2 ∧
    ∀ k job, a = .run k → x.1.conns k = .locking job [] → job.req.now = y.2

/-- **Runs of the coarse grain are runs of the fine one.** -/
theorem System.simulated {env : Env m} {s s' : System κ n m} {t t' : Time} {as : List (Action κ)}
    (hv : Valid env s) (h : Run (SysStep.At env) (s, t) as (s', t')) :
    ∃ bs, Run (LiveStep env) (s.live t) bs (s'.live t') := by
  refine (h.invariant (fun x => Valid env x.1 ∧ ∃ bs, Run (LiveStep env) (s.live t) bs (x.1.live x.2))
    ⟨hv, [], .nil _⟩ fun {x a y} hx hstep => ?_).2
  obtain ⟨hvalid, bs, hrun⟩ := hx
  obtain ⟨cs, hmore⟩ := hstep.1.live hvalid hstep.2.1 hstep.2.2
  exact ⟨hvalid.step hstep.1, _, hrun.trans hmore⟩

/-- They are linearizable, therefore. -/
theorem System.linearizes (env : Env m) (settings : Option Reloadable) (sessions : κ → Fin n)
    (gen : Nat) (t : Time) {s : System κ n m} {t' : Time} {as : List (Action κ)}
    (h : Run (SysStep.At env) (.start (fun _ _ => Keyspace.new) settings sessions gen, t) as (s, t')) :
    ∃ order, Linearizes env (AServer.empty settings sessions) (s.live t') order := by
  obtain ⟨bs, hrun⟩ := System.simulated (Valid.start env _ settings sessions gen) h
  obtain ⟨order, hexplained⟩ := hrun.invariant
    (fun l => ∃ order, Live.Explained env (AServer.empty settings sessions) l order)
    ⟨[], Live.explained_start env settings sessions gen t⟩ fun {l a l'} hl hstep => by
      obtain ⟨order, hexplained⟩ := hl
      obtain ⟨more, hnext⟩ := hexplained.step hstep
      exact ⟨_, hnext⟩
  exact ⟨order, hexplained.linearizes⟩

end Memcore
