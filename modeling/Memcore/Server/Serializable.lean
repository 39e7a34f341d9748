import Memcore.Server.Concurrent
import Memcore.Server.Timeless

/-!
# Serializability in log order

Every interleaving of the connections is as good as one request after the other: a write counts at the
moment it is appended to the log, everything else at the moment its handler runs. The state of that
serial execution is carried along (`Linked`): it has the same shards as the live databases, except
those a write has changed that is not in the log yet; their locks are still held, so nobody sees the
difference.

CONFIG GET is the exception. CONFIG takes no lock and reads and writes settings that all connections
share, so the log can have two CONFIG SETs in another order than they ran in, and a CONFIG GET shows
which one was last (`config_out_of_order`). Its replies are left out of what is compared; no other
reply, those of CONFIG SET and of a refused CONFIG included, depends on the settings.
-/

namespace Memcore

open Go Prog

variable {κ : Type} {n m : Nat}

/-! ## One request after the other -/

/-- Is this a CONFIG request? -/
def isConfig (args : List Bytes) : Bool :=
  match args with
  | name :: _ => decide (foldName name = ascii "config")
  | [] => false

/-- Is this a CONFIG GET that is answered from the settings? -/
def isConfigGet (host : Host) (args : List Bytes) : Bool :=
  isConfig args && getsSettings host args

/-- A request with its reply, unless it is the reply of CONFIG GET. -/
def observed (host : Host) (a : Request κ × Reply) : Request κ × Option Reply :=
  (a.1, if isConfigGet host a.1.args then none else some a.2)

variable [DecidableEq κ]

/-- What a connection sees. -/
def observedBy (host : Host) (k : κ) (answers : List (Request κ × Reply)) :
    List (Request κ × Option Reply) :=
  (answers.filter fun a => decide (a.1.conn = k)).map (observed host)

/-- The replies to requests served one after the other. -/
def Server.answers (env : Env m) : Server κ n m → List (Request κ) → List (Request κ × Reply)
  | _, [] => []
  | S, r :: rs => (r, (S.serve env r).1) :: answers env (S.serve env r).2 rs

theorem Server.answers_snoc (env : Env m) (r : Request κ) : ∀ (rs : List (Request κ))
    (S : Server κ n m), S.answers env (rs ++ [r])
      = S.answers env rs ++ [(r, ((S.serveAll env rs).serve env r).1)]
  | [], _ => rfl
  | _ :: rs, S => congrArg (_ :: ·) (answers_snoc env r rs (S.serve env _).2)

theorem Server.answers_map_fst (env : Env m) : ∀ (rs : List (Request κ)) (S : Server κ n m),
    (S.answers env rs).map Prod.fst = rs
  | [], _ => rfl
  | r :: rs, S => congrArg (r :: ·) (answers_map_fst env rs (S.serve env r).2)

theorem Server.serveAll_snoc (env : Env m) (S : Server κ n m) (rs : List (Request κ))
    (r : Request κ) : S.serveAll env (rs ++ [r]) = ((S.serveAll env rs).serve env r).2 :=
  List.foldl_append

omit [DecidableEq κ] in
theorem getsSettings_of_resolve {host : Host} {args : List Bytes} {cmd : Command n m}
    (h : resolve args = .ok cmd) (hget : isConfigGet host args = false)
    (hname : cmd.name = ascii "config") : getsSettings host args = false := by
  obtain ⟨-, -, name, rest, rfl, hfold⟩ := resolve_ok h
  have hconfig : isConfig (name :: rest) = true := decide_eq_true (hfold ▸ hname)
  rwa [isConfigGet, hconfig, Bool.true_and] at hget

/-- The handler of a request. -/
def Job.handler (env : Env m) (job : Job κ n m) : Cmd n m Reply :=
  job.cmd.run (env.at job.req.now job.req.ord) job.req.args

/-- What serving a request does, in terms of its handler. -/
theorem serve_job (env : Env m) (S : Server κ n m) {job : Job κ n m}
    (hres : resolve job.req.args = .ok job.cmd) :
    S.serve env job.req
      = (replyOf (job.handler env (S.context job.req)).1,
        ⟨(job.handler env (S.context job.req)).2.databases,
          (job.handler env (S.context job.req)).2.settings,
          Function.update S.sessions job.req.conn (job.handler env (S.context job.req)).2.index,
          S.log ++ if isLogged job.cmd (job.handler env (S.context job.req)).1 then
            [⟨(job.handler env (S.context job.req)).2.index,
              persistArgs job.req.logNow job.cmd job.req.args⟩] else []⟩) := by
  rcases hrun : job.handler env (S.context job.req) with ⟨outcome, c⟩
  have hcmd : job.cmd.run (env.at job.req.now job.req.ord) job.req.args (S.context job.req)
      = (outcome, c) := hrun
  simp only [Server.serve, request, hres, execute, hcmd]
  cases isLogged job.cmd outcome <;> rfl

/-! ## What a write that is not in the log yet will do -/

/-- In context `c` the handler of the request has the outcome it has had, selects the database
`index`, and leaves the shards it has left. -/
structure Ready (env : Env m) (job : Job κ n m) (outcome : Result Reply) (index : Fin n)
    (shards : DB m) (c : Context n m) : Prop where
  db : c.index = job.db
  failure : isFailure (job.handler env c).1 = isFailure outcome
  outcome : isConfigGet env.host job.req.args = false → (job.handler env c).1 = outcome
  index : (job.handler env c).2.index = index
  shards : ∀ i ∈ job.held, (job.handler env c).2.databases job.db i = shards i

section Ready

variable {env : Env m} {job : Job κ n m} {outcome : Result Reply} {index : Fin n} {shards : DB m}
  {c d : Context n m}

omit [DecidableEq κ] in
/-- The locks of a request cover what its handler touches. -/
theorem Job.confined (hres : resolve job.req.args = .ok job.cmd)
    (hshards : lockShards env.route job.cmd job.req.args = .ok job.held) :
    Confined job.held (job.handler env) ∧
      (isConfigGet env.host job.req.args = false → Steady job.held (job.handler env)) := by
  obtain ⟨hcmd, hacc, -⟩ := resolve_ok hres
  obtain ⟨held, hheld, hconfined, hsteady⟩ :=
    run_confined (env.at job.req.now job.req.ord) hcmd hacc
  have heq : held = job.held := Except.ok.inj (hheld.symm.trans hshards)
  subst heq
  exact ⟨hconfined, fun hget => hsteady (getsSettings_of_resolve hres hget)⟩

omit [DecidableEq κ] in
theorem Ready.similar (h : Ready env job outcome index shards c)
    (hres : resolve job.req.args = .ok job.cmd)
    (hshards : lockShards env.route job.cmd job.req.args = .ok job.held)
    (hcd : Similar job.held c d) : Ready env job outcome index shards d := by
  obtain ⟨hconfined, hsteady⟩ := Job.confined hres hshards
  refine ⟨hcd.index ▸ h.db, ?_, fun hconfig => ?_, ?_, fun i hi => ?_⟩
  · rw [← hconfined.failure c d hcd, h.failure]
  · rw [← hsteady hconfig c d hcd, h.outcome hconfig]
  · rw [← hconfined.index c d hcd, h.index]
  · rw [← h.shards i hi, ← h.db, hconfined.inside c d hcd i hi]

end Ready

/-! ## The serial execution next to the live one -/

/-- The server `S` of the serial execution next to the live system. -/
structure Linked (env : Env m) (s : System κ n m) (S : Server κ n m) : Prop where
  log : S.log = s.log.map Prod.snd
  settings : S.settings.isSome = s.settings.isSome
  sessions : ∀ k, (∀ job outcome, s.conns k ≠ .ran job outcome) → S.sessions k = s.sessions k
  shards : ∀ d i, (∀ k job outcome, s.conns k = .ran job outcome → job.db = d → i ∉ job.held) →
    S.databases d i = s.databases d i
  ran : ∀ k job outcome, s.conns k = .ran job outcome →
    Ready env job outcome (s.sessions k) (s.databases job.db) (S.context job.req)

section Linked

variable {env : Env m} {s s' : System κ n m} {S S' : Server κ n m} {k : κ} {job : Job κ n m}

omit [DecidableEq κ] in
/-- A logged command has its shards for itself. -/
theorem lockMode_of_isLogged {cmd : Command n m} {outcome : Result Reply}
    (h : isLogged cmd outcome = true) : lockMode cmd = .write := by
  simp only [isLogged, Bool.and_eq_true, Bool.not_eq_true'] at h
  simp [lockMode, h.1]

omit [DecidableEq κ] in
/-- Nobody else holds a shard that a write has changed. -/
theorem Valid.not_mem_of_ran (h : Valid env s) {k' : κ} {job' : Job κ n m} {outcome : Result Reply}
    (hran : s.conns k' = .ran job' outcome) (hne : k ≠ k') (hjob : (s.conns k).job = some job)
    (hdb : job.db = job'.db) {i : Fin m} (hi : i ∈ job.held) : i ∉ job'.held := by
  intro hi'
  have hfits := h.fits k'
  rw [hran] at hfits
  have hread := (h.exclusive k k' job job' i hne hjob (by rw [hran]; rfl) hdb hi hi').2
  rw [lockMode_of_isLogged hfits.2.2.2] at hread
  cases hread

omit [DecidableEq κ] in
/-- Before its handler runs, a request sees the same live as in the serial execution. -/
theorem Linked.similar (hv : Valid env s) (h : Linked env s S) (hconn : s.conns k = .locking job []) :
    Similar job.held (s.context k job.req) (S.context job.req) := by
  have hfits := hv.fits k
  rw [hconn] at hfits
  obtain ⟨hreq, -, hdb, -⟩ := hfits
  have hsession : S.sessions k = s.sessions k :=
    h.sessions k fun _ _ hran => by rw [hconn] at hran; cases hran
  refine ⟨?_, rfl, h.settings.symm, fun i hi => ?_⟩
  · show s.sessions k = S.sessions job.req.conn
    rw [hreq, hsession]
  · refine (h.shards (s.sessions k) i fun k' job' outcome hran hdb' hi' => ?_).symm
    have hne : k ≠ k' := by
      rintro rfl
      rw [hconn] at hran
      cases hran
    exact hv.not_mem_of_ran hran hne (by rw [hconn]; rfl) (hdb.symm.trans hdb'.symm) hi hi'

/-- A connection goes on that has changed nothing the serial execution does not know of, and will
not have. -/
theorem Linked.move (h : Linked env s S) {c : Conn κ n m}
    (hconns : s'.conns = Function.update s.conns k c) (hdatabases : s'.databases = s.databases)
    (hsettings : s'.settings = s.settings) (hsessions : s'.sessions = s.sessions)
    (hlog : s'.log = s.log) (hold : ∀ job outcome, s.conns k ≠ .ran job outcome)
    (hnew : ∀ job outcome, c ≠ .ran job outcome) : Linked env s' S := by
  have hran {k' : κ} {job : Job κ n m} {outcome : Result Reply} :
      s'.conns k' = .ran job outcome ↔ s.conns k' = .ran job outcome := by
    rw [hconns]
    by_cases hk : k' = k
    · subst hk
      rw [Function.update_self]
      exact iff_of_false (hnew job outcome) (hold job outcome)
    · rw [Function.update_of_ne hk]
  refine ⟨by rw [h.log, hlog], by rw [h.settings, hsettings], fun k' hk' => ?_, fun d i hno => ?_,
    fun k' job outcome hr => ?_⟩
  · rw [hsessions]
    exact h.sessions k' fun job outcome hr => hk' job outcome (hran.mpr hr)
  · rw [hdatabases]
    exact h.shards d i fun k' job outcome hr => hno k' job outcome (hran.mpr hr)
  · rw [hsessions, hdatabases]
    exact h.ran k' job outcome (hran.mp hr)

/-- A request counts: the serial execution catches up with what the connection has done. -/
theorem Linked.linearize (hv : Valid env s) (h : Linked env s S)
    (hjob : (s.conns k).job = some job) {reply : Reply}
    (hconns : s'.conns = Function.update s.conns k (.releasing job reply))
    (hdatabases : s'.databases = s.databases) (hsessions : s'.sessions = s.sessions)
    (hsettings : S'.settings.isSome = S.settings.isSome)
    (hsettings' : s'.settings.isSome = s.settings.isSome)
    (houtside : ∀ d i, (d = job.db → i ∉ job.held) → S'.databases d i = S.databases d i)
    (hinside : ∀ i ∈ job.held, S'.databases job.db i = s.databases job.db i)
    (hsession : S'.sessions k = s.sessions k) (hothers : ∀ k' ≠ k, S'.sessions k' = S.sessions k')
    (hlog : S'.log = s'.log.map Prod.snd) : Linked env s' S' := by
  have hran {k' : κ} (hk : k' ≠ k) : s'.conns k' = s.conns k' := by
    rw [hconns, Function.update_of_ne hk]
  have hdone : ∀ job outcome, s'.conns k ≠ .ran job outcome := by
    intro job outcome hr
    rw [hconns, Function.update_self] at hr
    cases hr
  refine ⟨hlog, by rw [hsettings, h.settings, hsettings'], fun k' hk' => ?_, fun d i hno => ?_,
    fun k' job' outcome hr => ?_⟩
  · rw [hsessions]
    by_cases hk : k' = k
    · rw [hk, hsession]
    · rw [hothers k' hk]
      exact h.sessions k' fun job outcome hr => hk' job outcome ((hran hk).trans hr)
  · rw [hdatabases]
    -- a shard of this request now shows what the handler left; any other is as before
    by_cases hmine : d = job.db ∧ i ∈ job.held
    · rw [hmine.1]
      exact hinside i hmine.2
    · rw [houtside d i fun hd hi => hmine ⟨hd, hi⟩]
      refine h.shards d i fun k' job' outcome hr hdb hi => ?_
      by_cases hk : k' = k
      · subst hk
        rw [hr] at hjob
        cases hjob
        exact hmine ⟨hdb.symm, hi⟩
      · exact hno k' job' outcome ((hran hk).trans hr) hdb hi
  · have hk : k' ≠ k := by
      rintro rfl
      exact hdone _ _ hr
    rw [hran hk] at hr
    have hfits := hv.fits k'
    rw [hr] at hfits
    obtain ⟨hreq, hres, hshards, -⟩ := hfits
    rw [hsessions, hdatabases]
    -- another request that has run holds none of these shards
    refine (h.ran k' job' outcome hr).similar hres hshards ⟨?_, rfl, hsettings.symm, fun i hi => ?_⟩
    · show S.sessions job'.req.conn = S'.sessions job'.req.conn
      rw [hreq, hothers k' hk]
    · refine (houtside _ i fun hd hi' => ?_).symm
      have hindex : (S.context job'.req).index = job'.db := (h.ran k' job' outcome hr).db
      exact hv.not_mem_of_ran hr hk.symm hjob (hd.symm.trans hindex) hi' hi

/-- A write has changed its shards; the serial execution does not know of it yet. -/
theorem Linked.change (hv : Valid env s) (h : Linked env s S) (hjob : (s.conns k).job = some job)
    (hold : ∀ job outcome, s.conns k ≠ .ran job outcome) {outcome : Result Reply}
    (hconns : s'.conns = Function.update s.conns k (.ran job outcome)) (hlog : s'.log = s.log)
    (hsettings : s'.settings.isSome = s.settings.isSome)
    (hsessions : ∀ k' ≠ k, s'.sessions k' = s.sessions k')
    (houtside : ∀ d i, (d = job.db → i ∉ job.held) → s'.databases d i = s.databases d i)
    (hready : Ready env job outcome (s'.sessions k) (s'.databases job.db) (S.context job.req)) :
    Linked env s' S := by
  have hmine : s'.conns k = .ran job outcome := by rw [hconns, Function.update_self]
  have hother {k' : κ} (hk : k' ≠ k) : s'.conns k' = s.conns k' := by
    rw [hconns, Function.update_of_ne hk]
  refine ⟨by rw [h.log, hlog], by rw [h.settings, hsettings], fun k' hk' => ?_, fun d i hno => ?_,
    fun k' job' outcome' hr => ?_⟩
  · have hk : k' ≠ k := by
      rintro rfl
      exact hk' _ _ hmine
    rw [hsessions k' hk]
    exact h.sessions k' fun job' outcome hr => hk' job' outcome ((hother hk).trans hr)
  · rw [houtside d i fun hd => hno k job _ hmine hd.symm]
    refine h.shards d i fun k' job' outcome hr => hno k' job' outcome ((hother ?_).trans hr)
    rintro rfl
    exact hold _ _ hr
  · by_cases hk : k' = k
    · subst hk
      rw [hmine] at hr
      cases hr
      exact hready
    · rw [hother hk] at hr
      have hsame := h.ran k' job' outcome' hr
      rw [hsessions k' hk]
      refine ⟨hsame.db, hsame.failure, hsame.outcome, hsame.index, fun i hi => ?_⟩
      rw [hsame.shards i hi]
      exact (houtside _ i fun hd hi' => hv.not_mem_of_ran hr (Ne.symm hk) hjob hd.symm hi' hi).symm

/-! ### The handler and the log -/

theorem runHandler_conns (env : Env m) (s : System κ n m) (k : κ) (job : Job κ n m) :
    (s.runHandler env k job).conns = Function.update s.conns k
      (if isLogged job.cmd (job.handler env (s.context k job.req)).1 then
        .ran job (job.handler env (s.context k job.req)).1
      else .releasing job (replyOf (job.handler env (s.context k job.req)).1)) := rfl

omit [DecidableEq κ] in
/-- What is known when the handler of a request is about to run. -/
theorem Linked.ready (hv : Valid env s) (h : Linked env s S) (hconn : s.conns k = .locking job []) :
    job.req.conn = k ∧ resolve job.req.args = .ok job.cmd ∧ s.sessions k = job.db ∧
      Confined job.held (job.handler env) ∧
      Ready env job (job.handler env (s.context k job.req)).1
        (job.handler env (s.context k job.req)).2.index
        ((job.handler env (s.context k job.req)).2.databases job.db) (S.context job.req) := by
  have hfits := hv.fits k
  rw [hconn] at hfits
  obtain ⟨hreq, hres, hdb, hshards⟩ := hfits
  rw [List.append_nil] at hshards
  exact ⟨hreq, hres, hdb, (Job.confined hres hshards).1,
    Ready.similar ⟨hdb, rfl, fun _ => rfl, rfl, fun _ _ => rfl⟩ hres hshards (h.similar hv hconn)⟩

theorem Linked.run_logged (hv : Valid env s) (h : Linked env s S)
    (hconn : s.conns k = .locking job [])
    (hlog : isLogged job.cmd (job.handler env (s.context k job.req)).1 = true) :
    Linked env (s.runHandler env k job) S := by
  obtain ⟨hreq, hres, hdb, hconfined, hready⟩ := h.ready hv hconn
  refine h.change hv (by rw [hconn]; rfl) (fun _ _ hr => by rw [hconn] at hr; cases hr)
    ((runHandler_conns env s k job).trans (by rw [if_pos hlog])) rfl
    (hconfined.settings (s.context k job.req)) (fun k' hk => Function.update_of_ne hk _ _)
    (fun d i hi => ?_) ?_
  · by_cases hd : d = job.db
    · rw [hd, ← hdb]
      exact hconfined.outside (s.context k job.req) i (hi hd)
    · exact congrFun (hconfined.others (s.context k job.req) d fun heq => hd (heq.trans hdb)) i
  · have hsession : (s.runHandler env k job).sessions k
        = (job.handler env (s.context k job.req)).2.index := Function.update_self _ _ _
    rw [hsession]
    exact hready

/-- The serial execution serves a request whose handler, live, has had the outcome `outcome`. -/
theorem observed_serve {outcome : Result Reply} {index : Fin n} {shards : DB m}
    (hres : resolve job.req.args = .ok job.cmd)
    (hready : Ready env job outcome index shards (S.context job.req)) :
    observed env.host (job.req, (S.serve env job.req).1) = observed env.host (job.req, replyOf outcome) := by
  rw [serve_job env S hres]
  unfold observed
  cases hget : isConfigGet env.host job.req.args with
  | true => rfl
  | false => rw [hready.outcome hget]

/-- A request that is not logged counts when its handler runs. -/
theorem Linked.run_other (hv : Valid env s) (h : Linked env s S)
    (hconn : s.conns k = .locking job [])
    (hlog : ¬ isLogged job.cmd (job.handler env (s.context k job.req)).1 = true) :
    Linked env (s.runHandler env k job) (S.serve env job.req).2 ∧
      observed env.host (job.req, (S.serve env job.req).1)
        = observed env.host (job.req, replyOf (job.handler env (s.context k job.req)).1) := by
  obtain ⟨hreq, hres, hdb, hconfined, hready⟩ := h.ready hv hconn
  obtain ⟨hcmd, hacc, -⟩ := resolve_ok hres
  have hlogS : ¬ isLogged job.cmd (job.handler env (S.context job.req)).1 = true := by
    unfold isLogged at hlog ⊢
    rwa [hready.failure]
  -- neither execution changes a database or a selection
  have hlive := run_not_logged hcmd _ hacc (s.context k job.req) hlog
  have hserial := run_not_logged hcmd _ hacc (S.context job.req) hlogS
  have hsession : S.sessions k = s.sessions k :=
    h.sessions k fun _ _ hr => by rw [hconn] at hr; cases hr
  refine ⟨?_, observed_serve hres hready⟩
  rw [serve_job env S hres, if_neg hlogS, List.append_nil]
  refine h.linearize hv (by rw [hconn]; rfl)
    ((runHandler_conns env s k job).trans (by rw [if_neg hlog])) hlive.databases ?_
    (hconfined.settings _) (hconfined.settings (s.context k job.req)) (fun d i _ => ?_)
    (fun i hi => ?_) ?_ (fun k' hk => ?_) h.log
  · exact (congrArg (Function.update s.sessions k) hlive.index).trans (Function.update_eq_self _ _)
  · exact congrFun (congrFun hserial.databases d) i
  · refine (congrFun (congrFun hserial.databases job.db) i).trans ?_
    rw [← hdb]
    exact ((h.similar hv hconn).shards i hi).symm
  · simp only [hreq, Function.update_self]
    refine hserial.index.trans ?_
    rw [← hsession, ← hreq]
    rfl
  · rw [hreq]
    exact Function.update_of_ne hk _ _

/-- A write counts when it is appended. -/
theorem Linked.append (hv : Valid env s) (h : Linked env s S) {outcome : Result Reply}
    (hconn : s.conns k = .ran job outcome) :
    Linked env (s.append k job outcome) (S.serve env job.req).2 ∧
      observed env.host (job.req, (S.serve env job.req).1) = observed env.host (job.req, replyOf outcome) := by
  have hfits := hv.fits k
  rw [hconn] at hfits
  obtain ⟨hreq, hres, hshards, hlog⟩ := hfits
  obtain ⟨hconfined, -⟩ := Job.confined hres hshards
  have hready := h.ran k job outcome hconn
  have hlogS : isLogged job.cmd (job.handler env (S.context job.req)).1 = true := by
    unfold isLogged at hlog ⊢
    rwa [hready.failure]
  refine ⟨?_, observed_serve hres hready⟩
  rw [serve_job env S hres, if_pos hlogS]
  refine h.linearize hv (by rw [hconn]; rfl) rfl rfl rfl (hconfined.settings _) rfl (fun d i hi => ?_)
    hready.shards ?_ (fun k' hk => ?_) ?_
  · by_cases hd : d = job.db
    · rw [hd, ← hready.db]
      exact hconfined.outside (S.context job.req) i (hi hd)
    · exact congrFun (hconfined.others (S.context job.req) d (hready.db ▸ hd)) i
  · simp only [hreq, Function.update_self]
    exact hready.index
  · rw [hreq]
    exact Function.update_of_ne hk _ _
  · rw [hready.index, h.log]
    simp [System.append]

end Linked

/-! ## Whole runs -/

/-- What a connection is about to see. -/
def Conn.pending (host : Host) : Conn κ n m → List (Request κ × Option Reply)
  | .releasing job reply => [observed host (job.req, reply)]
  | _ => []

theorem observedBy_snoc (host : Host) (k : κ) (as : List (Request κ × Reply))
    (a : Request κ × Reply) : observedBy host k (as ++ [a])
      = observedBy host k as ++ if a.1.conn = k then [observed host a] else [] := by
  unfold observedBy
  rw [List.filter_append, List.map_append]
  by_cases h : a.1.conn = k <;> simp [h]

/-- Serving the requests `order` one after the other from `S₀` gives what the live system has
given. -/
structure Serial (env : Env m) (S₀ : Server κ n m) (s : System κ n m) (order : List (Request κ)) :
    Prop where
  valid : Valid env s
  linked : Linked env s (S₀.serveAll env order)
  history : ∀ k, observedBy env.host k (S₀.answers env order)
    = observedBy env.host k s.answered ++ (s.conns k).pending env.host

namespace Serial

variable {env : Env m} {S₀ : Server κ n m} {s s' : System κ n m} {order : List (Request κ)} {k : κ}
  {job : Job κ n m}

/-- A request counts now, and its connection is about to see the reply. -/
theorem count (h : Serial env S₀ s order) (hvalid : Valid env s') (hreq : job.req.conn = k)
    (hpending : (s.conns k).pending env.host = []) {reply : Reply}
    (hconns : s'.conns = Function.update s.conns k (.releasing job reply))
    (hanswered : s'.answered = s.answered)
    (hlinked : Linked env s' ((S₀.serveAll env order).serve env job.req).2)
    (hreply : observed env.host (job.req, ((S₀.serveAll env order).serve env job.req).1)
      = observed env.host (job.req, reply)) : Serial env S₀ s' (order ++ [job.req]) := by
  refine ⟨hvalid, by rwa [Server.serveAll_snoc], fun k' => ?_⟩
  rw [Server.answers_snoc, observedBy_snoc, h.history k', hanswered, hconns, hreply]
  by_cases hk : k' = k
  · subst hk
    rw [hpending, Function.update_self, List.append_nil]
    simp [hreq, Conn.pending]
  · rw [Function.update_of_ne hk]
    have hne : job.req.conn ≠ k' := fun heq => hk (heq.symm.trans hreq)
    simp [hne]

/-- A connection goes on without anybody seeing it. -/
theorem move (h : Serial env S₀ s order) (hvalid : Valid env s') {c : Conn κ n m}
    (hconns : s'.conns = Function.update s.conns k c)
    (hpending : c.pending env.host = (s.conns k).pending env.host) (hanswered : s'.answered = s.answered)
    (hlinked : Linked env s' (S₀.serveAll env order)) : Serial env S₀ s' order := by
  refine ⟨hvalid, hlinked, fun k' => ?_⟩
  rw [h.history k', hanswered, hconns]
  by_cases hk : k' = k
  · subst hk
    rw [Function.update_self, hpending]
  · rw [Function.update_of_ne hk]

/-- The compaction goes on. -/
theorem compact (h : Serial env S₀ s order) (hvalid : Valid env s')
    (hconns : s'.conns = s.conns) (hdatabases : s'.databases = s.databases)
    (hsettings : s'.settings = s.settings) (hsessions : s'.sessions = s.sessions)
    (hlog : s'.log = s.log) (hanswered : s'.answered = s.answered) : Serial env S₀ s' order := by
  have hl := h.linked
  refine ⟨hvalid, ⟨?_, ?_, ?_, ?_, ?_⟩, fun k => ?_⟩
  · rw [hlog, hl.log]
  · rw [hsettings, hl.settings]
  · rw [hconns, hsessions]
    exact hl.sessions
  · rw [hconns, hdatabases]
    exact hl.shards
  · rw [hconns, hdatabases, hsessions]
    exact hl.ran
  · rw [hanswered, hconns]
    exact h.history k

theorem start (env : Env m) (databases : Fin n → DB m) (settings : Option Reloadable)
    (sessions : κ → Fin n) (gen : Nat) :
    Serial env ⟨databases, settings, sessions, []⟩ (System.start databases settings sessions gen) [] :=
  ⟨.start env databases settings sessions gen,
    ⟨rfl, rfl, fun _ _ => rfl, fun _ _ _ => rfl, fun _ _ _ hr => by cases hr⟩, fun _ => rfl⟩

/-- **One step more**, and perhaps one request more that counts. -/
theorem step (h : Serial env S₀ s order) {a : Action κ} (hstep : SysStep env s a s') :
    ∃ rs, Serial env S₀ s' (order ++ rs) := by
  have hvalid := h.valid.step hstep
  have hsame (hs' : Serial env S₀ s' order) : ∃ rs, Serial env S₀ s' (order ++ rs) :=
    ⟨[], by rwa [List.append_nil]⟩
  cases hstep with
  | @reject r reply hidle hres =>
    -- a request without a command takes no lock: it is served at once, where it stands
    have hserve : (S₀.serveAll env order).serve env r = (reply, S₀.serveAll env order) := by
      simp [Server.serve, request, hres, Server.context]
    refine ⟨[r], hvalid, ?_, fun k => ?_⟩
    · have hl := h.linked
      rw [Server.serveAll_snoc, hserve]
      exact ⟨hl.log, hl.settings, hl.sessions, hl.shards, hl.ran⟩
    · rw [Server.answers_snoc, observedBy_snoc, observedBy_snoc, h.history k, hserve]
      by_cases hk : r.conn = k
      · rw [← hk, hidle]
        simp [Conn.pending]
      · simp [hk]
  | start hidle hres hshards =>
    refine hsame (h.move hvalid rfl (by rw [hidle]; rfl) rfl (h.linked.move rfl rfl rfl rfl rfl ?_ ?_))
    · intro job outcome hr
      rw [hidle] at hr
      cases hr
    · exact fun _ _ hr => by cases hr
  | acquire hconn hfree =>
    refine hsame (h.move hvalid rfl (by rw [hconn]; rfl) rfl (h.linked.move rfl rfl rfl rfl rfl ?_ ?_))
    · intro job outcome hr
      rw [hconn] at hr
      cases hr
    · exact fun _ _ hr => by cases hr
  | @run k job hconn =>
    -- a logged request counts when its record is appended, any other when its handler runs
    by_cases hlog : isLogged job.cmd (job.handler env (s.context k job.req)).1 = true
    · refine hsame (h.move hvalid (runHandler_conns env s k job) ?_ rfl
        (h.linked.run_logged h.valid hconn hlog))
      rw [if_pos hlog, hconn]
      rfl
    · obtain ⟨hlinked, hreply⟩ := h.linked.run_other h.valid hconn hlog
      have hfits := h.valid.fits k
      rw [hconn] at hfits
      refine ⟨[job.req], h.count hvalid hfits.1 (by rw [hconn]; rfl)
        ((runHandler_conns env s k job).trans (by rw [if_neg hlog])) rfl hlinked hreply⟩
  | @append k job outcome hconn =>
    obtain ⟨hlinked, hreply⟩ := h.linked.append h.valid hconn
    have hfits := h.valid.fits k
    rw [hconn] at hfits
    exact ⟨[job.req], h.count hvalid hfits.1 (by rw [hconn]; rfl) rfl rfl hlinked hreply⟩
  | release hconn hheld =>
    refine hsame (h.move hvalid rfl (by rw [hconn]; rfl) rfl (h.linked.move rfl rfl rfl rfl rfl ?_ ?_))
    · intro job outcome hr
      rw [hconn] at hr
      cases hr
    · exact fun _ _ hr => by cases hr
  | @finish k job reply hconn hheld =>
    have hfits := h.valid.fits k
    rw [hconn] at hfits
    have hreq : job.req.conn = k := hfits
    have hlinked : Linked env (s.setConn k .idle) (S₀.serveAll env order) :=
      h.linked.move rfl rfl rfl rfl rfl (fun _ _ hr => by rw [hconn] at hr; cases hr)
        fun _ _ hr => by cases hr
    refine hsame ⟨hvalid, ⟨hlinked.log, hlinked.settings, hlinked.sessions, hlinked.shards,
      hlinked.ran⟩, fun k' => ?_⟩
    -- the answer moves from the pending ones to the history
    rw [h.history k', observedBy_snoc]
    by_cases hk : k' = k
    · subst hk
      simp [hconn, hreq, Conn.pending, System.setConn]
    · have hne : job.req.conn ≠ k' := fun heq => hk (heq.symm.trans hreq)
      simp [hne, System.setConn, Function.update_of_ne hk]
  | nextGen | lock | serialize | rotate | unlock | done =>
    exact hsame (h.compact hvalid rfl rfl rfl rfl rfl rfl)

/-- While nobody holds a lock, the live databases are those of the serial execution. -/
theorem databases_eq (h : Serial env S₀ s order)
    (hquiet : ∀ k job, (s.conns k).job = some job → job.held = []) :
    (S₀.serveAll env order).databases = s.databases := by
  funext d i
  refine h.linked.shards d i fun k job outcome hr _ hi => ?_
  rw [hquiet k job (by rw [hr]; rfl)] at hi
  cases hi

end Serial

/-! ## Replaying the log -/

/-- The abstract databases with the logged commands. -/
def logMachine (n : Nat) (env : Env m) : Machine (Fin n → ADB) (Logged n) where
  step A l := effectOf env l.db l.args A
  Runs A l := Executable env A l.db l.args

theorem logMachine_timeless {env : Env m} {A : Fin n → ADB} {l : Logged n} (hA : Timeless A)
    (hexec : (logMachine n env).Runs A l) : Timeless ((logMachine n env).step A l) :=
  Executable.timeless hexec hA

/-- No logged command sets a deadline. -/
def SetsNoDeadline (m : Nat) (log : List (Logged n)) : Prop :=
  ∀ l ∈ log, ∀ cmd : Command n m, resolve l.args = .ok cmd →
    cmd.name ≠ ascii "expire" ∧ cmd.name ≠ ascii "pexpireat"

theorem resolve_pexpireat (key ms : Bytes) : ∃ cmd : Command n m,
    resolve [ascii "PEXPIREAT", key, ms] = .ok cmd ∧ cmd.name = ascii "pexpireat" :=
  ⟨.writeKey "pexpireat" 3 cmdPExpireAt, rfl, rfl⟩

/-- EXPIRE is logged as PEXPIREAT, every other command as it came. -/
theorem persistArgs_of_setsNoDeadline {cmd : Command n m} {args : List Bytes} {logNow : Time}
    (hres : resolve args = .ok cmd) {db : Fin n} {log : List (Logged n)}
    (h : SetsNoDeadline m (log ++ [⟨db, persistArgs logNow cmd args⟩])) :
    persistArgs logNow cmd args = args ∧ cmd.name ≠ ascii "expire" ∧ cmd.name ≠ ascii "pexpireat" := by
  have hlast := h ⟨db, persistArgs logNow cmd args⟩ (by simp)
  have hargs : persistArgs logNow cmd args = args := by
    unfold persistArgs at hlast ⊢
    split_ifs with hexpire
    · split
      next key arg2 =>
        split
        next secs hsecs =>
          simp only [if_pos hexpire, hsecs] at hlast
          obtain ⟨cmd', hres', hname⟩ := resolve_pexpireat (n := n) (m := m) key _
          exact absurd hname (hlast cmd' hres').2
        next => rfl
      next => rfl
    · rfl
  rw [hargs] at hlast
  exact ⟨hargs, hlast cmd hres⟩

/-- A request that sets no deadline leaves the databases alone, or does to them what its log entry
says. -/
theorem serve_machine {env : Env m} {S : Server κ n m} {A : Fin n → ADB} (hA : Timeless A)
    (hrepr : Databases.Repr env S.databases A) {r : Request κ}
    (hlog : SetsNoDeadline m (S.serve env r).2.log) :
    ((S.serve env r).2.log = S.log ∧ (S.serve env r).2.databases = S.databases) ∨
      ∃ l, (S.serve env r).2.log = S.log ++ [l] ∧ Executable env A l.db l.args ∧
        Databases.Repr env (S.serve env r).2.databases (effectOf env l.db l.args A) := by
  have hrepr' : Databases.Repr (env.at r.now r.ord) (S.context r).databases A := hrepr
  have hlogged : (S.serve env r).2.log
      = S.log ++ (request (env.at r.now r.ord) r.logNow r.args (S.context r)).2.1.toList := rfl
  have hdatabases : (S.serve env r).2.databases
      = (request (env.at r.now r.ord) r.logNow r.args (S.context r)).2.2.databases := rfl
  rw [hlogged] at hlog ⊢
  rw [hdatabases]
  rcases request_refines hrepr' r.logNow r.args with
    ⟨hnone, hsame⟩ | ⟨cmd, hres, hwrite, hentry, hok, hnew⟩
  · exact .inl ⟨by rw [hnone]; exact List.append_nil _, hsame⟩
  · rw [hentry, Option.toList_some] at hlog
    obtain ⟨hargs, hexpire, hpexpire⟩ := persistArgs_of_setsNoDeadline hres hlog
    refine .inr ⟨_, by rw [hentry]; rfl, ?_⟩
    rw [hargs]
    refine ⟨⟨cmd, hres, hwrite, hexpire, hpexpire, fun hcrash => hok (crashes_timeless hA hcrash)⟩, ?_⟩
    rw [← (effectOf_timeless (show (env.at r.now r.ord).limits = env.limits from rfl) rfl hA _ hres
      hexpire hpexpire).1]
    exact hnew

/-- The databases of a serial execution are those its log gives. -/
theorem serveAll_machine {env : Env m} {S₀ : Server κ n m} {A₀ : Fin n → ADB} (hA₀ : Timeless A₀)
    (hrepr : Databases.Repr env S₀.databases A₀) (hempty : S₀.log = []) (rs : List (Request κ))
    (hlog : SetsNoDeadline m (S₀.serveAll env rs).log) :
    Databases.Repr env (S₀.serveAll env rs).databases
        ((logMachine n env).run A₀ (S₀.serveAll env rs).log) ∧
      (logMachine n env).AllRun A₀ (S₀.serveAll env rs).log := by
  induction rs using List.reverseRecOn with
  | nil =>
    show Databases.Repr env S₀.databases ((logMachine n env).run A₀ S₀.log) ∧
      (logMachine n env).AllRun A₀ S₀.log
    rw [hempty]
    exact ⟨hrepr, trivial⟩
  | append_singleton rs r ih =>
    rw [Server.serveAll_snoc] at hlog ⊢
    have hprefix : SetsNoDeadline m (S₀.serveAll env rs).log := fun l hl =>
      hlog l (List.mem_append_left _ hl)
    obtain ⟨hrun, hall⟩ := ih hprefix
    have hgood : Timeless ((logMachine n env).run A₀ (S₀.serveAll env rs).log) :=
      Machine.good_run logMachine_timeless _ hA₀ hall
    rcases serve_machine hgood hrun hlog with ⟨hsame, hdatabases⟩ | ⟨l, hentry, hexec, hnew⟩
    · rw [hsame, hdatabases]
      exact ⟨hrun, hall⟩
    · rw [hentry, Machine.run_snoc]
      exact ⟨hnew, Machine.allRun_snoc _ hall hexec⟩

/-- While nobody holds a lock, the live databases are those the log gives. -/
theorem Serial.databases_machine {env : Env m} {S₀ : Server κ n m} {s : System κ n m}
    {order : List (Request κ)} (h : Serial env S₀ s order) {A₀ : Fin n → ADB} (hA₀ : Timeless A₀)
    (hrepr : Databases.Repr env S₀.databases A₀) (hempty : S₀.log = [])
    (hquiet : ∀ k job, (s.conns k).job = some job → job.held = [])
    (hlog : SetsNoDeadline m (s.log.map Prod.snd)) :
    Databases.Repr env s.databases ((logMachine n env).run A₀ (s.log.map Prod.snd)) ∧
      (logMachine n env).AllRun A₀ (s.log.map Prod.snd) := by
  have hserve := serveAll_machine hA₀ hrepr hempty order
  rw [h.linked.log, h.databases_eq hquiet] at hserve
  exact hserve hlog

/-- A log that was written without deadlines replays to the databases it gives. -/
theorem replayLog_machine (hn : n < 2 ^ 63) {env : Env m} {A : Fin n → ADB} (hA : Timeless A)
    {log : List (Logged n)} (hall : (logMachine n env).AllRun A log) {c : Context n m}
    (hc : Databases.Repr env c.databases A) (now : Time) (ord : MapOrder) :
    ∃ c', replayLog (env.at now ord) log c = (c', none) ∧
      Databases.Repr env c'.databases ((logMachine n env).run A log) :=
  Machine.callEach_run (fun (c : Context n m) A => Databases.Repr env c.databases A)
    logMachine_timeless
    (fun hA hexec hc => Executable.replay hn hexec hA hc now ord) log hA hall hc

/-- **Serializability in log order.** Any number of connections, databases and shards, any hash, any
interleaving, with compactions in between. There is one order of the requests in which each
connection has its own in the order it sent them, such that serving them one after the other gives
every connection the replies it has seen, those of CONFIG GET apart, and writes the same log. While
nobody holds a lock it also gives the live databases; and when no command sets a deadline, replaying the log
over the initial databases then reproduces them, at any time. -/
theorem serializable (hn : n < 2 ^ 63) (env : Env m) (databases : Fin n → DB m)
    (settings : Option Reloadable) (sessions : κ → Fin n) (gen : Nat) {actions : List (Action κ)}
    {s : System κ n m}
    (hrun : Run (SysStep env) (System.start databases settings sessions gen) actions s) :
    ∃ order : List (Request κ),
      (∀ k, observedBy env.host k s.answered
          <+: observedBy env.host k (Server.answers env ⟨databases, settings, sessions, []⟩ order) ∧
        (s.conns k = .idle → observedBy env.host k s.answered
          = observedBy env.host k (Server.answers env ⟨databases, settings, sessions, []⟩ order))) ∧
      (Server.serveAll env ⟨databases, settings, sessions, []⟩ order).log = s.log.map Prod.snd ∧
      ((∀ k job, (s.conns k).job = some job → job.held = []) →
        (Server.serveAll env ⟨databases, settings, sessions, []⟩ order).databases = s.databases ∧
        ∀ A₀ : Fin n → ADB, Timeless A₀ → Databases.Repr env databases A₀ →
          SetsNoDeadline m (s.log.map Prod.snd) → ∀ (now : Time) (ord : MapOrder) (c : Context n m),
            Databases.Repr env c.databases A₀ →
            ∃ c' A, replayLog (env.at now ord) (s.log.map Prod.snd) c = (c', none) ∧
              Databases.Repr env c'.databases A ∧ Databases.Repr env s.databases A) := by
  obtain ⟨order, h⟩ := hrun.invariant
    (fun s => ∃ order, Serial env ⟨databases, settings, sessions, []⟩ s order)
    ⟨[], Serial.start env databases settings sessions gen⟩ fun ⟨order, h⟩ hstep =>
      have ⟨rs, h'⟩ := h.step hstep
      ⟨order ++ rs, h'⟩
  refine ⟨order, fun k => ⟨?_, fun hidle => ?_⟩, h.linked.log, fun hquiet =>
    ⟨h.databases_eq hquiet, fun A₀ hA₀ hrepr hlog now ord c hc => ?_⟩⟩
  · rw [h.history k]
    exact List.prefix_append _ _
  · rw [h.history k, hidle]
    exact (List.append_nil _).symm
  · obtain ⟨hlive, hall⟩ := h.databases_machine hA₀ hrepr rfl hquiet hlog
    obtain ⟨c', hreplay, hc'⟩ := replayLog_machine hn hA₀ hall hc now ord
    exact ⟨c', _, hreplay, hc', hlive⟩

/-- A SET of one of two connections. -/
def setRequest (conn : Bool) (value : String) : Request Bool :=
  ⟨conn, [ascii "SET", ascii "a", ascii value], 0, 0, MapOrder.default, fun _ => 0⟩

/-- Empty databases, and nothing going on. -/
def setsStart : System Bool 1 1 := System.start (fun _ _ => Keyspace.new) none (fun _ => 0) 0

/-- Two connections set one key, and a compaction gets the lock between them. -/
theorem sets_run : ∃ actions s, Run (SysStep (Env.single 0)) setsStart actions s ∧
    (∀ k, s.conns k = .idle) ∧
    s.log = [(0, ⟨0, (setRequest true "1").args⟩), (1, ⟨0, (setRequest false "2").args⟩)] ∧
    s.snapshots.map Prod.fst = [1] := by
  have h₀ : Run (SysStep (Env.single 0)) _ _ _ := .nil setsStart
  have h₁ := h₀.snoc (.start (r := setRequest true "1") rfl rfl rfl)
  have h₂ := h₁.snoc (.acquire (k := true) rfl
    (System.free_of_unlocked rfl fun k => by cases k <;> rfl))
  have h₃ := h₂.snoc (.start (r := setRequest false "2") rfl rfl rfl)
  have h₄ := h₃.snoc (.nextGen rfl)
  have h₅ := h₄.snoc (.run (k := true) rfl)
  have h₆ := h₅.snoc (.append (k := true) rfl)
  have h₇ := h₆.snoc (.release (k := true) rfl (show [0] = [] ++ [0] from rfl))
  have h₈ := h₇.snoc (.lock rfl (System.free_of_unlocked rfl fun k => by cases k <;> rfl))
  have h₉ := h₈.snoc (a := .serialize MapOrder.default) (.serialize rfl)
  have h₁₀ := h₉.snoc (.rotate rfl)
  have h₁₁ := h₁₀.snoc (.unlock (show _ = Compactor.unlocking ([] ++ [(0, 0)]) from rfl))
  have h₁₂ := h₁₁.snoc (.acquire (k := false) rfl
    (System.free_of_unlocked rfl fun k => by cases k <;> rfl))
  have h₁₃ := h₁₂.snoc (.run (k := false) rfl)
  have h₁₄ := h₁₃.snoc (.finish (k := true) rfl rfl)
  have h₁₅ := h₁₄.snoc (.append (k := false) rfl)
  have h₁₆ := h₁₅.snoc (.release (k := false) rfl (show [0] = [] ++ [0] from rfl))
  have h₁₇ := h₁₆.snoc (.finish (k := false) rfl rfl)
  have h₁₈ := h₁₇.snoc (.done rfl)
  exact ⟨_, _, h₁₈, fun k => by cases k <;> rfl, rfl, rfl⟩

theorem setsNoDeadline_sets : SetsNoDeadline (n := 1) 1
    [⟨0, (setRequest true "1").args⟩, ⟨0, (setRequest false "2").args⟩] := by
  have hset (conn : Bool) (value : String) (cmd : Command 1 1)
      (h : resolve (setRequest conn value).args = .ok cmd) :
      cmd.name ≠ ascii "expire" ∧ cmd.name ≠ ascii "pexpireat" := by
    obtain ⟨-, -, name, rest, hargs, hname⟩ := resolve_ok h
    rw [hname, ← (List.cons.inj hargs).1]
    decide
  intro l hl cmd hres
  rcases List.mem_pair.mp hl with rfl | rfl
  · exact hset true "1" cmd hres
  · exact hset false "2" cmd hres
/-- The two SETs in any order a serial execution can have: here the log decides. -/
theorem serializable_sets : ∃ actions s, Run (SysStep (Env.single 0)) setsStart actions s ∧
    s.log.length = 2 ∧ ∃ order : List (Request Bool),
      (Server.serveAll (Env.single 0) ⟨setsStart.databases, none, fun _ => 0, []⟩ order).databases
        = s.databases ∧
      ∃ c A, replayLog ((Env.single 0).at 7 MapOrder.default) (s.log.map Prod.snd)
          (Context.empty none 0 fun _ => 0) = (c, none) ∧
        Databases.Repr (Env.single 0) c.databases A ∧
        Databases.Repr (Env.single 0) s.databases A := by
  obtain ⟨actions, s, hrun, hidle, hlog, -⟩ := sets_run
  obtain ⟨order, -, -, hquiet⟩ := serializable (by decide) (Env.single 0) setsStart.databases none
    (fun _ => 0) 0 hrun
  obtain ⟨hdatabases, hreplay⟩ := hquiet fun k job hjob => by
    rw [hidle k] at hjob
    cases hjob
  have hempty : Databases.Repr (Env.single 0) (Context.empty none 0 fun _ => 0 : Context 1 1).databases
      fun _ _ => none := empty_repr (Env.single 0) none 0 fun _ => 0
  refine ⟨actions, s, hrun, by rw [hlog]; rfl, order, hdatabases,
    hreplay _ (fun _ _ _ h => by cases h) hempty ?_ 7 MapOrder.default _ hempty⟩
  rw [hlog]
  exact setsNoDeadline_sets

/-! ## CONFIG -/

/-- A CONFIG request of one of two connections. -/
def configRequest (conn : Bool) (args : List String) : Request Bool :=
  ⟨conn, ascii "CONFIG" :: args.map ascii, 0, 0, MapOrder.default, fun _ => 0⟩

/-- The first connection: set the threshold, then ask for it. -/
def setOne : Request Bool := configRequest true ["SET", "slowlog-threshold-ms", "1"]

def getThreshold : Request Bool := configRequest true ["GET", "slowlog-threshold-ms"]

/-- The second connection. -/
def setTwo : Request Bool := configRequest false ["SET", "slowlog-threshold-ms", "2"]

/-- Empty databases and some settings. -/
def configServer : Server Bool 1 1 :=
  ⟨fun _ _ => Keyspace.new, some ⟨0, 0, false⟩, fun _ => 0, []⟩

/-- The reply that the threshold is 2. -/
def threshold2 : Reply := .array [.bulk (ascii "slowlog-threshold-ms"), .bulk (ascii "2")]

/-- The first connection sets the threshold to 1, the second to 2, and the log gets the two the other
way around. -/
theorem config_run : ∃ actions s one two get,
    Run (SysStep (Env.single 0))
        (System.start configServer.databases configServer.settings configServer.sessions 0) actions s ∧
      (∀ k, s.conns k = .idle) ∧
      s.log.map Prod.snd = [⟨0, setTwo.args⟩, ⟨0, setOne.args⟩, ⟨0, getThreshold.args⟩] ∧
      s.answered = [(setTwo, two), (setOne, one), (getThreshold, get)] ∧
      get.equal threshold2 = true := by
  have h₀ : Run (SysStep (Env.single 0)) _ _ _ := .nil
    (System.start configServer.databases configServer.settings configServer.sessions 0)
  have h₁ := h₀.snoc (.start (r := setOne) rfl rfl rfl)
  have h₂ := h₁.snoc (.run (k := true) rfl)
  have h₃ := h₂.snoc (.start (r := setTwo) rfl rfl rfl)
  have h₄ := h₃.snoc (.run (k := false) rfl)
  have h₅ := h₄.snoc (.append (k := false) rfl)
  have h₆ := h₅.snoc (.finish (k := false) rfl rfl)
  have h₇ := h₆.snoc (.append (k := true) rfl)
  have h₈ := h₇.snoc (.finish (k := true) rfl rfl)
  have h₉ := h₈.snoc (.start (r := getThreshold) rfl rfl rfl)
  have h₁₀ := h₉.snoc (.run (k := true) rfl)
  have h₁₁ := h₁₀.snoc (.append (k := true) rfl)
  have h₁₂ := h₁₁.snoc (.finish (k := true) rfl rfl)
  exact ⟨_, _, _, _, _, h₁₂, fun k => by cases k <;> rfl, rfl, rfl, by decide +kernel⟩

/-- The orders of three requests, two of one connection and one of the other. -/
theorem eq_of_filter_conn {order : List (Request Bool)} {a b c : Request Bool}
    (htrue : (order.filter fun r => decide (r.conn = true)) = [a, b])
    (hfalse : (order.filter fun r => decide (r.conn = false)) = [c]) :
    order = [a, b, c] ∨ order = [a, c, b] ∨ order = [c, a, b] := by
  have hlen : order.length = 3 := by
    have h := List.length_eq_length_filter_add (l := order) fun r => decide (r.conn = true)
    have hnot : (order.filter fun r => !decide (r.conn = true)) = [c] := by
      rw [← hfalse]
      congr 1
      funext r
      cases r.conn <;> rfl
    rw [htrue, hnot] at h
    exact h
  obtain ⟨x, y, z, rfl⟩ := List.length_eq_three.mp hlen
  cases hx : x.conn <;> cases hy : y.conn <;> cases hz : z.conn <;> simp_all

/-- **CONFIG is not serializable in log order.** The log has the second SET before the first, so in
its order the first connection would read back the 1 it has set; it reads 2. -/
theorem config_out_of_order : ∃ actions s,
    Run (SysStep (Env.single 0))
        (System.start configServer.databases configServer.settings configServer.sessions 0) actions s ∧
      (∀ k, s.conns k = .idle) ∧
      ¬ ∃ order : List (Request Bool),
        (∀ k, ((configServer.answers (Env.single 0) order).filter fun a => decide (a.1.conn = k))
          = s.answered.filter fun a => decide (a.1.conn = k)) ∧
        (configServer.serveAll (Env.single 0) order).log = s.log.map Prod.snd := by
  obtain ⟨actions, s, one, two, get, hrun, hidle, hlog, hanswered, hget⟩ := config_run
  refine ⟨actions, s, hrun, hidle, ?_⟩
  rintro ⟨order, hsame, hserial⟩
  have hconn (k : Bool) : (order.filter fun r => decide (r.conn = k))
      = (s.answered.filter fun a => decide (a.1.conn = k)).map Prod.fst := by
    rw [← hsame k]
    conv_lhs => rw [← Server.answers_map_fst (Env.single 0) order configServer, List.filter_map]
    rfl
  have horder := eq_of_filter_conn (a := setOne) (b := getThreshold) (c := setTwo)
    (by rw [hconn, hanswered]; rfl) (by rw [hconn, hanswered]; rfl)
  rw [hlog] at hserial
  revert hserial
  rcases horder with rfl | rfl | rfl
  · decide +kernel
  · decide +kernel
  · intro _
    have hreplies := hsame true
    rw [hanswered] at hreplies
    have hlast := congrArg (fun as => as.getLast?.any fun a => a.2.equal threshold2) hreplies
    have hserial : ((configServer.answers (Env.single 0) [setTwo, setOne, getThreshold]).filter
        fun a => decide (a.1.conn = true)).getLast?.any (fun a => a.2.equal threshold2) = false := by
      decide +kernel
    exact absurd (hserial.symm.trans (hlast.trans hget)) (by decide)
end Memcore
