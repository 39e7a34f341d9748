import Memcore.Server.Aligned
import Memcore.Server.Live
import Memcore.Server.Serializable
import Memcore.Server.Spec

/-!
# Linearizability

The running server, with its connections, its compactions, its active expiry and its clock, against the
abstract server that takes one request after the other and never forgets a key that has expired. At
every moment of a run there is an order of requests that explains what every connection has seen, and
it only ever grows: a request that has been answered is in the order from then on, and one that has not
been started is not in it yet. So a request that was answered before another one came is before it in
the order.

A request counts when its handler runs. What the handler is still to write is taken as written
(`Live.Settles`): nobody else can look at it, because of the locks. What active expiry takes out was
hidden from every reader to come (`AServer.Alike`).

The replies of CONFIG GET are left out, because nothing protects the settings.
-/

namespace Memcore

open Go

variable {κ : Type} {n m : Nat}

/-! ## Servers that no client tells apart -/

/-- The same settings and selections, and databases that no reader tells apart from `t` on. -/
structure AServer.Alike (t : Time) (A B : AServer κ n) : Prop where
  databases : ∀ d key, SameFrom t (A.databases d key) (B.databases d key)
  settings : A.settings = B.settings
  sessions : A.sessions = B.sessions

theorem crashes_of_live {cmd : Command n m} {now : Time} {args : List Bytes} {a b : ADB}
    (h : ∀ key, liveAt now (a key) = liveAt now (b key)) :
    cmd.Crashes now args a ↔ cmd.Crashes now args b := by
  unfold Command.Crashes
  match args with
  | [] | [_] => exact Iff.rfl
  | _ :: key :: rest => simp only [h key]

theorem answer_of_live {cmd : Command n m} {now : Time} {lim : Limits} {host : Host}
    {args : List Bytes} {a b : ADB} (h : ∀ key, liveAt now (a key) = liveAt now (b key)) :
    cmd.answer now lim host args a = cmd.answer now lim host args b := by
  unfold Command.answer
  match args with
  | [] | [_] => rfl
  | _ :: key :: rest => simp only [h key, multi_congr fun key _ => h key]

namespace AServer.Alike

variable {t t' : Time} {A B : AServer κ n}

theorem refl (t : Time) (A : AServer κ n) : Alike t A A :=
  ⟨fun _ _ => SameFrom.refl t _, rfl, rfl⟩

theorem mono (h : Alike t A B) (ht : t ≤ t') : Alike t' A B :=
  ⟨fun d key u hu => h.databases d key u (ht.trans hu), h.settings, h.sessions⟩

theorem trans {C : AServer κ n} (h : Alike t A B) (h' : Alike t B C) : Alike t A C :=
  ⟨fun d key u hu => (h.databases d key u hu).trans (h'.databases d key u hu),
    h.settings.trans h'.settings, h.sessions.trans h'.sessions⟩

variable [DecidableEq κ]

/-- They give one answer, and stay alike. -/
theorem serve {q : Call κ} (h : Alike q.now A B) (lim : Limits) (host : Host) :
    (A.serve lim host q).1 = (B.serve lim host q).1 ∧
      Alike q.now (A.serve lim host q).2 (B.serve lim host q).2 := by
  obtain ⟨hdbs, hsettings, hsessions⟩ := h
  have hlive (d : Fin n) (key : Bytes) :
      liveAt q.now (A.databases d key) = liveAt q.now (B.databases d key) := hdbs d key _ le_rfl
  unfold AServer.serve
  cases resolveRow q.args with
  | error reply => exact ⟨rfl, hdbs, hsettings, hsessions⟩
  | ok cmd =>
    cases hdata : cmd.onData with
    | true =>
      simp only [hdata, if_true]
      -- the panic and the reply depend on what is alive; the effect keeps it the same
      by_cases hcrash : cmd.Crashes q.now q.args (A.databases (A.sessions q.conn))
      · have hcrash' := (crashes_of_live (hlive _)).mp hcrash
        rw [hsessions] at hcrash'
        rw [AServer.serveData_of_crashes hcrash, AServer.serveData_of_crashes hcrash']
        exact ⟨rfl, hdbs, hsettings, hsessions⟩
      · have hcrash' := fun hB => hcrash ((crashes_of_live (hlive _)).mpr hB)
        rw [hsessions] at hcrash'
        rw [AServer.serveData_of_not_crashes hcrash, AServer.serveData_of_not_crashes hcrash',
          answer_of_live (hlive _), hsessions]
        refine ⟨rfl, fun d key => ?_, hsettings, rfl⟩
        by_cases hd : d = B.sessions q.conn
        · subst hd
          simp only [Function.update_self]
          exact effect_sameFrom (hdbs _) lim host cmd q.args key
        · simp only [Function.update_of_ne hd]
          exact hdbs d key
    | false =>
      simp only [hdata, Bool.false_eq_true, if_false]
      unfold AServer.servePlain
      split
      · split
        · rw [hsessions]
          exact ⟨rfl, hdbs, hsettings, rfl⟩
        · split
          · rw [hsettings]
            exact ⟨rfl, hdbs, rfl, hsessions⟩
          · exact ⟨rfl, hdbs, hsettings, hsessions⟩
      · exact ⟨rfl, hdbs, hsettings, hsessions⟩

end AServer.Alike

/-! ## Explanations -/

/-- The request got a reply that it may get, if it is not a CONFIG GET. -/
def Explains (host : Host) (p : Request κ × AReply) (a : Request κ × Reply) : Prop :=
  a.1 = p.1 ∧ (isConfigGet host a.1.args = false → p.2.Shows a.2)

/-- `S` is the server when every handler has written what it is going to write. -/
structure Live.Settles (l : Live κ n m) (S : Server κ n m) : Prop where
  writing : ∀ {k d i ks}, (l.workers k).Writes d i ks → S.databases d i = ks
  settled : ∀ {d i}, (∀ k ks, ¬ (l.workers k).Writes d i ks) → S.databases d i = l.memory d i
  sessions : S.sessions = l.sessions
  settings : S.settings.isSome = l.settings.isSome

variable [DecidableEq κ]

/-- The requests with the replies of the abstract server. -/
def AServer.transcript (lim : Limits) (host : Host) (A : AServer κ n) (order : List (Request κ)) :
    List (Request κ × AReply) :=
  order.zip (A.answers lim host (order.map Request.call))

/-- The replies a connection has seen, and the one it is going to see. -/
def Live.seenBy (l : Live κ n m) (k : κ) : List (Request κ × Reply) :=
  (l.answered.filter fun a => decide (a.1.conn = k)) ++ (l.workers k).reply

/-- Serving the requests of `order` one after the other explains what every connection has seen, and
what is stored when nobody is writing. -/
structure Linearizes (env : Env m) (A : AServer κ n) (l : Live κ n m) (order : List (Request κ)) :
    Prop where
  replies : ∀ k, List.Forall₂ (Explains env.host)
    ((A.transcript env.limits env.host order).filter fun p => decide (p.1.conn = k)) (l.seenBy k)
  databases : (∀ k d i ks, ¬ (l.workers k).Writes d i ks) →
    ∃ B, Databases.Repr env l.memory B ∧ ∀ d key, SameFrom l.clock (B d key)
      ((A.serveAll env.limits env.host (order.map Request.call)).databases d key)

/-- What requests bring to the collections. -/
def broughtBy (order : List (Request κ)) : Nat := (order.map fun r => r.args.length).sum

/-- No collection is larger by more than `w`. -/
def AServer.GrownBy (w : Nat) (A B : AServer κ n) : Prop :=
  ∀ k, (∀ d, (A.databases d).Sized k) → ∀ d, (B.databases d).Sized (k + w)

/-- What carries the induction: the server once everything is written stands for an abstract one that
is like the one that has served the requests. -/
structure Live.Explained (env : Env m) (A : AServer κ n) (l : Live κ n m)
    (order : List (Request κ)) : Prop where
  valid : l.Valid env
  replies : ∀ k, List.Forall₂ (Explains env.host)
    ((A.transcript env.limits env.host order).filter fun p => decide (p.1.conn = k)) (l.seenBy k)
  state : ∃ (S : Server κ n m) (B : AServer κ n), l.Settles S ∧ S.Shows env B ∧
    B.Alike l.clock (A.serveAll env.limits env.host (order.map Request.call)) ∧
    A.GrownBy (broughtBy order) B

omit [DecidableEq κ] in
theorem AServer.GrownBy.mono {w w' : Nat} {A B : AServer κ n} (h : A.GrownBy w B) (hw : w ≤ w') :
    A.GrownBy w' B := fun k hsized d key e he =>
  (h k hsized d key e he).trans (Nat.add_le_add_left hw k)

/-- A request adds to a collection at most what it brings. -/
theorem Server.Shows.serve_sized {env : Env m} {S : Server κ n m} {A : AServer κ n} {k : Nat}
    (h : S.Shows env A) (hsized : ∀ d, (A.databases d).Sized k) (r : Request κ) :
    ∀ d, ((A.serve env.limits env.host r.call).2.databases d).Sized (k + r.args.length) := by
  obtain ⟨B, hB, hsizedB⟩ := Memcore.serve_sized h.databases hsized r
  obtain rfl : B = (A.serve env.limits env.host r.call).2.databases :=
    hB.unique (h.serve r).2.databases
  exact hsizedB

section Transcript

variable (lim : Limits) (host : Host)

theorem AServer.answers_snoc (q : Call κ) : ∀ (A : AServer κ n) (qs : List (Call κ)),
    A.answers lim host (qs ++ [q])
      = A.answers lim host qs ++ [((A.serveAll lim host qs).serve lim host q).1]
  | _, [] => rfl
  | A, q' :: qs => congrArg (_ :: ·) (answers_snoc q (A.serve lim host q').2 qs)

theorem AServer.serveAll_snoc (A : AServer κ n) (qs : List (Call κ)) (q : Call κ) :
    A.serveAll lim host (qs ++ [q]) = ((A.serveAll lim host qs).serve lim host q).2 := by
  rw [AServer.serveAll, List.foldl_append]
  rfl

theorem AServer.answers_length : ∀ (A : AServer κ n) (qs : List (Call κ)),
    (A.answers lim host qs).length = qs.length
  | _, [] => rfl
  | A, q :: qs => congrArg (· + 1) (answers_length (A.serve lim host q).2 qs)

theorem AServer.transcript_snoc (A : AServer κ n) (order : List (Request κ)) (r : Request κ) :
    A.transcript lim host (order ++ [r]) = A.transcript lim host order
      ++ [(r, ((A.serveAll lim host (order.map Request.call)).serve lim host r.call).1)] := by
  have hlen : order.length = (A.answers lim host (order.map Request.call)).length := by
    rw [AServer.answers_length, List.length_map]
  rw [transcript, List.map_append, List.map_singleton, AServer.answers_snoc, List.zip_append hlen]
  rfl

end Transcript

/-! ## What is written in the end -/

namespace Live

variable {env : Env m} {l l' : Live κ n m} {S : Server κ n m} {k : κ} {job : Job κ n m}

omit [DecidableEq κ] in
theorem Valid.holds_of_writes (h : l.Valid env) {d : Fin n} {i : Fin m} {ks : Keyspace}
    (hw : (l.workers k).Writes d i ks) : l.Holds (.conn k) (d, i) .write := by
  have hfits := h.fits k
  cases hworker : l.workers k with
  | writing job outcome shards todo =>
    rw [hworker] at hw hfits
    obtain ⟨rfl, hi, -⟩ := hw
    have hjob : (l.workers k).job = some job := by rw [hworker]; rfl
    exact hfits.2.1 ▸ Holds.of_job hjob (hfits.2.2 i hi)
  | idle | locking | reading | ran | releasing =>
    rw [hworker] at hw
    exact hw.elim

namespace Settles

omit [DecidableEq κ] in
/-- A step that writes nothing. -/
theorem quiet (h : l.Settles S) (hmemory : l'.memory = l.memory)
    (hwrites : ∀ k d i ks, (l'.workers k).Writes d i ks ↔ (l.workers k).Writes d i ks)
    (hsessions : l'.sessions = l.sessions) (hsettings : l'.settings = l.settings) :
    l'.Settles S := by
  refine ⟨fun hw => h.writing ((hwrites _ _ _ _).mp hw), fun hnone => ?_, ?_, ?_⟩
  · rw [hmemory]
    exact h.settled fun k ks hw => hnone k ks ((hwrites _ _ _ _).mpr hw)
  · rw [h.sessions, hsessions]
  · rw [h.settings, hsettings]

/-- A connection that is not writing goes on to something that is not writing. -/
theorem work (h : l.Settles S) {w : Worker κ n m}
    (hworkers : l'.workers = Function.update l.workers k w) (hmemory : l'.memory = l.memory)
    (hsessions : l'.sessions = l.sessions) (hsettings : l'.settings = l.settings)
    (hbefore : ∀ d i ks, ¬ (l.workers k).Writes d i ks) (hafter : ∀ d i ks, ¬ w.Writes d i ks) :
    l'.Settles S := by
  refine h.quiet hmemory (fun k' d i ks => ?_) hsessions hsettings
  rw [hworkers]
  by_cases hk : k' = k
  · subst hk
    rw [Function.update_self]
    exact iff_of_false (hafter d i ks) (hbefore d i ks)
  · rw [Function.update_of_ne hk]

end Settles

/-- A handler that has looked at its shards has seen what they will be: others write elsewhere. -/
theorem Settles.similar (h : l.Settles S) (hv : l.Valid env) {copy : DB m}
    {settings : Option Reloadable} (hw : l.workers k = .reading job copy settings []) :
    Similar job.held ⟨fun _ => copy, settings, l.sessions k, job.req.rng⟩ (S.context job.req) := by
  have hfits := hv.fits k
  rw [hw] at hfits
  obtain ⟨hk, -, hdb, -⟩ := hfits
  obtain ⟨hloaded, hseen⟩ := hv.seen hw
  refine ⟨?_, rfl, hloaded.trans h.settings.symm, fun i hi => ?_⟩
  · show l.sessions k = S.sessions job.req.conn
    rw [h.sessions, hk]
  · show copy i = S.databases (l.sessions k) i
    rw [hseen i hi List.not_mem_nil, hdb]
    refine (h.settled fun k' ks hwrites => ?_).symm
    by_cases hk' : k' = k
    · rw [hk', hw] at hwrites
      exact hwrites
    · exact hv.not_holds_of_write (hv.holds_of_writes hwrites)
        (fun heq => hk' (Actor.conn.inj heq)) (Holds.of_job (by rw [hw]; rfl) hi)

/-- **A handler runs**: the server once everything is written serves the request, and the reply is the
one the handler has given. -/
theorem Settles.run (h : l.Settles S) (hv : l.Valid env) {copy : DB m}
    {settings : Option Reloadable} (hw : l.workers k = .reading job copy settings []) :
    (l.runHandler env k job copy settings).Settles (S.serve env job.req).2 ∧
      ∃ reply, ((l.runHandler env k job copy settings).workers k).reply = [(job.req, reply)] ∧
        (isConfigGet env.host job.req.args = false → reply = (S.serve env job.req).1) := by
  have hfits := hv.fits k
  rw [hw] at hfits
  obtain ⟨hk, hres, hdb, hshards⟩ := hfits
  have hsim := h.similar hv hw
  obtain ⟨hconfined, hsteady⟩ := Job.confined hres hshards
  obtain ⟨hcmd, hacc, -⟩ := resolve_ok hres
  have hindex : (S.context job.req).index = job.db := hsim.index.symm.trans hdb
  -- a shard that the handler does not have
  have helsewhere {d : Fin n} {i : Fin m} (hi : d = job.db → i ∉ job.held) :
      (job.handler env (S.context job.req)).2.databases d i = S.databases d i := by
    by_cases hd : d = job.db
    · rw [hd, ← hindex]
      exact hconfined.outside _ i (hi hd)
    · exact congrFun (hconfined.others _ d fun heq => hd (heq.trans hindex)) i
  have hquiet {d : Fin n} {i : Fin m} (hnone : ∀ k' ≠ k, ∀ ks, ¬ (l.workers k').Writes d i ks) :
      S.databases d i = l.memory d i := by
    refine h.settled fun k' ks hwrites => ?_
    by_cases hk' : k' = k
    · rw [hk', hw] at hwrites
      exact hwrites
    · exact hnone k' hk' ks hwrites
  have hothers {k' : κ} (hk' : k' ≠ k) :
      (l.runHandler env k job copy settings).workers k' = l.workers k' := Function.update_of_ne hk' _ _
  have hsessions : (S.serve env job.req).2.sessions
      = (l.runHandler env k job copy settings).sessions := by
    rw [serve_job env S hres]
    show Function.update S.sessions job.req.conn _ = Function.update l.sessions k _
    rw [h.sessions, hk]
    exact congrArg _ (hconfined.index _ _ hsim).symm
  have hsettings : (S.serve env job.req).2.settings.isSome
      = (l.runHandler env k job copy settings).settings.isSome := by
    rw [serve_job env S hres]
    refine (hconfined.settings _).trans (h.settings.trans ?_)
    simp only [Live.runHandler]
    split
    · have hkept := hconfined.settings ⟨fun _ => copy, settings, l.sessions k, job.req.rng⟩
      exact (hv.seen hw).1.symm.trans hkept.symm
    · rfl
  cases hmode : lockMode job.cmd with
  | read =>
    have hworker : (l.runHandler env k job copy settings).workers k
        = .releasing job (replyOf (job.handler env ⟨fun _ => copy, settings, l.sessions k,
            job.req.rng⟩).1) := by
      simp only [Live.runHandler, Function.update_self, hmode, if_true]
      rfl
    have hreadOnly : job.cmd.readOnly = true := by
      cases hro : job.cmd.readOnly with
      | true => rfl
      | false => simp [lockMode, hro] at hmode
    have hlooks := run_looks (env.at job.req.now job.req.ord) hcmd hreadOnly hacc
    refine ⟨⟨fun {k' d i ks} hwrites => ?_, fun {d i} hnone => ?_, hsessions, hsettings⟩, _,
      by rw [hworker]; rfl, fun hconfig => ?_⟩
    · by_cases hk' : k' = k
      · rw [hk', hworker] at hwrites
        exact hwrites.elim
      · rw [hothers hk'] at hwrites
        rw [serve_job env S hres]
        exact (congrFun (congrFun (hlooks _).databases d) i).trans (h.writing hwrites)
    · rw [serve_job env S hres]
      refine (congrFun (congrFun (hlooks _).databases d) i).trans (hquiet fun k' hk' ks hwrites => ?_)
      exact hnone k' ks (by rwa [hothers hk'])
    · rw [serve_job env S hres, hsteady hconfig _ _ hsim]
  | write =>
    have hworker : (l.runHandler env k job copy settings).workers k
        = .writing job (job.handler env ⟨fun _ => copy, settings, l.sessions k, job.req.rng⟩).1
            ((job.handler env ⟨fun _ => copy, settings, l.sessions k,
              job.req.rng⟩).2.databases job.db) job.held := by
      simp only [Live.runHandler, Function.update_self, hmode, reduceCtorEq, if_false]
      rfl
    refine ⟨⟨fun {k' d i ks} hwrites => ?_, fun {d i} hnone => ?_, hsessions, hsettings⟩, _,
      by rw [hworker]; rfl, fun hconfig => ?_⟩
    · rw [serve_job env S hres]
      by_cases hk' : k' = k
      · rw [hk', hworker] at hwrites
        obtain ⟨rfl, hi, rfl⟩ := hwrites
        have hinside := hconfined.inside _ _ hsim i hi
        rw [show (⟨fun _ => copy, settings, l.sessions k, job.req.rng⟩ : Context n m).index
          = job.db from hdb] at hinside
        exact hinside.symm
      · rw [hothers hk'] at hwrites
        refine (helsewhere fun hd hi => ?_).trans (h.writing hwrites)
        subst hd
        exact hv.not_holds_of_write (hv.holds_of_writes hwrites)
          (fun heq => hk' (Actor.conn.inj heq)) (Holds.of_job (by rw [hw]; rfl) hi)
    · rw [serve_job env S hres]
      refine (helsewhere fun hd hi => ?_).trans (hquiet fun k' hk' ks hwrites => ?_)
      · exact hnone k _ (by rw [hworker]; exact ⟨hd.symm, hi, rfl⟩)
      · exact hnone k' ks (by rwa [hothers hk'])
    · rw [serve_job env S hres, hsteady hconfig _ _ hsim]

/-- A handler writes one of its shards. -/
theorem Settles.write (h : l.Settles S) {outcome : Result Reply} {shards : DB m}
    {todo : List (Fin m)} {i : Fin m} (hw : l.workers k = .writing job outcome shards todo)
    (hi : i ∈ todo)
    (hworkers : l'.workers = Function.update l.workers k (.writing job outcome shards (todo.erase i)))
    (hmemory : l'.memory = Function.update l.memory job.db
      (Function.update (l.memory job.db) i (shards i)))
    (hsessions : l'.sessions = l.sessions) (hsettings : l'.settings = l.settings) :
    l'.Settles S := by
  have hworker : l'.workers k = .writing job outcome shards (todo.erase i) := by
    rw [hworkers, Function.update_self]
  have hothers {k' : κ} (hk' : k' ≠ k) : l'.workers k' = l.workers k' := by
    rw [hworkers, Function.update_of_ne hk']
  refine ⟨fun {k' d j ks} hwrites => ?_, fun {d j} hnone => ?_, h.sessions.trans hsessions.symm,
    by rw [h.settings, hsettings]⟩
  -- what is still to be written was to be written before
  · by_cases hk' : k' = k
    · rw [hk', hworker] at hwrites
      refine h.writing (k := k) ?_
      rw [hw]
      exact ⟨hwrites.1, List.mem_of_mem_erase hwrites.2.1, hwrites.2.2⟩
    · rw [hothers hk'] at hwrites
      exact h.writing hwrites
  -- the shard just written now shows what it was to become
  · by_cases hwritten : d = job.db ∧ j = i
    · obtain ⟨rfl, rfl⟩ := hwritten
      rw [hmemory, Function.update_self, Function.update_self]
      refine h.writing (k := k) ?_
      rw [hw]
      exact ⟨rfl, hi, rfl⟩
    · have hkept : l'.memory d j = l.memory d j := by
        simp only [hmemory, Function.update_apply]
        grind
      rw [hkept]
      refine h.settled fun k' ks hwrites => ?_
      by_cases hk' : k' = k
      · rw [hk', hw] at hwrites
        obtain ⟨rfl, hj, hks⟩ := hwrites
        have hleft : j ∈ todo.erase i :=
          (List.mem_erase_of_ne fun hji => hwritten ⟨rfl, hji⟩).mpr hj
        exact hnone k ks (by rw [hworker]; exact ⟨rfl, hleft, hks⟩)
      · exact hnone k' ks (by rwa [hothers hk'])

end Live

/-! ## Active expiry -/

/-- One shard of a database takes out hidden entries and nothing else. -/
theorem DB.Repr.sampleShard {route : Bytes → Fin m} {lim : Limits} {db : DB m} {a : ADB}
    (h : DB.Repr route lim db a) (i : Fin m) (ord : MapOrder) (now : Time) (limit : Int) :
    ∃ a', DB.Repr route lim (Function.update db i ((db i).sampleExpired ord now limit).2) a' ∧
      ∀ key, Swept now (a key) (a' key) := by
  obtain ⟨part, hpart, hswept⟩ := (h i).sampleExpired ord now limit
  let swept : ADB := fun key => if route key = i then part key else a key
  have hhere {key : Bytes} (hkey : route key = i) : swept key = part key := if_pos hkey
  have hthere {key : Bytes} (hkey : route key ≠ i) : swept key = a key := if_neg hkey
  refine ⟨swept, fun j => ?_, fun key => ?_⟩
  · by_cases hj : j = i
    · subst hj
      have hsame : shardPart route swept j = part := by
        funext key
        unfold shardPart
        split
        next heq => exact hhere heq
        next hne =>
          -- a key of another shard was never here
          rcases hswept key with hkept | ⟨hnone, -⟩
          · rw [hkept, shardPart, if_neg hne]
          · exact hnone.symm
      rw [Function.update_self, hsame]
      exact hpart
    · have hsame : shardPart route swept j = shardPart route a j := by
        funext key
        unfold shardPart
        split
        next heq => exact hthere fun hi => hj (heq.symm.trans hi)
        next => rfl
      rw [Function.update_of_ne hj, hsame]
      exact h j
  · have hkey := hswept key
    by_cases hi : route key = i
    · rw [hhere hi]
      rwa [shardPart, if_pos hi] at hkey
    · rw [hthere hi]
      exact .inl rfl

namespace Live

variable {env : Env m} {l l' : Live κ n m} {S : Server κ n m}

omit [DecidableEq κ] in
/-- A shard that active expiry has locked is swept: nobody is writing it, and no reader to come tells
the difference. -/
theorem Settles.sample (h : l.Settles S) (hv : l.Valid env) {B : AServer κ n}
    (hshows : S.Shows env B) {x : Fin n × Fin m} (hheld : l.sweeper.held = some x) (ord : MapOrder)
    {now : Time} (hnow : now ≤ l.clock) (limit : Int) {sweeper : Sweeper n m} :
    ∃ (S' : Server κ n m) (B' : AServer κ n),
      ({ l.store x.1 x.2 ((l.memory x.1 x.2).sampleExpired ord now limit).2 with
        sweeper } : Live κ n m).Settles S' ∧ S'.Shows env B' ∧ B'.Alike l.clock B ∧
      B.GrownBy 0 B' := by
  obtain ⟨d, i⟩ := x
  -- the sweeper holds the write lock, so no request is writing in this shard
  have hfree (k : κ) (ks : Keyspace) : ¬ (l.workers k).Writes d i ks := fun hwrites =>
    hv.not_holds_of_write (hv.holds_of_writes hwrites) (fun heq => by cases heq)
      (show l.Holds .sweeper (d, i) .write from ⟨hheld, rfl⟩)
  have hmemory : S.databases d i = l.memory d i := h.settled hfree
  obtain ⟨a, ha, hswept⟩ := (hshows.databases d).sampleShard i ord now limit
  -- the served state loses the same entries, which had all run out
  refine ⟨{ S with databases := Function.update S.databases d (Function.update (S.databases d) i
      ((l.memory d i).sampleExpired ord now limit).2) },
    { B with databases := Function.update B.databases d a }, ⟨fun {k d' j ks} hwrites => ?_,
      fun {d' j} hnone => ?_, h.sessions, h.settings⟩, ⟨fun d' => ?_, hshows.settings,
      hshows.sessions⟩, ⟨fun d' key t ht => ?_, rfl, rfl⟩, fun k hsized d' key e he => ?_⟩
  · have hold : S.databases d' j = ks := h.writing hwrites
    by_cases hd : d' = d
    · subst hd
      by_cases hj : j = i
      · subst hj
        exact absurd hwrites (hfree k ks)
      · simp only [Function.update_self, Function.update_of_ne hj, hold]
    · simp only [Function.update_of_ne hd, hold]
  · have hold : S.databases d' j = l.memory d' j := h.settled hnone
    simp only [Live.store]
    by_cases hd : d' = d
    · subst hd
      by_cases hj : j = i
      · subst hj
        simp only [Function.update_self]
      · simp only [Function.update_self, Function.update_of_ne hj, hold]
    · simp only [Function.update_of_ne hd, hold]
  · by_cases hd : d' = d
    · subst hd
      simp only [Function.update_self]
      rwa [hmemory] at ha
    · simp only [Function.update_of_ne hd]
      exact hshows.databases d'
  · by_cases hd : d' = d
    · subst hd
      simp only [Function.update_self]
      exact (hswept key).liveAt_eq (hnow.trans ht)
    · simp only [Function.update_of_ne hd]
  · by_cases hd : d' = d
    · subst hd
      simp only [Function.update_self] at he
      exact hsized d' key e ((hswept key).eq_some he)
    · simp only [Function.update_of_ne hd] at he
      exact hsized d' key e he

/-! ## One step -/

theorem seenBy_congr {k : κ} (hworker : l'.workers k = l.workers k)
    (hanswered : l'.answered = l.answered) : l'.seenBy k = l.seenBy k := by
  unfold seenBy
  rw [hworker, hanswered]

/-- A connection goes on, and its reply is as certain as it was. -/
theorem seenBy_of_work {k : κ} {w : Worker κ n m} (hworkers : l'.workers = Function.update l.workers k w)
    (hanswered : l'.answered = l.answered) (hreply : w.reply = (l.workers k).reply) (k' : κ) :
    l'.seenBy k' = l.seenBy k' := by
  unfold seenBy
  rw [hworkers, hanswered]
  by_cases hk' : k' = k
  · subst hk'
    rw [Function.update_self, hreply]
  · rw [Function.update_of_ne hk']

namespace Explained

variable {A : AServer κ n} {order : List (Request κ)} {k : κ}

/-- A step that no client can see. -/
theorem quiet (h : Explained env A l order) (hvalid : l'.Valid env)
    (hseen : ∀ k, l'.seenBy k = l.seenBy k) (hsettles : ∀ {S}, l.Settles S → l'.Settles S)
    (hclock : l.clock ≤ l'.clock) : Explained env A l' order := by
  obtain ⟨S, B, hS, hB, halike, hgrown⟩ := h.state
  refine ⟨hvalid, fun k => ?_, S, B, hsettles hS, hB, halike.mono hclock, hgrown⟩
  rw [hseen k]
  exact h.replies k

/-- A step of a connection that it cannot see either. -/
theorem work (h : Explained env A l order) (hvalid : l'.Valid env) {w : Worker κ n m}
    (hworkers : l'.workers = Function.update l.workers k w) (hanswered : l'.answered = l.answered)
    (hreply : w.reply = (l.workers k).reply) (hmemory : l'.memory = l.memory)
    (hsessions : l'.sessions = l.sessions) (hsettings : l'.settings = l.settings)
    (hclock : l'.clock = l.clock) (hbefore : ∀ d i ks, ¬ (l.workers k).Writes d i ks)
    (hafter : ∀ d i ks, ¬ w.Writes d i ks) : Explained env A l' order := by
  exact h.quiet hvalid (seenBy_of_work hworkers hanswered hreply)
    (fun hS => hS.work hworkers hmemory hsessions hsettings hbefore hafter) hclock.ge

/-- A step in the background. -/
theorem background (h : Explained env A l order) (hvalid : l'.Valid env)
    (hworkers : l'.workers = l.workers) (hanswered : l'.answered = l.answered)
    (hmemory : l'.memory = l.memory) (hsessions : l'.sessions = l.sessions)
    (hsettings : l'.settings = l.settings) (hclock : l.clock ≤ l'.clock) :
    Explained env A l' order := by
  refine h.quiet hvalid (fun k => seenBy_congr (congrFun hworkers k) hanswered)
    (fun hS => hS.quiet hmemory (fun k d i ks => by rw [hworkers]) hsessions hsettings) hclock

/-- A request counts. -/
theorem count (h : Explained env A l order) (hvalid : l'.Valid env) {r : Request κ} (reply : Reply)
    (hseen : l'.seenBy r.conn = l.seenBy r.conn ++ [(r, reply)])
    (hothers : ∀ k ≠ r.conn, l'.seenBy k = l.seenBy k)
    (hreply : isConfigGet env.host r.args = false → ((A.serveAll env.limits env.host (order.map
      Request.call)).serve env.limits env.host r.call).1.Shows reply)
    (hstate : ∃ (S : Server κ n m) (B : AServer κ n), l'.Settles S ∧ S.Shows env B ∧
      B.Alike l'.clock ((A.serveAll env.limits env.host (order.map Request.call)).serve env.limits
        env.host r.call).2 ∧ A.GrownBy (broughtBy order + r.args.length) B) :
    Explained env A l' (order ++ [r]) := by
  refine ⟨hvalid, fun k => ?_, ?_⟩
  · rw [AServer.transcript_snoc, List.filter_append]
    by_cases hk : k = r.conn
    · subst hk
      rw [hseen, List.filter_cons_of_pos (by simp), List.filter_nil]
      exact List.rel_append (h.replies r.conn) (.cons ⟨rfl, hreply⟩ .nil)
    · rw [hothers k hk, List.filter_cons_of_neg (by simpa using Ne.symm hk), List.filter_nil,
        List.append_nil]
      exact h.replies k
  · have hbrought : broughtBy (order ++ [r]) = broughtBy order + r.args.length := by
      simp [broughtBy]
    rw [List.map_append, List.map_singleton, AServer.serveAll_snoc, hbrought]
    exact hstate

/-- A request without a command counts when it is rejected. -/
theorem reject (h : Explained env A l order) {r : Request κ} {reply : Reply}
    (hidle : l.workers r.conn = .idle)
    (hres : (resolve r.args : Except Reply (Command n m)) = .error reply)
    (hvalid : { l with answered := l.answered ++ [(r, reply)] }.Valid env) :
    Explained env A { l with answered := l.answered ++ [(r, reply)] } (order ++ [r]) := by
  obtain ⟨S, B, hS, hB, halike, hgrown⟩ := h.state
  have hserve (A : AServer κ n) :
      A.serve env.limits env.host r.call = (.exact reply, A) := by
    unfold AServer.serve
    rw [show resolveRow r.call.args = .error reply from resolveRow_error hres]
  refine h.count hvalid reply ?_ (fun k hk => ?_) (fun _ => ?_)
    ⟨S, B, ?_, hB, ?_, hgrown.mono (Nat.le_add_right _ _)⟩
  · simp [seenBy, hidle, Worker.reply]
  · simp [seenBy, hk.symm]
  · rw [hserve]
    rfl
  · exact hS.quiet rfl (fun _ _ _ _ => Iff.rfl) rfl rfl
  · rwa [hserve]

/-- Any other request counts when its handler runs. -/
theorem run (h : Explained env A l order) {job : Job κ n m} {copy : DB m}
    {settings : Option Reloadable} (hw : l.workers k = .reading job copy settings [])
    (hnow : job.req.now = l.clock) :
    Explained env A (l.runHandler env k job copy settings) (order ++ [job.req]) := by
  obtain ⟨S, B, hS, hB, halike, hgrown⟩ := h.state
  obtain ⟨hS', reply, hworker, hreply⟩ := hS.run h.valid hw
  have hfits := h.valid.fits k
  rw [hw] at hfits
  obtain ⟨hk, -⟩ := hfits
  obtain ⟨hshows, hB'⟩ := hB.serve job.req
  rw [← hnow] at halike
  obtain ⟨hanswer, halike'⟩ := halike.serve (q := job.req.call) env.limits env.host
  refine h.count (h.valid.run hw) reply ?_ (fun k' hk' => ?_) (fun hconfig => ?_)
    ⟨(S.serve env job.req).2, _, hS', hB', ?_, fun bound hsized => ?_⟩
  · rw [hk]
    unfold seenBy
    rw [hworker, hw]
    exact (congrArg (· ++ [_]) (List.append_nil _)).symm
  · rw [hk] at hk'
    unfold seenBy
    rw [show (l.runHandler env k job copy settings).workers k' = l.workers k' from
      Function.update_of_ne hk' _ _]
    rfl
  · rw [← hanswer, hreply hconfig]
    exact hshows
  · rw [show (l.runHandler env k job copy settings).clock = job.req.call.now from hnow.symm]
    exact halike'
  · rw [← Nat.add_assoc]
    exact hB.serve_sized (hgrown bound hsized) job.req

/-- A reply that was certain is given. -/
theorem finish (h : Explained env A l order) {job : Job κ n m} {reply : Reply}
    (hw : l.workers k = .releasing job reply)
    (hvalid : { l.setWorker k .idle with answered := l.answered ++ [(job.req, reply)] }.Valid env) :
    Explained env A { l.setWorker k .idle with answered := l.answered ++ [(job.req, reply)] }
      order := by
  have hfits := h.valid.fits k
  rw [hw] at hfits
  have hk : job.req.conn = k := hfits
  refine h.quiet hvalid (fun k' => ?_) (fun hS => ?_) le_rfl
  · show List.filter _ (l.answered ++ [(job.req, reply)])
        ++ (Function.update l.workers k _ k').reply = _ ++ (l.workers k').reply
    by_cases hk' : k' = k
    · rw [hk', Function.update_self, hw]
      simp [Worker.reply, hk]
    · rw [Function.update_of_ne hk']
      simp [hk, Ne.symm hk']
  · exact hS.work rfl rfl rfl rfl (fun d i ks hwrites => by rw [hw] at hwrites; exact hwrites)
      fun d i ks hwrites => hwrites

/-- **A step, whoever makes it, is explained by the order so far or by one more request.** -/
theorem step (h : Explained env A l order) {who : Actor κ} (hstep : LiveStep env l who l') :
    ∃ more, Explained env A l' (order ++ more) := by
  have hvalid := h.valid.step hstep
  have hsame (h' : Explained env A l' order) : ∃ more, Explained env A l' (order ++ more) :=
    ⟨[], by rwa [List.append_nil]⟩
  cases hstep with
  | reject hidle hres => exact ⟨_, h.reject hidle hres hvalid⟩
  | run hw hnow => exact ⟨_, h.run hw hnow⟩
  | finish hw hheld => exact hsame (h.finish hw hvalid)
  | start hidle hres hshards =>
    exact hsame (h.work hvalid rfl rfl (by rw [hidle]; rfl) rfl rfl rfl rfl
      (fun d i ks hw => by rw [hidle] at hw; exact hw) fun d i ks hw => hw)
  | acquire hw _ | enter hw _ | look hw _ | append hw | release hw _ =>
    exact hsame (h.work hvalid rfl rfl (by rw [hw]; rfl) rfl rfl rfl rfl
      (fun d i ks hwrites => by rw [hw] at hwrites; exact hwrites) fun d i ks hw => hw)
  | @write k job outcome shards todo i hw hi =>
    refine hsame (h.quiet hvalid (fun k' => ?_) (fun hS => hS.write hw hi rfl rfl rfl rfl) le_rfl)
    show _ ++ (Function.update l.workers k _ k').reply = _ ++ (l.workers k').reply
    by_cases hk' : k' = k
    · rw [hk', Function.update_self, hw]
      rfl
    · rw [Function.update_of_ne hk']
      rfl
  | @wrote k job outcome shards hw =>
    refine hsame (h.work hvalid rfl rfl ?_ rfl rfl rfl rfl (fun d i ks hwrites => ?_)
      fun d i ks hwrites => ?_)
    · rw [hw]
      split <;> rfl
    · rw [hw] at hwrites
      cases hwrites.2.1
    · split at hwrites <;> exact hwrites
  | nextGen | lock | serialize | rotate | unlock | done | wake | sweepLock | sweepUnlock | rest =>
    exact hsame (h.background hvalid rfl rfl rfl rfl rfl le_rfl)
  | @sample now limit x todo ord hs =>
    -- the sweeper changes the entries, but none that is alive
    obtain ⟨S, B, hS, hB, halike, hgrown⟩ := h.state
    obtain ⟨S', B', hS', hB', hswept, hless⟩ := hS.sample h.valid hB (by rw [hs]; rfl) ord
      (h.valid.past now (by rw [hs]; rfl)) limit
    exact hsame ⟨hvalid, h.replies, S', B', hS', hB', hswept.trans halike, fun bound hsized =>
      hless _ (hgrown bound hsized)⟩
  | tick hle => exact hsame (h.background hvalid rfl rfl rfl rfl rfl hle)

end Explained

/-- Before the first request there is nothing to explain. -/
theorem explained_opened {A : AServer κ n} (hshows : S.Shows env A) (gen : Nat) (clock : Time) :
    Explained env A (Live.opened S.databases S.settings S.sessions gen clock) [] where
  valid := Valid.opened env S.databases S.settings S.sessions gen clock
  replies _ := .nil
  state := ⟨S, A, ⟨fun hw => hw.elim, fun _ => rfl, rfl, rfl⟩, hshows, AServer.Alike.refl _ _,
    fun _ hsized => hsized⟩

theorem explained_start (env : Env m) (settings : Option Reloadable) (sessions : κ → Fin n) (gen : Nat)
    (clock : Time) : Explained env (AServer.empty settings sessions)
      (Live.start settings sessions gen clock) [] :=
  explained_opened (Server.empty_shows env settings sessions) gen clock

/-- Nobody is writing: what is stored stands for an abstract server. -/
theorem Explained.settled {A : AServer κ n} {order : List (Request κ)} (h : Explained env A l order)
    (hquiet : ∀ k d i ks, ¬ (l.workers k).Writes d i ks) :
    ∃ B : AServer κ n, Databases.Repr env l.memory B.databases ∧
      B.Alike l.clock (A.serveAll env.limits env.host (order.map Request.call)) ∧
      A.GrownBy (broughtBy order) B := by
  obtain ⟨S, B, hS, hB, halike, hgrown⟩ := h.state
  have hmemory : l.memory = S.databases := by
    funext d i
    exact (hS.settled fun k ks => hquiet k d i ks).symm
  refine ⟨B, ?_, halike, hgrown⟩
  rw [hmemory]
  exact hB.databases

theorem Explained.linearizes {A : AServer κ n} {order : List (Request κ)}
    (h : Explained env A l order) : Linearizes env A l order where
  replies := h.replies
  databases hquiet := by
    obtain ⟨B, hrepr, halike, -⟩ := h.settled hquiet
    exact ⟨B.databases, hrepr, halike.databases⟩

/-- The requests of a connection that count are those it has seen replies of. -/
theorem Explained.requests {A : AServer κ n} {order : List (Request κ)} (h : Explained env A l order)
    (k : κ) : (l.seenBy k).map Prod.fst = order.filter fun r => decide (r.conn = k) := by
  have hfst {ps : List (Request κ × AReply)} {as : List (Request κ × Reply)}
      (hps : List.Forall₂ (Explains env.host) ps as) : as.map Prod.fst = ps.map Prod.fst := by
    induction hps with
    | nil => rfl
    | cons hp _ ih => rw [List.map_cons, List.map_cons, ih, hp.1]
  have hlen : order.length ≤ (A.answers env.limits env.host (order.map Request.call)).length := by
    rw [AServer.answers_length, List.length_map]
  have hall : (A.transcript env.limits env.host order).map Prod.fst = order :=
    List.map_fst_zip hlen
  rw [hfst (h.replies k)]
  conv_rhs => rw [← hall, List.filter_map]
  rfl

end Live

/-! ## Runs -/

/-- **The server is linearizable.** Any number of connections, databases and shards, any hash, any
interleaving of connections that lock, look and write shard by shard, of compactions, of active expiry
and of the clock, which a handler reads once, in a run of any length from empty databases. There is a
sequence of orders, one for every moment, each an initial part of the later ones, such that at every
moment serving its requests one after the other with the abstract server explains every reply a
connection has got, those of CONFIG GET apart, and every entry that a reader can still find. -/
theorem linearizable (env : Env m) (settings : Option Reloadable) (sessions : κ → Fin n) (gen : Nat)
    (clock : Time) {st : ℕ → Live κ n m} (hstart : st 0 = Live.start settings sessions gen clock)
    (hrun : RunsOn (LiveStep env) st) :
    ∃ order : ℕ → List (Request κ), (∀ i j, i ≤ j → order i <+: order j) ∧
      ∀ i, Linearizes env (AServer.empty settings sessions) (st i) (order i) := by
  have hfirst : Live.Explained env (AServer.empty settings sessions) (st 0) [] := by
    rw [hstart]
    exact Live.explained_start env settings sessions gen clock
  obtain ⟨order, hgrows, horder⟩ := hrun.exists_history hfirst fun h hstep => h.step hstep
  exact ⟨order, hgrows, fun i => (horder i).linearizes⟩

omit [DecidableEq κ] in
/-- Nobody holds a lock. -/
theorem Live.free_of_unlocked {l : Live κ n m} {who : Actor κ} {x : Fin n × Fin m} {mode : LockMode}
    (hworkers : ∀ k, (l.workers k).job.elim [] Job.held = [])
    (hcomp : l.compactor.held = []) (hsweeper : l.sweeper.held = none) : l.Free who x mode := by
  intro w b _ hw
  cases w with
  | conn k =>
    obtain ⟨job, hjob, -, hi, -⟩ := hw
    have hheld := hworkers k
    rw [hjob] at hheld
    rw [show job.held = [] from hheld] at hi
    cases hi
  | compactor =>
    rw [Live.Holds, hcomp] at hw
    cases hw.1
  | sweeper =>
    rw [Live.Holds, hsweeper] at hw
    cases hw.1
  | clock => exact hw.elim

/-- Two connections set one key. The second waits for active expiry, which waits for the first. -/
theorem linearizable_sets : ∃ (st : ℕ → Live Bool 1 1) (order : ℕ → List (Request Bool)) (i : ℕ),
    RunsOn (LiveStep (Env.single 0)) st ∧ (st i).answered.length = 2 ∧
      (∀ i j, i ≤ j → order i <+: order j) ∧
      ∀ i, Linearizes (Env.single 0) (AServer.empty (some ⟨0, 20, false⟩) fun _ => 0) (st i)
        (order i) := by
  have h₀ : Run (LiveStep (Env.single 0)) _ _ _ :=
    .nil (Live.start (some ⟨0, 20, false⟩) (fun _ => 0) 0 0 : Live Bool 1 1)
  have h₁ := h₀.snoc (.start (r := setRequest true "1") rfl rfl rfl)
  have h₂ := h₁.snoc (.acquire (k := true) rfl
    (Live.free_of_unlocked (fun k => by cases k <;> rfl) rfl rfl))
  have h₃ := h₂.snoc (.enter (k := true) rfl fun _ => Keyspace.new)
  -- the second request and the sweeper start while the first is at work
  have h₄ := h₃.snoc (.start (r := setRequest false "2") rfl rfl rfl)
  have h₅ := h₄.snoc (.wake rfl rfl (by decide))
  have h₆ := h₅.snoc (.look (k := true) (i := 0) rfl (by decide))
  have h₇ := h₆.snoc (.run (k := true) rfl rfl)
  have h₈ := h₇.snoc (.write (k := true) (i := 0) rfl (by decide))
  have h₉ := h₈.snoc (.wrote (k := true) rfl)
  have h₁₀ := h₉.snoc (.append (k := true) rfl)
  have h₁₁ := h₁₀.snoc (.release (k := true) rfl (show [0] = [] ++ [0] from rfl))
  -- the sweeper gets the lock before the second request
  have h₁₂ := h₁₁.snoc (.sweepLock rfl
    (Live.free_of_unlocked (fun k => by cases k <;> rfl) rfl rfl))
  have h₁₃ := h₁₂.snoc (.finish (k := true) rfl rfl)
  have h₁₄ := h₁₃.snoc (.sample MapOrder.default rfl)
  have h₁₅ := h₁₄.snoc (.sweepUnlock rfl)
  have h₁₆ := h₁₅.snoc (.acquire (k := false) rfl
    (Live.free_of_unlocked (fun k => by cases k <;> rfl) rfl rfl))
  have h₁₇ := h₁₆.snoc (.enter (k := false) rfl fun _ => Keyspace.new)
  have h₁₈ := h₁₇.snoc (.look (k := false) (i := 0) rfl (by decide))
  have h₁₉ := h₁₈.snoc (.run (k := false) rfl rfl)
  have h₂₀ := h₁₉.snoc (.write (k := false) (i := 0) rfl (by decide))
  have h₂₁ := h₂₀.snoc (.wrote (k := false) rfl)
  have h₂₂ := h₂₁.snoc (.append (k := false) rfl)
  have h₂₃ := h₂₂.snoc (.release (k := false) rfl (show [0] = [] ++ [0] from rfl))
  have h₂₄ := h₂₃.snoc (.finish (k := false) rfl rfl)
  obtain ⟨st, hstart, hend, hsteps⟩ := h₂₄.exists_runsOn
  obtain ⟨order, hgrows, horder⟩ :=
    linearizable (Env.single 0) (some ⟨0, 20, false⟩) (fun _ => 0) 0 0 hstart hsteps
  exact ⟨st, order, _, hsteps, by rw [hend]; rfl, hgrows, horder⟩

end Memcore
