import Memcore.Server.Recover

/-!
# A server and its log

The live server, one request after the other: every connection has its own selected database, and a
write that succeeds is appended to the log. `recover` replays the log at some later time.

Replaying does not depend on when it happens as long as no logged write builds on an entry that was
live then and is expired at the time of recovery (`replay_undisturbed`). Where one does, the replayed
write finds no entry and does something else (`replay_persist_lost`).
-/

namespace Memcore

open Go Prog

variable {n m : Nat} {κ : Type}

/-- The environment at a reading of the clock. -/
def Env.at (env : Env m) (now : Time) (ord : MapOrder) : Env m := { env with now, ord }

/-- A request of a connection, with what the runtime chose while it ran. -/
structure Request (κ : Type) where
  conn : κ
  args : List Bytes
  /-- the clock while the handler runs -/
  now : Time
  /-- the clock when `persistArgs` reads it -/
  logNow : Time
  ord : MapOrder
  rng : Rng

/-- The live server: `sessions` is the database each connection has selected. -/
structure Server (κ : Type) (n m : Nat) where
  databases : Fin n → DB m
  settings : Option Reloadable
  sessions : κ → Fin n
  log : List (Logged n)

namespace Server

/-- A server before its first request. -/
def empty (settings : Option Reloadable) (sessions : κ → Fin n) : Server κ n m :=
  ⟨fun _ _ => Keyspace.new, settings, sessions, []⟩

/-- The context a request runs in. -/
def context (s : Server κ n m) (r : Request κ) : Context n m :=
  ⟨s.databases, s.settings, s.sessions r.conn, r.rng⟩

variable [DecidableEq κ]

/-- `Server.dispatch` for one request: the reply and the server after it. -/
def serve (env : Env m) (s : Server κ n m) (r : Request κ) : Reply × Server κ n m :=
  let (reply, logged, c) := request (env.at r.now r.ord) r.logNow r.args (s.context r)
  (reply, ⟨c.databases, c.settings, Function.update s.sessions r.conn c.index,
    s.log ++ logged.toList⟩)

/-- Requests one after the other. -/
def serveAll (env : Env m) (s : Server κ n m) (rs : List (Request κ)) : Server κ n m :=
  rs.foldl (fun s r => (s.serve env r).2) s

end Server

/-- Replaying a log. -/
def replayLog (env : Env m) (log : List (Logged n)) (c : Context n m) :
    Context n m × Option RecoverFailure :=
  callEach (fun c l => replay env c (Int64.ofNat l.db) l.args) log c

/-! ## One request -/

/-- The selection stays as it is, except by SELECT. -/
theorem run_index {cmd : Command n m} (hcmd : cmd ∈ registry) (env : Env m) {args : List Bytes}
    (hacc : cmd.accepts args.length = true) (c : Context n m) :
    (cmd.run env args c).2.index = c.index ∨
      cmd = .plain "select" 2 fun _ => cmdSelect := by
  cases takes_of_accepts hcmd hacc with
  | @single name key rest hkey =>
    have htouch : Touches Finset.univ (cmd.run env (name :: key :: rest)) :=
      singleKey_touches env (Finset.mem_univ _) rest cmd hcmd hkey
    exact .inl (htouch.frame c).index
  | @multi name key keys hfirst hlast _ _ =>
    have htouch : Touches Finset.univ (cmd.run env (name :: key :: keys)) :=
      multiKey_touches env (fun _ _ => Finset.mem_univ _) cmd hcmd hfirst hlast
    exact .inl (htouch.frame c).index
  | whole his =>
    subst his
    exact .inl ((cmdFlushDB_touches args).frame c).index
  | ping his =>
    subst his
    exact .inl (cmdPing_looks args c).index
  | select his => exact .inr his
  | config his =>
    subst his
    exact .inl (cmdConfig_looks env _ c).index

/-- A write, seen from the database that is selected after it, which is the one it is logged for. -/
theorem run_refines_selected {cmd : Command n m} (hcmd : cmd ∈ registry) {env : Env m}
    {args : List Bytes} (hacc : cmd.accepts args.length = true) {c : Context n m}
    {A : Fin n → ADB} (h : Databases.Repr env c.databases A) {d : Fin n}
    (hd : (cmd.run env args c).2.index = d) :
    Databases.Repr env (cmd.run env args c).2.databases
        (Function.update A d (cmd.effect env.now env.limits env.host args (A d))) ∧
      (cmd.readOnly = false →
        ((∃ r, (cmd.run env args c).1 = .ok r) ↔ ¬ cmd.Crashes env.now args (A d))) := by
  rcases run_index hcmd env hacc c with hsame | rfl
  · obtain rfl : c.index = d := hsame.symm.trans hd
    exact ⟨run_refines hcmd hacc h, fun _ => run_completes_iff hcmd hacc (h _)⟩
  · have hname : ¬ (ascii "select" = ascii "lpop" ∨ ascii "select" = ascii "rpop") := by decide
    have heff (k : Fin n) : (Command.plain "select" 2 fun _ => cmdSelect : Command n m).effect
        env.now env.limits env.host args (A k) = A k :=
      effect_none rfl (show ¬ (ascii "select" = _ ∨ ascii "select" = _) by decide) fun _ => rfl
    have hrun := run_refines hcmd hacc h
    rw [heff, Function.update_eq_self] at hrun ⊢
    refine ⟨hrun, fun hwrite => ?_⟩
    rw [run_completes_iff hcmd hacc (h c.index)]
    exact iff_of_true (not_crashes hname) (not_crashes hname)

/-- A request that is not logged changes no database. -/
theorem run_not_logged {cmd : Command n m} (hcmd : cmd ∈ registry) (env : Env m)
    {args : List Bytes} (hacc : cmd.accepts args.length = true) (c : Context n m)
    (h : ¬ isLogged cmd (cmd.run env args c).1 = true) : Unchanged c (cmd.run env args c).2 := by
  cases hro : cmd.readOnly with
  | true => exact run_looks env hcmd hro hacc c
  | false =>
    refine run_failsClean env hcmd hacc c fun r hr => ?_
    simpa [isLogged, hro, hr, isFailure] using h

/-- What a request does: nothing that shows, or its effect, with one entry in the log. -/
theorem request_refines {env : Env m} {c : Context n m} {A : Fin n → ADB}
    (h : Databases.Repr env c.databases A) (logNow : Time) (args : List Bytes) :
    ((request env logNow args c).2.1 = none ∧
      (request env logNow args c).2.2.databases = c.databases) ∨
    ∃ cmd : Command n m, resolve args = .ok cmd ∧ cmd.readOnly = false ∧
      (request env logNow args c).2.1
        = some ⟨(request env logNow args c).2.2.index, persistArgs logNow cmd args⟩ ∧
      ¬ cmd.Crashes env.now args (A (request env logNow args c).2.2.index) ∧
      Databases.Repr env (request env logNow args c).2.2.databases
        (effectOf env (request env logNow args c).2.2.index args A) := by
  unfold request effectOf
  cases hres : (resolve args : Except Reply (Command n m)) with
  | error reply => exact .inl ⟨rfl, rfl⟩
  | ok cmd =>
    obtain ⟨hcmd, hacc, -⟩ := resolve_ok hres
    obtain ⟨hrepr, hok⟩ := run_refines_selected hcmd hacc h rfl
    simp only [execute]
    by_cases hlog : isLogged cmd (cmd.run env args c).1 = true
    · have hparts := hlog
      simp only [isLogged, Bool.and_eq_true, Bool.not_eq_true'] at hparts
      obtain ⟨hwrite, hgood⟩ := hparts
      refine .inr ⟨cmd, rfl, hwrite, if_pos hlog, (hok hwrite).mp ?_, hrepr⟩
      cases hout : (cmd.run env args c).1 with
      | ok r => exact ⟨r, rfl⟩
      | error p =>
        rw [hout] at hgood
        cases hgood
    · exact .inl ⟨if_neg hlog, (run_not_logged hcmd env hacc c hlog).databases⟩

/-! ## Two readings of the clock -/

section Clock

variable {now t : Time} {lim : Limits} {o o' : Option AEntry} {e : AEntry}

theorem AEntry.expired_mono (h : now ≤ t) (he : e.expired now = true) : e.expired t = true := by
  simp only [AEntry.expired, Bool.and_eq_true, Bool.not_eq_true', decide_eq_false_iff_not] at he ⊢
  exact ⟨he.1, fun hlt => he.2 (lt_of_le_of_lt h hlt)⟩

/-- What is live later is live now. -/
theorem liveAt_earlier (h : now ≤ t) (hl : liveAt t o = some e) : liveAt now o = some e := by
  obtain ⟨rfl, hx⟩ := liveAt_eq_some hl
  rw [liveAt_some, if_neg]
  intro hnow
  rw [AEntry.expired_mono h hnow] at hx
  cases hx

theorem liveAt_none_later (h : now ≤ t) (hl : liveAt now o = none) : liveAt t o = none := by
  cases ht : liveAt t o with
  | none => rfl
  | some e =>
    rw [liveAt_earlier h ht] at hl
    cases hl

/-- Does an operation on a live entry leave one that is live at `t`, whatever became of the entry it
found? -/
def KeyOp.outlives (lim : Limits) (t : Time) : KeyOp → Bool
  | .modify op => (op.create lim).isSome
  | .persist => true
  | .expireAt at' => !AEntry.expired ⟨.str (ascii ""), at'⟩ t
  | .expireIn _ => true
  | .put _ | .remove => false

/-- An operation at `now` and the same operation at the later `t`, on entries that look the same at
`t`: the results look the same at `t`, unless the operation builds on an entry that is live at `now`
and expired at `t`. -/
theorem apply_later (h : now ≤ t) (hsame : liveAt t o = liveAt t o') {op : KeyOp}
    (hrel : ∀ d, op ≠ .expireIn d)
    (hsafe : ∀ e, liveAt now o = some e → e.expired t = true → op.outlives lim t = false) :
    liveAt t (op.apply now lim o) = liveAt t (op.apply t lim o') := by
  cases hl : liveAt now o with
  | none =>
    -- absent then and now: both apply to nothing
    have ho := liveAt_none_later h hl
    have ho' : liveAt t o' = none := hsame ▸ ho
    cases op with
    | expireIn d => exact absurd rfl (hrel d)
    | modify op =>
      rw [apply_modify_absent op hl, apply_modify_absent op ho']
      cases op.create lim with
      | some v => rfl
      | none => exact hsame
    | _ => simp only [KeyOp.apply, hl, ho', ho]
  | some e =>
    cases hx : e.expired t with
    | false =>
      have ho : liveAt t o = some e := by
        rw [(liveAt_eq_some hl).1, liveAt_some, hx]
        rfl
      have ho' : liveAt t o' = some e := hsame ▸ ho
      cases op with
      | expireIn d => exact absurd rfl (hrel d)
      | _ => simp only [KeyOp.apply, hl, ho']
    | true =>
      have ho : liveAt t o = none := by
        rw [(liveAt_eq_some hl).1, liveAt_some, hx]
        rfl
      have ho' : liveAt t o' = none := hsame ▸ ho
      -- it ran out in between; what the operation makes of it must have run out too
      have hout := hsafe e hl hx
      cases op with
      | expireIn d => exact absurd rfl (hrel d)
      | persist => cases hout
      | put v => rfl
      | remove => rfl
      | expireAt at' =>
        have hexp : AEntry.expired ⟨e.value, at'⟩ t = true := by
          simpa [KeyOp.outlives, AEntry.expired, AEntry.hasExpiry] using hout
        simp only [KeyOp.apply, hl, ho', liveAt_some, hexp, if_true]
      | modify op =>
        have hcreate : op.create lim = none := by simpa [KeyOp.outlives] using hout
        rw [apply_modify_live op hl, apply_modify_absent op ho', hcreate]
        have hright : liveAt t ((Option.map (fun v => (⟨v, zeroTime⟩ : AEntry)) none) <|> o')
            = none := ho'
        rw [hright]
        cases op.update lim e.value with
        | none => rfl
        | some v =>
          have hexp : AEntry.expired ⟨v, e.expireAt⟩ t = true := hx
          rw [Option.map_some, liveAt_some, hexp]
          rfl

end Clock

/-! ## Recovering at a later time -/

section Later

variable [DecidableEq κ]

/-- Does the request succeed as a write that builds on an entry which is live when it is served and
expired at `t`? -/
def overtaken (env : Env m) (t : Time) (s : Server κ n m) (r : Request κ) : Bool :=
  match (resolve r.args : Except Reply (Command n m)) with
  | .error _ => false
  | .ok cmd =>
    decide (s.log.length < (s.serve env r).2.log.length) &&
      r.args.tail.any fun key =>
        match cmd.opAt env.host r.args key,
          (s.databases (s.sessions r.conn) (env.route key)).lookup r.now key with
        | some op, some e => e.expired t && op.outlives env.limits t
        | _, _ => false

/-- No request of the run is overtaken by `t`. -/
def undisturbed (env : Env m) (t : Time) : Server κ n m → List (Request κ) → Bool
  | _, [] => true
  | s, r :: rs => !overtaken env t s r && undisturbed env t (s.serve env r).2 rs

/-- An operation is on a key the request names, or takes the key out. -/
theorem mem_of_opAt {host : Host} {cmd : Command n m} {args : List Bytes} {key : Bytes} {op : KeyOp}
    (h : cmd.opAt host args key = some op) : key ∈ args.tail ∨ op = .remove := by
  unfold Command.opAt at h
  split_ifs at h with hall hdel hmem
  · exact .inr (Option.some.inj h).symm
  · exact .inl hmem
  · match args, h with
    | _ :: key' :: rest, h =>
      simp only at h
      split_ifs at h with hk
      exact .inl (hk ▸ List.mem_cons_self)

theorem opAt_ne_expireIn {host : Host} {cmd : Command n m} {args : List Bytes} {key : Bytes}
    {op : KeyOp} (hname : cmd.name ≠ ascii "expire") (h : cmd.opAt host args key = some op)
    (d : Int64) : op ≠ .expireIn d := by
  rintro rfl
  unfold Command.opAt at h
  split_ifs at h
  · cases h
  · cases h
  · match args, h with
    | _ :: key' :: rest, h =>
      simp only at h
      split_ifs at h
      rcases KeyOp.parse_setsDeadline h rfl with ⟨hexpire, -⟩ | ⟨-, t, ht⟩
      · exact hname hexpire
      · cases ht

theorem opAt_select {host : Host} (args : List Bytes) (key : Bytes) :
    (Command.plain "select" 2 fun _ => cmdSelect : Command n m).opAt host args key = none :=
  opAt_none rfl (show ¬ (ascii "select" = _ ∨ ascii "select" = _) by decide) (fun _ => rfl) args key

/-- What recovery at `t` has to give: replaying the log succeeds, and gives databases that look like
those of the server from `t` on. -/
def RecoversAt (env : Env m) (t : Time) (ord : MapOrder) (c₀ : Context n m) (s : Server κ n m) :
    Prop :=
  ∃ A B c, Databases.Repr env s.databases A ∧ replayLog (env.at t ord) s.log c₀ = (c, none) ∧
    Databases.Repr env c.databases B ∧ ∀ d key, liveAt t (A d key) = liveAt t (B d key)

theorem crashes_earlier {cmd : Command n m} {args : List Bytes} {now t : Time} {a b : ADB}
    (hle : now ≤ t) (hsame : ∀ key, liveAt t (a key) = liveAt t (b key))
    (h : cmd.Crashes t args b) : cmd.Crashes now args a := by
  refine ⟨h.1, ?_⟩
  match args, h.2 with
  | _ :: key :: rest, ⟨hsize, e, he, hk⟩ =>
    exact ⟨hsize, e, liveAt_earlier hle ((hsame key).trans he), hk⟩

/-- A logged request that is not overtaken builds on no entry that is gone at `t`. -/
theorem outlives_of_not_overtaken {env : Env m} {t : Time} {s : Server κ n m} {r : Request κ}
    {A : Fin n → ADB} (hA : Databases.Repr env s.databases A)
    (hsafe : overtaken env t s r = false) {cmd : Command n m} (hres : resolve r.args = .ok cmd)
    (hlog : s.log.length < (s.serve env r).2.log.length) {key : Bytes} {op : KeyOp}
    (hop : cmd.opAt env.host r.args key = some op) {e : AEntry}
    (hlive : liveAt r.now (A (s.sessions r.conn) key) = some e) (hx : e.expired t = true) :
    op.outlives env.limits t = false := by
  rcases mem_of_opAt hop with hmem | rfl
  · have hrel := (hA (s.sessions r.conn)).peek r.now key
    rw [hlive] at hrel
    generalize hp : (s.databases (s.sessions r.conn) (env.route key)).peek r.now key = p at hrel
    cases hrel with
    | @some e' _ he =>
      simp only [overtaken, hres, decide_eq_true hlog, Bool.true_and] at hsafe
      have hkey := List.any_eq_false.mp hsafe key hmem
      simp only [hop, Keyspace.lookup, hp, he.expired_eq, hx, Bool.true_and] at hkey
      exact Bool.eq_false_iff.mpr hkey
  · rfl

theorem RecoversAt.step (hn : n < 2 ^ 63) {env : Env m} {t : Time} {ord : MapOrder}
    {c₀ : Context n m} {s : Server κ n m} (h : RecoversAt env t ord c₀ s) {r : Request κ}
    (hle : r.now ≤ t)
    (hexpire : ∀ cmd : Command n m, resolve r.args = .ok cmd → cmd.name ≠ ascii "expire")
    (hsafe : overtaken env t s r = false) : RecoversAt env t ord c₀ (s.serve env r).2 := by
  obtain ⟨A, B, c, hA, hreplay, hB, hsame⟩ := h
  have hA' : Databases.Repr (env.at r.now r.ord) (s.context r).databases A := hA
  rcases request_refines hA' r.logNow r.args with ⟨hnone, hdbs⟩ | ⟨cmd, hres, hwrite, hlog, hok, hrun⟩
  · -- nothing was written
    refine ⟨A, B, c, ?_, ?_, hB, hsame⟩
    · show Databases.Repr env (request _ _ _ _).2.2.databases A
      rw [hdbs]
      exact hA
    · show replayLog _ (s.log ++ (request _ _ _ _).2.1.toList) c₀ = _
      rw [hnone, Option.toList_none, List.append_nil]
      exact hreplay
  -- one record was appended, and replaying it runs the same command later
  · set d := (request (env.at r.now r.ord) r.logNow r.args (s.context r)).2.2.index with hd
    obtain ⟨hcmd, hacc, -⟩ := resolve_ok hres
    have hargs : persistArgs r.logNow cmd r.args = r.args := if_neg (hexpire cmd hres)
    have hBt : Databases.Repr (env.at t ord) c.databases B := hB
    obtain ⟨hrepr, hfine⟩ := replay_refines hn hBt d r.args
    refine ⟨_, _, (replay (env.at t ord) c (Int64.ofNat d) r.args).1, hrun, ?_, hrepr, ?_⟩
    · show replayLog _ (s.log ++ (request _ _ _ _).2.1.toList) c₀ = _
      rw [hlog, hargs, Option.toList_some, replayLog, callEach_snoc hreplay]
      exact Prod.ext rfl (hfine cmd hres hwrite fun hcrash =>
        hok (crashes_earlier hle (hsame d) hcrash))
    · intro k key
      have hlonger : s.log.length < (s.serve env r).2.log.length := by
        show _ < (s.log ++ (request _ _ _ _).2.1.toList).length
        rw [hlog]
        simp
      -- no command that touches a key selects a database, so `d` is the one of the session
      have hsel (op : KeyOp) (hop : cmd.opAt env.host r.args key = some op) :
          d = s.sessions r.conn := by
        have hidx : d = (cmd.run (env.at r.now r.ord) r.args (s.context r)).2.index := by
          rw [hd, request, hres]
          rfl
        rw [hidx]
        rcases run_index hcmd (env.at r.now r.ord) hacc (s.context r) with hsame | rfl
        · exact hsame
        · cases (opAt_select r.args key).symm.trans hop
      unfold effectOf
      simp only [hres]
      by_cases hk : k = d
      · subst hk
        simp only [Function.update_self, Command.effect]
        cases hop : cmd.opAt env.host r.args key with
        | none =>
          simp only [Env.at, hop]
          exact hsame d key
        | some op =>
          simp only [Env.at, hop]
          -- the key may have run out between the request and the replay, but not so that it shows
          refine apply_later hle (hsame d key) (opAt_ne_expireIn (hexpire cmd hres) hop) ?_
          intro e hlive hx
          rw [hsel op hop] at hlive
          exact outlives_of_not_overtaken hA hsafe hres hlonger hop hlive hx
      · simp only [Function.update_of_ne hk]
        exact hsame k key

theorem RecoversAt.serveAll (hn : n < 2 ^ 63) {env : Env m} {t : Time} {ord : MapOrder}
    {c₀ : Context n m} : ∀ (rs : List (Request κ)) {s : Server κ n m}, RecoversAt env t ord c₀ s →
    (∀ r ∈ rs, r.now ≤ t) →
    (∀ r ∈ rs, ∀ cmd : Command n m, resolve r.args = .ok cmd → cmd.name ≠ ascii "expire") →
    undisturbed env t s rs = true → RecoversAt env t ord c₀ (s.serveAll env rs)
  | [], _, h, _, _, _ => h
  | r :: rs, s, h, hle, hexpire, hsafe => by
      rw [undisturbed, Bool.and_eq_true, Bool.not_eq_true'] at hsafe
      obtain ⟨hle, hles⟩ := List.forall_mem_cons.mp hle
      obtain ⟨hexpire, hexpires⟩ := List.forall_mem_cons.mp hexpire
      exact RecoversAt.serveAll hn rs (h.step hn hle hexpire hsafe.1) hles hexpires hsafe.2

/-- What `Lookup` shows of an entry. -/
def Entry.SameLookup (e e' : Entry) : Prop := e.value.ObsEq e'.value ∧ e.expireAt = e'.expireAt

/-- Databases that look the same at `t` give the same `Lookup` results from `t` on. -/
theorem lookup_same_of_liveAt {env : Env m} {dbs dbs' : Fin n → DB m} {A B : Fin n → ADB}
    (hA : Databases.Repr env dbs A) (hB : Databases.Repr env dbs' B) {t t' : Time} (hle : t ≤ t')
    (hsame : ∀ d key, liveAt t (A d key) = liveAt t (B d key)) (d : Fin n) (key : Bytes) :
    Option.Rel Entry.SameLookup ((dbs d (env.route key)).lookup t' key)
      ((dbs' d (env.route key)).lookup t' key) := by
  have hlater : liveAt t' (A d key) = liveAt t' (B d key) := by
    cases hl : liveAt t (A d key) with
    | none =>
      rw [liveAt_none_later hle hl, liveAt_none_later hle ((hsame d key).symm.trans hl)]
    | some e =>
      rw [(liveAt_eq_some hl).1, (liveAt_eq_some ((hsame d key).symm.trans hl)).1]
  have hrel := (hA d).peek t' key
  have hrel' := (hB d).peek t' key
  rw [← hlater] at hrel'
  unfold Keyspace.lookup
  generalize (dbs d (env.route key)).peek t' key = o at hrel
  generalize (dbs' d (env.route key)).peek t' key = o' at hrel'
  generalize liveAt t' (A d key) = l at hrel hrel'
  cases hrel with
  | none =>
    cases hrel'
    exact Option.Rel.none
  | some he =>
    cases hrel' with
    | some he' =>
      exact Option.Rel.some ⟨(Value.obsEq_iff he.1 he'.1).mpr rfl, he.2.2.trans he'.2.2.symm⟩

/-- **Recovery does not depend on when it runs, as long as no logged write is overtaken.** Requests
of any connections, none of them EXPIRE, are served by a server that starts empty. If none of them
succeeds in building on an entry that is live when it is served and expired at the time `t` of
recovery, then replaying the log into empty databases with the clock at `t` succeeds, and every
lookup from `t` on gives what the live server gives. -/
theorem replay_undisturbed (hn : n < 2 ^ 63) (env : Env m) (settings settings' : Option Reloadable)
    (sessions : κ → Fin n) (rs : List (Request κ)) (t : Time) (ord : MapOrder) (index : Fin n)
    (rng : Rng) (hle : ∀ r ∈ rs, r.now ≤ t)
    (hexpire : ∀ r ∈ rs, ∀ cmd : Command n m, resolve r.args = .ok cmd →
      cmd.name ≠ ascii "expire")
    (hsafe : undisturbed env t (Server.empty settings sessions : Server κ n m) rs = true) :
    ∃ c, replayLog (env.at t ord) ((Server.empty settings sessions).serveAll env rs).log
        (Context.empty settings' index rng) = (c, none) ∧
      ∀ d key t', t ≤ t' → Option.Rel Entry.SameLookup
        (((((Server.empty settings sessions).serveAll env rs).databases d)
          (env.route key)).lookup t' key)
        ((c.databases d (env.route key)).lookup t' key) := by
  have hstart : RecoversAt env t ord (Context.empty settings' index rng)
      (Server.empty settings sessions : Server κ n m) :=
    ⟨_, _, _, empty_repr env settings index rng, rfl, empty_repr env settings' index rng,
      fun _ _ => rfl⟩
  obtain ⟨A, B, c, hA, hreplay, hB, hsame⟩ := hstart.serveAll hn rs hle hexpire hsafe
  exact ⟨c, hreplay, fun d key t' ht => lookup_same_of_liveAt hA hB ht hsame d key⟩

end Later

/-- A request of the only connection. -/
def sole (now : Time) (args : List String) : Request Unit :=
  ⟨(), args.map ascii, now, now, MapOrder.default, fun _ => 0⟩

/-- A key gets a deadline of ten seconds and loses it after five. -/
def persistRun : List (Request Unit) :=
  [sole 0 ["SET", "k", "v"], sole 0 ["PEXPIREAT", "k", "10000"],
    sole (5 * 10 ^ 9) ["PERSIST", "k"]]

/-- The live server keeps the key for good; a server that recovers after twenty seconds finds the
deadline passed before PERSIST is replayed, and has lost it. -/
theorem replay_persist_lost :
    (((((Server.empty none fun _ => 0 : Server Unit 1 1).serveAll (Env.single 0)
        persistRun).databases 0) 0).lookup (20 * 10 ^ 9) (ascii "k")).isSome = true ∧
      (replayLog (Env.single (20 * 10 ^ 9))
          ((Server.empty none fun _ => 0 : Server Unit 1 1).serveAll (Env.single 0) persistRun).log
          (Context.empty none 0 fun _ => 0)).2.isNone = true ∧
      (((replayLog (Env.single (20 * 10 ^ 9))
          ((Server.empty none fun _ => 0 : Server Unit 1 1).serveAll (Env.single 0) persistRun).log
          (Context.empty none 0 fun _ => 0)).1.databases 0 0).lookup (20 * 10 ^ 9)
            (ascii "k")).isNone = true := by
  decide +kernel

/-- A counter that gets a deadline once it has been counted up, and is not touched after that. -/
def countRun : List (Request Unit) :=
  [sole 0 ["SET", "k", "1"], sole (10 ^ 9) ["INCR", "k"],
    sole (2 * 10 ^ 9) ["PEXPIREAT", "k", "10000"]]

/-- The name of the command a request resolves to. -/
theorem resolve_name {name : Bytes} {rest : List Bytes} {cmd : Command n m}
    (h : resolve (name :: rest) = .ok cmd) : cmd.name = foldName name := by
  obtain ⟨-, -, name', rest', hargs, hname⟩ := resolve_ok h
  cases hargs
  exact hname

/-- Recovery before and after the deadline. -/
theorem replay_undisturbed_count :
    (∃ c, replayLog (Env.single (5 * 10 ^ 9))
        ((Server.empty none fun _ => 0 : Server Unit 1 1).serveAll (Env.single 0) countRun).log
        (Context.empty none 0 fun _ => 0) = (c, none) ∧
      ∀ d key t', 5 * 10 ^ 9 ≤ t' → Option.Rel Entry.SameLookup
        (((((Server.empty none fun _ => 0 : Server Unit 1 1).serveAll (Env.single 0)
          countRun).databases d) 0).lookup t' key) ((c.databases d 0).lookup t' key)) ∧
    ∃ c, replayLog (Env.single (20 * 10 ^ 9))
        ((Server.empty none fun _ => 0 : Server Unit 1 1).serveAll (Env.single 0) countRun).log
        (Context.empty none 0 fun _ => 0) = (c, none) ∧
      ∀ d key t', 20 * 10 ^ 9 ≤ t' → Option.Rel Entry.SameLookup
        (((((Server.empty none fun _ => 0 : Server Unit 1 1).serveAll (Env.single 0)
          countRun).databases d) 0).lookup t' key) ((c.databases d 0).lookup t' key) := by
  have hexpire : ∀ r ∈ countRun, ∀ cmd : Command 1 1, resolve r.args = .ok cmd →
      cmd.name ≠ ascii "expire" := by
    simp only [countRun, List.forall_mem_cons]
    refine ⟨fun cmd h => ?_, fun cmd h => ?_, fun cmd h => ?_, nofun⟩ <;>
      (rw [resolve_name h]; decide)
  exact ⟨replay_undisturbed (by decide) (Env.single 0) none none (fun _ => 0) countRun
      (5 * 10 ^ 9) MapOrder.default 0 (fun _ => 0) (by decide) hexpire (by decide +kernel),
    replay_undisturbed (by decide) (Env.single 0) none none (fun _ => 0) countRun
      (20 * 10 ^ 9) MapOrder.default 0 (fun _ => 0) (by decide) hexpire (by decide +kernel)⟩

end Memcore
