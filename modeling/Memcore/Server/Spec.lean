import Memcore.Command.Config
import Memcore.Command.Replies
import Memcore.Server.Serializable

/-!
# What a server is for

A server without shards, encodings, skip lists, locks and logs: every database is a partial function
from keys to entries, every connection has a database selected, and a request is answered from these
and from the clock. What a request may ask for is what the table of commands says; what it answers
and leaves behind is `Command.answer` and `Command.effect`, and here the same is said for the
commands that are not about data.

`Server.serve` simulates it request by request, so a run of the server, with whatever shards,
thresholds, iteration orders and random levels, is a run of this one.
-/

namespace Memcore

open Go Prog

variable {κ : Type} {n m : Nat}

/-! ## The commands that are not about data -/

namespace Answer

/-- PING. -/
def ping : List Bytes → Reply
  | [_] => .simple (ascii "PONG")
  | [_, msg] => .bulk msg
  | _ => .error (ascii "ERR wrong number of arguments for 'ping' command")

/-- SELECT: the reply, and the database that is selected afterwards. -/
def select (arg1 : Bytes) (index : Fin n) : Reply × Fin n :=
  match parseInt arg1 with
  | none => (.error (ascii "ERR value is not an integer or out of range"), index)
  | some k =>
    if h : k.toNat < n ∧ 0 ≤ k then (.ok, ⟨k.toNat, h.1⟩)
    else (.error (ascii "ERR DB index is out of range"), index)

/-- CONFIG GET. -/
def configGet (host : Host) (r : Reloadable) (pattern : Bytes) : Reply :=
  if pattern = ascii "*" then .array (r.all.flatMap fun kv => [.bulk kv.1, .bulk kv.2])
  else
    match r.get (host.toLower pattern) with
    | some v => .array [.bulk (host.toLower pattern), .bulk v]
    | none => .array []

/-- CONFIG on settings, from its subcommand and the arguments after it. -/
def configure (host : Host) (sub : Bytes) (rest : List Bytes) (r : Reloadable) :
    Reply × Reloadable :=
  if host.toUpper sub = ascii "GET" then
    match rest with
    | [pattern] => (configGet host r pattern, r)
    | _ => (.error (ascii "ERR wrong number of arguments for 'config|get' command"), r)
  else if host.toUpper sub = ascii "SET" then
    match rest with
    | [name, val] =>
      match r.set host (host.toLower name) val with
      | .error text => (.error (concat [ascii "ERR ", text]), r)
      | .ok r' => (.ok, r')
    | _ => (.error (ascii "ERR wrong number of arguments for 'config|set' command"), r)
  else (.error (concat [ascii "ERR unknown CONFIG subcommand '", sub, ascii "'"]), r)

/-- CONFIG: the reply, and the settings that are in force afterwards. -/
def config (host : Host) (sub : Bytes) (rest : List Bytes) :
    Option Reloadable → Reply × Option Reloadable
  | none => (.error (ascii "ERR CONFIG is unavailable"), none)
  | some r => ((configure host sub rest r).1, some (configure host sub rest r).2)

end Answer

section Handlers

variable {env : Env m} {c : Context n m}

theorem cmdPing_eq (args : List Bytes) :
    cmdPing args c = (.ok (Answer.ping args), c) := by
  match args with
  | [] | [_] | [_, _] | _ :: _ :: _ :: _ => rfl

theorem cmdSelect_eq (name arg1 : Bytes) (rest : List Bytes) :
    cmdSelect (name :: arg1 :: rest) c
      = (.ok (Answer.select arg1 c.index).1,
        { c with index := (Answer.select arg1 c.index).2 }) := by
  unfold cmdSelect Answer.select
  rw [arg_one_bind]
  cases parseInt arg1 with
  | none => rfl
  | some k =>
    by_cases h : k.toNat < n ∧ 0 ≤ k
    · simp only [bind_apply_ok (select_of_lt h.symm c), dif_pos h]
      rfl
    · simp only [bind_apply_ok (select_of_not_lt (fun hlt => h hlt.symm) c), dif_neg h]
      rfl

theorem configGet_eq (r : Reloadable) (pattern : Bytes) :
    configGet env r pattern = Answer.configGet env.host r pattern := by
  unfold configGet Answer.configGet
  cases r.get (env.host.toLower pattern) <;> rfl

theorem cmdConfig_configure (name sub : Bytes) (rest : List Bytes) {r : Reloadable}
    (h : c.settings = some r) :
    cmdConfig env (name :: sub :: rest) c
      = (.ok (Answer.configure env.host sub rest r).1,
        { c with settings := some (Answer.configure env.host sub rest r).2 }) := by
  have hsame : { c with settings := some r } = c := by rw [← h]
  by_cases hset : env.host.toUpper sub = ascii "SET" ∧ rest.length = 2
  · obtain ⟨hsub, hlen⟩ := hset
    obtain ⟨param, val, rfl⟩ := List.length_eq_two.mp hlen
    have hget : ¬ ascii "SET" = ascii "GET" := by decide
    simp only [cmdConfig_set env name hsub param val h, Answer.configure, hsub, if_neg hget, if_true]
    cases r.set env.host (env.host.toLower param) val with
    | error text => simp only [hsame]
    | ok r' => rfl
  · unfold cmdConfig Answer.configure
    rw [bind_apply_ok (show Cmd.getSettings c = (.ok (some r), c) from h ▸ rfl)]
    simp only [arg_one_bind]
    split
    next =>
      rcases rest with _ | ⟨pattern, _ | ⟨_, _⟩⟩
      · simp [hsame]
      · simp [hsame, configGet_eq]
      · simp [hsame]
    next =>
      split
      next hsub =>
        rcases rest with _ | ⟨_, _ | ⟨_, _ | ⟨_, _⟩⟩⟩
        · simp [hsame]
        · simp [hsame]
        · exact absurd ⟨hsub, rfl⟩ hset
        · simp [hsame]
      next => simp [hsame]

theorem cmdConfig_eq (name sub : Bytes) (rest : List Bytes) :
    cmdConfig env (name :: sub :: rest) c
      = (.ok (Answer.config env.host sub rest c.settings).1,
        { c with settings := (Answer.config env.host sub rest c.settings).2 }) := by
  cases h : c.settings with
  | none =>
    have hsame : { c with settings := none } = c := by rw [← h]
    unfold cmdConfig
    rw [bind_apply_ok (show Cmd.getSettings c = (.ok none, c) from h ▸ rfl)]
    simp only [Answer.config, hsame]
    rfl
  | some r => exact cmdConfig_configure name sub rest h

end Handlers

/-! ## Commands without their handlers -/

/-- The command of a request, as the table has it. -/
def resolveRow (args : List Bytes) : Except Reply (Command 0 0) :=
  (resolve args : Except Reply (Command 0 0)).map Command.row

theorem lookupFold_row (name : Bytes) :
    (lookupFold name : Option (Command n m)).map Command.row
      = (lookupFold name : Option (Command 0 0)).map Command.row := by
  unfold lookupFold
  split
  · rfl
  · have hfind {n m : Nat} : ((registry : List (Command n m)).find? fun c =>
        decide (c.name = foldName name)).map Command.row
          = rows.find? fun c => decide (c.name = foldName name) := by
      have hrows : (registry : List (Command n m)).map Command.row = rows := rfl
      rw [← hrows, List.find?_map]
      rfl
    rw [hfind, hfind]

/-- What `Resolve` makes of a command it has found reads the table only. -/
theorem resolve_map_row (name : Bytes) (rest : List Bytes) :
    (resolve (name :: rest) : Except Reply (Command n m)).map Command.row
      = ((lookupFold name : Option (Command n m)).map Command.row).elim
          (.error (.error (concat [ascii "ERR unknown command '", name, ascii "'"])))
          fun r => if !r.accepts (name :: rest).length then
              .error (.error (concat
                [ascii "ERR wrong number of arguments for '", r.name, ascii "' command"]))
            else .ok r := by
  simp only [resolve]
  cases (lookupFold name : Option (Command n m)) with
  | none => rfl
  | some cmd =>
    have haccepts : cmd.row.accepts = cmd.accepts := rfl
    simp only [Option.map_some, Option.elim_some, haccepts]
    cases cmd.accepts (name :: rest).length <;> rfl

/-- Which command a request is for does not depend on the shards it will run on. -/
theorem resolve_row (args : List Bytes) :
    (resolve args : Except Reply (Command n m)).map Command.row = resolveRow args := by
  unfold resolveRow
  match args with
  | [] => rfl
  | name :: rest => rw [resolve_map_row, resolve_map_row, lookupFold_row]

theorem resolveRow_ok {args : List Bytes} {cmd : Command n m} (h : resolve args = .ok cmd) :
    resolveRow args = .ok cmd.row := by
  rw [← resolve_row (n := n) (m := m), h]
  rfl

theorem resolveRow_error {args : List Bytes} {reply : Reply}
    (h : (resolve args : Except Reply (Command n m)) = .error reply) :
    resolveRow args = .error reply := by
  rw [← resolve_row (n := n) (m := m), h]
  rfl

instance Command.decidableCrashes (now : Time) (cmd : Command n m) (args : List Bytes) (a : ADB) :
    Decidable (cmd.Crashes now args a) :=
  match args with
  | _ :: key :: rest =>
    decidable_of_iff ((cmd.name = ascii "lpop" ∨ cmd.name = ascii "rpop") ∧
        KeyOp.oversized rest = true ∧
          ((liveAt now (a key)).any fun e => decide (e.value.kind = .list)) = true) (by
      refine and_congr_right' (and_congr_right' ?_)
      cases liveAt now (a key) <;> simp)
  | [] | [_] => .isFalse And.right

/-! ## The server -/

/-- What a client says: on which connection, and when. -/
structure Call (κ : Type) where
  conn : κ
  args : List Bytes
  now : Time

/-- What a client says of a request; the rest is up to the runtime. -/
def Request.call (r : Request κ) : Call κ := ⟨r.conn, r.args, r.now⟩

/-- A server as its clients know it. -/
structure AServer (κ : Type) (n : Nat) where
  databases : Fin n → ADB
  settings : Option Reloadable
  sessions : κ → Fin n

namespace AServer

/-- A server before its first request. -/
def empty (settings : Option Reloadable) (sessions : κ → Fin n) : AServer κ n :=
  ⟨fun _ _ => none, settings, sessions⟩

/-- A command on data, in the selected database. -/
def serveData (lim : Limits) (host : Host) (cmd : Command 0 0) (A : AServer κ n) (q : Call κ) :
    AReply × AServer κ n :=
  let i := A.sessions q.conn
  if cmd.Crashes q.now q.args (A.databases i) then
    (.exact (.error (ascii "ERR internal server error")), A)
  else
    (cmd.answer q.now lim host q.args (A.databases i),
      { A with
        databases := Function.update A.databases i
          (cmd.effect q.now lim host q.args (A.databases i)) })

theorem serveData_of_crashes {lim : Limits} {host : Host} {cmd : Command 0 0} {A : AServer κ n}
    {q : Call κ} (h : cmd.Crashes q.now q.args (A.databases (A.sessions q.conn))) :
    A.serveData lim host cmd q = (.exact (.error (ascii "ERR internal server error")), A) :=
  if_pos h

theorem serveData_of_not_crashes {lim : Limits} {host : Host} {cmd : Command 0 0} {A : AServer κ n}
    {q : Call κ} (h : ¬ cmd.Crashes q.now q.args (A.databases (A.sessions q.conn))) :
    A.serveData lim host cmd q
      = (cmd.answer q.now lim host q.args (A.databases (A.sessions q.conn)),
        { A with
          databases := Function.update A.databases (A.sessions q.conn)
            (cmd.effect q.now lim host q.args (A.databases (A.sessions q.conn))) }) :=
  if_neg h

variable [DecidableEq κ]

/-- A command that is not about data. -/
def servePlain (host : Host) (cmd : Command 0 0) (A : AServer κ n) (q : Call κ) :
    Reply × AServer κ n :=
  match q.args with
  | _ :: arg1 :: rest =>
    if cmd.name = ascii "select" then
      ((Answer.select arg1 (A.sessions q.conn)).1,
        { A with
          sessions := Function.update A.sessions q.conn
            (Answer.select arg1 (A.sessions q.conn)).2 })
    else if cmd.name = ascii "config" then
      ((Answer.config host arg1 rest A.settings).1,
        { A with settings := (Answer.config host arg1 rest A.settings).2 })
    else (Answer.ping q.args, A)
  | _ => (Answer.ping q.args, A)

/-- One request. -/
def serve (lim : Limits) (host : Host) (A : AServer κ n) (q : Call κ) : AReply × AServer κ n :=
  match resolveRow q.args with
  | .error reply => (.exact reply, A)
  | .ok cmd =>
    if cmd.onData then A.serveData lim host cmd q
    else (.exact (A.servePlain host cmd q).1, (A.servePlain host cmd q).2)

/-- Requests one after the other. -/
def serveAll (lim : Limits) (host : Host) (A : AServer κ n) (qs : List (Call κ)) : AServer κ n :=
  qs.foldl (fun A q => (A.serve lim host q).2) A

/-- The replies to requests one after the other. -/
def answers (lim : Limits) (host : Host) : AServer κ n → List (Call κ) → List AReply
  | _, [] => []
  | A, q :: qs => (A.serve lim host q).1 :: answers lim host (A.serve lim host q).2 qs

end AServer

/-! ## One request -/

/-- A server and what its clients know of it. -/
structure Server.Shows (env : Env m) (s : Server κ n m) (A : AServer κ n) : Prop where
  databases : Databases.Repr env s.databases A.databases
  settings : s.settings = A.settings
  sessions : s.sessions = A.sessions

theorem Server.empty_shows (env : Env m) (settings : Option Reloadable) (sessions : κ → Fin n) :
    (Server.empty settings sessions : Server κ n m).Shows env (AServer.empty settings sessions) :=
  ⟨new_databases_repr env, rfl, rfl⟩

/-- The server after a request of a command, in terms of its handler. -/
theorem serve_resolved (env : Env m) (s : Server κ n m) [DecidableEq κ] {r : Request κ}
    {cmd : Command n m} (hres : resolve r.args = .ok cmd) {outcome : Result Reply}
    {c : Context n m} (hrun : cmd.run (env.at r.now r.ord) r.args (s.context r) = (outcome, c)) :
    (s.serve env r).1 = replyOf outcome ∧ (s.serve env r).2.databases = c.databases ∧
      (s.serve env r).2.settings = c.settings ∧
      (s.serve env r).2.sessions = Function.update s.sessions r.conn c.index := by
  simp only [Server.serve, request, hres, execute, hrun, and_self]

variable [DecidableEq κ] {env : Env m} {s : Server κ n m} {A : AServer κ n}

/-- A command on data. -/
theorem Server.Shows.serveData (h : s.Shows env A) {r : Request κ} {cmd : Command n m}
    (hres : resolve r.args = .ok cmd) (hdata : cmd.onData = true) :
    (A.serveData env.limits env.host cmd.row r.call).1.Shows (s.serve env r).1 ∧
      (s.serve env r).2.Shows env (A.serveData env.limits env.host cmd.row r.call).2 := by
  obtain ⟨hcmd, hacc, -⟩ := resolve_ok hres
  have hrepr : Databases.Repr (env.at r.now r.ord) (s.context r).databases A.databases := h.databases
  have hindex : (s.context r).index = A.sessions r.conn := congrFun h.sessions r.conn
  have hframe := run_frame hcmd hdata (env.at r.now r.ord) hacc (s.context r)
  have hafter := run_refines hcmd hacc hrepr
  have hdone := run_completes_iff hcmd hacc (hrepr (s.context r).index)
  have hanswer := run_answers hcmd hdata hacc (hrepr (s.context r).index)
  -- the handler's specification says what it answers, what it stores and when it panics
  rcases hrun : cmd.run (env.at r.now r.ord) r.args (s.context r) with ⟨outcome, c⟩
  obtain ⟨hreply, hdbs, hsettings, hsessions⟩ := serve_resolved env s hres hrun
  simp only [Answers, hrun, hindex] at hframe hafter hdone hanswer
  have hsessions' : (s.serve env r).2.sessions = A.sessions := by
    rw [hsessions, hframe.index, ← h.sessions]
    exact Function.update_eq_self _ _
  have hsettings' : (s.serve env r).2.settings = A.settings :=
    hsettings.trans (hframe.settings.trans h.settings)
  by_cases hcrash : cmd.row.Crashes r.call.now r.call.args (A.databases (A.sessions r.call.conn))
  · -- the handler panicked before it wrote anything
    rw [AServer.serveData_of_crashes hcrash]
    refine ⟨?_, ⟨?_, hsettings', hsessions'⟩⟩
    · cases outcome with
      | ok reply => exact absurd hcrash (hdone.mp ⟨reply, rfl⟩)
      | error p => exact hreply
    · have hsame : cmd.effect r.now env.limits env.host r.args (A.databases (A.sessions r.conn))
          = A.databases (A.sessions r.conn) := effect_of_crashes hcmd hcrash
      have hafter' : Databases.Repr env c.databases (Function.update A.databases
          (A.sessions r.conn) (cmd.effect r.now env.limits env.host r.args
            (A.databases (A.sessions r.conn)))) := hafter
      rwa [hsame, Function.update_eq_self, ← hdbs] at hafter'
  · rw [AServer.serveData_of_not_crashes hcrash]
    obtain ⟨reply, rfl, hshows⟩ := hanswer hcrash
    refine ⟨hreply ▸ hshows, ⟨?_, hsettings', hsessions'⟩⟩
    rw [hdbs]
    exact hafter

/-- A command that is not about data. -/
theorem Server.Shows.servePlain (h : s.Shows env A) {r : Request κ} {cmd : Command n m}
    (hres : resolve r.args = .ok cmd) (hdata : cmd.onData = false) :
    (s.serve env r).1 = (A.servePlain env.host cmd.row r.call).1 ∧
      (s.serve env r).2.Shows env (A.servePlain env.host cmd.row r.call).2 := by
  obtain ⟨hcmd, hacc, -⟩ := resolve_ok hres
  have hsame : Function.update s.sessions r.conn (s.context r).index = A.sessions := by
    rw [← h.sessions]
    exact Function.update_eq_self _ _
  -- `PING`, `SELECT` and `CONFIG` are the commands without a key
  have htakes := takesPlain_of_accepts hcmd hdata hacc
  obtain ⟨conn, args, now, logNow, ord, rng⟩ := r
  cases htakes with
  | ping his =>
    subst his
    obtain ⟨hreply, hdbs, hsettings, hsessions⟩ := serve_resolved env s hres (cmdPing_eq args)
    have hplain : A.servePlain env.host
        (Command.plain "ping" (-1) fun _ => cmdPing : Command n m).row ⟨conn, args, now⟩
        = (Answer.ping args, A) := by
      rcases args with _ | ⟨_, _ | ⟨_, _⟩⟩ <;> rfl
    unfold Request.call
    rw [hplain]
    exact ⟨hreply, ⟨hdbs ▸ h.databases, hsettings.trans h.settings, hsessions.trans hsame⟩⟩
  | @select name arg1 rest his =>
    subst his
    obtain ⟨hreply, hdbs, hsettings, hsessions⟩ :=
      serve_resolved env s hres (cmdSelect_eq name arg1 rest)
    have hindex : s.sessions conn = A.sessions conn := congrFun h.sessions conn
    refine ⟨?_, ⟨hdbs ▸ h.databases, hsettings.trans h.settings, hsessions.trans ?_⟩⟩
    · rw [hreply]
      show (Answer.select arg1 (s.sessions conn)).1 = (Answer.select arg1 (A.sessions conn)).1
      rw [hindex]
    · show Function.update s.sessions conn (Answer.select arg1 (s.sessions conn)).2
        = Function.update A.sessions conn (Answer.select arg1 (A.sessions conn)).2
      rw [h.sessions]
  | @config name sub rest his =>
    subst his
    obtain ⟨hreply, hdbs, hsettings, hsessions⟩ :=
      serve_resolved env s hres (cmdConfig_eq name sub rest)
    refine ⟨?_, ⟨hdbs ▸ h.databases, hsettings.trans ?_, hsessions.trans hsame⟩⟩
    · rw [hreply]
      show (Answer.config env.host sub rest s.settings).1
        = (Answer.config env.host sub rest A.settings).1
      rw [h.settings]
    · show (Answer.config env.host sub rest s.settings).2
        = (Answer.config env.host sub rest A.settings).2
      rw [h.settings]

/-- **One request of the server is one request of what it is for.** -/
theorem Server.Shows.serve (h : s.Shows env A) (r : Request κ) :
    (A.serve env.limits env.host r.call).1.Shows (s.serve env r).1 ∧
      (s.serve env r).2.Shows env (A.serve env.limits env.host r.call).2 := by
  unfold AServer.serve
  cases hres : (resolve r.args : Except Reply (Command n m)) with
  | error reply =>
    have hserve : s.serve env r = (reply, s) := by
      simp only [Server.serve, request, hres, Option.toList_none, List.append_nil]
      rw [show (s.context r).index = s.sessions r.conn from rfl, Function.update_eq_self]
      rfl
    have hrow : resolveRow r.call.args = .error reply := resolveRow_error hres
    rw [hserve, hrow]
    exact ⟨rfl, h⟩
  | ok cmd =>
    have hrow : resolveRow r.call.args = .ok cmd.row := resolveRow_ok hres
    rw [hrow]
    cases hdata : cmd.onData with
    | true =>
      have hdata' : cmd.row.onData = true := hdata
      simp only [hdata', if_true]
      exact h.serveData hres hdata
    | false =>
      have hdata' : cmd.row.onData = false := hdata
      simp only [hdata', Bool.false_eq_true, if_false]
      exact h.servePlain hres hdata

/-! ## Runs -/

/-- Requests one after the other. -/
theorem Server.Shows.answers : ∀ {s : Server κ n m} {A : AServer κ n} (rs : List (Request κ)),
    s.Shows env A →
    List.Forall₂ AReply.Shows (A.answers env.limits env.host (rs.map Request.call))
        ((s.answers env rs).map Prod.snd) ∧
      (s.serveAll env rs).Shows env (A.serveAll env.limits env.host (rs.map Request.call))
  | _, _, [], h => ⟨.nil, h⟩
  | _, _, r :: rs, h => by
      obtain ⟨hreply, hnext⟩ := h.serve r
      obtain ⟨hreplies, hlast⟩ := Server.Shows.answers rs hnext
      exact ⟨.cons hreply hreplies, hlast⟩

end Memcore
