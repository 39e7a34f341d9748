import Memcore.Command.Replies
import Memcore.Server.Serve

/-!
# How a request ends

Two contracts of the handlers that the server relies on. It does not log a request that was answered
with an error, so such a request must have changed nothing (`error_changes_nothing`). And it recovers
from a panic in a handler, but no handler should panic: one does, for one kind of request, a counted
pop with a count that no slice has room for (`handler_completes_iff`).
-/

namespace Memcore

open Go Prog Cmd

variable {n m : Nat}

/-! ## Errors -/

theorem cmdSelect_settings (args : List Bytes) (c : Context n m) :
    (cmdSelect args c).2.settings = c.settings := by
  unfold cmdSelect Cmd.arg
  cases Go.index args 1 with
  | error p => rfl
  | ok arg1 =>
    simp only [lift_ok_bind]
    cases parseInt arg1 with
    | none => rfl
    | some index =>
      by_cases h : 0 ≤ index ∧ index.toNat < n
      · simp only [bind_apply_ok (select_of_lt h _)]
        rfl
      · simp only [bind_apply_ok (select_of_not_lt h _)]
        rfl

/-- The settings stay as they are, except by CONFIG. -/
theorem run_settings_eq {cmd : Command n m} (hcmd : cmd ∈ registry) (env : Env m)
    {args : List Bytes} (hacc : cmd.accepts args.length = true) (c : Context n m) :
    (cmd.run env args c).2.settings = c.settings ∨ cmd = .plain "config" (-2) cmdConfig := by
  cases takes_of_accepts hcmd hacc with
  | @single name key rest hkey =>
    have htouch : Touches Finset.univ (cmd.run env (name :: key :: rest)) :=
      singleKey_touches env (Finset.mem_univ _) rest cmd hcmd hkey
    exact .inl (htouch.frame c).settings
  | @multi name key keys hfirst hlast _ _ =>
    have htouch : Touches Finset.univ (cmd.run env (name :: key :: keys)) :=
      multiKey_touches env (fun _ _ => Finset.mem_univ _) cmd hcmd hfirst hlast
    exact .inl (htouch.frame c).settings
  | whole his =>
    subst his
    exact .inl ((cmdFlushDB_touches args).frame c).settings
  | ping his =>
    subst his
    refine .inl ?_
    change (cmdPing args c).2.settings = c.settings
    unfold cmdPing
    split <;> rfl
  | select his =>
    subst his
    exact .inl (cmdSelect_settings _ c)
  | config his => exact .inr his

/-- A command leaves the settings alone, or succeeds and puts others in their place. -/
theorem run_settings {cmd : Command n m} (hcmd : cmd ∈ registry) (env : Env m) {args : List Bytes}
    (hacc : cmd.accepts args.length = true) (c : Context n m) :
    (cmd.run env args c).2.settings = c.settings ∨
      (cmd.run env args c).1 = .ok .ok ∧ c.settings.isSome = true ∧
        (cmd.run env args c).2.settings.isSome = true := by
  rcases run_settings_eq hcmd env hacc c with hsame | rfl
  · exact .inl hsame
  · rcases cmdConfig_cases env args c with ⟨x, hx⟩ | ⟨r, hsome, hx⟩
    · exact .inl (congrArg (fun y => y.2.settings) hx)
    · refine .inr ⟨congrArg Prod.fst hx, hsome, ?_⟩
      exact congrArg (fun y => y.2.settings.isSome) hx

/-- **An error reply means that nothing happened.** Whatever the databases, the session and the
settings are, and whatever the request is: when it is answered with an error, the databases with
every entry and its deadline, the selected database and the settings are as they were. -/
theorem error_changes_nothing (env : Env m) (args : List Bytes) (c : Context n m) {reply : Reply}
    (hrun : (dispatch env args c).1 = .ok reply) (herror : reply.isError = true) :
    (dispatch env args c).2.databases = c.databases ∧
      (dispatch env args c).2.index = c.index ∧
      (dispatch env args c).2.settings = c.settings := by
  unfold dispatch at hrun ⊢
  cases hres : (resolve args : Except Reply (Command n m)) with
  | error reply => exact ⟨rfl, rfl, rfl⟩
  | ok cmd =>
    simp only [hres] at hrun ⊢
    obtain ⟨hcmd, hacc, -⟩ := resolve_ok hres
    have hbad : ∀ r, (cmd.run env args c).1 = .ok r → r.isError = true := by
      intro r hr
      rw [hrun] at hr
      cases hr
      exact herror
    have hclean := run_failsClean env hcmd hacc c hbad
    refine ⟨hclean.databases, hclean.index, ?_⟩
    rcases run_settings hcmd env hacc c with hsame | ⟨hok, -, -⟩
    · exact hsame
    · cases hbad _ hok

/-- A sorted set is given two members, the second with a score that is not a number. -/
theorem error_changes_nothing_zadd :
    (dispatch (Env.single 0) (["ZADD", "z", "1", "a", "x", "b"].map ascii)
        (Context.empty none 0 fun _ => 0 : Context 1 1)).1
      = .ok (.error (ascii "ERR value is not a valid float")) ∧
    (dispatch (Env.single 0) (["ZADD", "z", "1", "a", "x", "b"].map ascii)
        (Context.empty none 0 fun _ => 0 : Context 1 1)).2.databases
      = (Context.empty none 0 fun _ => 0 : Context 1 1).databases := by
  have hrun : (dispatch (Env.single 0) (["ZADD", "z", "1", "a", "x", "b"].map ascii)
        (Context.empty none 0 fun _ => 0 : Context 1 1)).1
      = .ok (.error (ascii "ERR value is not a valid float")) := by rfl
  exact ⟨hrun, (error_changes_nothing (Env.single 0) _ _ hrun rfl).1⟩

/-! ## Panics -/

section Panics

variable {κ : Type} [DecidableEq κ]

/-- Whatever it is asked, a server that starts empty holds databases that stand for something. -/
theorem serveAll_repr (env : Env m) : ∀ (rs : List (Request κ)) {s : Server κ n m},
    (∃ A, Databases.Repr env s.databases A) → ∃ A, Databases.Repr env (s.serveAll env rs).databases A
  | [], _, h => h
  | r :: rs, s, ⟨A, hA⟩ => by
      refine serveAll_repr env rs ?_
      have hA' : Databases.Repr (env.at r.now r.ord) (s.context r).databases A := hA
      rcases request_refines hA' r.logNow r.args with ⟨-, hsame⟩ | ⟨cmd, -, -, -, -, hrepr⟩
      · refine ⟨A, ?_⟩
        unfold Server.serve
        simp only [hsame]
        exact hA
      · exact ⟨_, hrepr⟩

/-- Does the request ask to pop more elements off a live list than a slice of replies can hold? -/
def popsTooMany (env : Env m) (s : Server κ n m) (r : Request κ) : Bool :=
  match r.args with
  | [name, key, count] =>
    (foldName name == ascii "lpop" || foldName name == ascii "rpop") &&
      (match parseInt count with
        | some k => decide (0 ≤ k) && decide (maxAlloc < k.toNat * replySize)
        | none => false) &&
      (match (s.databases (s.sessions r.conn) (env.route key)).lookup r.now key with
        | some e => decide (e.value.kind = .list)
        | none => false)
  | _ => false

/-- The live entry under a key is a list, seen from the shards and from what they stand for. -/
theorem lookup_list_iff {env : Env m} {dbs : Fin n → DB m} {A : Fin n → ADB}
    (h : Databases.Repr env dbs A) (d : Fin n) (now : Time) (key : Bytes) :
    (∃ e, liveAt now (A d key) = some e ∧ e.value.kind = .list) ↔
      (match (dbs d (env.route key)).lookup now key with
        | some e => decide (e.value.kind = .list)
        | none => false) = true := by
  have hrel := (h d).peek now key
  unfold Keyspace.lookup
  generalize (dbs d (env.route key)).peek now key = o at hrel
  generalize liveAt now (A d key) = l at hrel
  cases hrel with
  | none => simp
  | some he => simp [he.1.kind_eq]

omit [DecidableEq κ] in
theorem crashes_iff_popsTooMany {env : Env m} {s : Server κ n m} {A : Fin n → ADB}
    (h : Databases.Repr env s.databases A) {r : Request κ} {cmd : Command n m} {name : Bytes}
    {rest : List Bytes} (hargs : r.args = name :: rest) (hname : cmd.name = foldName name) :
    cmd.Crashes r.now r.args (A (s.sessions r.conn)) ↔ popsTooMany env s r = true := by
  unfold Command.Crashes popsTooMany
  rw [hargs, hname]
  match rest with
  | [] => simp
  | [key] => simp [KeyOp.oversized]
  | key :: _ :: _ :: _ => simp [KeyOp.oversized]
  | [key, count] =>
    simp only [Bool.and_eq_true, Bool.or_eq_true, beq_iff_eq, and_assoc, KeyOp.oversized,
      lookup_list_iff h]
    cases parseInt count <;> simp

/-- **No request makes a handler panic but a counted pop with a huge count.** A server that starts
with empty databases serves any requests; then any further request that names a command with an
accepted number of arguments runs to a reply if and only if it is not a counted pop off a live list
with a count that no slice of replies can hold. -/
theorem handler_completes_iff (env : Env m) (settings : Option Reloadable) (sessions : κ → Fin n)
    (rs : List (Request κ)) (r : Request κ) {cmd : Command n m} (hres : resolve r.args = .ok cmd) :
    (∃ reply, (cmd.run (env.at r.now r.ord) r.args
        (((Server.empty settings sessions).serveAll env rs).context r)).1 = .ok reply) ↔
      popsTooMany env ((Server.empty settings sessions : Server κ n m).serveAll env rs) r
        = false := by
  have hempty : Databases.Repr env (Server.empty settings sessions : Server κ n m).databases
      fun _ _ => none := empty_repr env settings (sessions r.conn) r.rng
  obtain ⟨A, hA⟩ := serveAll_repr env rs ⟨_, hempty⟩
  generalize (Server.empty settings sessions : Server κ n m).serveAll env rs = s at hA
  have hs : (s.context r).Shows (env.at r.now r.ord) (A (s.sessions r.conn)) := hA _
  obtain ⟨hcmd, hacc, name, rest, hargs, hname⟩ := resolve_ok hres
  rw [run_completes_iff hcmd hacc hs, ← Bool.not_eq_true, not_iff_not]
  exact crashes_iff_popsTooMany hA hargs hname

end Panics

/-- A server whose only key is a list of one element. -/
def oneList : Server Unit 1 1 :=
  (Server.empty none fun _ => 0).serveAll (Env.single 0) [sole 0 ["RPUSH", "k", "v"]]

/-- Popping the largest number of elements that can be asked for panics, and the client is told of
an internal error. -/
theorem pop_huge_count_panics :
    (dispatch (Env.single 0) (["LPOP", "k", "9223372036854775807"].map ascii)
        (oneList.context (sole 0 []))).1 = .error .makeslice ∧
      (oneList.serve (Env.single 0) (sole 0 ["LPOP", "k", "9223372036854775807"])).1
        = .error (ascii "ERR internal server error") :=
  ⟨rfl, rfl⟩

/-- A counted pop that asks for more than there is, but not for too much. -/
theorem handler_completes_iff_count :
    ∃ cmd : Command 1 1, resolve (sole 0 ["LPOP", "k", "1000"]).args = .ok cmd ∧
      ∃ reply, (cmd.run ((Env.single 0).at 0 MapOrder.default) (sole 0 ["LPOP", "k", "1000"]).args
        (oneList.context (sole 0 ["LPOP", "k", "1000"]))).1 = .ok reply := by
  refine ⟨_, rfl, ?_⟩
  exact (handler_completes_iff (Env.single 0) none (fun _ => 0) [sole 0 ["RPUSH", "k", "v"]]
    (sole 0 ["LPOP", "k", "1000"]) rfl).mpr (by decide +kernel)

end Memcore
