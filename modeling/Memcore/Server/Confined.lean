import Memcore.Server.Serve

/-!
# What the locks of a request cover

`lockShards` never fails on a command of the table, and what it locks covers what the handler
touches: the handler changes no other shard, and what it does to these depends on nothing else
(`run_confined`). The commands without keys lock nothing and touch no database. Of these, CONFIG
works on the settings, which every connection shares: the reply of CONFIG GET is read from them, and
nothing else a request returns or does to the databases depends on them.
-/

namespace Memcore

open Go Cmd Prog

variable {n m : Nat}

/-! ## The shards of the keys -/

theorem mem_distinctShards {i : Fin m} : ∀ {seen rest : List (Fin m)},
    i ∈ rest → i ∈ seen ∨ i ∈ distinctShards seen rest
  | seen, j :: rest, h => by
      rw [distinctShards]
      split
      next hj =>
        rcases List.mem_cons.mp h with rfl | h
        · exact .inl hj
        · exact mem_distinctShards h
      next =>
        rcases List.mem_cons.mp h with rfl | h
        · exact .inr List.mem_cons_self
        · have hmem : i ∈ j :: seen ∨ i ∈ distinctShards (j :: seen) rest := mem_distinctShards h
          rcases hmem with hseen | hrest
          · rcases List.mem_cons.mp hseen with rfl | hseen
            · exact .inr List.mem_cons_self
            · exact .inl hseen
          · exact .inr (List.mem_cons_of_mem _ hrest)

theorem mem_shardSet (route : Bytes → Fin m) {key : Bytes} {keys : List Bytes} (h : key ∈ keys) :
    route key ∈ shardSet route keys := by
  unfold shardSet
  split
  · cases h
  · rw [List.mem_singleton.mp h]
    exact List.mem_singleton_self _
  · rw [List.mem_insertionSort]
    exact (mem_distinctShards (List.mem_map_of_mem h)).resolve_left List.not_mem_nil

/-- The loop of `Keys` with stride 1 up to the last argument. -/
theorem keysFrom_last (name : Bytes) : ∀ (front back : List Bytes) (fuel : Nat), back.length < fuel →
    Command.keysFrom (name :: (front ++ back)) 1 (front ++ back).length fuel (front.length + 1)
      = .ok back
  | front, [], fuel + 1, _ => by
      rw [Command.keysFrom, if_neg (by simp)]
  | front, key :: back, fuel + 1, h => by
      have hkey : Go.index (name :: (front ++ key :: back)) (front.length + 1) = .ok key := by
        simp [Go.index]
      have hrest := keysFrom_last name (front ++ [key]) back fuel (by simpa using h)
      have hlen : (front ++ [key]).length = front.length + 1 := List.length_append
      rw [List.append_assoc, List.singleton_append, hlen] at hrest
      rw [Command.keysFrom, if_pos (by simp), hkey]
      simp only [bind, Except.bind, hrest]

theorem keys_multi {cmd : Command n m} (hfirst : cmd.firstKey = 1) (hlast : cmd.lastKey = -1)
    (hstep : cmd.keyStep = 1) (hpart : cmd.wholeDB = false) {name : Bytes} {keys : List Bytes}
    (hne : keys ≠ []) : cmd.keys (name :: keys) = .ok keys := by
  have hpos : 0 < keys.length := List.length_pos_iff.mpr hne
  have hloop := keysFrom_last name [] keys (keys.length + 1 + 1) (by omega)
  have hlen : ((name :: keys).length : Int) + -1 = keys.length := by simp
  unfold Command.keys
  rw [hfirst, hlast, hstep, hpart, if_neg (by decide)]
  have hinside : ¬ ((name :: keys).length : Int) ≤ keys.length := by simp
  have hone : ¬ (keys.length : Int) < 1 := by omega
  simp only [if_pos (show (-1 : Int) < 0 by decide), hlen, if_neg hinside, if_neg hone]
  exact hloop

/-! ## Handlers and their shards -/

/-- Contexts that a handler of the shards `S` cannot tell apart; only CONFIG GET can see a difference
in the settings. -/
structure Similar (S : List (Fin m)) (c d : Context n m) : Prop where
  index : c.index = d.index
  rng : c.rng = d.rng
  settings : c.settings.isSome = d.settings.isSome
  shards : ∀ i ∈ S, c.databases c.index i = d.databases c.index i

/-- A handler that stays within the shards `S` of the selected database. -/
structure Confined (S : List (Fin m)) (p : Cmd n m Reply) : Prop where
  others : ∀ c k, k ≠ c.index → (p c).2.databases k = c.databases k
  outside : ∀ c i, i ∉ S → (p c).2.databases c.index i = c.databases c.index i
  settings : ∀ c, (p c).2.settings.isSome = c.settings.isSome
  failure : ∀ c d, Similar S c d → isFailure (p c).1 = isFailure (p d).1
  index : ∀ c d, Similar S c d → (p c).2.index = (p d).2.index
  inside : ∀ c d, Similar S c d → ∀ i ∈ S,
    (p c).2.databases c.index i = (p d).2.databases c.index i

/-- The outcome depends on nothing but what the contexts have in common. -/
def Steady (S : List (Fin m)) (p : Cmd n m Reply) : Prop :=
  ∀ c d, Similar S c d → (p c).1 = (p d).1

theorem Similar.agree {S : List (Fin m)} {c d : Context n m} (h : Similar S c d) :
    Agree S.toFinset c d where
  index := h.index
  rng := h.rng
  shards i hi := by
    rw [Context.db, Context.db, ← h.index]
    exact h.shards i (List.mem_toFinset.mp hi)

theorem steady_of_touches {S : List (Fin m)} {p : Cmd n m Reply} (h : Touches S.toFinset p) :
    Steady S p :=
  fun c d hcd => (h.same c d hcd.agree).1

theorem confined_of_touches {S : List (Fin m)} {p : Cmd n m Reply} (h : Touches S.toFinset p) :
    Confined S p where
  others c k hk := (h.frame c).others k hk
  outside c i hi := by
    have hframe := (h.frame c).selected i fun hmem => hi (List.mem_toFinset.mp hmem)
    rwa [Context.db, (h.frame c).index] at hframe
  settings c := by rw [(h.frame c).settings]
  failure c d hcd := by rw [steady_of_touches h c d hcd]
  index c d hcd := by rw [(h.frame c).index, (h.frame d).index, hcd.index]
  inside c d hcd i hi := by
    have hsame := (h.same c d hcd.agree).2.shards i (List.mem_toFinset.mpr hi)
    rwa [Context.db, Context.db, (h.frame c).index, (h.frame d).index, ← hcd.index] at hsame

/-- A handler that leaves the databases and the selection alone. -/
theorem confined_of_looks {p : Cmd n m Reply} (hlooks : Looks p)
    (hsettings : ∀ c, (p c).2.settings.isSome = c.settings.isSome)
    (hfailure : ∀ c d, Similar [] c d → isFailure (p c).1 = isFailure (p d).1) : Confined [] p where
  others c k _ := by rw [(hlooks c).databases]
  outside c i _ := by rw [(hlooks c).databases]
  settings := hsettings
  failure := hfailure
  index c d hcd := by rw [(hlooks c).index, (hlooks d).index, hcd.index]
  inside _ _ _ i hi := by cases hi

theorem cmdPing_confined (args : List Bytes) :
    Confined [] (cmdPing args : Cmd n m Reply) ∧ Steady [] (cmdPing args : Cmd n m Reply) := by
  have hrun (c : Context n m) : (cmdPing args c).2 = c := by
    unfold cmdPing
    split <;> rfl
  have hsteady : Steady [] (cmdPing args : Cmd n m Reply) := by
    intro c d _
    unfold cmdPing
    split <;> rfl
  refine ⟨confined_of_looks (cmdPing_looks args) (fun c => by rw [hrun]) fun c d hcd => ?_, hsteady⟩
  rw [hsteady c d hcd]

theorem cmdSelect_confined (args : List Bytes) :
    Confined [] (cmdSelect args : Cmd n m Reply) ∧ Steady [] (cmdSelect args : Cmd n m Reply) := by
  have hrun (c d : Context n m) : (cmdSelect args c).1 = (cmdSelect args d).1 ∧
      (cmdSelect args c).2.settings = c.settings ∧
      (c.index = d.index → (cmdSelect args c).2.index = (cmdSelect args d).2.index) := by
    unfold cmdSelect Cmd.arg
    cases Go.index args 1 with
    | error p => exact ⟨rfl, rfl, id⟩
    | ok arg1 =>
      simp only [lift_ok_bind]
      cases parseInt arg1 with
      | none => exact ⟨rfl, rfl, id⟩
      | some index =>
        by_cases h : 0 ≤ index ∧ index.toNat < n
        · simp only [bind_apply_ok (select_of_lt h _)]
          exact ⟨rfl, rfl, fun _ => rfl⟩
        · simp only [bind_apply_ok (select_of_not_lt h _)]
          exact ⟨rfl, rfl, id⟩
  refine ⟨⟨?_, ?_, ?_, ?_, ?_, ?_⟩, fun c d _ => (hrun c d).1⟩
  · exact fun c k _ => by rw [cmdSelect_databases]
  · exact fun c i _ => by rw [cmdSelect_databases]
  · exact fun c => by rw [(hrun c c).2.1]
  · exact fun c d _ => by rw [(hrun c d).1]
  · exact fun c d hcd => (hrun c d).2.2 hcd.index
  · exact fun _ _ _ i hi => by cases hi

/-- The form of a CONFIG GET, the one CONFIG whose reply is read from the settings. -/
def getsSettings (host : Host) (args : List Bytes) : Bool :=
  match args with
  | [_, sub, _] => decide (host.toUpper sub = ascii "GET")
  | _ => false

/-- CONFIG GET reads, and never fails. -/
theorem cmdConfig_get {env : Env m} {args : List Bytes} (h : getsSettings env.host args = true)
    {c : Context n m} {r : Reloadable} (hc : c.settings = some r) :
    isFailure (cmdConfig env args c).1 = false ∧ (cmdConfig env args c).2 = c := by
  match args with
  | [name, sub, pattern] =>
    have hget : env.host.toUpper sub = ascii "GET" := of_decide_eq_true h
    have hload : getSettings c = (.ok (some r), c) := hc ▸ rfl
    have hrun : cmdConfig env [name, sub, pattern] c = (.ok (configGet env r pattern), c) := by
      unfold cmdConfig
      rw [bind_apply_ok hload]
      simp only [Cmd.arg, Go.index, List.length_cons, List.length_nil]
      exact congrFun (if_pos hget) c
    refine ⟨?_, by rw [hrun]⟩
    rw [hrun]
    change (configGet env r pattern).isError = false
    unfold configGet
    split
    · rfl
    · split <;> rfl
  | [] => cases h
  | [_] => cases h
  | [_, _] => cases h
  | _ :: _ :: _ :: _ :: _ => cases h

/-- Any other CONFIG has one outcome, whatever the settings are, as long as there are any: they
decide what is stored, not what is replied. -/
theorem cmdConfig_outcome {env : Env m} {args : List Bytes}
    (h : getsSettings env.host args = false) :
    ∃ outcome, ∀ (c : Context n m) (r : Reloadable), c.settings = some r →
      (cmdConfig env args c).1 = outcome ∧ (cmdConfig env args c).2.settings.isSome = true := by
  have hload {c : Context n m} {r : Reloadable} (hc : c.settings = some r) :
      getSettings c = (.ok (some r), c) := hc ▸ rfl
  have hsome {c : Context n m} {r : Reloadable} (hc : c.settings = some r) :
      c.settings.isSome = true := by rw [hc]; rfl
  -- the cases of the handler: every one but `CONFIG GET` answers from the arguments alone
  unfold cmdConfig Cmd.arg
  rcases harg : Go.index args 1 with p | arg1
  · refine ⟨.error p, fun c r hc => ?_⟩
    simp only [bind_apply_ok (hload hc)]
    exact ⟨rfl, hsome hc⟩
  by_cases hget : env.host.toUpper arg1 = ascii "GET"
  -- a `GET` with a pattern is the one command that reads the settings back
  · have hlen : args.length ≠ 3 := by
      intro hlen
      obtain ⟨name, sub, pattern, rfl⟩ := List.length_eq_three.mp hlen
      cases harg
      exact of_decide_eq_false h hget
    refine ⟨.ok (.error (ascii "ERR wrong number of arguments for 'config|get' command")), fun c r hc => ?_⟩
    simp only [bind_apply_ok (hload hc), lift_ok_bind, if_pos hget, if_pos hlen]
    exact ⟨rfl, hsome hc⟩
  by_cases hset : env.host.toUpper arg1 = ascii "SET"
  · by_cases hlen : args.length ≠ 4
    · refine ⟨.ok (.error (ascii "ERR wrong number of arguments for 'config|set' command")), fun c r hc => ?_⟩
      simp only [bind_apply_ok (hload hc), lift_ok_bind, if_neg hget, if_pos hset, if_pos hlen]
      exact ⟨rfl, hsome hc⟩
    rcases Go.index args 2 with p | name
    · refine ⟨.error p, fun c r hc => ?_⟩
      simp only [bind_apply_ok (hload hc), lift_ok_bind, if_neg hget, if_pos hset, if_neg hlen]
      exact ⟨rfl, hsome hc⟩
    rcases Go.index args 3 with p | val
    · refine ⟨.error p, fun c r hc => ?_⟩
      simp only [bind_apply_ok (hload hc), lift_ok_bind, if_neg hget, if_pos hset, if_neg hlen]
      exact ⟨rfl, hsome hc⟩
    simp only [lift_ok_bind, if_neg hget, if_pos hset, if_neg hlen]
    -- whether a value is taken does not depend on the settings it is set in
    have hverdict (r : Reloadable) :=
      Reloadable.set_verdict env.host r ⟨0, 0, false⟩ (env.host.toLower name) val
    cases hzero : (⟨0, 0, false⟩ : Reloadable).set env.host (env.host.toLower name) val with
    | error text =>
      refine ⟨.ok (.error (concat [ascii "ERR ", text])), fun c r hc => ?_⟩
      have hr := hverdict r
      rw [hzero] at hr
      cases hput : r.set env.host (env.host.toLower name) val with
      | ok r' => rw [hput] at hr; cases hr
      | error text' =>
        rw [hput] at hr
        cases hr
        simp only [bind_apply_ok (hload hc), hput]
        exact ⟨rfl, hsome hc⟩
    | ok zero =>
      refine ⟨.ok .ok, fun c r hc => ?_⟩
      have hr := hverdict r
      rw [hzero] at hr
      cases hput : r.set env.host (env.host.toLower name) val with
      | error text => rw [hput] at hr; cases hr
      | ok r' =>
        simp only [bind_apply_ok (hload hc), hput]
        exact ⟨rfl, rfl⟩
  · refine ⟨.ok (.error (concat [ascii "ERR unknown CONFIG subcommand '", arg1, ascii "'"])),
      fun c r hc => ?_⟩
    simp only [bind_apply_ok (hload hc), lift_ok_bind, if_neg hget, if_neg hset]
    exact ⟨rfl, hsome hc⟩

theorem cmdConfig_none {env : Env m} {args : List Bytes} {c : Context n m} (hc : c.settings = none) :
    cmdConfig env args c = (.ok (.error (ascii "ERR CONFIG is unavailable")), c) := by
  unfold cmdConfig
  rw [bind_apply_ok (show getSettings c = (.ok none, c) from hc ▸ rfl)]
  rfl

/-- Contexts that are similar both have settings or both have none. -/
theorem Similar.settings_cases {S : List (Fin m)} {c d : Context n m} (h : Similar S c d) :
    (c.settings = none ∧ d.settings = none) ∨ ∃ r r', c.settings = some r ∧ d.settings = some r' := by
  have hsettings := h.settings
  cases hc : c.settings with
  | none =>
    rw [hc] at hsettings
    exact .inl ⟨rfl, Option.not_isSome_iff_eq_none.mp (by simp [← hsettings])⟩
  | some r =>
    rw [hc] at hsettings
    obtain ⟨r', hd⟩ := Option.isSome_iff_exists.mp hsettings.symm
    exact .inr ⟨r, r', rfl, hd⟩

theorem cmdConfig_steady {env : Env m} {args : List Bytes}
    (h : getsSettings env.host args = false) : Steady [] (cmdConfig env args : Cmd n m Reply) := by
  obtain ⟨outcome, houtcome⟩ := cmdConfig_outcome (n := n) h
  intro c d hcd
  rcases hcd.settings_cases with ⟨hc, hd⟩ | ⟨r, r', hc, hd⟩
  · rw [cmdConfig_none hc, cmdConfig_none hd]
  · rw [(houtcome c r hc).1, (houtcome d r' hd).1]

theorem cmdConfig_confined (env : Env m) (args : List Bytes) :
    Confined [] (cmdConfig env args : Cmd n m Reply) := by
  refine confined_of_looks (cmdConfig_looks env args) (fun c => ?_) fun c d hcd => ?_
  · cases hc : c.settings with
    | none => rw [cmdConfig_none hc, hc]
    | some r =>
      cases hget : getsSettings env.host args with
      | true => rw [(cmdConfig_get hget hc).2, hc]
      | false =>
        obtain ⟨outcome, houtcome⟩ := cmdConfig_outcome (n := n) hget
        exact (houtcome c r hc).2
  · cases hget : getsSettings env.host args with
    | false => rw [cmdConfig_steady hget c d hcd]
    | true =>
      rcases hcd.settings_cases with ⟨hc, hd⟩ | ⟨r, r', hc, hd⟩
      · rw [cmdConfig_none hc, cmdConfig_none hd]
      · rw [(cmdConfig_get hget hc).1, (cmdConfig_get hget hd).1]

/-- **The locks of a command cover what it touches**, and what it replies depends on nothing else;
only CONFIG GET replies with something no lock covers. -/
theorem run_confined (env : Env m) {cmd : Command n m} (hcmd : cmd ∈ registry) {args : List Bytes}
    (hacc : cmd.accepts args.length = true) :
    ∃ shards, lockShards env.route cmd args = .ok shards ∧ Confined shards (cmd.run env args) ∧
      ((cmd.name = ascii "config" → getsSettings env.host args = false) →
        Steady shards (cmd.run env args)) := by
  cases takes_of_accepts hcmd hacc with
  | @single name key rest hkey =>
    -- the shards that are locked are those the handler touches
    have htouch : Touches [env.route key].toFinset (cmd.run env (name :: key :: rest)) :=
      singleKey_touches env (by simp) rest cmd hcmd hkey
    refine ⟨[env.route key], ?_, confined_of_touches htouch, fun _ => steady_of_touches htouch⟩
    rw [lockShards, if_pos ⟨hkey, by simp⟩]
    rfl
  | @multi name key keys hfirst hlast hstep hpart =>
    have htouch : Touches (shardSet env.route (key :: keys)).toFinset
        (cmd.run env (name :: key :: keys)) :=
      multiKey_touches env (fun k hk => List.mem_toFinset.mpr (mem_shardSet _ hk)) cmd hcmd
        hfirst hlast
    refine ⟨shardSet env.route (key :: keys), ?_, confined_of_touches htouch,
      fun _ => steady_of_touches htouch⟩
    rw [lockShards, if_neg (by simp [Command.singleKey, hlast]), hpart,
      keys_multi hfirst hlast hstep hpart (List.cons_ne_nil _ _)]
    rfl
  | whole his =>
    subst his
    have htouch : Touches (List.finRange m).toFinset (cmdFlushDB args : Cmd n m Reply) := by
      have hall : (List.finRange m).toFinset = Finset.univ := by ext; simp
      rw [hall]
      exact cmdFlushDB_touches args
    exact ⟨List.finRange m, rfl, confined_of_touches htouch, fun _ => steady_of_touches htouch⟩
  | ping his =>
    subst his
    exact ⟨[], rfl, (cmdPing_confined args).1, fun _ => (cmdPing_confined args).2⟩
  | select his =>
    subst his
    exact ⟨[], rfl, (cmdSelect_confined _).1, fun _ => (cmdSelect_confined _).2⟩
  | config his =>
    subst his
    exact ⟨[], rfl, cmdConfig_confined env _, fun hget => cmdConfig_steady (hget rfl)⟩

end Memcore
