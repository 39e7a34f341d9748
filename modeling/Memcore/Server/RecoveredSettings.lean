import Memcore.Command.Config
import Memcore.Server.Durability
import Memcore.Server.Outcome
import Memcore.Server.Persistent
import Memcore.Server.Reached
import Memcore.SettingsRace

/-!
# The settings after a restart

CONFIG SET is registered like a write without keys, so `execute` logs it and recovery applies it
again. A snapshot holds the databases only, and a compaction removes the log before it. So a restart
ends up with the boot configuration and the updates made since the last compaction
(`recover_settings`); two servers that were sent the same requests can end up with different
settings because one of them compacted (`compaction_drops_setting`).
-/

namespace Memcore

open Go Prog ByteStream

variable {κ : Type} {n m : Nat}

/-! ## CONFIG SET -/

/-- What a request assigns, when it is an accepted CONFIG SET. -/
def configAssign (host : Host) (args : List Bytes) : Option Assign :=
  match args with
  | [config, arg1, name, val] =>
    if foldName config = ascii "config" ∧ host.toUpper arg1 = ascii "SET" then
      Assign.parse (host.toLower name) val
    else none
  | _ => none

/-- The settings after a request. -/
def settle (host : Host) (args : List Bytes) (r : Reloadable) : Reloadable :=
  (configAssign host args).elim r fun a => a.apply r

theorem configAssign_eq_some {host : Host} {args : List Bytes} {a : Assign}
    (h : configAssign host args = some a) : ∃ config arg1 name val,
      args = [config, arg1, name, val] ∧ foldName config = ascii "config" ∧
        host.toUpper arg1 = ascii "SET" ∧ Assign.parse (host.toLower name) val = some a := by
  unfold configAssign at h
  split at h
  next config arg1 name val =>
    split at h
    next hset => exact ⟨config, arg1, name, val, rfl, hset.1, hset.2, h⟩
    next => cases h
  next => cases h

/-- A request that does not name CONFIG assigns nothing. -/
theorem configAssign_of_ne {host : Host} {name : Bytes} {rest : List Bytes}
    (h : foldName name ≠ ascii "config") : configAssign host (name :: rest) = none := by
  unfold configAssign
  split
  next heq =>
    cases heq
    rw [if_neg fun hset => h hset.1]
  next => rfl

theorem foldName_len (name : Bytes) : (foldName name).len = name.len := by
  have hmap : (name.data.map lowerByte).length = name.data.length := List.length_map _
  show (Bytes.ofList (name.data.map lowerByte)).data.length = name.data.length
  rw [Bytes.ofList_data (hmap.trans_le name.inMem), hmap]

theorem lookupFold_config {name : Bytes} (h : foldName name = ascii "config") :
    (lookupFold name : Option (Command n m)) = some (.plain "config" (-2) cmdConfig) := by
  have hlen : name.len = 6 := by
    rw [← foldName_len, h]
    rfl
  unfold lookupFold
  rw [if_neg (by rw [hlen]; decide), h]
  rfl

theorem resolve_config {config : Bytes} (h : foldName config = ascii "config")
    (arg1 name val : Bytes) : resolve [config, arg1, name, val]
      = .ok (.plain "config" (-2) cmdConfig : Command n m) := by
  rw [resolve, lookupFold_config h]
  rfl

/-- Other forms of CONFIG leave the settings alone. -/
theorem cmdConfig_other (env : Env m) {args : List Bytes} (c : Context n m)
    (h : ∀ config arg1 name val, args = [config, arg1, name, val] →
      env.host.toUpper arg1 ≠ ascii "SET") : (cmdConfig env args c).2 = c := by
  unfold cmdConfig
  rw [bind_apply_ok (show Cmd.getSettings c = (.ok c.settings, c) from rfl)]
  cases c.settings with
  | none => rfl
  | some r =>
    match args, h with
    | [], _ | [_], _ => rfl
    | [config, arg1], _ | [config, arg1, arg2], _ | config :: arg1 :: _ :: _ :: _ :: _, _ =>
      simp only [arg_one_bind]
      split
      · split <;> rfl
      · split <;> rfl
    | [config, arg1, name, val], h =>
      simp only [arg_one_bind, if_neg (h config arg1 name val rfl)]
      split
      · split <;> rfl
      · rfl

/-- **What a request does to the settings**: an accepted CONFIG SET assigns a parameter and succeeds,
every other request leaves them alone. -/
theorem dispatch_settings (env : Env m) (args : List Bytes) {c : Context n m} {r : Reloadable}
    (hc : c.settings = some r) :
    (dispatch env args c).2.settings = some (settle env.host args r) ∧
      (∀ a, configAssign env.host args = some a → (dispatch env args c).1 = .ok .ok) := by
  cases hassign : configAssign env.host args with
  | some a =>
    obtain ⟨config, arg1, name, val, rfl, hconfig, hset, hparse⟩ := configAssign_eq_some hassign
    -- a `CONFIG SET` that is taken: its reply is `OK` and the settings are the new ones
    have hres : resolve [config, arg1, name, val]
        = .ok (.plain "config" (-2) cmdConfig : Command n m) := resolve_config hconfig _ _ _
    have hnew := r.set_eq env.host (env.host.toLower name) val
    rw [hparse] at hnew
    have hrun : dispatch env [config, arg1, name, val] c
        = (.ok .ok, { c with settings := some (a.apply r) }) := by
      unfold dispatch
      simp only [hres]
      show cmdConfig env _ c = _
      rw [cmdConfig_set env config hset name val hc]
      cases hr : r.set env.host (env.host.toLower name) val with
      | error text =>
        rw [hr] at hnew
        cases hnew
      | ok r' =>
        rw [hr] at hnew
        cases hnew
        rfl
    rw [hrun, settle, hassign]
    exact ⟨rfl, fun _ _ => rfl⟩
  | none =>
    refine ⟨?_, fun a ha => (by cases ha)⟩
    rw [settle, hassign]
    show (dispatch env args c).2.settings = some r
    rw [← hc]
    unfold dispatch
    cases hres : (resolve args : Except Reply (Command n m)) with
    | error reply => rfl
    | ok cmd =>
      obtain ⟨hcmd, hacc, name, rest, rfl, hname⟩ := resolve_ok hres
      -- no other command changes the settings, and a refused `CONFIG SET` leaves them
      rcases run_settings_eq hcmd env hacc c with hsame | rfl
      · exact hsame
      · show (cmdConfig env (name :: rest) c).2.settings = c.settings
        by_cases hset : ∃ config arg1 key val, name :: rest = [config, arg1, key, val] ∧
            env.host.toUpper arg1 = ascii "SET"
        · obtain ⟨config, arg1, key, val, heq, hset⟩ := hset
          cases heq
          rw [configAssign, if_pos ⟨hname.symm, hset⟩] at hassign
          have hnew := r.set_eq env.host (env.host.toLower key) val
          rw [hassign] at hnew
          rw [cmdConfig_set env name hset key val hc]
          cases hr : r.set env.host (env.host.toLower key) val with
          | error text => rfl
          | ok r' =>
            rw [hr] at hnew
            cases hnew
        · rw [cmdConfig_other env c fun config arg1 key val heq hs =>
            hset ⟨config, arg1, key, val, heq, hs⟩]

/-! ## What is logged -/

/-- Does the request ask to pop more elements than a slice of replies can hold? It panics when it
meets a list, and would do so again when it is replayed. -/
def hugePop (args : List Bytes) : Bool :=
  match args with
  | name :: _ :: rest =>
    decide (foldName name = ascii "lpop" ∨ foldName name = ascii "rpop") && KeyOp.oversized rest
  | _ => false

theorem not_crashes_of_hugePop {args : List Bytes} (h : hugePop args = false) {cmd : Command n m}
    (hres : resolve args = .ok cmd) (now : Time) (a : ADB) : ¬ cmd.Crashes now args a := by
  rintro ⟨hname, hmatch⟩
  obtain ⟨-, -, name, rest, rfl, hfold⟩ := resolve_ok hres
  cases rest with
  | nil => exact hmatch
  | cons key rest =>
    rw [hfold] at hname
    rw [hugePop, decide_eq_true hname, Bool.true_and, hmatch.1] at h
    cases h

/-- The logged form of a request is a CONFIG SET or a huge pop only if the request is. -/
theorem persistArgs_same {args : List Bytes} {cmd : Command n m} (hres : resolve args = .ok cmd)
    (logNow : Time) (host : Host) :
    configAssign host (persistArgs logNow cmd args) = configAssign host args ∧
      (hugePop args = false → hugePop (persistArgs logNow cmd args) = false) := by
  obtain ⟨-, -, name, rest, rfl, hname⟩ := resolve_ok hres
  unfold persistArgs
  split
  next hexpire =>
    split
    next _ key arg2 heq =>
      cases heq
      cases parseInt arg2 with
      | none => exact ⟨rfl, fun hpop => hpop⟩
      | some secs =>
        have hne : foldName name ≠ ascii "config" := by
          rw [← hname, hexpire]
          decide
        have hne' : foldName (ascii "PEXPIREAT") ≠ ascii "config" := by decide
        rw [configAssign_of_ne hne]
        refine ⟨configAssign_of_ne hne', fun _ => ?_⟩
        have hpop : ¬ (foldName (ascii "PEXPIREAT") = ascii "lpop" ∨
            foldName (ascii "PEXPIREAT") = ascii "rpop") := by decide
        simp only [hugePop, hpop, decide_false, Bool.false_and]
    next => exact ⟨rfl, fun hpop => hpop⟩
  next => exact ⟨rfl, fun hpop => hpop⟩

namespace Persistent

variable {env : Env m} {p : Persistent κ n m}

/-- The settings after a request. -/
theorem serve_settings [DecidableEq κ] {r₀ : Reloadable} (hset : p.server.settings = some r₀)
    (r : Request κ) :
    (p.server.serve env r).2.settings = some (settle env.host r.args r₀) := by
  show (request _ _ _ _).2.2.settings = _
  rw [request_context]
  exact (dispatch_settings (env.at r.now r.ord) r.args hset).1

variable (env) in
/-- A CONFIG SET that assigns a parameter is logged. -/
theorem logs_of_configAssign (hset : p.server.settings.isSome = true) {r : Request κ} {a : Assign}
    (hassign : configAssign env.host r.args = some a) : ∃ c, p.server.logs env r = some c := by
  obtain ⟨r₀, hset⟩ := Option.isSome_iff_exists.mp hset
  obtain ⟨config, arg1, name, val, hargs, hconfig, -⟩ := configAssign_eq_some hassign
  have hres : resolve r.args = .ok (.plain "config" (-2) cmdConfig : Command n m) := by
    rw [hargs]
    exact resolve_config hconfig arg1 name val
  have hok := (dispatch_settings (env.at r.now r.ord) r.args
    (show (p.server.context r).settings = some r₀ from hset)).2 a hassign
  simp only [dispatch, hres] at hok
  refine Server.logs_of_isLogged hres ?_ ?_
  · rw [hargs]
    show 4 * sliceHeader ≤ maxAlloc
    decide
  · rw [hok]
    rfl

variable (env) in
/-- The log has the assignment of a request, and nothing that crashes when the request did not. -/
theorem logs_spec (hset : p.server.settings.isSome = true) (r : Request κ) :
    (p.server.logs env r).bind (fun c => configAssign env.host c.args)
        = configAssign env.host r.args ∧
      ∀ c ∈ p.server.logs env r, (∃ d : Fin n, c.db = Int64.ofNat d) ∧
        (hugePop r.args = false → hugePop c.args = false) := by
  have hmem : ∀ c ∈ p.server.logs env r, configAssign env.host c.args
      = configAssign env.host r.args ∧ (∃ d : Fin n, c.db = Int64.ofNat d) ∧
        (hugePop r.args = false → hugePop c.args = false) := by
    intro c hc
    obtain ⟨cmd, hres, hdb, hargs⟩ := Server.mem_logs hc
    obtain ⟨hassign, hpop⟩ := persistArgs_same hres r.logNow env.host
    rw [hargs]
    exact ⟨hassign, ⟨_, hdb⟩, hpop⟩
  refine ⟨?_, fun c hc => (hmem c hc).2⟩
  cases hlogs : p.server.logs env r with
  | some c => exact (hmem c hlogs).1
  | none =>
    cases hassign : configAssign env.host r.args with
    | none => rfl
    | some a =>
      obtain ⟨c, hc⟩ := logs_of_configAssign env hset hassign
      rw [hlogs] at hc
      cases hc

end Persistent

/-! ## Recovering -/

/-- The log and the snapshots, as far as the settings go: a command assigns what it assigns, and a
snapshot says nothing, so that it goes with the boot configuration. -/
def settingsSemantics (n : Nat) (host : Host) (boot : Reloadable) : Semantics Reloadable where
  step r c := settle host c.args r
  Runs _ c := (∃ d : Fin n, c.db = Int64.ofNat d) ∧ hugePop c.args = false
  Captures r base snap := r = boot ∧ IsSnapshot n base snap

/-- The context has the settings, and databases that stand for something. -/
def ShowsSettings (env : Env m) (c : Context n m) (r : Reloadable) : Prop :=
  c.settings = some r ∧ ∃ A, Databases.Repr env c.databases A

theorem dispatch_completes {env : Env m} {args : List Bytes} (h : hugePop args = false)
    {c : Context n m} (hc : ∃ A, Databases.Repr env c.databases A) :
    (∃ reply, (dispatch env args c).1 = .ok reply) ∧
      ∃ A, Databases.Repr env (dispatch env args c).2.databases A := by
  obtain ⟨A, hA⟩ := hc
  unfold dispatch
  cases hres : (resolve args : Except Reply (Command n m)) with
  | error reply => exact ⟨⟨reply, rfl⟩, A, hA⟩
  | ok cmd =>
    obtain ⟨hcmd, hacc, -⟩ := resolve_ok hres
    refine ⟨?_, _, run_refines hcmd hacc hA⟩
    exact (run_completes_iff hcmd hacc (hA c.index)).mpr (not_crashes_of_hugePop h hres _ _)

theorem restoreAll_shows (hn : n < 2 ^ 63) {env : Env m} {r : Reloadable} :
    ∀ (records : List Record) {c : Context n m}, ShowsSettings env c r →
      (∀ x ∈ records, (∃ d : Fin n, x.db = Int64.ofNat d) ∧
        ∃ a, x.value.Repr a ∧ x.value.Bounded env.limits) →
      (callEach (restore env) records c).2 = none ∧
        ShowsSettings env (callEach (restore env) records c).1 r
  | [], _, h, _ => ⟨rfl, h⟩
  | x :: records, c, ⟨hset, A, hA⟩, hall => by
      obtain ⟨⟨⟨d, hdb⟩, a, hv, hb⟩, hrest⟩ := List.forall_mem_cons.mp hall
      obtain ⟨hok, hrepr⟩ := restore_refines hn hA hdb hv hb
      have hsame : (restore env c x).1.settings = c.settings := by
        unfold restore
        split <;> rfl
      rw [callEach]
      rcases hstep : restore env c x with ⟨c', err⟩
      rw [hstep] at hok hrepr hsame
      cases hok
      exact restoreAll_shows hn records ⟨hsame.trans hset, _, hrepr⟩ hrest

/-- Recovery, as far as the settings go. -/
theorem settings_faithful (hn : n < 2 ^ 63) (env : Env m) (boot : Reloadable) (now : Time)
    (ord : MapOrder) (rngs : Nat → Rng) (index : Fin n) (rng : Rng) :
    Faithful (settingsSemantics n env.host boot)
      (serverRecovery env now ord rngs (Context.empty (some boot) index rng))
      (ShowsSettings env) fun _ => True where
  good := fun _ _ => trivial
  replay := by
    -- a record of the log sets what its request set
    rintro c r l - ⟨⟨d, hdb⟩, hpop⟩ ⟨hset, hrepr⟩
    have hrepr' : ∃ A, Databases.Repr (env.at now ord)
        ({ c with index := d } : Context n m).databases A := hrepr
    obtain ⟨⟨reply, hok⟩, hafter⟩ := dispatch_completes hpop hrepr'
    have hnew := (dispatch_settings (env.at now ord) l.args
      (show ({ c with index := d } : Context n m).settings = some r from hset)).1
    refine ⟨_, ?_, hnew, hafter⟩
    show replay (env.at now ord) c l.db l.args = _
    rw [hdb, replay_eq hn, hok]
  restore := by
    -- a snapshot has no settings: those of the boot stay
    rintro r base snap - ⟨rfl, records, ords, hwrite, hrecords⟩
    obtain ⟨enc, records', hwrite', hsame, -, hread⟩ := readSnapshot_writeSnapshot env.limits ords
      rngs (Int64.ofNat base) fun x hx => (hrecords x hx).2
    obtain rfl : enc = snap := Except.ok.inj (hwrite'.symm.trans hwrite)
    have hall : ∀ x ∈ records', (∃ d : Fin n, x.db = Int64.ofNat d) ∧
        ∃ a, x.value.Repr a ∧ x.value.Bounded env.limits := by
      intro x' hx'
      obtain ⟨x, hx, hs⟩ := exists_of_forall₂_right hsame x' hx'
      obtain ⟨a, -, ha, hb⟩ := hs.value
      exact ⟨hs.db ▸ (hrecords x hx).1, a, ha, hb⟩
    have hstart : ShowsSettings (env.at now ord)
        (Context.empty (some r) index rng : Context n m) r := ⟨rfl, _, new_databases_repr _⟩
    obtain ⟨hnone, hshows⟩ := restoreAll_shows hn records' hstart hall
    refine ⟨_, ?_, hshows⟩
    show readSnapshot env.limits rngs (restore (env.at now ord)) enc
      (Context.empty (some r) index rng) = _
    rw [hread, hnone]
    rfl

/-- Assigning command by command. -/
theorem run_settingsSemantics (host : Host) (boot : Reloadable) (cmds : List LogCommand) :
    (settingsSemantics n host boot).run boot cmds
      = assignAll boot (cmds.filterMap fun c => configAssign host c.args) := by
  induction cmds using List.reverseRecOn with
  | nil => rfl
  | append_singleton cmds c ih =>
    rw [Machine.run_snoc, ih, List.filterMap_append, assignAll, assignAll, List.foldl_append]
    show settle host c.args _ = _
    rw [settle, List.filterMap_cons]
    cases configAssign host c.args <;> rfl

theorem allRun_settingsSemantics {host : Host} {boot : Reloadable} :
    ∀ {cmds : List LogCommand} (r : Reloadable),
      (∀ c ∈ cmds, (∃ d : Fin n, c.db = Int64.ofNat d) ∧ hugePop c.args = false) →
      (settingsSemantics n host boot).AllRun r cmds
  | [], _, _ => trivial
  | c :: _, _, h =>
    ⟨h c List.mem_cons_self,
      allRun_settingsSemantics _ fun d hd => h d (List.mem_cons_of_mem _ hd)⟩

/-- A directory with nothing buffered gives the settings of the commands in its segment. -/
theorem Persistent.Inv.recover (hn : n < 2 ^ 63) {env : Env m} {p : Persistent κ n m} {k : Nat}
    {cmds : List LogCommand} (h : p.Inv env k cmds) (hk : k < 2 ^ 63) (hbuf : p.store.buf = [])
    (hruns : ∀ c ∈ cmds, (∃ d : Fin n, c.db = Int64.ofNat d) ∧ hugePop c.args = false)
    {m' : Nat} (env' : Env m') (boot : Reloadable) (now : Time) (ord : MapOrder)
    (rngs : Nat → Rng) (index : Fin n) (rng : Rng) :
    (serverRecovery env' now ord rngs (Context.empty (some boot) index rng)).Gives p.disk fun c =>
      c.settings
        = some (assignAll boot (cmds.filterMap fun c => configAssign env'.host c.args)) := by
  have hf := settings_faithful hn env' boot now ord rngs index rng
  have hcovers : Covers (serverRecovery env' now ord rngs (Context.empty (some boot) index rng))
      (ShowsSettings env') p.disk p.store.gen [] boot := by
    rcases h.snapshot with ⟨hnone, hgen⟩ | ⟨f, hsome, hsnap⟩
    · refine ⟨Context.empty (some boot) index rng, 0, 0, _, ?_, hgen.symm, rfl, rfl, _,
        new_databases_repr _⟩
      rw [loadSnapshot, hnone]
      rfl
    · exact Restores.covers (h.gen.trans_lt hk) hsome (hf.restore trivial ⟨rfl, hsnap⟩)
  have hbytes : segBytes p.disk.segs p.store.gen = cmds.flatMap writeCommand := by
    rw [← h.bytes, hbuf, List.append_nil]
  have hwhole : closedLog p.store.gen (p.store.gen + 1)
      (fun g => wholeRecords cmds (segBytes p.disk.segs g).length) = [] ++ cmds := by
    rw [closedLog_succ le_rfl, closedLog_self, hbytes, wholeRecords_all]
  have hsegment (g : Nat) (hge : p.store.gen ≤ g) (hle : g ≤ p.store.gen) :
      segBytes p.disk.segs g <+: cmds.flatMap writeCommand := by
    rw [Nat.le_antisymm hle hge, hbytes]
  obtain ⟨c, loaded, replayed, hrec, hset, -⟩ := recover_whole hf hcovers le_rfl h.top
    (fun g hg => h.only g (Nat.ne_of_gt hg)) hsegment hwhole trivial
    (allRun_settingsSemantics boot hruns)
  exact ⟨c, loaded, replayed, hrec, hset.trans (congrArg some (run_settingsSemantics _ _ _))⟩

/-! ## Histories -/

/-- The requests since the last compaction, after one more action. -/
def Persistent.Action.since (rs : List (Request κ)) : Persistent.Action κ → List (Request κ)
  | .request r => rs ++ [r]
  | .flush => rs
  | .compact _ _ => []

/-- The requests that were executed after the last compaction. -/
def sinceCompaction (acts : List (Persistent.Action κ)) : List (Request κ) :=
  acts.foldl Persistent.Action.since []

/-- What the requests assign. -/
def assignments (host : Host) (rs : List (Request κ)) : List Assign :=
  rs.filterMap fun r => configAssign host r.args

/-- By how much an action can lengthen a collection or count up the generation. -/
def Persistent.Action.weight : Persistent.Action κ → Nat
  | .request r => r.args.length
  | .flush => 0
  | .compact _ _ => 1

/-- No request is a pop that no Go process can make. -/
def Persistent.Action.harmless : Persistent.Action κ → Bool
  | .request r => !hugePop r.args
  | _ => true

variable [DecidableEq κ]

/-- Along a history: the segment has the commands since the last compaction, with what they assign. -/
theorem actAll_inv (env : Env m) (fsync : FSync) (boot : Reloadable) (sessions : κ → Fin n)
    (acts : List (Persistent.Action κ)) (hsmall : (acts.map Persistent.Action.weight).sum < 2 ^ 63)
    (hpops : ∀ act ∈ acts, act.harmless = true) :
    let p : Persistent κ n m := (Persistent.start fsync boot sessions).actAll env acts
    p.server.settings.isSome = true ∧ ∃ cmds,
      p.Inv env (acts.map Persistent.Action.weight).sum cmds ∧
      (cmds.filterMap fun c => configAssign env.host c.args)
        = assignments env.host (sinceCompaction acts) ∧
      ∀ c ∈ cmds, (∃ d : Fin n, c.db = Int64.ofNat d) ∧ hugePop c.args = false := by
  induction acts using List.reverseRecOn with
  | nil => exact ⟨rfl, [], Persistent.start_inv env fsync boot sessions, rfl, List.forall_mem_nil _⟩
  | append_singleton acts act ih =>
    rw [List.map_append, List.sum_append, List.map_singleton, List.sum_singleton] at hsmall ⊢
    obtain ⟨hset, cmds, hinv, hassign, hruns⟩ := ih (by omega)
      fun a ha => hpops a (List.mem_append_left _ ha)
    simp only [Persistent.actAll, sinceCompaction, List.foldl_append, List.foldl_cons,
      List.foldl_nil] at hset hinv hassign ⊢
    generalize acts.foldl (Persistent.act env) (Persistent.start fsync boot sessions) = p
      at hset hinv ⊢
    cases act with
    | flush => exact ⟨hset, cmds, hinv.flush, hassign, hruns⟩
    | compact ord ords =>
      -- a compaction starts the log over: none of its records is replayed after it
      refine ⟨?_, [], hinv.compact (by omega) ord ords, rfl, List.forall_mem_nil _⟩
      rw [Persistent.act_compact_server]
      exact hset
    | request r =>
      -- a request adds its record, and its assignment if it makes one
      obtain ⟨r₀, hr₀⟩ := Option.isSome_iff_exists.mp hset
      obtain ⟨hlog, hlogs⟩ := Persistent.logs_spec env hset r
      have hpop : hugePop r.args = false := by
        have h := hpops (.request r) (List.mem_append_right _ List.mem_cons_self)
        exact Bool.not_eq_true' _ ▸ h
      refine ⟨?_, _, hinv.request r, ?_, fun c hc => ?_⟩
      · show (p.server.serve env r).2.settings.isSome = true
        rw [Persistent.serve_settings hr₀ r]
        rfl
      · rw [List.filterMap_append, hassign, assignments, assignments, Persistent.Action.since,
          List.filterMap_append]
        congr 1
        rw [List.filterMap_cons, ← hlog]
        cases p.server.logs env r with
        | none => rfl
        | some c => rw [Option.toList_some, Option.bind_some, List.filterMap_cons]; rfl
      · rcases List.mem_append.mp hc with hc | hc
        · exact hruns c hc
        · obtain ⟨hdb, himp⟩ := hlogs c (Option.mem_toList.mp hc)
          exact ⟨hdb, himp hpop⟩

/-- A server that has stopped, with everything flushed, and is started again: the settings are what
the `CONFIG SET`s since the last compaction make of the boot configuration. -/
theorem recover_settings (hn : n < 2 ^ 63) (env : Env m) (fsync : FSync) (boot : Reloadable)
    (sessions : κ → Fin n) (acts : List (Persistent.Action κ))
    (hsmall : (acts.map Persistent.Action.weight).sum < 2 ^ 63)
    (hpops : ∀ act ∈ acts, act.harmless = true)
    {m' : Nat} {env' : Env m'} (hhost : env'.host = env.host) (now : Time) (ord : MapOrder)
    (rngs : Nat → Rng) (index : Fin n) (rng : Rng) :
    (serverRecovery env' now ord rngs (Context.empty (some boot) index rng)).Gives
      ((Persistent.start fsync boot sessions : Persistent κ n m).actAll env (acts ++ [.flush])).disk
      fun c => c.settings
        = some (assignAll boot (assignments env.host (sinceCompaction acts))) := by
  obtain ⟨-, cmds, hinv, hassign, hruns⟩ := actAll_inv env fsync boot sessions acts hsmall hpops
  rw [Persistent.actAll, List.foldl_append, ← hassign, ← hhost]
  exact hinv.flush.recover hn hsmall rfl hruns env' boot now ord rngs index rng

/-- **The settings after a restart.** Two histories give the same settings exactly when the
`CONFIG SET`s after the last compaction of each make the same of the boot configuration. -/
theorem recovered_settings_eq_iff (hn : n < 2 ^ 63) (env : Env m) (fsync : FSync)
    (boot : Reloadable) (sessions : κ → Fin n) (acts acts' : List (Persistent.Action κ))
    (hsmall : (acts.map Persistent.Action.weight).sum < 2 ^ 63)
    (hsmall' : (acts'.map Persistent.Action.weight).sum < 2 ^ 63)
    (hpops : ∀ act ∈ acts, act.harmless = true) (hpops' : ∀ act ∈ acts', act.harmless = true)
    {m' : Nat} {env' : Env m'} (hhost : env'.host = env.host) (now : Time) (ord : MapOrder)
    (rngs : Nat → Rng) (index : Fin n) (rng : Rng) :
    ∃ r r',
      (serverRecovery env' now ord rngs (Context.empty (some boot) index rng)).Gives
        ((Persistent.start fsync boot sessions : Persistent κ n m).actAll env
          (acts ++ [.flush])).disk (fun c => c.settings = some r) ∧
      (serverRecovery env' now ord rngs (Context.empty (some boot) index rng)).Gives
        ((Persistent.start fsync boot sessions : Persistent κ n m).actAll env
          (acts' ++ [.flush])).disk (fun c => c.settings = some r') ∧
      (r = r' ↔ assignAll boot (assignments env.host (sinceCompaction acts))
        = assignAll boot (assignments env.host (sinceCompaction acts'))) :=
  ⟨_, _,
    recover_settings hn env fsync boot sessions acts hsmall hpops hhost now ord rngs index rng,
    recover_settings hn env fsync boot sessions acts' hsmall' hpops' hhost now ord rngs index rng,
    .rfl⟩

/-- CONFIG SET slowlog-enabled yes. -/
def slowlogOn : Persistent.Action Unit :=
  .request ⟨(), ["CONFIG", "SET", "slowlog-enabled", "yes"].map ascii, 0, 0, MapOrder.default,
    fun _ => 0⟩

/-- A compaction. -/
def compacted : Persistent.Action Unit := .compact MapOrder.default fun _ => MapOrder.default

/-- The directory after the actions, of a server that boots with the slowlog off. -/
def slowlogDisk (acts : List (Persistent.Action Unit)) : Disk :=
  ((Persistent.start .everySec ⟨0, 20, false⟩ fun _ => 0 : Persistent Unit 1 1).actAll
    (Env.single 0) (acts ++ [.flush])).disk

/-- Starting that server again. -/
def slowlogRecovery : Recovery (Context 1 1) RecoverFailure :=
  serverRecovery (Env.single 0) 0 MapOrder.default (fun _ _ => 0)
    (Context.empty (some ⟨0, 20, false⟩) 0 fun _ => 0)

/-- Whether a compaction before the command has run makes no difference. -/
theorem recovered_settings_compacted_before : ∃ r,
    slowlogRecovery.Gives (slowlogDisk [slowlogOn]) (fun c => c.settings = some r) ∧
      slowlogRecovery.Gives (slowlogDisk [compacted, slowlogOn]) fun c => c.settings = some r := by
  have hn : 1 < 2 ^ 63 := by decide
  obtain ⟨r, r', h, h', hiff⟩ := recovered_settings_eq_iff hn (Env.single 0) .everySec
    ⟨0, 20, false⟩ (fun _ => 0) [slowlogOn] [compacted, slowlogOn] (by decide) (by decide)
    (by decide) (by decide) rfl 0 MapOrder.default (fun _ _ => 0) 0 fun _ => 0
  obtain rfl := hiff.mpr rfl
  exact ⟨r, h, h'⟩

/-- **A setting made before a compaction is lost.** The log has the CONFIG SET and the snapshot has
no settings: whether the setting is in force after a restart depends on whether a compaction has
run. -/
theorem compaction_drops_setting :
    slowlogRecovery.Gives (slowlogDisk [slowlogOn]) (fun c => c.settings = some ⟨0, 20, true⟩) ∧
      slowlogRecovery.Gives (slowlogDisk [slowlogOn, compacted])
        fun c => c.settings = some ⟨0, 20, false⟩ := by
  have hn : 1 < 2 ^ 63 := by decide
  constructor
  · exact recover_settings hn (Env.single 0) .everySec ⟨0, 20, false⟩ (fun _ => 0) [slowlogOn]
      (by decide) (by decide) rfl 0 MapOrder.default (fun _ _ => 0) 0 fun _ => 0
  · exact recover_settings hn (Env.single 0) .everySec ⟨0, 20, false⟩ (fun _ => 0)
      [slowlogOn, compacted] (by decide) (by decide) rfl 0 MapOrder.default (fun _ _ => 0) 0
      fun _ => 0

end Memcore
