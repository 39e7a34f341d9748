import Memcore.Server.Serializable

/-!
# The snapshot cut

`compact` reads the next generation before it locks anything, serializes the databases under all
locks, and rotates the log before it unlocks. Connections go on in between, as far as the locks let
them, and a command that takes no lock can still be appended to the old segment after the databases
were serialized. The cut is exact nevertheless: what a snapshot holds is the state after a first part
of the serial order, the part whose log is the segments below the base generation (`Cut`).
-/

namespace Memcore

open Go Prog

variable {κ : Type} {n m : Nat}

namespace System

/-- The commands in the segments below a generation. -/
def below (s : System κ n m) (base : Nat) : List (Logged n) :=
  (s.log.filter fun e => decide (e.1 < base)).map Prod.snd

/-- The commands in the segments from a generation on. -/
def since (s : System κ n m) (base : Nat) : List (Logged n) :=
  (s.log.filter fun e => decide (base ≤ e.1)).map Prod.snd

variable {s : System κ n m} {base : Nat}

theorem below_congr {s' : System κ n m} (h : s'.log = s.log) : s'.below base = s.below base := by
  rw [below, below, h]

theorem below_eq_of_lt (h : ∀ e ∈ s.log, e.1 < base) : s.below base = s.log.map Prod.snd := by
  rw [below, List.filter_eq_self.mpr fun e he => decide_eq_true (h e he)]

/-- Segments below a generation come first. -/
theorem below_append_since (h : s.log.Pairwise fun e f => e.1 ≤ f.1) :
    s.below base ++ s.since base = s.log.map Prod.snd := by
  unfold below since
  revert h
  induction s.log with
  | nil => exact fun _ => rfl
  | cons e log ih =>
    intro h
    obtain ⟨hle, hrest⟩ := List.pairwise_cons.mp h
    by_cases he : e.1 < base
    · rw [List.filter_cons_of_pos (by simpa using he), List.filter_cons_of_neg (by simpa using he),
        List.map_cons, List.cons_append, ih hrest]
      rfl
    · have hge : base ≤ e.1 := Nat.le_of_not_lt he
      have hnone : (log.filter fun f => decide (f.1 < base)) = [] :=
        List.filter_eq_nil_iff.mpr fun f hf => by
          have := hle f hf
          simp only [decide_eq_true_eq]
          omega
      have hall : (log.filter fun f => decide (base ≤ f.1)) = log :=
        List.filter_eq_self.mpr fun f hf => decide_eq_true (hge.trans (hle f hf))
      rw [List.filter_cons_of_neg (by simpa using hge),
        List.filter_cons_of_pos (by simpa using hge), hnone, hall]
      rfl

end System

theorem mem_allShards (d : Fin n) (i : Fin m) : (d, i) ∈ allShards n m := by
  simp [allShards]

/-- While the compaction has all locks, nobody else has one. -/
theorem Valid.unlocked {env : Env m} {s : System κ n m} (h : Valid env s)
    (hall : s.compactor.held = allShards n m) {k : κ} {job : Job κ n m}
    (hjob : (s.conns k).job = some job) : job.held = [] :=
  List.eq_nil_iff_forall_not_mem.mpr fun i hi =>
    h.compacting k job i hjob hi (hall ▸ mem_allShards job.db i)

variable [DecidableEq κ]

/-- Between the serialization and `Rotate` no step changes the databases. -/
theorem SysStep.databases_eq {env : Env m} {s s' : System κ n m} {a : Action κ}
    (hstep : SysStep env s a s') (hvalid : Valid env s) {base : Nat} {held : List (Fin n × Fin m)}
    (hcomp : s.compactor = .serialized base held) : s'.databases = s.databases := by
  cases hstep with
  | @run k job hconn =>
    have hfits := hvalid.compactor
    rw [hcomp] at hfits
    have hnone : job.held = [] := hvalid.unlocked (by rw [hcomp]; exact hfits.2) (by rw [hconn]; rfl)
    have hjob := hvalid.fits k
    rw [hconn] at hjob
    obtain ⟨-, hres, -, hshards⟩ := hjob
    obtain ⟨hconfined, -⟩ := Job.confined hres (by rwa [List.append_nil] at hshards)
    rw [hnone] at hconfined
    show (job.handler env (s.context k job.req)).2.databases = (s.context k job.req).databases
    funext d
    by_cases hd : d = (s.context k job.req).index
    · subst hd
      funext i
      exact hconfined.outside _ i List.not_mem_nil
    · exact hconfined.others _ d hd
  | reject => rfl
  | start => rfl
  | acquire => rfl
  | append => rfl
  | release => rfl
  | finish => rfl
  | nextGen => rfl
  | lock => rfl
  | serialize => rfl
  | rotate => rfl
  | unlock => rfl
  | done => rfl

/-! ## The invariant -/

/-- The generations of the log go up to the active one, and every snapshot is of the databases after
a first part of the serial order, the part that is logged below its base. The base lies above the
active generation only between the serialization and `Rotate`; the databases are still those of the
snapshot then. -/
structure Cut (env : Env m) (S₀ : Server κ n m) (s : System κ n m) (order : List (Request κ)) :
    Prop where
  gens : ∀ e ∈ s.log, e.1 ≤ s.gen
  sorted : s.log.Pairwise fun e f => e.1 ≤ f.1
  bases : ∀ p ∈ s.snapshots, p.1 ≤ s.gen ∨ ∃ held, s.compactor = .serialized p.1 held
  exact : ∀ p ∈ s.snapshots, ∃ done ord, done <+: order ∧
    p.2 = emitRecords ord (S₀.serveAll env done).databases ∧
    (S₀.serveAll env done).log = s.below p.1 ∧
    (s.gen < p.1 → (S₀.serveAll env done).databases = s.databases)

/-- Between the serialization and `Rotate` the whole serial order is below the base. -/
theorem Serial.cut {env : Env m} {S₀ : Server κ n m} {s : System κ n m} {order : List (Request κ)}
    (h : Serial env S₀ s order) {base : Nat} {held : List (Fin n × Fin m)}
    (hcomp : s.compactor = .serialized base held) (hgens : ∀ e ∈ s.log, e.1 ≤ s.gen) :
    s.gen < base ∧ (S₀.serveAll env order).databases = s.databases ∧
      (S₀.serveAll env order).log = s.below base := by
  have hfits := h.valid.compactor
  rw [hcomp] at hfits
  obtain ⟨hbase, hall⟩ := hfits
  refine ⟨hbase ▸ Nat.lt_succ_self _, h.databases_eq fun k job hjob => ?_, ?_⟩
  · exact h.valid.unlocked (by rw [hcomp]; exact hall) hjob
  · rw [h.linked.log, System.below_eq_of_lt fun e he => hbase ▸ Nat.lt_succ_of_le (hgens e he)]

namespace Cut

variable {env : Env m} {S₀ : Server κ n m} {s s' : System κ n m} {order : List (Request κ)}

/-- The serial order goes on. -/
theorem extend (h : Cut env S₀ s order) (rs : List (Request κ)) : Cut env S₀ s (order ++ rs) :=
  ⟨h.gens, h.sorted, h.bases, fun p hp =>
    have ⟨done, ord, hdone, hrest⟩ := h.exact p hp
    ⟨done, ord, hdone.trans (List.prefix_append _ _), hrest⟩⟩

/-- A step that neither logs anything nor takes a snapshot. -/
theorem keep (h : Cut env S₀ s order) (hlog : s'.log = s.log) (hgen : s'.gen = s.gen)
    (hsnapshots : s'.snapshots = s.snapshots)
    (hcomp : ∀ base held, s.compactor = .serialized base held →
      s'.compactor = s.compactor ∧ s'.databases = s.databases) : Cut env S₀ s' order := by
  refine ⟨?_, ?_, fun p hp => ?_, fun p hp => ?_⟩
  · rw [hlog, hgen]
    exact h.gens
  · rw [hlog]
    exact h.sorted
  · rw [hsnapshots] at hp
    rw [hgen]
    exact (h.bases p hp).imp_right fun ⟨held, hs⟩ => ⟨held, (hcomp _ _ hs).1.trans hs⟩
  · rw [hsnapshots] at hp
    obtain ⟨done, ord, hdone, hrecords, hbelow, hsame⟩ := h.exact p hp
    refine ⟨done, ord, hdone, hrecords, ?_, fun hlt => ?_⟩
    · rw [hbelow, System.below_congr hlog]
    · rw [hgen] at hlt
      obtain ⟨held, hs⟩ := (h.bases p hp).resolve_left (Nat.not_le_of_lt hlt)
      rw [hsame hlt, (hcomp _ _ hs).2]

/-- A command is appended to the active segment. Between the serialization and `Rotate` it belongs to
the cut: it is one without a lock, so the databases are still those that were serialized. -/
theorem append (h : Cut env S₀ s order) (hserial : Serial env S₀ s' order) {l : Logged n}
    (hlog : s'.log = s.log ++ [(s.gen, l)]) (hgen : s'.gen = s.gen)
    (hsnapshots : s'.snapshots = s.snapshots) (hcomp : s'.compactor = s.compactor)
    (hdatabases : s'.databases = s.databases) : Cut env S₀ s' order := by
  have hgens : ∀ e ∈ s'.log, e.1 ≤ s'.gen := by
    rw [hlog, hgen]
    exact List.forall_mem_append.mpr ⟨h.gens, by simp⟩
  refine ⟨hgens, ?_, fun p hp => ?_, fun p hp => ?_⟩
  · rw [hlog]
    refine List.pairwise_append.mpr ⟨h.sorted, List.pairwise_singleton _ _, fun e he f hf => ?_⟩
    rw [List.mem_singleton.mp hf]
    exact h.gens e he
  · rw [hsnapshots] at hp
    rw [hgen, hcomp]
    exact h.bases p hp
  · rw [hsnapshots] at hp
    obtain ⟨done, ord, hdone, hrecords, hbelow, hsame⟩ := h.exact p hp
    rcases h.bases p hp with hle | ⟨held, hs⟩
    · refine ⟨done, ord, hdone, hrecords, ?_, fun hlt => ?_⟩
      · rw [hbelow, System.below, System.below, hlog, List.filter_append,
          List.filter_cons_of_neg (by simpa using hle), List.filter_nil, List.append_nil]
      · rw [hgen] at hlt
        exact absurd hle (Nat.not_le_of_lt hlt)
    · obtain ⟨hlt, hnow, hbelow'⟩ := hserial.cut (hcomp.trans hs) hgens
      refine ⟨order, ord, List.prefix_rfl, ?_, hbelow', fun _ => hnow⟩
      rw [hrecords, hnow, hdatabases, hsame (hgen ▸ hlt)]

/-- The databases are serialized, under all locks. -/
theorem serialize (h : Cut env S₀ s order) (hserial : Serial env S₀ s' order) {base : Nat}
    {held : List (Fin n × Fin m)} {ord : MapOrder} (hlog : s'.log = s.log) (hgen : s'.gen = s.gen)
    (hsnapshots : s'.snapshots = s.snapshots ++ [(base, emitRecords ord s.databases)])
    (hbefore : ∀ base held, s.compactor ≠ .serialized base held)
    (hcomp : s'.compactor = .serialized base held) (hdatabases : s'.databases = s.databases) :
    Cut env S₀ s' order := by
  have hgens : ∀ e ∈ s'.log, e.1 ≤ s'.gen := by
    rw [hlog, hgen]
    exact h.gens
  refine ⟨hgens, ?_, fun p hp => ?_, fun p hp => ?_⟩
  · rw [hlog]
    exact h.sorted
  · rw [hsnapshots] at hp
    rcases List.mem_append.mp hp with hp | hp
    · rcases h.bases p hp with hle | ⟨held, hs⟩
      · exact .inl (hgen ▸ hle)
      · exact absurd hs (hbefore _ held)
    · rw [List.mem_singleton.mp hp]
      exact .inr ⟨held, hcomp⟩
  · rw [hsnapshots] at hp
    rcases List.mem_append.mp hp with hp | hp
    · obtain ⟨done, ord, hdone, hrecords, hbelow, hsame⟩ := h.exact p hp
      refine ⟨done, ord, hdone, hrecords, ?_, fun hlt => ?_⟩
      · rw [hbelow, System.below_congr hlog]
      · rw [hgen] at hlt
        rw [hsame hlt, hdatabases]
    · rw [List.mem_singleton.mp hp]
      obtain ⟨-, hnow, hbelow⟩ := hserial.cut hcomp hgens
      exact ⟨order, ord, List.prefix_rfl, by rw [hnow, hdatabases], hbelow, fun _ => hnow⟩

/-- The log goes on in the next segment. -/
theorem rotate (h : Cut env S₀ s order) (hlog : s'.log = s.log) (hgen : s'.gen = s.gen + 1)
    (hsnapshots : s'.snapshots = s.snapshots) (hvalid : Valid env s) : Cut env S₀ s' order := by
  have hbases : ∀ p ∈ s'.snapshots, p.1 ≤ s'.gen := by
    intro p hp
    rw [hsnapshots] at hp
    rw [hgen]
    rcases h.bases p hp with hle | ⟨held, hs⟩
    · exact hle.trans (Nat.le_succ _)
    · have hfits := hvalid.compactor
      rw [hs] at hfits
      exact hfits.1.le
  refine ⟨fun e he => ?_, ?_, fun p hp => .inl (hbases p hp), fun p hp => ?_⟩
  · rw [hlog] at he
    rw [hgen]
    exact (h.gens e he).trans (Nat.le_succ _)
  · rw [hlog]
    exact h.sorted
  · have hle := hbases p hp
    rw [hsnapshots] at hp
    obtain ⟨done, ord, hdone, hrecords, hbelow, -⟩ := h.exact p hp
    refine ⟨done, ord, hdone, hrecords, ?_, fun hlt => ?_⟩
    · rw [hbelow, System.below_congr hlog]
    · exact absurd hle (Nat.not_le_of_lt hlt)

theorem start (env : Env m) (databases : Fin n → DB m) (settings : Option Reloadable)
    (sessions : κ → Fin n) (gen : Nat) (S₀ : Server κ n m) :
    Cut env S₀ (System.start databases settings sessions gen) [] :=
  ⟨fun _ h => (by cases h), .nil, fun _ h => (by cases h), fun _ h => (by cases h)⟩

/-- **Every step keeps the cuts exact.** -/
theorem step (h : Cut env S₀ s order) (hvalid : Valid env s) (hserial : Serial env S₀ s' order)
    {a : Action κ} (hstep : SysStep env s a s') : Cut env S₀ s' order := by
  have hfrozen : ∀ base held, s.compactor = .serialized base held → s'.databases = s.databases :=
    fun _ _ hs => hstep.databases_eq hvalid hs
  cases hstep with
  | reject | start | acquire | run | release | finish =>
    exact h.keep rfl rfl rfl fun base held hs => ⟨rfl, hfrozen base held hs⟩
  | append hconn => exact h.append hserial rfl rfl rfl rfl rfl
  | nextGen hcomp | lock hcomp | unlock hcomp | done hcomp =>
    refine h.keep rfl rfl rfl fun base held hs => ?_
    rw [hcomp] at hs
    cases hs
  | serialize hcomp =>
    refine h.serialize hserial rfl rfl rfl (fun base held hs => ?_) rfl rfl
    rw [hcomp] at hs
    cases hs
  | rotate hcomp => exact h.rotate rfl rfl rfl hvalid

end Cut

/-! ## Recovery from the cut -/

/-- Records of the databases after the commands `front`, restored into empty databases, and the
commands `back` replayed on top. -/
theorem restore_replay (hn : n < 2 ^ 63) {env : Env m} {A₀ : Fin n → ADB} {dbs : Fin n → DB m}
    {front back : List (Logged n)} (hA₀ : Timeless A₀)
    (hall : (logMachine n env).AllRun A₀ (front ++ back))
    (hdbs : Databases.Repr env dbs ((logMachine n env).run A₀ front)) (ord : MapOrder) (now : Time)
    (ord' : MapOrder) {c : Context n m} (hc : Databases.Repr env c.databases fun _ _ => none) :
    ∃ c₁ c₂, callEach (restore (env.at now ord')) (emitRecords ord dbs) c = (c₁, none) ∧
      replayLog (env.at now ord') back c₁ = (c₂, none) ∧
      Databases.Repr env c₂.databases ((logMachine n env).run A₀ (front ++ back)) := by
  obtain ⟨hfront, hback⟩ := ((logMachine n env).allRun_append A₀ front back).mp hall
  have hgood : Timeless ((logMachine n env).run A₀ front) :=
    Machine.good_run logMachine_timeless _ hA₀ hfront
  have hdbs' : Databases.Repr (env.at now ord') dbs ((logMachine n env).run A₀ front) := hdbs
  obtain ⟨c₁, hrestore, hc₁⟩ := callEach_restore_emitRecords hn hdbs' ord hc
  rw [restored_timeless hgood] at hc₁
  obtain ⟨c₂, hreplay, hc₂⟩ := replayLog_machine hn hgood hback hc₁ now ord'
  rw [← Machine.run_append] at hc₂
  exact ⟨c₁, c₂, hrestore, hreplay, hc₂⟩

/-- **The snapshot cut is exact.** Any number of connections, databases and shards, any hash, and any
interleaving of the connections with compactions. There is one order of the requests that gives every
connection its replies, those of CONFIG GET apart, and writes the log; and the records of every snapshot
are of the databases after a first part of it, the part whose log is the segments below the base.
When no command sets a deadline, restoring them into empty databases and replaying the segments from
the base on succeeds, and while nobody holds a lock it gives the live databases. -/
theorem snapshot_cut (hn : n < 2 ^ 63) (env : Env m) (databases : Fin n → DB m)
    (settings : Option Reloadable) (sessions : κ → Fin n) (gen : Nat) {actions : List (Action κ)}
    {s : System κ n m}
    (hrun : Run (SysStep env) (System.start databases settings sessions gen) actions s) :
    ∃ order : List (Request κ),
      (∀ k, observedBy env.host k s.answered
        <+: observedBy env.host k (Server.answers env ⟨databases, settings, sessions, []⟩ order)) ∧
      (Server.serveAll env ⟨databases, settings, sessions, []⟩ order).log = s.log.map Prod.snd ∧
      ∀ p ∈ s.snapshots, ∃ done ord, done <+: order ∧
        p.2 = emitRecords ord
          (Server.serveAll env ⟨databases, settings, sessions, []⟩ done).databases ∧
        (Server.serveAll env ⟨databases, settings, sessions, []⟩ done).log = s.below p.1 ∧
        ∀ A₀ : Fin n → ADB, Timeless A₀ → Databases.Repr env databases A₀ →
          SetsNoDeadline m (s.log.map Prod.snd) → ∀ (now : Time) (ord : MapOrder) (c : Context n m),
            Databases.Repr env c.databases (fun _ _ => none) →
            ∃ c₁ c₂ A, callEach (restore (env.at now ord)) p.2 c = (c₁, none) ∧
              replayLog (env.at now ord) (s.since p.1) c₁ = (c₂, none) ∧
              Databases.Repr env c₂.databases A ∧
              ((∀ k job, (s.conns k).job = some job → job.held = []) →
                Databases.Repr env s.databases A) := by
  -- the order of the requests and the cuts are kept together
  obtain ⟨order, h, hcut⟩ := hrun.invariant
    (fun s => ∃ order, Serial env ⟨databases, settings, sessions, []⟩ s order ∧
      Cut env ⟨databases, settings, sessions, []⟩ s order)
    ⟨[], Serial.start env databases settings sessions gen,
      Cut.start env databases settings sessions gen _⟩ fun ⟨order, h, hcut⟩ hstep =>
        have ⟨rs, h'⟩ := h.step hstep
        ⟨order ++ rs, h', (hcut.extend rs).step h.valid h' hstep⟩
  refine ⟨order, fun k => ?_, h.linked.log, fun p hp => ?_⟩
  · rw [h.history k]
    exact List.prefix_append _ _
  · obtain ⟨done, ord, hdone, hrecords, hbelow, -⟩ := hcut.exact p hp
    refine ⟨done, ord, hdone, hrecords, hbelow, fun A₀ hA₀ hrepr hlog now ord' c hc => ?_⟩
    -- the records of the snapshot's generation and later are those appended after it was taken
    have hsplit : s.below p.1 ++ s.since p.1 = s.log.map Prod.snd :=
      System.below_append_since hcut.sorted
    have hall := (serveAll_machine hA₀ hrepr rfl order (h.linked.log ▸ hlog)).2
    have hdbs := (serveAll_machine hA₀ hrepr rfl done fun l hl => hlog l (by
      rw [← hsplit, ← hbelow]
      exact List.mem_append_left _ hl)).1
    rw [h.linked.log, ← hsplit] at hall
    rw [hbelow] at hdbs
    obtain ⟨c₁, c₂, hrestore, hreplay, hc₂⟩ := restore_replay hn hA₀ hall hdbs ord now ord' hc
    refine ⟨c₁, c₂, _, hrecords ▸ hrestore, hreplay, hc₂, fun hquiet => ?_⟩
    rw [hsplit]
    exact (h.databases_machine hA₀ hrepr rfl hquiet hlog).1

/-- The compaction between two SETs of one key. -/
theorem snapshot_cut_sets : ∃ actions s, Run (SysStep (Env.single 0)) setsStart actions s ∧
    ∃ p ∈ s.snapshots, s.below p.1 = [⟨0, (setRequest true "1").args⟩] ∧
      ∃ c₁ c₂ A, callEach (restore ((Env.single 0).at 7 MapOrder.default)) p.2
          (Context.empty none 0 fun _ => 0) = (c₁, none) ∧
        replayLog ((Env.single 0).at 7 MapOrder.default) [⟨0, (setRequest false "2").args⟩] c₁
          = (c₂, none) ∧
        Databases.Repr (Env.single 0) c₂.databases A ∧
        Databases.Repr (Env.single 0) s.databases A := by
  obtain ⟨actions, s, hrun, hidle, hlog, hsnapshots⟩ := sets_run
  obtain ⟨order, -, -, hcut⟩ := snapshot_cut (by decide) (Env.single 0) setsStart.databases none
    (fun _ => 0) 0 hrun
  obtain ⟨p, hp, hbase⟩ : ∃ p ∈ s.snapshots, p.1 = 1 := by
    have hmem : 1 ∈ s.snapshots.map Prod.fst := by simp [hsnapshots]
    exact List.mem_map.mp hmem
  obtain ⟨done, ord, -, -, -, hrecover⟩ := hcut p hp
  have hempty : Databases.Repr (Env.single 0) (Context.empty none 0 fun _ => 0 : Context 1 1).databases
      fun _ _ => none := empty_repr (Env.single 0) none 0 fun _ => 0
  obtain ⟨c₁, c₂, A, hrestore, hreplay, hc₂, hlive⟩ := hrecover _ (fun _ _ _ h => by cases h) hempty
    (by rw [hlog]; exact setsNoDeadline_sets) 7 MapOrder.default _ hempty
  refine ⟨actions, s, hrun, p, hp, ?_, c₁, c₂, A, hrestore, ?_, hc₂, hlive fun k job hjob => ?_⟩
  · rw [System.below, hlog, hbase]
    rfl
  · rw [System.since, hlog, hbase] at hreplay
    exact hreplay
  · rw [hidle k] at hjob
    cases hjob

end Memcore
