import Memcore.Command.Stored
import Memcore.Server.Declared
import Memcore.Server.Outcome

/-!
# Active expiry

`DB.ExpireCycle`: a pass takes entries whose deadline has passed out of the shards, as many as it has
a budget for, in whatever order the map of volatile keys is visited.

Such an entry is hidden already, from readers and from writers. So two servers, one with passes and
one without, stand for databases that no reader tells apart any more (`Twin`); a request keeps them
so and gets one answer from both (`Twin.serve`), and a pass keeps them so (`Twin.pass`). Clients do
not notice the passes (`active_expiry_invisible`).
-/

namespace Memcore

open Go Prog

variable {n m : Nat}

/-- `DB.ExpireCycle`: how many keys were examined and evicted, and the shards. Each shard ranges over
its volatile keys in an order of its own. -/
def expireCycle (ords : Fin m → MapOrder) (db : DB m) (now : Time) (limitPerShard : Int) :
    (Nat × Nat) × DB m :=
  let swept (i : Fin m) := (db i).sampleExpired (ords i) now limitPerShard
  ((((List.finRange m).map fun i => (swept i).1.1).sum,
    ((List.finRange m).map fun i => (swept i).1.2).sum), fun i => (swept i).2)

/-! ## What a pass takes out -/

/-- The entry is as it was, or it is gone and was hidden at `now`. -/
def Swept (now : Time) (o o' : Option AEntry) : Prop := o' = o ∨ o' = none ∧ liveAt now o = none

namespace Swept

variable {now : Time} {o o' o'' : Option AEntry}

theorem trans (h : Swept now o o') (h' : Swept now o' o'') : Swept now o o'' := by
  rcases h with rfl | ⟨rfl, hnone⟩
  · exact h'
  · rcases h' with rfl | ⟨rfl, -⟩
    · exact .inr ⟨rfl, hnone⟩
    · exact .inr ⟨rfl, hnone⟩

theorem eq_some (h : Swept now o o') {e : AEntry} (he : o' = some e) : o = some e := by
  rcases h with rfl | ⟨rfl, -⟩
  · exact he
  · cases he

/-- What was hidden at `now` is hidden later. -/
theorem liveAt_eq (h : Swept now o o') {t : Time} (ht : now ≤ t) : liveAt t o' = liveAt t o := by
  rcases h with rfl | ⟨rfl, hnone⟩
  · rfl
  · cases o with
    | none => rfl
    | some e =>
      have hgone : e.expired now = true := by
        by_contra hlive
        rw [liveAt_some, if_neg hlive] at hnone
        cases hnone
      have hlater : e.expired t = true := by
        simp only [AEntry.expired, Bool.and_eq_true, Bool.not_eq_true', decide_eq_false_iff_not,
          not_lt] at hgone ⊢
        exact ⟨hgone.1, hgone.2.trans ht⟩
      rw [liveAt_some, if_pos hlater]
      rfl

end Swept

namespace Keyspace

variable {lim : Limits}

/-- Each round of the loop leaves the entries alone or takes out one whose deadline has passed. -/
theorem Repr.sampleLoop (now : Time) (limit : Int) : ∀ (keys : List Bytes) (acc : Nat × Nat)
    {k : Keyspace} {a : ADB}, k.Repr lim a →
    ∃ a', (Keyspace.sampleLoop now limit keys acc k).2.Repr lim a' ∧
      ∀ key, Swept now (a key) (a' key)
  | [], _, _, a, h => ⟨a, h, fun _ => .inl rfl⟩
  | key :: keys, (examined, evicted), k, a, h => by
      rw [Keyspace.sampleLoop]
      split
      next => exact ⟨a, h, fun _ => .inl rfl⟩
      next =>
        cases hl : k.entries.lookup key with
        | none => exact Repr.sampleLoop now limit keys _ h
        | some e =>
          simp only
          split
          next => exact Repr.sampleLoop now limit keys _ h
          next =>
            split
            next hgone =>
              obtain ⟨a', hr, hswept⟩ := Repr.sampleLoop now limit keys (examined + 1, evicted + 1)
                (h.erase key (k.withTTL.erase key))
              refine ⟨a', hr, fun key' => Swept.trans ?_ (hswept key')⟩
              by_cases hk : key' = key
              · subst hk
                rw [Function.update_self]
                refine .inr ⟨rfl, ?_⟩
                have hrel := h key'
                rw [hl] at hrel
                generalize a key' = o at hrel
                cases hrel with
                | some he => rw [liveAt_some, ← he.expired_eq, if_pos hgone]
              · rw [Function.update_of_ne hk]
                exact .inl rfl
            next => exact Repr.sampleLoop now limit keys _ h

theorem Repr.sampleExpired {k : Keyspace} {a : ADB} (h : k.Repr lim a) (ord : MapOrder)
    (now : Time) (limit : Int) : ∃ a', (k.sampleExpired ord now limit).2.Repr lim a' ∧
      ∀ key, Swept now (a key) (a' key) :=
  Repr.sampleLoop now limit (ord.keys k.withTTL) (0, 0) h

end Keyspace

/-- **A pass takes out hidden entries and nothing else.** -/
theorem DB.Repr.expireCycle {route : Bytes → Fin m} {lim : Limits} {db : DB m} {a : ADB}
    (h : DB.Repr route lim db a) (ords : Fin m → MapOrder) (now : Time) (limit : Int) :
    ∃ a', DB.Repr route lim (Memcore.expireCycle ords db now limit).2 a' ∧
      ∀ key, Swept now (a key) (a' key) := by
  choose parts hparts hswept using fun i => (h i).sampleExpired (ords i) now limit
  refine ⟨fun key => parts (route key) key, fun i => ?_, fun key => ?_⟩
  · have hpart : shardPart route (fun key => parts (route key) key) i = parts i := by
      funext key
      unfold shardPart
      split
      next hi =>
        subst hi
        rfl
      next hi =>
        -- a key of another shard was never here
        rcases hswept i key with hsame | ⟨hnone, -⟩
        · rw [hsame, shardPart, if_neg hi]
        · exact hnone.symm
    rw [hpart]
    exact hparts i
  · have hkey := hswept (route key) key
    rwa [shardPart, if_pos rfl] at hkey

/-! ## Servers with and without passes -/

/-- What happens to a server: a request, or a pass over one of its databases. -/
inductive Event (κ : Type) (n m : Nat) where
  | request (r : Request κ)
  | pass (d : Fin n) (ords : Fin m → MapOrder) (now : Time) (limitPerShard : Int)

section Events

variable {κ : Type}

/-- The reading of the clock. -/
def Event.now : Event κ n m → Time
  | .request r => r.now
  | .pass _ _ now _ => now

/-- The request, if it is one. -/
def Event.request? : Event κ n m → Option (Request κ)
  | .request r => some r
  | .pass _ _ _ _ => none

/-- A request is not served before what has happened. -/
def Event.InOrder (x y : Event κ n m) : Prop := y.request?.isSome = true → x.now ≤ y.now

instance Event.decidableInOrder (x y : Event κ n m) : Decidable (x.InOrder y) :=
  inferInstanceAs (Decidable (y.request?.isSome = true → x.now ≤ y.now))

/-- The same request at the same time, whatever the runtime chooses while it runs. -/
structure Request.Same (r r' : Request κ) : Prop where
  conn : r'.conn = r.conn
  args : r'.args = r.args
  now : r'.now = r.now

variable [DecidableEq κ]

namespace Server

/-- One event. -/
def handle (env : Env m) (s : Server κ n m) : Event κ n m → Server κ n m
  | .request r => (s.serve env r).2
  | .pass d ords now limitPerShard =>
    let (_, db) := expireCycle ords (s.databases d) now limitPerShard
    { s with databases := Function.update s.databases d db }

/-- Events one after the other. -/
def handleAll (env : Env m) (s : Server κ n m) (evs : List (Event κ n m)) : Server κ n m :=
  evs.foldl (handle env) s

/-- The requests among the events, each with its reply. -/
def answered (env : Env m) : Server κ n m → List (Event κ n m) → List (List Bytes × Reply)
  | _, [] => []
  | s, ev :: evs =>
    (ev.request?.map fun r => (r.args, (s.serve env r).1)).toList
      ++ answered env (s.handle env ev) evs

end Server

end Events

/-- One reply to a request, up to the order of what HGETALL, SMEMBERS and SINTER list. -/
def SameReply (n m : Nat) (args : List Bytes) (r r' : Reply) : Prop :=
  r = r' ∨ ∃ cmd : Command n m, resolve args = .ok cmd ∧
    (cmd.name = ascii "hgetall" ∧ r.SamePairs r' ∨
      (cmd.name = ascii "smembers" ∨ cmd.name = ascii "sinter") ∧ r.SameMembers r')

theorem sameReply_of_sameOutcome {cmd : Command n m} {args : List Bytes}
    (hres : resolve args = .ok cmd) {x y : Result Reply} (h : SameOutcome cmd x y) :
    SameReply n m args (replyOf x) (replyOf y) := by
  cases x with
  | error p =>
    cases y with
    | error q => exact .inl rfl
    | ok r => exact h.elim
  | ok r =>
    cases y with
    | error q => exact h.elim
    | ok r' =>
      rcases h with rfl | h | h
      · exact .inl rfl
      · exact .inr ⟨cmd, hres, .inl h⟩
      · exact .inr ⟨cmd, hres, .inr h⟩

/-- The selection and the settings a command leaves do not depend on the databases. -/
theorem run_session {cmd : Command n m} (hcmd : cmd ∈ registry) {args : List Bytes}
    (hacc : cmd.accepts args.length = true) (env : Env m) (ord : MapOrder) (c : Context n m)
    (dbs : Fin n → DB m) (rng : Rng) :
    (cmd.run { env with ord } args { c with databases := dbs, rng }).2.index
        = (cmd.run env args c).2.index ∧
      (cmd.run { env with ord } args { c with databases := dbs, rng }).2.settings
        = (cmd.run env args c).2.settings := by
  cases hdata : cmd.onData with
  | true =>
    -- a command on keys changes neither
    have hframe := (run_within hcmd hdata env hacc).frame c
    have hframe' := (run_within hcmd hdata { env with ord } hacc).frame
      { c with databases := dbs, rng }
    exact ⟨hframe'.index.trans hframe.index.symm, hframe'.settings.trans hframe.settings.symm⟩
  | false =>
    cases takesPlain_of_accepts hcmd hdata hacc with
    | ping his =>
      subst his
      have hping (c : Context n m) : (cmdPing args c).2 = c := by
        unfold cmdPing
        split <;> rfl
      show (cmdPing args _).2.index = (cmdPing args c).2.index ∧
        (cmdPing args _).2.settings = (cmdPing args c).2.settings
      rw [hping, hping]
      exact ⟨rfl, rfl⟩
    | @select name index rest his =>
      subst his
      refine ⟨?_, (cmdSelect_settings _ _).trans (cmdSelect_settings _ c).symm⟩
      change (cmdSelect _ _).2.index = (cmdSelect _ c).2.index
      unfold cmdSelect
      simp only [arg_one_bind]
      cases parseInt index with
      | none => rfl
      | some k =>
        by_cases h : 0 ≤ k ∧ k.toNat < n
        · simp only [bind_apply_ok (select_of_lt h _)]
          rfl
        · simp only [bind_apply_ok (select_of_not_lt h _)]
          rfl
    | config his =>
      subst his
      exact ⟨(cmdConfig_looks _ _ _).index.trans (cmdConfig_looks env _ c).index.symm,
        ((cmdConfig_within env _).same c { c with databases := dbs, rng } rfl).2.symm⟩

section Twins

variable {κ : Type} {env : Env m} {past : List Time} {s s' : Server κ n m}

/-- Two servers with the same sessions and settings, and databases that no reader tells apart who
comes after everything in `past`. -/
structure Twin (env : Env m) (past : List Time) (s s' : Server κ n m) : Prop where
  sessions : s'.sessions = s.sessions
  settings : s'.settings = s.settings
  databases : ∃ A B, Databases.Repr env s.databases A ∧ Databases.Repr env s'.databases B ∧
    ∀ d key t, (∀ p ∈ past, p ≤ t) → liveAt t (A d key) = liveAt t (B d key)

variable [DecidableEq κ]

/-- A request that comes after everything in `past` gets one reply from both, and leaves twins. -/
theorem Twin.serve (h : Twin env past s s') {r r' : Request κ} (hr : r.Same r')
    (hpast : ∀ p ∈ past, p ≤ r.now) :
    SameReply n m r.args (s.serve env r).1 (s'.serve env r').1 ∧
      Twin env (r.now :: past) (s.serve env r).2 (s'.serve env r').2 := by
  obtain ⟨_, _, _, logNow, ord, rng⟩ := r
  obtain ⟨conn, args, now, logNow', ord', rng'⟩ := r'
  obtain ⟨rfl, rfl, rfl⟩ := hr
  obtain ⟨hsessions, hsettings, A, B, hA, hB, hsame⟩ := h
  let c : Context n m := ⟨s.databases, s.settings, s.sessions conn, rng⟩
  have hc : (⟨s'.databases, s'.settings, s'.sessions conn, rng'⟩ : Context n m)
      = { c with databases := s'.databases, rng := rng' } := by
    rw [hsessions, hsettings]
  have hmore {t : Time} (ht : ∀ p ∈ now :: past, p ≤ t) : ∀ p ∈ past, p ≤ t :=
    fun p hp => ht p (List.mem_cons_of_mem now hp)
  unfold Server.serve Server.context request
  simp only [hc]
  cases hres : (resolve args : Except Reply (Command n m)) with
  | error reply =>
    -- nothing runs
    refine ⟨.inl rfl, ?_, rfl, A, B, hA, hB, fun d key t ht => hsame d key t (hmore ht)⟩
    rw [hsessions]
  | ok cmd =>
    obtain ⟨hcmd, hacc, -⟩ := resolve_ok hres
    obtain ⟨hindex, hset⟩ := run_session hcmd hacc (env.at now ord) ord' c s'.databases rng'
    have hA' : Databases.Repr (env.at now ord) c.databases A := hA
    have hB' : Databases.Repr ({ env.at now ord with ord := ord' } : Env m)
      ({ c with databases := s'.databases, rng := rng' } : Context n m).databases B := hB
    have hrun := run_refines hcmd hacc hA'
    have hrun' := run_refines hcmd hacc hB'
    refine ⟨?_, ?_, hset, _, _, hrun, hrun', fun d key t ht => ?_⟩
    · refine sameReply_of_sameOutcome hres ?_
      -- the reply depends on what is alive, or, of a command that reads no key, on no entry
      cases hdata : cmd.onData with
      | true =>
        exact data_outcome hcmd hdata hacc c s'.databases ord' rng' hA hB
          fun key _ => hsame _ key now hpast
      | false =>
        have hout := (plain_same hcmd hdata hacc (env.at now ord) ord' c s'.databases rng').1
        show SameOutcome cmd (cmd.run (env.at now ord) args c).1 _
        rw [hout]
        exact SameOutcome.refl cmd _
    · show Function.update s'.sessions conn _ = Function.update s.sessions conn _
      rw [hsessions]
      exact congrArg _ hindex
    -- the effect of the command keeps what is alive from now on the same
    · have hfrom (d : Fin n) (key : Bytes) : SameFrom now (A d key) (B d key) :=
        fun t ht => hsame d key t fun p hp => (hpast p hp).trans ht
      by_cases hd : d = c.index
      · subst hd
        rw [Function.update_self, Function.update_self]
        exact effect_sameFrom (hfrom _) _ _ cmd args key t (ht now List.mem_cons_self)
      · rw [Function.update_of_ne hd, Function.update_of_ne hd]
        exact hsame d key t (hmore ht)

/-- A pass over one of them leaves twins. -/
theorem Twin.pass (h : Twin env past s s') (d : Fin n) (ords : Fin m → MapOrder) (now : Time)
    (limitPerShard : Int) :
    Twin env (now :: past) (s.handle env (.pass d ords now limitPerShard)) s' := by
  obtain ⟨hsessions, hsettings, A, B, hA, hB, hsame⟩ := h
  obtain ⟨a, ha, hswept⟩ := (hA d).expireCycle ords now limitPerShard
  refine ⟨hsessions, hsettings, Function.update A d a, B, fun d' => ?_, hB, fun d' key t ht => ?_⟩
  · show DB.Repr _ _ (Function.update s.databases d _ d') _
    by_cases hd : d' = d
    · subst hd
      rw [Function.update_self, Function.update_self]
      exact ha
    · rw [Function.update_of_ne hd, Function.update_of_ne hd]
      exact hA d'
  · have hlive : liveAt t (Function.update A d a d' key) = liveAt t (A d' key) := by
      by_cases hd : d' = d
      · subst hd
        rw [Function.update_self]
        exact (hswept key).liveAt_eq (ht now List.mem_cons_self)
      · rw [Function.update_of_ne hd]
    rw [hlive]
    exact hsame d' key t fun p hp => ht p (List.mem_cons_of_mem now hp)

/-- What twins answer, and how they end, when one of them is given passes as well. -/
theorem Twin.handleAll : ∀ (evs : List (Event κ n m)) {rs : List (Request κ)} {past : List Time}
    {s s' : Server κ n m}, Twin env past s s' →
    List.Forall₂ Request.Same (evs.filterMap Event.request?) rs → evs.Pairwise Event.InOrder →
    (∀ ev ∈ evs, ev.request?.isSome = true → ∀ p ∈ past, p ≤ ev.now) →
    List.Forall₂ (fun x y => y.1 = x.1 ∧ SameReply n m x.1 x.2 y.2) (s.answered env evs)
        (s'.answered env (rs.map .request)) ∧
      ∃ past', (∀ p ∈ past', p ∈ past ∨ ∃ ev ∈ evs, p = ev.now) ∧
        Twin env past' (s.handleAll env evs) (s'.handleAll env (rs.map .request))
  | [], rs, past, s, s', h, hrs, _, _ => by
      cases hrs
      exact ⟨.nil, past, fun p hp => .inl hp, h⟩
  | ev :: evs, rs, past, s, s', h, hrs, horder, hpast => by
      obtain ⟨hfirst, hrest⟩ := List.pairwise_cons.mp horder
      have hlater : ∀ ev' ∈ evs, ev'.request?.isSome = true →
          ∀ p ∈ ev.now :: past, p ≤ ev'.now := by
        intro ev' hev' hreq
        exact List.forall_mem_cons.mpr ⟨hfirst ev' hev' hreq,
          hpast ev' (List.mem_cons_of_mem ev hev') hreq⟩
      have hmem {past' : List Time}
          (hp : ∀ p ∈ past', p ∈ ev.now :: past ∨ ∃ ev' ∈ evs, p = ev'.now) :
          ∀ p ∈ past', p ∈ past ∨ ∃ ev' ∈ ev :: evs, p = ev'.now := by
        intro p hp'
        rcases hp p hp' with hp' | ⟨ev', hev', rfl⟩
        · rcases List.mem_cons.mp hp' with rfl | hp'
          · exact .inr ⟨ev, List.mem_cons_self, rfl⟩
          · exact .inl hp'
        · exact .inr ⟨ev', List.mem_cons_of_mem ev hev', rfl⟩
      cases ev with
      | request r =>
        rw [List.filterMap_cons_some (show Event.request? (.request r) = some r from rfl)] at hrs
        -- both serve the request
        obtain ⟨r', rs', hr, hrs', rfl⟩ := List.forall₂_cons_left_iff.mp hrs
        obtain ⟨hreply, htwin⟩ := h.serve hr (hpast _ List.mem_cons_self rfl)
        obtain ⟨hanswers, past', hp, hend⟩ := Twin.handleAll evs htwin hrs' hrest hlater
        exact ⟨.cons ⟨hr.args, hreply⟩ hanswers, past', hmem hp, hend⟩
      | pass d ords now limitPerShard =>
        -- only the first has the pass, and it removes what is dead in both
        rw [List.filterMap_cons_none (show Event.request? (.pass d ords now limitPerShard) = none
          from rfl)] at hrs
        obtain ⟨hanswers, past', hp, hend⟩ := Twin.handleAll evs
          (h.pass d ords now limitPerShard) hrs hrest hlater
        exact ⟨hanswers, past', hmem hp, hend⟩

/-- **Active expiry is invisible.** A server whose databases stand for something is given requests,
in the order of the clock, and passes between them, of any number and budget and in any order of the
keys, none later than the requests that follow. Beside it the same server is given the requests
alone, while the runtime may choose otherwise. Every request gets one reply from both, up to the
order of the replies that have none; and whoever looks a key up after all that finds the same. -/
theorem active_expiry_invisible (hs : ∃ A, Databases.Repr env s.databases A)
    (evs : List (Event κ n m)) (horder : evs.Pairwise Event.InOrder) {rs : List (Request κ)}
    (hrs : List.Forall₂ Request.Same (evs.filterMap Event.request?) rs) :
    List.Forall₂ (fun x y => y.1 = x.1 ∧ SameReply n m x.1 x.2 y.2) (s.answered env evs)
        (s.answered env (rs.map .request)) ∧
      ∀ d key t, (∀ ev ∈ evs, ev.now ≤ t) → Option.Rel Entry.SameLookup
        (((s.handleAll env evs).databases d (env.route key)).lookup t key)
        (((s.handleAll env (rs.map .request)).databases d (env.route key)).lookup t key) := by
  obtain ⟨A, hA⟩ := hs
  have htwin : Twin env [] s s := ⟨rfl, rfl, A, A, hA, hA, fun _ _ _ _ => rfl⟩
  obtain ⟨hanswers, past, hpast, -, -, A', B', hA', hB', hsame⟩ :=
    Twin.handleAll evs htwin hrs horder fun _ _ _ p hp => absurd hp List.not_mem_nil
  refine ⟨hanswers, fun d key t ht => ?_⟩
  have hlive : liveAt t (A' d key) = liveAt t (B' d key) := by
    refine hsame d key t fun p hp => ?_
    rcases hpast p hp with hp | ⟨ev, hev, rfl⟩
    · exact absurd hp List.not_mem_nil
    · exact ht ev hev
  have hrel := (hA' d).peek t key
  have hrel' := (hB' d).peek t key
  rw [hlive] at hrel
  unfold Keyspace.lookup
  generalize ((s.handleAll env evs).databases d (env.route key)).peek t key = o at hrel
  generalize ((s.handleAll env (rs.map .request)).databases d (env.route key)).peek t key = o'
    at hrel'
  generalize liveAt t (B' d key) = l at hrel hrel'
  cases hrel with
  | none =>
    cases hrel'
    exact .none
  | some he =>
    cases hrel' with
    | some he' =>
      exact .some ⟨(Value.obsEq_iff he.1 he'.1).mpr rfl, he.2.2.trans he'.2.2.symm⟩

end Twins

/-- A key expires at one second past 1970, is swept away two seconds later, and looked up then. -/
def sweptKey : List (Event Unit 1 1) :=
  let at' (now : Time) (args : List String) : Event Unit 1 1 :=
    .request ⟨(), args.map ascii, now, now, MapOrder.default, fun _ => 0⟩
  [at' 0 ["SET", "k", "v"], at' 0 ["PEXPIREAT", "k", "1000"],
    .pass 0 (fun _ => MapOrder.default) (3 * 10 ^ 9) 20, at' (3 * 10 ^ 9) ["GET", "k"]]

/-- The passes are invisible there. -/
theorem active_expiry_invisible_swept :
    let s : Server Unit 1 1 := Server.empty none fun _ => 0
    let rs := sweptKey.filterMap Event.request?
    List.Forall₂ (fun x y => y.1 = x.1 ∧ SameReply 1 1 x.1 x.2 y.2)
        (s.answered (Env.single 0) sweptKey) (s.answered (Env.single 0) (rs.map .request)) ∧
      ∀ d key t, (∀ ev ∈ sweptKey, ev.now ≤ t) → Option.Rel Entry.SameLookup
        (((s.handleAll (Env.single 0) sweptKey).databases d ((Env.single 0).route key)).lookup t key)
        (((s.handleAll (Env.single 0) (rs.map .request)).databases d
          ((Env.single 0).route key)).lookup t key) := by
  have horder : sweptKey.Pairwise Event.InOrder := by decide
  exact active_expiry_invisible ⟨_, empty_repr (Env.single 0) none 0 fun _ => 0⟩ sweptKey horder
    (List.forall₂_same.mpr fun _ _ => ⟨rfl, rfl, rfl⟩)

end Memcore
