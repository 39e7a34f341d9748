import Memcore.Server.ActiveExpiry

/-!
# The states a server gets into

Databases are filled by requests, swept by active expiry, and rebuilt when a process starts, from a
snapshot and by replaying a log; the new process may split the keys otherwise, over another number of
shards, and have other thresholds.

In every state so reached the databases stand for something and hold no empty collection
(`Reached.filled`). Two guarantees follow: what is stored is a string or has an element
(`no_empty_collection`), and only the commands for deadlines touch deadlines (`deadlines_kept`).
-/

namespace Memcore

open Go Prog

variable {n m : Nat}

/-- `Len` of the collection that a value holds. -/
def Value.len : Value → Nat
  | .none | .str _ => 0
  | .list l => l.len
  | .hash h => h.len
  | .set s => s.len
  | .zset z => z.len

theorem Value.len_repr {v : Value} {a : AVal} (h : v.Repr a) : v.len = a.size := by
  cases v <;> cases a <;> try exact h.elim
  case str.str => rfl
  case list.list => exact ListVal.len_repr h
  case hash.hash => exact HashVal.len_repr h
  case set.set => exact SetVal.len_repr h
  case zset.zset => exact ZSetVal.len_repr h

/-- The databases a server can get to hold. Of `env` the routing, the thresholds and the library
functions belong to the process; every step has its own reading of the clock and its own order of
maps. -/
inductive Reached : {n m : Nat} → Env m → (Fin n → DB m) → Prop where
  /-- A process starts with nothing. -/
  | empty {n m : Nat} (env : Env m) : Reached env fun (_ : Fin n) _ => Keyspace.new
  /-- A request of any session, with any outcome. -/
  | request {n m : Nat} {env : Env m} {c : Context n m} (h : Reached env c.databases) (now : Time)
      (ord : MapOrder) (logNow : Time) (args : List Bytes) :
      Reached env (Memcore.request (env.at now ord) logNow args c).2.2.databases
  /-- A pass of active expiry over a database. -/
  | pass {n m : Nat} {env : Env m} {dbs : Fin n → DB m} (h : Reached env dbs) (d : Fin n)
      (ords : Fin m → MapOrder) (now : Time) (limitPerShard : Int) :
      Reached env (Function.update dbs d (expireCycle ords (dbs d) now limitPerShard).2)
  /-- A snapshot of such databases, read by another process. A length is a Go `int`. -/
  | restore {n m n' m' : Nat} {env : Env m} {env' : Env m'} {c : Context n m}
      {dbs : Fin n' → DB m'} (h : Reached env c.databases) (h' : Reached env' dbs)
      (hlen : ∀ d i key e, (dbs d i).entries.lookup key = some e → e.value.len < 2 ^ 63)
      (ord : MapOrder) (ords : Nat → MapOrder) (rngs : Nat → Rng) {baseGen : Int64}
      {enc : List UInt8} (henc : writeSnapshot ords baseGen (emitRecords ord dbs) = .ok enc) :
      Reached env (readSnapshot env.limits rngs (Memcore.restore env) enc c).1.databases
  /-- A command of a log, replayed. -/
  | replay {n m : Nat} {env : Env m} {c : Context n m} (h : Reached env c.databases) (now : Time)
      (ord : MapOrder) (db : Int64) (args : List Bytes) :
      Reached env (Memcore.replay (env.at now ord) c db args).1.databases

/-! ## Each step keeps collections filled -/

/-- The databases stand for something that holds no empty collection. -/
def Filled (env : Env m) (dbs : Fin n → DB m) : Prop :=
  ∃ A, Databases.Repr env dbs A ∧ ∀ d, (A d).Filled

theorem Filled.dispatch {env : Env m} {c : Context n m} (h : Filled env c.databases)
    (args : List Bytes) : Filled env (dispatch env args c).2.databases := by
  obtain ⟨A, hA, hfilled⟩ := h
  unfold Memcore.dispatch
  cases hres : (resolve args : Except Reply (Command n m)) with
  | error reply => exact ⟨A, hA, hfilled⟩
  | ok cmd =>
    obtain ⟨hcmd, hacc, -⟩ := resolve_ok hres
    refine ⟨_, run_refines hcmd hacc hA, fun d => ?_⟩
    by_cases hd : d = c.index
    · subst hd
      rw [Function.update_self]
      exact effect_filled hcmd hacc (hfilled _)
    · rw [Function.update_of_ne hd]
      exact hfilled d

/-- A request does to the context what dispatching does. -/
theorem request_context (env : Env m) (logNow : Time) (args : List Bytes) (c : Context n m) :
    (request env logNow args c).2.2 = (dispatch env args c).2 := by
  unfold request dispatch
  cases (resolve args : Except Reply (Command n m)) <;> rfl

theorem Filled.replay {env : Env m} {c : Context n m} (h : Filled env c.databases) (db : Int64)
    (args : List Bytes) : Filled env (replay env c db args).1.databases := by
  unfold Memcore.replay
  by_cases hdb : 0 ≤ db.toInt ∧ db.toInt.toNat < n
  · simp only [select_of_lt hdb]
    have hrun := Filled.dispatch (c := { c with index := ⟨db.toInt.toNat, hdb.2⟩ }) h args
    generalize Memcore.dispatch env args { c with index := ⟨db.toInt.toNat, hdb.2⟩ } = out at hrun
    obtain ⟨_ | _, _⟩ := out <;> exact hrun
  · rw [select_of_not_lt hdb]
    exact h

theorem Filled.pass {env : Env m} {dbs : Fin n → DB m} (h : Filled env dbs) (d : Fin n)
    (ords : Fin m → MapOrder) (now : Time) (limitPerShard : Int) :
    Filled env (Function.update dbs d (expireCycle ords (dbs d) now limitPerShard).2) := by
  obtain ⟨A, hA, hfilled⟩ := h
  obtain ⟨a, ha, hswept⟩ := (hA d).expireCycle ords now limitPerShard
  refine ⟨Function.update A d a, fun d' => ?_, fun d' key e he => ?_⟩
  · by_cases hd : d' = d
    · subst hd
      rw [Function.update_self, Function.update_self]
      exact ha
    · rw [Function.update_of_ne hd, Function.update_of_ne hd]
      exact hA d'
  · by_cases hd : d' = d
    · subst hd
      rw [Function.update_self] at he
      exact hfilled d' key e ((hswept key).eq_some he)
    · rw [Function.update_of_ne hd] at he
      exact hfilled d' key e he

/-- A record of a value that may be stored. -/
def Record.Filled (lim : Limits) (r : Record) : Prop :=
  ∃ a, r.value.Repr a ∧ r.value.Bounded lim ∧ a.Filled

theorem Filled.restore {env : Env m} {c : Context n m} (h : Filled env c.databases) {r : Record}
    (hr : r.Filled env.limits) : Filled env (restore env c r).1.databases := by
  obtain ⟨A, hA, hfilled⟩ := h
  obtain ⟨a, hv, hb, ha⟩ := hr
  unfold Memcore.restore
  split
  next hdb =>
    refine ⟨Function.update A ⟨r.db.toInt.toNat, hdb.2⟩
      (Function.update (A ⟨r.db.toInt.toNat, hdb.2⟩) r.key
        (some ⟨a, stampDeadline r.expireAt⟩)), fun d => ?_, fun d key e he => ?_⟩
    · by_cases hd : d = ⟨r.db.toInt.toNat, hdb.2⟩
      · subst hd
        simp only [Function.update_self]
        exact (hA _).update ((hA _ _).setEntry r.key ⟨hv, hb, rfl⟩)
      · simp only [Function.update_of_ne hd]
        exact hA d
    · by_cases hd : d = ⟨r.db.toInt.toNat, hdb.2⟩
      · subst hd
        rw [Function.update_self] at he
        by_cases hk : key = r.key
        · subst hk
          rw [Function.update_self] at he
          cases he
          exact ha
        · rw [Function.update_of_ne hk] at he
          exact hfilled _ key e he
      · rw [Function.update_of_ne hd] at he
        exact hfilled d key e he
  next => exact ⟨A, hA, hfilled⟩

theorem Filled.restoreAll {env : Env m} : ∀ (rs : List Record) {c : Context n m},
    Filled env c.databases → (∀ r ∈ rs, r.Filled env.limits) →
    Filled env (callEach (Memcore.restore env) rs c).1.databases
  | [], _, h, _ => h
  | r :: rs, c, h, hrs => by
      obtain ⟨hr, hrs⟩ := List.forall_mem_cons.mp hrs
      have hstep := h.restore hr
      rw [callEach]
      generalize Memcore.restore env c r = out at hstep
      obtain ⟨c', _ | _⟩ := out
      · exact Filled.restoreAll rs hstep hrs
      · exact hstep

/-- **Whatever is reached holds no empty collection.** -/
theorem Reached.filled {env : Env m} {dbs : Fin n → DB m} (h : Reached env dbs) :
    Filled env dbs := by
  induction h with
  | empty env =>
    refine ⟨fun _ _ => none, new_databases_repr env, fun d key e he => ?_⟩
    cases he
  | @request _ _ env c _ now ord logNow args ih =>
    rw [request_context]
    have ih' : Filled (env.at now ord) c.databases := ih
    exact ih'.dispatch args
  | pass _ d ords now limitPerShard ih => exact ih.pass d ords now limitPerShard
  | @restore _ _ _ _ env env' c dbs _ _ hlen ord ords rngs baseGen enc henc ih ih' =>
    obtain ⟨A, hA, hfilled⟩ := ih'
    obtain ⟨enc', records, hw, hsame, -, hread⟩ := readSnapshot_writeSnapshot env.limits ords rngs
      baseGen fun r hr => by
        obtain ⟨d, i, key, e, hl, rfl⟩ := mem_emitRecords.mp hr
        obtain ⟨-, ae, -, -, hv, -⟩ := emitRecords_of hA ord _ hr
        refine ⟨ae.value, hv, ?_⟩
        rw [← Value.len_repr hv]
        exact (hlen d i key e hl).trans (by decide)
    obtain rfl : enc' = enc := Except.ok.inj (hw.symm.trans henc)
    rw [hread]
    refine Filled.restoreAll records ih fun r' hr' => ?_
    obtain ⟨r, hr, hs⟩ := exists_of_forall₂_right hsame r' hr'
    obtain ⟨d, ae, -, hae, hv, -⟩ := emitRecords_of hA ord r hr
    obtain ⟨a, ha, ha', hb⟩ := hs.value
    have hval : ae.value = a := (Value.obsEq_iff hv ha).mp ((Value.obsEq_iff ha ha).mpr rfl)
    exact ⟨a, ha', hb, hval ▸ hfilled d r.key ae hae⟩
  | @replay _ _ env c _ now ord db args ih =>
    have ih' : Filled (env.at now ord) c.databases := ih
    exact ih'.replay db args

/-! ## Guarantees -/

/-- **No empty collection is ever stored.** Every entry of every shard, live or not, holds a value
that is a string, list, hash, set or sorted set, and a collection has an element. -/
theorem no_empty_collection {env : Env m} {dbs : Fin n → DB m} (h : Reached env dbs) (d : Fin n)
    (i : Fin m) {key : Bytes} {e : Entry} (he : (dbs d i).entries.lookup key = some e) :
    e.value.kind ≠ .none ∧ (e.value.isCollection = true → 1 ≤ e.value.len) := by
  obtain ⟨A, hA, hfilled⟩ := h.filled
  have hrel := hA d i key
  rw [he] at hrel
  generalize ho : shardPart env.route (A d) i key = o at hrel
  cases hrel with
  | @some _ ae hr =>
    have hae : A d key = some ae := by
      unfold shardPart at ho
      split at ho
      · exact ho
      · cases ho
    have hkind := hr.1.kind_eq
    refine ⟨?_, fun hcoll => ?_⟩
    · rw [hkind]
      cases ae.value <;> exact Kind.noConfusion
    · rw [Value.len_repr hr.1]
      rcases hfilled d key ae hae with hstr | hpos
      · rw [Value.isCollection, hkind, hstr] at hcoll
        cases hcoll
      · exact hpos

/-- A list of two elements, popped once. -/
def poppedList : Context 1 1 :=
  let run (c : Context 1 1) (args : List String) : Context 1 1 :=
    (request ((Env.single 0).at 0 MapOrder.default) 0 (args.map ascii) c).2.2
  run (run (Context.empty none 0 fun _ => 0) ["RPUSH", "l", "a", "b"]) ["LPOP", "l"]

theorem poppedList_reached : Reached (Env.single 0) poppedList.databases :=
  .request (.request (.empty (Env.single 0)) 0 MapOrder.default 0 _) 0 MapOrder.default 0 _

/-- The element that is left. -/
theorem no_empty_collection_popped :
    ∃ e, (poppedList.databases 0 0).entries.lookup (ascii "l") = some e ∧
      e.value.kind ≠ .none ∧ (e.value.isCollection = true → 1 ≤ e.value.len) := by
  have hsome : ((poppedList.databases 0 0).entries.lookup (ascii "l")).isSome = true := by
    decide +kernel
  obtain ⟨e, he⟩ := Option.isSome_iff_exists.mp hsome
  exact ⟨e, he, no_empty_collection poppedList_reached 0 0 he⟩

/-- What a request leaves under one key: what was there, or in the selected database what its
command makes of it. -/
theorem dispatch_at_key {env : Env m} {c : Context n m} {A : Fin n → ADB} (now : Time)
    (ord : MapOrder) (args : List Bytes) (hA : Databases.Repr env c.databases A) (d : Fin n)
    (key : Bytes) :
    ∃ A', Databases.Repr env (dispatch (env.at now ord) args c).2.databases A' ∧
      (A' d key = A d key ∨ d = c.index ∧ ∃ cmd : Command n m, resolve args = .ok cmd ∧
        A' d key = cmd.effect now env.limits env.host args (A d) key) := by
  unfold dispatch
  cases hres : (resolve args : Except Reply (Command n m)) with
  | error reply => exact ⟨A, hA, .inl rfl⟩
  | ok cmd =>
    obtain ⟨hcmd, hacc, -⟩ := resolve_ok hres
    have hA' : Databases.Repr (env.at now ord) c.databases A := hA
    refine ⟨_, run_refines hcmd hacc hA', ?_⟩
    by_cases hd : d = c.index
    · subst hd
      rw [Function.update_self]
      exact .inr ⟨rfl, cmd, rfl, rfl⟩
    · rw [Function.update_of_ne hd]
      exact .inl rfl

/-- **Only the commands for deadlines touch deadlines.** Whatever a server has come to hold, and
whatever request it is sent: a key that is live before and after the request has the deadline it had,
unless the request is SET, which clears it, EXPIRE, PEXPIREAT or PERSIST on that key in the selected
database; and a key that is live only afterwards has no deadline, whatever expired entry was stored
under it. -/
theorem deadlines_kept {env : Env m} {c : Context n m} (h : Reached env c.databases) (now : Time)
    (ord : MapOrder) (logNow : Time) (args : List Bytes) (d : Fin n) (key : Bytes) {e' : Entry}
    (hafter : ((request (env.at now ord) logNow args c).2.2.databases d (env.route key)).lookup now
      key = some e') :
    (∀ e, (c.databases d (env.route key)).lookup now key = some e →
      e'.expireAt = e.expireAt ∨ d = c.index ∧ ∃ cmd : Command n m, resolve args = .ok cmd ∧
        SetsDeadline cmd args key e'.expireAt) ∧
      ((c.databases d (env.route key)).lookup now key = none → e'.hasExpiry = false) := by
  obtain ⟨A, hA, -⟩ := h.filled
  rw [request_context] at hafter
  have hbefore := (hA d).peek now key
  unfold Keyspace.lookup at hafter ⊢
  -- either nothing happened to the key, or the command's operation on it did
  obtain ⟨A', hA', hkey⟩ := dispatch_at_key now ord args hA d key
  have hrel := (hA' d).peek now key
  rw [hafter] at hrel
  generalize hlive' : liveAt now (A' d key) = o' at hrel
  cases hrel with
  | @some _ ae' he' =>
    generalize (c.databases d (env.route key)).peek now key = o at hbefore
    generalize hlive : liveAt now (A d key) = l at hbefore
    refine ⟨fun e heq => ?_, fun heq => ?_⟩
    · subst heq
      cases hbefore with
      | @some _ ae he =>
        rw [he.2.2, he'.2.2]
        rcases hkey with hsame | ⟨hd, cmd, hres, heff⟩
        · rw [hsame, hlive] at hlive'
          cases hlive'
          exact .inl rfl
        · have hstored := (liveAt_eq_some hlive').1
          rw [heff] at hstored
          rcases effect_deadline hlive hstored with hkept | hsets
          · exact .inl hkept
          · exact .inr ⟨hd, cmd, hres, hsets⟩
    · subst heq
      cases hbefore
      have hzero : ae'.expireAt = zeroTime := by
        rcases hkey with hsame | ⟨-, cmd, -, heff⟩
        · rw [hsame, hlive] at hlive'
          cases hlive'
        · rw [heff] at hlive'
          exact effect_deadline_new hlive hlive'
      rw [Entry.hasExpiry, he'.2.2, hzero]
      rfl

/-- A counter with a deadline. -/
def volatileCounter : Context 1 1 :=
  let run (c : Context 1 1) (args : List String) : Context 1 1 :=
    (request ((Env.single 0).at 0 MapOrder.default) 0 (args.map ascii) c).2.2
  run (run (Context.empty none 0 fun _ => 0) ["INCR", "k"]) ["PEXPIREAT", "k", "1000"]

theorem volatileCounter_reached : Reached (Env.single 0) volatileCounter.databases :=
  .request (.request (.empty (Env.single 0)) 0 MapOrder.default 0 _) 0 MapOrder.default 0 _

/-- Counting once before the deadline keeps it, and once after it starts without one. -/
theorem deadlines_kept_incr :
    (∃ e e' : Entry, (volatileCounter.databases 0 0).lookup 0 (ascii "k") = some e ∧
        ((request ((Env.single 0).at 0 MapOrder.default) 0 [ascii "INCR", ascii "k"]
          volatileCounter).2.2.databases 0 0).lookup 0 (ascii "k") = some e' ∧
        e'.expireAt = e.expireAt) ∧
      ∃ e' : Entry, (volatileCounter.databases 0 0).lookup (10 ^ 9) (ascii "k") = none ∧
        ((request ((Env.single 0).at (10 ^ 9) MapOrder.default) 0 [ascii "INCR", ascii "k"]
          volatileCounter).2.2.databases 0 0).lookup (10 ^ 9) (ascii "k") = some e' ∧
        e'.hasExpiry = false := by
  have hlive : ((volatileCounter.databases 0 0).lookup 0 (ascii "k")).isSome = true ∧
      (((request ((Env.single 0).at 0 MapOrder.default) 0 [ascii "INCR", ascii "k"]
        volatileCounter).2.2.databases 0 0).lookup 0 (ascii "k")).isSome = true := by
    decide +kernel
  have hgone : ((volatileCounter.databases 0 0).lookup (10 ^ 9) (ascii "k")).isNone = true ∧
      (((request ((Env.single 0).at (10 ^ 9) MapOrder.default) 0 [ascii "INCR", ascii "k"]
        volatileCounter).2.2.databases 0 0).lookup (10 ^ 9) (ascii "k")).isSome = true := by
    decide +kernel
  obtain ⟨e, he⟩ := Option.isSome_iff_exists.mp hlive.1
  obtain ⟨e', he'⟩ := Option.isSome_iff_exists.mp hlive.2
  obtain ⟨e₁, he₁⟩ := Option.isSome_iff_exists.mp hgone.2
  refine ⟨⟨e, e', he, he', ?_⟩, e₁, Option.isNone_iff_eq_none.mp hgone.1, he₁, ?_⟩
  · have hkept := deadlines_kept volatileCounter_reached 0 MapOrder.default 0
      [ascii "INCR", ascii "k"] 0 (ascii "k") he'
    rcases hkept.1 e he with hsame | ⟨-, cmd, hres, -, hname⟩
    · exact hsame
    · cases hres
      rcases hname with ⟨hname, -⟩ | hname | hname | hname <;> exact absurd hname (by decide)
  · exact (deadlines_kept volatileCounter_reached (10 ^ 9) MapOrder.default 0
      [ascii "INCR", ascii "k"] 0 (ascii "k") he₁).2 (Option.isNone_iff_eq_none.mp hgone.1)

end Memcore
