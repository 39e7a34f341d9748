import Memcore.Command.Replies
import Memcore.Server.Confined

/-!
# The keys a command declares

`execute` locks the shards of the keys a request names, so a handler must not look at or change the
entry of any other key. Taken per key and not per shard this is a footprint of its own
(`KeyAgree`, `KeyFrame`), and every handler keeps to it because the data methods do (`KeyFrame.access`).

`run_covered` collects what follows: two databases that agree on the declared keys cannot be told
apart by the command, it changes nothing else, and the locks it takes cover these keys.
-/

namespace Memcore

open Go Prog Cmd

variable {n m : Nat} {α : Type}

/-- The keys `execute` locks for: the first argument on the single-key path, every key for a command
on the whole database, and otherwise what `Keys` extracts. -/
def Locks (cmd : Command n m) (args : List Bytes) (key : Bytes) : Prop :=
  if cmd.singleKey = true ∧ 1 < args.length then args[1]? = some key
  else if cmd.wholeDB = true then True
  else ∃ keys, cmd.keys args = .ok keys ∧ key ∈ keys

/-! ## Entries of single keys -/

/-- The entry stored under a key, in the shard that owns the key. -/
def DB.entry (route : Bytes → Fin m) (db : DB m) (key : Bytes) : Option Entry :=
  (db (route key)).entries.lookup key

/-- The contexts have the same selection, the same random levels, and the same entries under the
keys of `K`. -/
structure KeyAgree (route : Bytes → Fin m) (K : Bytes → Prop) (c d : Context n m) : Prop where
  index : c.index = d.index
  rng : c.rng = d.rng
  entries : ∀ key, K key → c.db.entry route key = d.db.entry route key

/-- From `c` to `d` nothing changed but entries of the selected database under keys of `K`, and
random levels were drawn. -/
structure KeyFrame (K : Bytes → Prop) (c d : Context n m) : Prop where
  index : d.index = c.index
  settings : d.settings = c.settings
  selected : ∀ i key, ¬ K key → (d.db i).entries.lookup key = (c.db i).entries.lookup key
  others : ∀ k, k ≠ c.index → d.databases k = c.databases k

namespace KeyFrame

variable {K : Bytes → Prop}

theorem refl (c : Context n m) : KeyFrame K c c := ⟨rfl, rfl, fun _ _ _ => rfl, fun _ _ => rfl⟩

theorem trans {c d e : Context n m} (h : KeyFrame K c d) (h' : KeyFrame K d e) :
    KeyFrame K c e where
  index := h'.index.trans h.index
  settings := h'.settings.trans h.settings
  selected i key hk := (h'.selected i key hk).trans (h.selected i key hk)
  others k hk := (h'.others k (by rwa [h.index])).trans (h.others k hk)

end KeyFrame

/-- What an operation of the keyspace reports and stores under `key` depends on the entry of `key`,
and it stores nothing else. -/
structure Keyspace.Local (key : Bytes) (f : Keyspace → α × Keyspace) : Prop where
  same : ∀ ks ks', ks.entries.lookup key = ks'.entries.lookup key →
    (f ks).1 = (f ks').1 ∧ (f ks).2.entries.lookup key = (f ks').2.entries.lookup key
  other : ∀ ks key', key' ≠ key → (f ks).2.entries.lookup key' = ks.entries.lookup key'

namespace Keyspace

theorem peek_congr {ks ks' : Keyspace} {key : Bytes}
    (h : ks.entries.lookup key = ks'.entries.lookup key) (now : Time) :
    ks.peek now key = ks'.peek now key := by
  unfold peek
  rw [h]

theorem set_local (key : Bytes) (v : Value) : Local key fun ks => ((), ks.set key v) where
  same ks ks' _ := ⟨rfl, by simp [set]⟩
  other ks key' hk := by simp [set, Finmap.lookup_insert_of_ne _ hk]

theorem setEntry_local (key : Bytes) (e : Entry) : Local key fun ks => ((), ks.setEntry key e) where
  same ks ks' _ := ⟨rfl, by simp [setEntry]⟩
  other ks key' hk := by simp [setEntry, Finmap.lookup_insert_of_ne _ hk]

theorem mutate_local (key : Bytes) (v : Value) : Local key fun ks => ((), ks.mutate key v) where
  same ks ks' h := by
    refine ⟨rfl, ?_⟩
    unfold mutate
    rw [h]
    cases ks'.entries.lookup key with
    | none => exact h
    | some e => simp
  other ks key' hk := by
    unfold mutate
    cases ks.entries.lookup key with
    | none => rfl
    | some e => exact Finmap.lookup_insert_of_ne _ hk

theorem setExpire_local (now : Time) (key : Bytes) (at' : Time) :
    Local key fun ks => ks.setExpire now key at' where
  same ks ks' h := by
    unfold setExpire
    rw [peek_congr h]
    cases ks'.peek now key with
    | none => exact ⟨rfl, h⟩
    | some e => simp
  other ks key' hk := by
    unfold setExpire
    cases ks.peek now key with
    | none => rfl
    | some e => exact Finmap.lookup_insert_of_ne _ hk

theorem persist_local (now : Time) (key : Bytes) : Local key fun ks => ks.persist now key where
  same ks ks' h := by
    unfold persist
    rw [peek_congr h]
    cases ks'.peek now key with
    | none => exact ⟨rfl, h⟩
    | some e => cases hx : e.hasExpiry <;> simp [hx, h]
  other ks key' hk := by
    unfold persist
    cases ks.peek now key with
    | none => rfl
    | some e =>
      cases hx : e.hasExpiry with
      | false => simp [hx]
      | true => simpa [hx] using Finmap.lookup_insert_of_ne _ hk

theorem delete_local (now : Time) (key : Bytes) : Local key fun ks => ks.delete now key where
  same ks ks' h := by
    unfold delete
    rw [h]
    cases ks'.entries.lookup key with
    | none => exact ⟨rfl, h⟩
    | some e => simp
  other ks key' hk := by
    unfold delete
    cases ks.entries.lookup key with
    | none => rfl
    | some e => exact Finmap.lookup_erase_ne hk

end Keyspace

section Access

variable {env : Env m} {K : Bytes → Prop} {key : Bytes}

/-- A read of the entry of a key of `K`. -/
theorem readShard_within (hk : K key) {f : Keyspace → α}
    (hf : ∀ ks ks' : Keyspace, ks.entries.lookup key = ks'.entries.lookup key → f ks = f ks') :
    Within (KeyAgree (n := n) env.route K) (KeyFrame K) (readShard (env.route key) f) where
  same _ _ h := ⟨congrArg Except.ok (hf _ _ (h.entries key hk)), h⟩
  frame := KeyFrame.refl

/-- An operation on the entry of a key of `K`. -/
theorem onShard_within (hk : K key) {f : Keyspace → α × Keyspace} (hf : Keyspace.Local key f) :
    Within (KeyAgree (n := n) env.route K) (KeyFrame K) (onShard (env.route key) f) where
  same c d h := by
    obtain ⟨hout, hsame⟩ := hf.same _ _ (h.entries key hk)
    refine ⟨congrArg Except.ok hout, h.index, h.rng, fun key' hk' => ?_⟩
    simp only [onShard, Context.setDB_db, DB.entry]
    by_cases hroute : env.route key' = env.route key
    · rw [hroute, Function.update_self, Function.update_self]
      by_cases hkey : key' = key
      · subst hkey
        exact hsame
      · rw [hf.other _ _ hkey, hf.other _ _ hkey, ← hroute]
        exact h.entries key' hk'
    · rw [Function.update_of_ne hroute, Function.update_of_ne hroute]
      exact h.entries key' hk'
  frame c := by
    refine ⟨rfl, rfl, fun i key' hk' => ?_, fun k hne => c.setDB_databases_ne _ hne⟩
    simp only [onShard, Context.setDB_db]
    by_cases hi : i = env.route key
    · subst hi
      rw [Function.update_self]
      exact hf.other _ _ fun heq => hk' (heq ▸ hk)
    · rw [Function.update_of_ne hi]

theorem KeyFrame.framed (route : Bytes → Fin m) (K : Bytes → Prop) :
    Framed (n := n) (KeyAgree route K) (KeyFrame K) where
  refl := KeyFrame.refl
  trans := KeyFrame.trans
  getRng := ⟨fun _ _ h => ⟨congrArg Except.ok h.rng, h⟩, KeyFrame.refl⟩
  setRng _ := ⟨fun _ _ h => ⟨rfl, h.index, rfl, h.entries⟩,
    fun _ => ⟨rfl, rfl, fun _ _ _ => rfl, fun _ _ => rfl⟩⟩

/-- The keys of `K` give access to themselves. -/
theorem KeyFrame.access (hk : K key) :
    Access (n := n) (KeyAgree env.route K) (KeyFrame K) env key where
  getBytes := readShard_within hk fun ks ks' h => by
    rw [Keyspace.getBytes_eq, Keyspace.getBytes_eq, Keyspace.peek_congr h]
  existsBytes := readShard_within hk fun ks ks' h => by
    rw [Keyspace.existsBytes_eq, Keyspace.existsBytes_eq, Keyspace.peek_congr h]
  lookup := readShard_within hk fun _ _ h => Keyspace.peek_congr h _
  set v := onShard_within hk (Keyspace.set_local key v)
  setEntry e := onShard_within hk (Keyspace.setEntry_local key e)
  mutate v := onShard_within hk (Keyspace.mutate_local key v)
  setExpire at' := onShard_within hk (Keyspace.setExpire_local env.now key at')
  persist := onShard_within hk (Keyspace.persist_local env.now key)
  delete := onShard_within hk (Keyspace.delete_local env.now key)
  unlink := by
    rw [unlink_eq_delete]
    exact onShard_within hk (Keyspace.delete_local env.now key)

end Access

/-! ## What is locked -/

section Locked

variable {cmd : Command n m} {args : List Bytes} {key : Bytes}

theorem locks_single (h : cmd.singleKey = true) {name key' : Bytes} {rest : List Bytes} :
    Locks cmd (name :: key' :: rest) key ↔ key = key' := by
  rw [Locks, if_pos ⟨h, by simp⟩]
  simp [eq_comm]

theorem locks_multi (hfirst : cmd.firstKey = 1) (hlast : cmd.lastKey = -1) (hstep : cmd.keyStep = 1)
    (hpart : cmd.wholeDB = false) {name : Bytes} {keys : List Bytes} (hne : keys ≠ []) :
    Locks cmd (name :: keys) key ↔ key ∈ keys := by
  rw [Locks, if_neg (by simp [Command.singleKey, hlast]), hpart, if_neg Bool.false_ne_true,
    keys_multi hfirst hlast hstep hpart hne]
  simp

/-- A command without keys locks nothing. -/
theorem not_locks_plain (name : String) (arity : Int) (run : Handler n m) :
    ¬ Locks (.plain name arity run) args key := by
  rintro ⟨keys, hkeys, hmem⟩
  have hnil : (Command.plain name arity run).keys args = .ok [] := rfl
  rw [hnil] at hkeys
  cases hkeys
  cases hmem

/-- **A command on data keeps to the keys it declares.** -/
theorem run_within {cmd : Command n m} (hcmd : cmd ∈ registry) (hdata : cmd.onData = true)
    (env : Env m) (hacc : cmd.accepts args.length = true) :
    Within (KeyAgree env.route (Locks cmd args)) (KeyFrame (Locks cmd args))
      (cmd.run env args) := by
  have hF := KeyFrame.framed (n := n) env.route (Locks cmd args)
  cases takes_of_accepts hcmd hacc with
  | single hkey =>
    exact singleKey_within env hF (KeyFrame.access ((locks_single hkey).mpr rfl)) _ cmd hcmd hkey
  | multi hfirst hlast hstep hpart =>
    refine multiKey_within env hF (fun k hk => KeyFrame.access ?_) cmd hcmd hfirst hlast
    exact (locks_multi hfirst hlast hstep hpart (List.cons_ne_nil _ _)).mpr hk
  | whole his =>
    subst his
    have hall (key : Bytes) : Locks (.whole "flushdb" (-1) fun _ => cmdFlushDB : Command n m) args
        key := trivial
    refine ⟨fun c d h => ⟨rfl, h.index, h.rng, fun key _ => ?_⟩, fun c => ?_⟩
    · have hflush (c : Context n m) : (cmdFlushDB args c).2.db = fun _ => Keyspace.new :=
        Context.setDB_db c _
      change (cmdFlushDB args c).2.db.entry env.route key
        = (cmdFlushDB args d).2.db.entry env.route key
      rw [hflush, hflush]
    · have hframe := (cmdFlushDB_touches (n := n) (m := m) args).frame c
      exact ⟨hframe.index, hframe.settings, fun i key hk => absurd (hall key) hk, hframe.others⟩
  | ping his | select his | config his =>
    subst his
    cases hdata

/-- The locked shards contain those of the declared keys. -/
theorem locks_mem {cmd : Command n m} (hcmd : cmd ∈ registry)
    (hacc : cmd.accepts args.length = true) {route : Bytes → Fin m} {shards : List (Fin m)}
    (hlock : lockShards route cmd args = .ok shards) (key : Bytes) (hk : Locks cmd args key) :
    route key ∈ shards := by
  cases takes_of_accepts hcmd hacc with
  | single hkey =>
    rw [lockShards, if_pos ⟨hkey, by simp⟩] at hlock
    cases hlock
    rw [(locks_single hkey).mp hk]
    exact List.mem_singleton_self _
  | multi hfirst hlast hstep hpart =>
    rw [lockShards, if_neg (by simp [Command.singleKey, hlast]), hpart,
      keys_multi hfirst hlast hstep hpart (List.cons_ne_nil _ _)] at hlock
    cases hlock
    exact mem_shardSet _ ((locks_multi hfirst hlast hstep hpart (List.cons_ne_nil _ _)).mp hk)
  | whole his =>
    subst his
    cases hlock
    exact List.mem_finRange _
  | ping his | select his | config his =>
    subst his
    exact absurd hk (not_locks_plain _ _ _)

end Locked

/-! ## Answers and the keys they depend on -/

section Answer

variable {now : Time} {a b : ADB}

/-- The answer depends on the live entries of the declared keys. -/
theorem answer_congr {cmd : Command n m} (hcmd : cmd ∈ registry) (hdata : cmd.onData = true)
    {args : List Bytes} (hacc : cmd.accepts args.length = true) {lim : Limits} {host : Host}
    (h : ∀ key, Locks cmd args key → liveAt now (a key) = liveAt now (b key)) :
    cmd.answer now lim host args a = cmd.answer now lim host args b := by
  cases takes_of_accepts hcmd hacc with
  | @single name key rest hkey =>
    rw [Command.answer, Command.answer, h key ((locks_single hkey).mpr rfl)]
    simp only [if_pos hkey]
  | multi hfirst hlast hstep hpart =>
    have hnot : ¬ cmd.singleKey = true := by simp [Command.singleKey, hlast]
    rw [Command.answer, Command.answer, if_neg hnot, if_neg hnot, multi_congr fun key' hk' =>
      h key' ((locks_multi hfirst hlast hstep hpart (List.cons_ne_nil _ _)).mpr hk')]
  | whole his =>
    subst his
    rw [answer_whole, answer_whole]
  | ping his | select his | config his =>
    subst his
    cases hdata

theorem pop_singleKey {cmd : Command n m} (hcmd : cmd ∈ registry)
    (hname : cmd.name = ascii "lpop" ∨ cmd.name = ascii "rpop") : cmd.singleKey = true := by
  have hall : ∀ r ∈ rows, r.name = ascii "lpop" ∨ r.name = ascii "rpop" →
      r.singleKey = true := by
    decide
  exact hall _ (row_mem hcmd) hname

/-- Whether a request panics depends on the live entries of the declared keys. -/
theorem crashes_congr {cmd : Command n m} (hcmd : cmd ∈ registry) {args : List Bytes}
    (hacc : cmd.accepts args.length = true)
    (h : ∀ key, Locks cmd args key → liveAt now (a key) = liveAt now (b key)) :
    cmd.Crashes now args a ↔ cmd.Crashes now args b := by
  unfold Command.Crashes
  refine and_congr_right fun hname => ?_
  match args with
  | [] | [_] => rfl
  | name :: key :: rest => simp only [h key ((locks_single (pop_singleKey hcmd hname)).mpr rfl)]

/-- The commands of several keys are these four. -/
theorem multi_name {cmd : Command n m} (hcmd : cmd ∈ registry) (hlast : cmd.lastKey = -1) :
    cmd.name = ascii "del" ∨ cmd.name = ascii "unlink" ∨ cmd.name = ascii "exists" ∨
      cmd.name = ascii "sinter" := by
  have hall : ∀ r ∈ rows, r.lastKey = -1 → r.name = ascii "del" ∨ r.name = ascii "unlink" ∨
      r.name = ascii "exists" ∨ r.name = ascii "sinter" := by
    decide
  exact hall _ (row_mem hcmd) hlast

/-- Which answers come without an order. -/
theorem answer_order {cmd : Command n m} (hcmd : cmd ∈ registry) (hdata : cmd.onData = true)
    {args : List Bytes} (hacc : cmd.accepts args.length = true) {lim : Limits} {host : Host} :
    (cmd.answer now lim host args a).IsExact ∨
      (cmd.name = ascii "hgetall" ∧ ∃ x, cmd.answer now lim host args a = .fields x) ∨
      ((cmd.name = ascii "smembers" ∨ cmd.name = ascii "sinter") ∧
        ∃ x, cmd.answer now lim host args a = .members x) := by
  cases takes_of_accepts hcmd hacc with
  | @single name key rest hkey =>
    rw [Command.answer, if_pos hkey]
    by_cases hgetall : cmd.name = ascii "hgetall"
    · rw [hgetall]
      -- the answer is that of HGETALL by evaluation of the table
      change (AReply.onKind AVal.hash? (.exact (.array [])) .fields _).IsExact ∨
        (_ ∧ ∃ x, AReply.onKind AVal.hash? (.exact (.array [])) .fields _ = .fields x) ∨ _
      cases liveAt now (a key) with
      | none => exact .inl trivial
      | some e =>
        rw [AReply.onKind]
        cases e.value.hash? with
        | none => exact .inl trivial
        | some x => exact .inr (.inl ⟨rfl, x, rfl⟩)
    · by_cases hsmembers : cmd.name = ascii "smembers"
      · rw [hsmembers]
        change (AReply.onKind AVal.set? (.exact (.array [])) .members _).IsExact ∨ _ ∨
          (_ ∧ ∃ x, AReply.onKind AVal.set? (.exact (.array [])) .members _ = .members x)
        cases liveAt now (a key) with
        | none => exact .inl trivial
        | some e =>
          rw [AReply.onKind]
          cases e.value.set? with
          | none => exact .inl trivial
          | some x => exact .inr (.inr ⟨.inl rfl, x, rfl⟩)
      · exact .inl (single_isExact hgetall hsmembers)
  | @multi name key keys hfirst hlast _ hpart =>
    rw [Command.answer, if_neg (by simp [Command.singleKey, hlast]), hpart,
      if_neg Bool.false_ne_true, Answer.multi]
    by_cases hdel : cmd.name = ascii "del" ∨ cmd.name = ascii "unlink"
    · rw [if_pos hdel]
      exact .inl trivial
    · rw [if_neg hdel]
      by_cases hexists : cmd.name = ascii "exists"
      · rw [if_pos hexists]
        exact .inl trivial
      · have hsinter : cmd.name = ascii "sinter" := by
          rcases multi_name hcmd hlast with h | h | h | h
          · exact absurd (.inl h) hdel
          · exact absurd (.inr h) hdel
          · exact absurd h hexists
          · exact h
        rw [if_neg hexists]
        cases hsets : Answer.sets now a (key :: keys) with
        | error reply => rcases sets_error hsets with rfl | rfl <;> exact .inl trivial
        | ok ss => exact .inr (.inr ⟨.inr hsinter, _, rfl⟩)
  | whole his =>
    subst his
    rw [answer_whole]
    exact .inl trivial
  | ping his | select his | config his =>
    subst his
    cases hdata

end Answer

/-! ## Outcomes up to the order of maps -/

/-- The same bulks, in any order. -/
def Reply.SameMembers (r r' : Reply) : Prop :=
  ∃ xs ys : List Bytes, xs.Perm ys ∧ r = .array (xs.map .bulk) ∧ r' = .array (ys.map .bulk)

/-- The same fields, each before its value, in any order. -/
def Reply.SamePairs (r r' : Reply) : Prop :=
  ∃ ps qs : List (Bytes × Bytes), ps.Perm qs ∧ r = .array ((flatPairs ps).map .bulk) ∧
    r' = .array ((flatPairs qs).map .bulk)

/-- The same outcome: two panics, or replies that are equal, up to order for the three commands that
list a map. -/
def SameOutcome (cmd : Command n m) : Result Reply → Result Reply → Prop
  | .ok r, .ok r' => r = r' ∨ (cmd.name = ascii "hgetall" ∧ r.SamePairs r') ∨
      ((cmd.name = ascii "smembers" ∨ cmd.name = ascii "sinter") ∧ r.SameMembers r')
  | .error _, .error _ => True
  | _, _ => False

theorem SameOutcome.refl (cmd : Command n m) (x : Result Reply) : SameOutcome cmd x x := by
  cases x with
  | ok r => exact .inl rfl
  | error p => trivial

/-- Two replies to one answer. -/
theorem sameOutcome_of_shows {cmd : Command n m} {spec : AReply} {r r' : Reply}
    (horder : spec.IsExact ∨ (cmd.name = ascii "hgetall" ∧ ∃ x, spec = .fields x) ∨
      ((cmd.name = ascii "smembers" ∨ cmd.name = ascii "sinter") ∧ ∃ x, spec = .members x))
    (h : spec.Shows r) (h' : spec.Shows r') : SameOutcome cmd (.ok r) (.ok r') := by
  rcases horder with hexact | ⟨hname, x, rfl⟩ | ⟨hname, x, rfl⟩
  · cases spec with
    | exact r₀ => exact .inl (h.trans h'.symm)
    | members s => exact hexact.elim
    | fields s => exact hexact.elim
  · obtain ⟨ps, hps, rfl⟩ := h
    obtain ⟨qs, hqs, rfl⟩ := h'
    exact .inr (.inl ⟨hname, ps, qs, hps.reorder hqs, rfl, rfl⟩)
  · obtain ⟨xs, hxs, rfl, rfl⟩ := h
    obtain ⟨ys, hys, heq, rfl⟩ := h'
    refine .inr (.inr ⟨hname, xs, ys, ?_, rfl, rfl⟩)
    exact (List.perm_of_nodup_nodup_toFinset_eq hys hxs heq).symm

/-! ## Commands without keys -/

section Plain

variable {args : List Bytes}

/-- CONFIG depends on the settings only. -/
theorem cmdConfig_within (env : Env m) (args : List Bytes) :
    Within (fun c d : Context n m => c.settings = d.settings) (fun _ _ => True)
      (cmdConfig env args) := by
  let R (c d : Context n m) : Prop := c.settings = d.settings
  let F (_ _ : Context n m) : Prop := True
  have hpure (r : Reply) : Within R F (pure r : Cmd n m Reply) := Within.pure (fun _ => trivial) r
  have hlift {α : Type} (x : Result α) : Within R F (Prog.lift x : Cmd n m α) :=
    Within.lift (fun _ => trivial) x
  have hbind {α β : Type} {p : Cmd n m α} {f : α → Cmd n m β} (hp : Within R F p)
      (hf : ∀ a, Within R F (f a)) : Within R F (p >>= f) :=
    Within.bind (F := F) (fun _ _ => trivial) hp hf
  have hget : Within R F (getSettings : Cmd n m (Option Reloadable)) :=
    ⟨fun _ _ h => ⟨congrArg Except.ok h, h⟩, fun _ => trivial⟩
  have hset (r : Reloadable) : Within R F (setSettings r : Cmd n m Unit) :=
    ⟨fun _ _ _ => ⟨rfl, rfl⟩, fun _ => trivial⟩
  change Within R F (cmdConfig env args)
  unfold cmdConfig
  refine hbind hget fun settings => ?_
  cases settings with
  | none => exact hpure _
  | some r =>
    refine hbind (hlift _) fun arg1 => ?_
    split
    · split
      · exact hpure _
      · exact hbind (hlift _) fun _ => hpure _
    · split
      · split
        · exact hpure _
        · refine hbind (hlift _) fun name => hbind (hlift _) fun val => ?_
          split
          · exact hpure _
          · exact hbind (hset _) fun _ => hpure _
      · exact hpure _

/-- The databases do not matter to a command that names no keys, and it changes none of them. -/
theorem plain_same {cmd : Command n m} (hcmd : cmd ∈ registry) (hplain : cmd.onData = false)
    (hacc : cmd.accepts args.length = true) (env : Env m) (ord : MapOrder) (c : Context n m)
    (dbs : Fin n → DB m) (rng : Rng) :
    (cmd.run env args c).1
        = (cmd.run { env with ord } args { c with databases := dbs, rng }).1 ∧
      (cmd.run env args c).2.databases = c.databases ∧ ∀ key, ¬ Locks cmd args key := by
  cases takesPlain_of_accepts hcmd hplain hacc with
  | ping his =>
    subst his
    refine ⟨?_, (cmdPing_looks args c).databases, fun _ => not_locks_plain _ _ _⟩
    change (cmdPing args c).1 = (cmdPing args _).1
    unfold cmdPing
    split <;> rfl
  | @select name index rest his =>
    subst his
    refine ⟨?_, cmdSelect_databases _ c, fun _ => not_locks_plain _ _ _⟩
    change (cmdSelect _ c).1 = (cmdSelect _ _).1
    unfold cmdSelect
    simp only [arg_one_bind]
    cases parseInt index with
    | none => rfl
    | some k =>
      by_cases h : 0 ≤ k ∧ k.toNat < n
      · simp only [bind_apply_ok (select_of_lt h _)]
        rfl
      · simp only [bind_apply_ok (select_of_not_lt h _)]
        rfl
  | config his =>
    subst his
    exact ⟨((cmdConfig_within env _).same c { c with databases := dbs, rng } rfl).1,
      (cmdConfig_looks env _ c).databases, fun _ => not_locks_plain _ _ _⟩

end Plain

/-! ## The contract -/

/-- What the locks and the handlers have to agree on for a request. -/
structure Covered (env : Env m) (cmd : Command n m) (args : List Bytes) : Prop where
  /-- Databases that agree on the entries of the declared keys give one outcome, and the same entries
  of these keys. -/
  same : ∀ (c : Context n m) (dbs : Fin n → DB m),
    (∀ key, Locks cmd args key → (c.databases c.index).entry env.route key
      = (dbs c.index).entry env.route key) →
    (cmd.run env args c).1 = (cmd.run env args { c with databases := dbs }).1 ∧
      ∀ key, Locks cmd args key → ((cmd.run env args c).2.databases c.index).entry env.route key
        = ((cmd.run env args { c with databases := dbs }).2.databases c.index).entry env.route key
  /-- So they do when maps are visited in another order, other levels are drawn and the entries are
  encoded differently, up to the order of replies that have none. -/
  similar : ∀ (c : Context n m) (dbs : Fin n → DB m) (ord : MapOrder) (rng : Rng),
    (∃ A, Databases.Repr env c.databases A) → (∃ B, Databases.Repr env dbs B) →
    (∀ key, Locks cmd args key → Option.Rel Entry.SameLookup
      ((c.databases c.index).entry env.route key) ((dbs c.index).entry env.route key)) →
    SameOutcome cmd (cmd.run env args c).1
        (cmd.run { env with ord } args { c with databases := dbs, rng }).1 ∧
      ∀ key, Locks cmd args key → Option.Rel Entry.SameLookup
        (((cmd.run env args c).2.databases c.index).entry env.route key)
        (((cmd.run { env with ord } args
          { c with databases := dbs, rng }).2.databases c.index).entry env.route key)
  /-- No entry of another key changes, in any shard. -/
  others : ∀ (c : Context n m) key, ¬ Locks cmd args key → ∀ i,
    ((cmd.run env args c).2.databases c.index i).entries.lookup key
      = (c.databases c.index i).entries.lookup key
  /-- No other database changes. -/
  databases : ∀ (c : Context n m) k, k ≠ c.index → (cmd.run env args c).2.databases k
    = c.databases k
  /-- A command that is registered read-only changes nothing. -/
  readOnly : cmd.readOnly = true → ∀ c : Context n m, (cmd.run env args c).2.databases = c.databases
  /-- The locked shards contain those of the declared keys, and the handler stays within them. -/
  shards : ∃ shards, lockShards env.route cmd args = .ok shards ∧
    (∀ key, Locks cmd args key → env.route key ∈ shards) ∧ Confined shards (cmd.run env args)

/-- Entries that look the same stand for the same. -/
theorem eq_of_sameLookup {env : Env m} {dbs dbs' : Fin n → DB m} {A B : Fin n → ADB}
    (hA : Databases.Repr env dbs A) (hB : Databases.Repr env dbs' B) {d : Fin n} {key : Bytes} :
    Option.Rel Entry.SameLookup ((dbs d).entry env.route key) ((dbs' d).entry env.route key) ↔
      A d key = B d key := by
  have hrel := (hA d).lookup_entries key
  have hrel' := (hB d).lookup_entries key
  unfold DB.entry
  generalize (dbs d (env.route key)).entries.lookup key = o at hrel
  generalize (dbs' d (env.route key)).entries.lookup key = o' at hrel'
  generalize A d key = x at hrel
  generalize B d key = y at hrel'
  cases hrel with
  | none =>
    cases hrel' with
    | none => exact iff_of_true .none rfl
    | some he' => exact iff_of_false nofun nofun
  | @some e ae he =>
    cases hrel' with
    | none => exact iff_of_false nofun nofun
    | @some e' ae' he' =>
      constructor
      · intro h
        cases h with
        | some h =>
          have hv := (Value.obsEq_iff he.1 he'.1).mp h.1
          have ht := he.2.2.symm.trans (h.2.trans he'.2.2)
          rw [AEntry.ext hv ht]
      · intro h
        cases h
        exact .some ⟨(Value.obsEq_iff he.1 he'.1).mpr rfl, he.2.2.trans he'.2.2.symm⟩

section Data

variable {env : Env m} {cmd : Command n m} {args : List Bytes}

/-- Two runs of a command on data. -/
theorem data_same (hcmd : cmd ∈ registry) (hdata : cmd.onData = true)
    (hacc : cmd.accepts args.length = true) (c : Context n m) (dbs : Fin n → DB m)
    (h : ∀ key, Locks cmd args key → (c.databases c.index).entry env.route key
      = (dbs c.index).entry env.route key) :
    (cmd.run env args c).1 = (cmd.run env args { c with databases := dbs }).1 ∧
      ∀ key, Locks cmd args key → ((cmd.run env args c).2.databases c.index).entry env.route key
        = ((cmd.run env args { c with databases := dbs }).2.databases c.index).entry env.route
          key := by
  have hwithin := run_within hcmd hdata env hacc
  obtain ⟨hout, hagree⟩ := hwithin.same c { c with databases := dbs } ⟨rfl, rfl, h⟩
  refine ⟨hout, fun key hk => ?_⟩
  have hentry := hagree.entries key hk
  rw [Context.db, Context.db, (hwithin.frame c).index, (hwithin.frame _).index] at hentry
  exact hentry

/-- The outcome of a command on data depends on the live entries of the declared keys. -/
theorem data_outcome (hcmd : cmd ∈ registry) (hdata : cmd.onData = true)
    (hacc : cmd.accepts args.length = true) (c : Context n m) (dbs : Fin n → DB m) (ord : MapOrder)
    (rng : Rng) {A B : Fin n → ADB} (hA : Databases.Repr env c.databases A)
    (hB : Databases.Repr env dbs B)
    (h : ∀ key, Locks cmd args key →
      liveAt env.now (A c.index key) = liveAt env.now (B c.index key)) :
    SameOutcome cmd (cmd.run env args c).1
      (cmd.run { env with ord } args { c with databases := dbs, rng }).1 := by
  have hs : c.Shows env (A c.index) := hA c.index
  have hs' : Context.Shows { env with ord } { c with databases := dbs, rng } (B c.index) :=
    hB c.index
  have hcrash : cmd.Crashes env.now args (A c.index) ↔ cmd.Crashes env.now args (B c.index) :=
    crashes_congr hcmd hacc h
  have hok := run_completes_iff hcmd hacc hs
  have hok' := run_completes_iff hcmd hacc hs'
  by_cases hno : cmd.Crashes env.now args (A c.index)
  · -- both panic
    have hpanic {x : Result Reply} {p : Prop} (hiff : (∃ r, x = .ok r) ↔ ¬ p) (hp : p) :
        ∃ e, x = .error e := by
      cases x with
      | error e => exact ⟨e, rfl⟩
      | ok r => exact absurd hp (hiff.mp ⟨r, rfl⟩)
    obtain ⟨e, he⟩ := hpanic hok hno
    obtain ⟨e', he'⟩ := hpanic hok' (hcrash.mp hno)
    rw [he, he']
    trivial
  -- both answer as the specification says, which reads the same entries
  · obtain ⟨r, hr, hshow⟩ := run_answers hcmd hdata hacc hs hno
    obtain ⟨r', hr', hshow'⟩ := run_answers hcmd hdata hacc hs' fun hc => hno (hcrash.mpr hc)
    rw [hr, hr']
    have hsame : cmd.answer env.now env.limits env.host args (A c.index)
        = cmd.answer env.now env.limits env.host args (B c.index) :=
      answer_congr hcmd hdata hacc h
    rw [hsame] at hshow
    exact sameOutcome_of_shows (answer_order hcmd hdata hacc) hshow hshow'

/-- Two runs of a command on data that look the same. -/
theorem data_similar (hcmd : cmd ∈ registry) (hdata : cmd.onData = true)
    (hacc : cmd.accepts args.length = true) (c : Context n m) (dbs : Fin n → DB m) (ord : MapOrder)
    (rng : Rng) {A B : Fin n → ADB} (hA : Databases.Repr env c.databases A)
    (hB : Databases.Repr env dbs B)
    (h : ∀ key, Locks cmd args key → A c.index key = B c.index key) :
    SameOutcome cmd (cmd.run env args c).1
        (cmd.run { env with ord } args { c with databases := dbs, rng }).1 ∧
      ∀ key, Locks cmd args key → Option.Rel Entry.SameLookup
        (((cmd.run env args c).2.databases c.index).entry env.route key)
        (((cmd.run { env with ord } args
          { c with databases := dbs, rng }).2.databases c.index).entry env.route key) := by
  refine ⟨data_outcome hcmd hdata hacc c dbs ord rng hA hB fun key hk => by rw [h key hk],
    fun key hk => ?_⟩
  have hrun := run_refines hcmd hacc hA
  have hrun' : Databases.Repr { env with ord }
      (cmd.run { env with ord } args { c with databases := dbs, rng }).2.databases _ :=
    run_refines hcmd hacc hB
  refine (eq_of_sameLookup hrun hrun').mpr ?_
  simp only [Function.update_self, Command.effect, h key hk]

end Data

/-- **Declared keys cover what a handler touches.** For every request that `Resolve` accepts, the
command and the locks `execute` takes for it keep to the declared keys. -/
theorem run_covered (env : Env m) {cmd : Command n m} {args : List Bytes}
    (hres : resolve args = .ok cmd) : Covered env cmd args := by
  obtain ⟨hcmd, hacc, -⟩ := resolve_ok hres
  have hlooks (hread : cmd.readOnly = true) := run_looks env hcmd hread hacc
  obtain ⟨shards, hlock, hconfined, -⟩ := run_confined env hcmd hacc
  have hshards : ∃ shards, lockShards env.route cmd args = .ok shards ∧
      (∀ key, Locks cmd args key → env.route key ∈ shards) ∧ Confined shards (cmd.run env args) :=
    ⟨shards, hlock, locks_mem hcmd hacc hlock, hconfined⟩
  cases hdata : cmd.onData with
  | true =>
    -- a command on keys: its keys are declared, and the rest is its footprint
    refine ⟨data_same hcmd hdata hacc, ?_, ?_, ?_, fun hread c => (hlooks hread c).databases,
      hshards⟩
    · rintro c dbs ord rng ⟨A, hA⟩ ⟨B, hB⟩ h
      exact data_similar hcmd hdata hacc c dbs ord rng hA hB fun key hk =>
        (eq_of_sameLookup hA hB).mp (h key hk)
    · intro c key hk i
      have hframe := (run_within hcmd hdata env hacc).frame c
      have hsel := hframe.selected i key hk
      rwa [Context.db, Context.db, hframe.index] at hsel
    · exact fun c => ((run_within hcmd hdata env hacc).frame c).others
  | false =>
    -- a command without a key neither reads nor writes an entry
    have hplain := plain_same hcmd hdata hacc env
    refine ⟨?_, ?_, ?_, ?_, fun hread c => (hlooks hread c).databases, hshards⟩
    · intro c dbs _
      obtain ⟨hout, -, hnone⟩ := hplain env.ord c dbs c.rng
      exact ⟨hout, fun key hk => absurd hk (hnone key)⟩
    · intro c dbs ord rng _ _ _
      obtain ⟨hout, -, hnone⟩ := hplain ord c dbs rng
      rw [← hout]
      exact ⟨SameOutcome.refl cmd _, fun key hk => absurd hk (hnone key)⟩
    · intro c key _ i
      rw [(hplain env.ord c c.databases c.rng).2.1]
    · intro c k _
      rw [(hplain env.ord c c.databases c.rng).2.1]

/-- The intersection of two sets. -/
theorem run_covered_sinter : ∃ cmd : Command 1 1,
    resolve (["SINTER", "a", "b"].map ascii) = .ok cmd ∧
      Covered (Env.single 0) cmd (["SINTER", "a", "b"].map ascii) :=
  ⟨_, rfl, run_covered (Env.single 0) rfl⟩

end Memcore
