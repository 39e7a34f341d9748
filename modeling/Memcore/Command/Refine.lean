import Memcore.Command.Answer
import Memcore.Command.Footprint

/-!
# The handlers that write do what their commands are for

A handler, run on shards that stand for a database, gives a reply its command may give and leaves shards
that stand for the database after the command's operation (`Does`). The loops over the arguments come
first, one lemma for each; then the ways a handler stores its result; then the handlers.
-/

namespace Memcore

open Go Prog Cmd

/-! ## The loops

Each by induction on the arguments, the value in hand standing for what the arguments so far make. -/

section Loops

/-- The loop of LPUSH and RPUSH. -/
theorem pushAll_repr (front : Bool) : ∀ (vs : List Bytes) {l : ListVal} {xs : List Bytes},
    l.Repr xs → ∃ l', pushAll front vs l = .ok l' ∧ l'.Repr (pushed front vs xs)
  | [], l, _, h => ⟨l, rfl, h⟩
  | v :: vs, l, xs, h => by
      cases front with
      | true =>
        obtain ⟨l₁, he, hr⟩ := ListVal.pushFront_repr h v
        obtain ⟨l', he', hr'⟩ := pushAll_repr true vs hr
        exact ⟨l', by rw [pushAll, if_pos rfl, he]; exact he', hr'⟩
      | false =>
        obtain ⟨l₁, he, hr⟩ := ListVal.pushBack_repr h v
        obtain ⟨l', he', hr'⟩ := pushAll_repr false vs hr
        exact ⟨l', by rw [pushAll, if_neg Bool.false_ne_true, he]; exact he', hr'⟩

/-- A pop returns the end it is asked for, and leaves the rest. -/
theorem popOne_repr (front : Bool) {l : ListVal} {xs : List Bytes} (h : l.Repr xs) :
    ∃ l', popOne front l = .ok (popEnd front xs, l') ∧ l'.Repr (popped front 1 xs) := by
  cases front with
  | true =>
    obtain ⟨l', he, hr⟩ := ListVal.popFront_spec h
    rw [← List.drop_one] at hr
    exact ⟨l', he, hr⟩
  | false =>
    obtain ⟨l', he, hr⟩ := ListVal.popBack_spec h
    rw [List.dropLast_eq_take] at hr
    exact ⟨l', he, hr⟩

theorem popEnd_eq_none (front : Bool) {xs : List Bytes} (h : popEnd front xs = none) : xs = [] := by
  cases front with
  | true => exact List.head?_eq_none_iff.mp h
  | false => exact List.getLast?_eq_none_iff.mp h

theorem popped_nil (front : Bool) (count : Nat) : popped front count [] = [] := by
  cases front <;> simp [popped]

/-- To pop once and then `count` times is to pop once more. -/
theorem popped_succ (front : Bool) (count : Nat) (xs : List Bytes) :
    popped front count (popped front 1 xs) = popped front (count + 1) xs := by
  cases front with
  | true => simp [popped]
  | false =>
    simp only [popped, Bool.false_eq_true, if_false, List.take_take, List.length_take]
    congr 1
    omega

/-- The first pop, and then the others. -/
theorem popsOf_succ (front : Bool) (count : Nat) {v : Bytes} {xs : List Bytes}
    (h : popEnd front xs = some v) :
    popsOf front (count + 1) xs = v :: popsOf front count (popped front 1 xs) := by
  cases front with
  | true =>
    obtain ⟨ys, rfl⟩ : ∃ ys, xs = v :: ys := List.head?_eq_some_iff.mp h
    simp [popsOf, popped]
  | false =>
    obtain ⟨ys, rfl⟩ : ∃ ys, xs = ys ++ [v] := List.getLast?_eq_some_iff.mp h
    simp [popsOf, popped]

/-- The loop of a pop with a count, which ends early when the list is empty. -/
theorem popMany_repr (front : Bool) : ∀ (count : Nat) {l : ListVal} {xs : List Bytes}, l.Repr xs →
    ∃ l', popMany front count l = .ok (popsOf front count xs, l') ∧
      l'.Repr (popped front count xs)
  | 0, l, xs, h => by
      refine ⟨l, ?_, ?_⟩
      · cases front <;> simp [popMany, popsOf]
      · cases front <;> simpa [popped] using h
  | count + 1, l, xs, h => by
      obtain ⟨l₁, he, hr⟩ := popOne_repr front h
      rw [popMany, he]
      cases hv : popEnd front xs with
      | none =>
        obtain rfl := popEnd_eq_none front hv
        rw [popped_nil] at hr ⊢
        refine ⟨l₁, ?_, hr⟩
        cases front <;> simp [popsOf, bind, Except.bind]
      | some v =>
        obtain ⟨l', he', hr'⟩ := popMany_repr front count hr
        rw [popped_succ] at hr'
        rw [popsOf_succ front count hv]
        refine ⟨l', ?_, hr'⟩
        simp only [bind, Except.bind]
        rw [he']

/-- The loop of HSET, over fields and values in turn; it counts the fields that are new. -/
theorem hsetAll_repr : ∀ (pairs : List Bytes) {h : HashVal} {m : GoMap Bytes} (added : Int),
    h.Repr m → ∃ h', hsetAll pairs h added = .ok (fieldsAdded pairs m added, h') ∧
      h'.Repr (fieldsSet pairs m)
  | [], h, _, added, hr => ⟨h, rfl, hr⟩
  | [_], h, _, added, hr => ⟨h, rfl, hr⟩
  | f :: v :: rest, h, m, added, hr => by
      obtain ⟨h₁, he, hr₁⟩ := HashVal.set_repr hr f v
      obtain ⟨h', he', hr'⟩ := hsetAll_repr rest
        (if (!(m.lookup f).isSome) = true then added + 1 else added) hr₁
      refine ⟨h', ?_, hr'⟩
      rw [hsetAll, he]
      exact he'

/-- The loop of HDEL. -/
theorem hdelAll_repr : ∀ (fields : List Bytes) {h : HashVal} {m : GoMap Bytes} (removed : Int),
    h.Repr m → ∃ h', hdelAll fields h removed = .ok (fieldsRemoved fields m removed, h') ∧
      h'.Repr (fields.foldl (fun m f => m.erase f) m)
  | [], h, _, removed, hr => ⟨h, rfl, hr⟩
  | f :: rest, h, m, removed, hr => by
      obtain ⟨h₁, he, hr₁⟩ := HashVal.delete_repr hr f
      obtain ⟨h', he', hr'⟩ := hdelAll_repr rest
        (if (m.lookup f).isSome = true then removed + 1 else removed) hr₁
      refine ⟨h', ?_, hr'⟩
      rw [hdelAll, he]
      exact he'

/-- The loop of SADD. -/
theorem saddAll_repr : ∀ (xs : List Bytes) {s : SetVal} {m : Finset Bytes} (added : Int),
    s.Repr m → ∃ s', saddAll xs s added = .ok (membersAdded xs m added, s') ∧
      s'.Repr (xs.foldl (fun m x => insert x m) m)
  | [], s, _, added, hr => ⟨s, rfl, hr⟩
  | x :: rest, s, m, added, hr => by
      obtain ⟨s₁, he, hr₁⟩ := SetVal.add_repr hr x
      obtain ⟨s', he', hr'⟩ := saddAll_repr rest
        (if decide (x ∉ m) = true then added + 1 else added) hr₁
      refine ⟨s', ?_, hr'⟩
      rw [saddAll, he]
      exact he'

/-- The loop of SREM. -/
theorem sremAll_repr : ∀ (xs : List Bytes) {s : SetVal} {m : Finset Bytes} (removed : Int),
    s.Repr m → ∃ s', sremAll xs s removed = .ok (membersRemoved xs m removed, s') ∧
      s'.Repr (xs.foldl (fun m x => m.erase x) m)
  | [], s, _, removed, hr => ⟨s, rfl, hr⟩
  | x :: rest, s, m, removed, hr => by
      obtain ⟨s₁, he, hr₁⟩ := SetVal.remove_repr hr x
      obtain ⟨s', he', hr'⟩ := sremAll_repr rest
        (if decide (x ∈ m) = true then removed + 1 else removed) hr₁
      refine ⟨s', ?_, hr'⟩
      rw [sremAll, he]
      exact he'

/-- The loop of ZADD: the levels it draws decide the shape of the list, and nothing it stands for.
-/
theorem zaddAll_repr : ∀ (pairs : List ZMember) {z : ZSetVal} {es : List ZMember} (rng : Rng)
    (added : Int), z.Repr es → (∀ e ∈ pairs, e.score.isNaN = false) →
    ∃ z' rng', zaddAll pairs z rng added = .ok (scoresAdded z.max pairs es added, z', rng') ∧
      z'.Repr (pairs.foldl (fun es e => zput z.max e es) es) ∧ z'.max = z.max
  | [], z, _, rng, added, hr, _ => ⟨z, rng, rfl, hr, rfl⟩
  | e :: rest, z, es, rng, added, hr, hnum => by
      obtain ⟨he, hrest⟩ := List.forall_mem_cons.mp hnum
      obtain ⟨z₁, rng₁, hadd, hr₁, hmax₁⟩ := ZSetVal.add_repr hr he rng
      obtain ⟨z', rng', he', hr', hmax'⟩ := zaddAll_repr rest rng₁
        (if (zscore e.member es).isNone = true then added + 1 else added) hr₁ hrest
      rw [hmax₁] at hr' hmax' he'
      refine ⟨z', rng', ?_, hr', hmax'⟩
      rw [zaddAll, hadd]
      exact he'

/-- Every score the command takes is a number. -/
theorem parsePairs_number {host : Host} : ∀ (rest : List Bytes) {acc pairs : List ZMember},
    parsePairs host rest acc = some pairs → (∀ e ∈ acc, e.score.isNaN = false) →
    ∀ e ∈ pairs, e.score.isNaN = false
  | [], _, _, h, hacc => by
      cases h
      exact hacc
  | [_], _, _, h, hacc => by
      cases h
      exact hacc
  | score :: member :: rest, acc, pairs, h, hacc => by
      rw [parsePairs] at h
      split at h
      next => cases h
      next s _ =>
        split at h
        next => cases h
        next hnan =>
          refine parsePairs_number rest h fun e he => ?_
          rcases List.mem_append.mp he with hmem | hmem
          · exact hacc e hmem
          · rw [List.mem_singleton.mp hmem]
            exact Bool.eq_false_iff.mpr hnan

end Loops

/-! ## Shards that stand for a database

A key is looked for in its own shard only, so a key in another shard would be lost; `DB.Repr` rules
that out. -/

section Shards

variable {m : Nat}

/-- The entries whose keys belong to shard `i`. -/
def shardPart (route : Bytes → Fin m) (a : ADB) (i : Fin m) : ADB :=
  fun key => if route key = i then a key else none

/-- The shards hold exactly the entries of `a`, each where its key is routed. -/
def DB.Repr (route : Bytes → Fin m) (lim : Limits) (db : DB m) (a : ADB) : Prop :=
  ∀ i, (db i).Repr lim (shardPart route a i)

variable {route : Bytes → Fin m} {lim : Limits} {db : DB m} {a : ADB}

theorem shardPart_update_self (key : Bytes) (o : Option AEntry) :
    shardPart route (Function.update a key o) (route key)
      = Function.update (shardPart route a (route key)) key o := by
  funext key'
  by_cases hk : key' = key
  · subst hk
    simp [shardPart]
  · simp [shardPart, Function.update_of_ne hk]

theorem shardPart_update_ne {i : Fin m} (key : Bytes) (o : Option AEntry) (h : i ≠ route key) :
    shardPart route (Function.update a key o) i = shardPart route a i := by
  funext key'
  by_cases hk : key' = key
  · subst hk
    simp [shardPart, Ne.symm h]
  · simp [shardPart, Function.update_of_ne hk]

/-- A change of one entry in the shard of its key. -/
theorem DB.Repr.update (h : DB.Repr route lim db a) {key : Bytes} {o : Option AEntry} {ks : Keyspace}
    (hks : ks.Repr lim (Function.update (shardPart route a (route key)) key o)) :
    DB.Repr route lim (Function.update db (route key) ks) (Function.update a key o) := by
  intro i
  by_cases hi : i = route key
  · subst hi
    rw [Function.update_self, shardPart_update_self]
    exact hks
  · rw [Function.update_of_ne hi, shardPart_update_ne key o hi]
    exact h i

/-- A lookup in the shard of a key finds what is live under it. -/
theorem DB.Repr.peek (h : DB.Repr route lim db a) (now : Time) (key : Bytes) :
    Option.Rel (Entry.Repr lim) ((db (route key)).peek now key) (liveAt now (a key)) := by
  have hk := (h (route key)).peek now key
  rwa [shardPart, if_pos rfl] at hk

theorem isSome_eq_of_rel {α β : Type} {r : α → β → Prop} {x : Option α} {y : Option β}
    (h : Option.Rel r x y) : x.isSome = y.isSome := by
  cases h <;> rfl

theorem DB.Repr.lookup_entries (h : DB.Repr route lim db a) (key : Bytes) :
    Option.Rel (Entry.Repr lim) ((db (route key)).entries.lookup key) (a key) := by
  have hk := h (route key) key
  rwa [shardPart, if_pos rfl] at hk

end Shards

/-! ## How a handler stores its result

By `Set`, which takes the deadline away, by `SetEntry` and `Mutate`, which keep it, or by deleting the
key. -/

section Storing

variable {n m : Nat} {env : Env m} {c : Context n m} {a : ADB} {key : Bytes}

/-- The selected database stands for `a`. -/
def Context.Shows (env : Env m) (c : Context n m) (a : ADB) : Prop :=
  DB.Repr env.route env.limits c.db a

/-- The handler ends without a panic, with a reply the command may give. -/
def Answers (p : Cmd n m Reply) (c : Context n m) (spec : AReply) : Prop :=
  ∃ r, (p c).1 = .ok r ∧ spec.Shows r

/-- And it leaves the selected database standing for `a`. -/
structure Does (env : Env m) (p : Cmd n m Reply) (c : Context n m) (spec : AReply) (a : ADB) :
    Prop where
  answers : Answers p c spec
  shows : (p c).2.Shows env a

theorem Answers.pure (r : Reply) (c : Context n m) :
    Answers (Pure.pure r : Cmd n m Reply) c (.exact r) :=
  ⟨r, rfl, rfl⟩

theorem Answers.bind_ok {α : Type} {p : Cmd n m α} {f : α → Cmd n m Reply} {x : α} {d : Context n m}
    {spec : AReply} (hp : p c = (.ok x, d)) (h : Answers (f x) d spec) :
    Answers (p >>= f) c spec := by
  unfold Answers
  rw [bind_apply_ok hp]
  exact h

theorem Does.bind_ok {α : Type} {p : Cmd n m α} {f : α → Cmd n m Reply} {x : α} {d : Context n m}
    {spec : AReply} (hp : p c = (.ok x, d)) (h : Does env (f x) d spec a) :
    Does env (p >>= f) c spec a :=
  ⟨h.answers.bind_ok hp, by rw [bind_apply_ok hp]; exact h.shows⟩

theorem Does.of_eq {p q : Cmd n m Reply} {spec : AReply} (heq : p c = q c) (h : Does env q c spec a) :
    Does env p c spec a :=
  ⟨by unfold Answers; rw [heq]; exact h.answers, heq ▸ h.shows⟩

/-- A reply, and no more. -/
theorem Does.reply (h : c.Shows env a) (r : Reply) :
    Does env (Pure.pure r : Cmd n m Reply) c (.exact r) a :=
  ⟨Answers.pure r c, h⟩

theorem Context.Shows.unchanged (h : c.Shows env a) (key : Bytes) :
    c.Shows env (Function.update a key (a key)) := by
  rw [Function.update_eq_self]
  exact h

/-- A method that changes one entry of its key's shard changes that entry of the database. -/
theorem onShard_shows (h : c.Shows env a) {α : Type} {f : Keyspace → α × Keyspace}
    {o : Option AEntry} (hf : (f (c.db (env.route key))).2.Repr env.limits
      (Function.update (shardPart env.route a (env.route key)) key o)) :
    ((onShard (env.route key) f : Cmd n m α) c).2.Shows env (Function.update a key o) := by
  unfold Context.Shows onShard
  rw [Context.setDB_db]
  exact DB.Repr.update h hf

theorem set_shows (h : c.Shows env a) {v : Value} {av : AVal} (hv : v.Repr av)
    (hb : v.Bounded env.limits) :
    ((set env key v : Cmd n m Unit) c).2.Shows env
      (Function.update a key (some ⟨av, zeroTime⟩)) :=
  onShard_shows h ((h _).set key hv hb)

theorem setEntry_shows (h : c.Shows env a) {e : Entry} {ae : AEntry} (he : e.Repr env.limits ae) :
    ((setEntry env key e : Cmd n m Unit) c).2.Shows env (Function.update a key (some ae)) :=
  onShard_shows h ((h _).setEntry key he)

theorem peek_eq_some {ks : Keyspace} {now : Time} {e : Entry} (h : ks.peek now key = some e) :
    ks.entries.lookup key = some e ∧ e.expired now = false := by
  unfold Keyspace.peek at h
  split at h
  next => cases h
  next e' hl =>
    split at h
    next => cases h
    next hx =>
      cases h
      exact ⟨hl, Bool.eq_false_iff.mpr hx⟩

/-- A new value under a live key, with the deadline the key has. -/
theorem mutate_shows (h : c.Shows env a) {e : Entry} {ae : AEntry}
    (hpeek : (c.db (env.route key)).peek env.now key = some e) (he : e.Repr env.limits ae)
    {v : Value} {av : AVal} (hv : v.Repr av) (hb : v.Bounded env.limits) :
    ((mutate env key v : Cmd n m Unit) c).2.Shows env
      (Function.update a key (some ⟨av, ae.expireAt⟩)) := by
  refine onShard_shows h ?_
  have hnew : Entry.Repr env.limits { e with value := v } ⟨av, ae.expireAt⟩ := ⟨hv, hb, he.2.2⟩
  simp only [Keyspace.mutate, (peek_eq_some hpeek).1]
  exact (h _).insert key hnew _

theorem delete_shows (key : Bytes) (h : c.Shows env a) :
    ((delete env key : Cmd n m Bool) c).2.Shows env (Function.update a key none) :=
  onShard_shows h ((h _).delete env.now key)

/-- UNLINK does to the databases what DEL does. -/
theorem unlink_eq_delete (env : Env m) (key : Bytes) :
    (unlink env key : Cmd n m Bool) = delete env key := by
  unfold unlink delete
  simp only [Keyspace.take_eq_delete]

/-- What is left of a collection is stored, or the key is deleted if nothing is. -/
theorem storeShrunk_does (h : c.Shows env a) {e : Entry} {ae : AEntry}
    (hpeek : (c.db (env.route key)).peek env.now key = some e) (he : e.Repr env.limits ae)
    {v : Value} (av : AVal) (hv : v.Repr av) (hb : v.Bounded env.limits) {len : Nat}
    (hlen : len = av.size) (r : Reply) :
    Does env (storeShrunk env key v len >>= fun _ => pure r : Cmd n m Reply) c (.exact r)
      (Function.update a key (av.nonEmpty.map fun v => ⟨v, ae.expireAt⟩)) := by
  have hm := mutate_shows h hpeek he hv hb
  unfold storeShrunk AVal.nonEmpty
  rw [← hlen]
  by_cases h0 : len = 0
  · simp only [if_pos h0, Option.map_none]
    have hd := delete_shows key hm
    rw [Function.update_idem] at hd
    exact ⟨⟨r, rfl, rfl⟩, hd⟩
  · simp only [if_neg h0, Option.map_some]
    exact ⟨⟨r, rfl, rfl⟩, hm⟩

end Storing

/-! ## Handlers that begin by looking their key up -/

section Lookup

variable {n m : Nat} {α : Type} {env : Env m} {c : Context n m} {a : ADB} {key : Bytes}

/-- What a lookup finds, and what it stands for. -/
theorem lookup_cases (h : c.Shows env a) (key : Bytes) :
    (lookup env key c = (.ok none, c) ∧ liveAt env.now (a key) = none) ∨
      ∃ e ae, lookup env key c = (.ok (some e), c) ∧ liveAt env.now (a key) = some ae ∧
        e.Repr env.limits ae ∧ (c.db (env.route key)).peek env.now key = some e := by
  have hrel := DB.Repr.peek h env.now key
  have hlook : lookup env key c = (.ok ((c.db (env.route key)).peek env.now key), c) := rfl
  rw [hlook]
  generalize (c.db (env.route key)).peek env.now key = p at hrel
  generalize liveAt env.now (a key) = l at hrel
  cases hrel with
  | none => exact .inl ⟨rfl, rfl⟩
  | some hr => exact .inr ⟨_, _, rfl, rfl, hr, rfl⟩

/-! The projections of the specification test the kind, as `withKind` does. -/

theorem AVal.str?_isSome (v : AVal) : v.str?.isSome = decide (v.kind = .string) := by
  cases v <;> rfl

theorem AVal.list?_isSome (v : AVal) : v.list?.isSome = decide (v.kind = .list) := by
  cases v <;> rfl

theorem AVal.hash?_isSome (v : AVal) : v.hash?.isSome = decide (v.kind = .hash) := by
  cases v <;> rfl

theorem AVal.set?_isSome (v : AVal) : v.set?.isSome = decide (v.kind = .set) := by
  cases v <;> rfl

theorem AVal.zset?_isSome (v : AVal) : v.zset?.isSome = decide (v.kind = .zset) := by
  cases v <;> rfl

/-- A value is of the kind that is asked for, or it is not. -/
theorem project_cases {k : Kind} {project : AVal → Option α}
    (hproject : ∀ v, (project v).isSome = decide (v.kind = k)) (v : AVal) :
    (project v = none ∧ v.kind ≠ k) ∨ ∃ x, project v = some x ∧ v.kind = k := by
  have hk := hproject v
  cases hp : project v with
  | none => exact .inl ⟨rfl, by simpa [hp] using hk⟩
  | some x => exact .inr ⟨x, rfl, by simpa [hp] using hk⟩

/-- The three ways `withKind` can go. -/
theorem withKind_cases (h : c.Shows env a) {k : Kind} {project : AVal → Option α}
    (hproject : ∀ v, (project v).isSome = decide (v.kind = k)) (absent : Cmd n m Reply)
    (present : Entry → Cmd n m Reply) :
    (liveAt env.now (a key) = none ∧ withKind env key k absent present c = absent c) ∨
      ∃ e ae, (c.db (env.route key)).peek env.now key = some e ∧
        liveAt env.now (a key) = some ae ∧ e.Repr env.limits ae ∧
        ((project ae.value = none ∧ ae.value.kind ≠ k ∧
            withKind env key k absent present c = (pure (.error msgWrongType) : Cmd n m Reply) c) ∨
          ∃ x, project ae.value = some x ∧ ae.value.kind = k ∧
            withKind env key k absent present c = present e c) := by
  unfold withKind
  rcases lookup_cases h key with ⟨hlook, hlive⟩ | ⟨e, ae, hlook, hlive, he, hpeek⟩
  · exact .inl ⟨hlive, by rw [bind_apply_ok hlook]⟩
  · refine .inr ⟨e, ae, hpeek, hlive, he, ?_⟩
    rw [bind_apply_ok hlook]
    simp only [he.1.kind_eq]
    rcases project_cases hproject ae.value with ⟨hp, hne⟩ | ⟨x, hp, heq⟩
    · exact .inl ⟨hp, hne, by rw [if_pos hne]⟩
    · exact .inr ⟨x, hp, heq, by rw [if_neg (not_not.mpr heq)]⟩

/-- `withKind` answers by what is live under the key. -/
theorem withKind_answers (h : c.Shows env a) {k : Kind} {project : AVal → Option α}
    (hproject : ∀ v, (project v).isSome = decide (v.kind = k)) {absent : Cmd n m Reply}
    {present : Entry → Cmd n m Reply} {forAbsent : AReply} {forPresent : α → AReply}
    (habsent : Answers absent c forAbsent)
    (hpresent : ∀ (e : Entry) (ae : AEntry) x, e.Repr env.limits ae → project ae.value = some x →
      Answers (present e) c (forPresent x)) :
    Answers (withKind env key k absent present) c
      (AReply.onKind project forAbsent forPresent (liveAt env.now (a key))) := by
  unfold Answers
  rcases withKind_cases h hproject absent present with ⟨hlive, hrun⟩ |
    ⟨e, ae, -, hlive, he, ⟨hp, -, hrun⟩ | ⟨x, hp, -, hrun⟩⟩
  · rw [hlive, hrun]
    exact habsent
  · rw [hlive, hrun, AReply.onKind, hp]
    exact Answers.pure _ c
  · rw [hlive, hrun, AReply.onKind, hp]
    exact hpresent e ae x he hp

/-- The database after the operation `op`, or as it is when there is none. -/
def afterOp (env : Env m) (op : Option KeyOp) (key : Bytes) (a : ADB) : ADB :=
  match op with
  | none => a
  | some op => Function.update a key (op.apply env.now env.limits (a key))

/-- A handler that works on values of one kind: what it has to do for `op`. -/
theorem withKind_does (h : c.Shows env a) {op : ValueOp} {k : Kind} (hkind : op.kind = k)
    {project : AVal → Option α} (hproject : ∀ v, (project v).isSome = decide (v.kind = k))
    {absent : Cmd n m Reply} {present : Entry → Cmd n m Reply} {forAbsent : AReply}
    {forPresent : α → AReply}
    (habsent : Does env absent c forAbsent (Function.update a key
      (((op.create env.limits).map fun v => ⟨v, zeroTime⟩) <|> a key)))
    (hpresent : ∀ e ae x, (c.db (env.route key)).peek env.now key = some e →
      a key = some ae → e.Repr env.limits ae → project ae.value = some x →
      Does env (present e) c (forPresent x) (Function.update a key
        ((op.update env.limits ae.value).map fun v => ⟨v, ae.expireAt⟩))) :
    Does env (withKind env key k absent present) c
      (AReply.onKind project forAbsent forPresent (liveAt env.now (a key)))
      (afterOp env (some (.modify op)) key a) := by
  rcases withKind_cases h hproject absent present with ⟨hlive, hrun⟩ |
    ⟨e, ae, hpeek, hlive, he, ⟨hp, hne, hrun⟩ | ⟨x, hp, -, hrun⟩⟩
  · rw [hlive, afterOp, apply_modify_absent op hlive]
    exact .of_eq hrun habsent
  · rw [hlive, AReply.onKind, hp, afterOp,
      apply_modify_same op hlive (ValueOp.update_of_kind_ne _ (hkind ▸ hne)), Function.update_eq_self]
    exact .of_eq hrun (.reply h _)
  · rw [hlive, AReply.onKind, hp, afterOp, apply_modify_live op hlive]
    exact .of_eq hrun (hpresent e ae x hpeek (liveAt_eq_some hlive).1 he hp)

end Lookup

/-! What a projection finds is all there is to the value. -/

theorem AVal.eq_of_str? {v : AVal} {b : Bytes} (h : v.str? = some b) : v = .str b := by
  cases v <;> cases h
  rfl

theorem AVal.eq_of_list? {v : AVal} {xs : List Bytes} (h : v.list? = some xs) : v = .list xs := by
  cases v <;> cases h
  rfl

theorem AVal.eq_of_hash? {v : AVal} {x : GoMap Bytes} (h : v.hash? = some x) : v = .hash x := by
  cases v <;> cases h
  rfl

theorem AVal.eq_of_set? {v : AVal} {x : Finset Bytes} (h : v.set? = some x) : v = .set x := by
  cases v <;> cases h
  rfl

theorem AVal.eq_of_zset? {v : AVal} {x : List ZMember} (h : v.zset? = some x) : v = .zset x := by
  cases v <;> cases h
  rfl

/-! So what an entry stands for tells what it holds. -/

section Projections

variable {lim : Limits} {e : Entry} {ae : AEntry}

theorem Entry.Repr.str? (h : e.Repr lim ae) {b : Bytes} (hx : ae.value.str? = some b) :
    e.value = .str b :=
  Value.repr_str (AVal.eq_of_str? hx ▸ h.1)

theorem Entry.Repr.list? (h : e.Repr lim ae) {xs : List Bytes} (hx : ae.value.list? = some xs) :
    ∃ l, e.value = .list l ∧ l.Repr xs :=
  Value.repr_list (AVal.eq_of_list? hx ▸ h.1)

theorem Entry.Repr.hash? (h : e.Repr lim ae) {x : GoMap Bytes} (hx : ae.value.hash? = some x) :
    ∃ l, e.value = .hash l ∧ l.Repr x :=
  Value.repr_hash (AVal.eq_of_hash? hx ▸ h.1)

theorem Entry.Repr.set? (h : e.Repr lim ae) {x : Finset Bytes} (hx : ae.value.set? = some x) :
    ∃ l, e.value = .set l ∧ l.Repr x :=
  Value.repr_set (AVal.eq_of_set? hx ▸ h.1)

/-- The thresholds of a sorted set are those of the server: its order depends on them. -/
theorem Entry.Repr.zset? (h : e.Repr lim ae) {x : List ZMember} (hx : ae.value.zset? = some x) :
    ∃ z, e.value = .zset z ∧ z.Repr x ∧ z.max = lim.zset := by
  obtain ⟨z, hz, hr⟩ := Value.repr_zset (AVal.eq_of_zset? hx ▸ h.1)
  have hb := h.2.1
  rw [hz] at hb
  exact ⟨z, hz, hr, hb⟩

end Projections

/-! ## The handlers that write -/

section Writes

variable {n m : Nat} {env : Env m} {c : Context n m} {a : ADB} {name key : Bytes}

/-- SET. -/
theorem cmdSet_does (h : c.Shows env a) (v : Bytes) (rest : List Bytes) :
    Does env (cmdSet env (name :: key :: v :: rest)) c (.exact .ok)
      (afterOp env (some (.put v)) key a) :=
  ⟨⟨_, rfl, rfl⟩, set_shows h rfl trivial⟩

/-- The end of an increment, on a key that holds no live entry or holds `cur`. -/
theorem incrStore_does (key : Bytes) (h : c.Shows env a) {e : Option Entry} {ae : Option AEntry}
    (he : Option.Rel (Entry.Repr env.limits) e ae) (cur delta : Int) :
    Does env (incrStore env key e cur delta) c (Answer.counted cur delta)
      (Function.update a key ((incremented cur delta).elim (a key) fun next =>
        some ⟨.str (formatInt next), (ae.elim zeroTime AEntry.expireAt)⟩)) := by
  unfold incrStore Answer.counted incremented
  split
  next =>
    rw [Option.elim_none, Function.update_eq_self]
    exact .reply h _
  next =>
    rw [Option.elim_some]
    cases he with
    | none => exact ⟨⟨_, rfl, rfl⟩, set_shows h rfl trivial⟩
    | some hr => exact ⟨⟨_, rfl, rfl⟩, setEntry_shows h ⟨rfl, trivial, hr.2.2⟩⟩

/-- INCR and DECR: a text that is no number, and a sum out of range, leave the key as it is. -/
theorem incrBy_does (h : c.Shows env a) (delta : Int) :
    Does env (incrBy env key delta) c (Answer.incr delta (liveAt env.now (a key)))
      (afterOp env (some (.modify (.incr delta))) key a) := by
  refine withKind_does h (by rfl) AVal.str?_isSome ?_ fun e ae b _ hae he hb => ?_
  · have hstore := incrStore_does key h Option.Rel.none 0 delta
    rw [ValueOp.create]
    cases hi : incremented 0 delta with
    | none => rwa [hi] at hstore
    | some next => rwa [hi] at hstore
  · obtain ⟨av, t⟩ := ae
    obtain rfl : av = .str b := AVal.eq_of_str? hb
    obtain rfl : e = ⟨.str b, t⟩ := by
      obtain ⟨v, u⟩ := e
      obtain ⟨hv, -, rfl⟩ := he
      rw [show v = .str b from Value.repr_str hv]
    rw [ValueOp.update]
    simp only [Value.getStr, lift_ok_bind]
    cases hp : parseInt b with
    | none =>
      simp only [Option.bind_none, Option.elim_none, Option.map_some, ← hae,
        Function.update_eq_self]
      exact .reply h _
    | some cur =>
      have hstore := incrStore_does key h (Option.Rel.some he) cur delta
      rw [Option.bind_some]
      cases hi : incremented cur delta with
      | none => rwa [hi, Option.elim_none, hae] at hstore
      | some next => rwa [hi] at hstore

theorem Entry.Repr.withDeadline {lim : Limits} {e : Entry} {ae : AEntry} (h : e.Repr lim ae)
    (t : Time) : Entry.Repr lim { e with expireAt := t } ⟨ae.value, t⟩ := ⟨h.1, h.2.1, rfl⟩

/-- A dead entry is left for the sweeper: `SetExpire` does not bring it back. -/
theorem setExpire_shows (key : Bytes) (h : c.Shows env a) (at' : Time) :
    ((setExpire env key at' : Cmd n m Bool) c).2.Shows env
      (afterOp env (some (.expireAt at')) key a) := by
  refine onShard_shows h ?_
  have hrel := DB.Repr.peek h env.now key
  unfold Keyspace.setExpire KeyOp.apply
  generalize hp : (c.db (env.route key)).peek env.now key = p at hrel
  generalize hl : liveAt env.now (a key) = l at hrel
  cases hrel with
  | none =>
    have hsame : a key = shardPart env.route a (env.route key) key := (if_pos rfl).symm
    rw [hsame, Function.update_eq_self]
    exact h _
  | some hr => exact (h _).insert key (hr.withDeadline at') _

/-- Was there a live entry to give a deadline to? -/
theorem setExpire_eq (h : c.Shows env a) (key : Bytes) (at' : Time) :
    ((setExpire env key at' : Cmd n m Bool) c).1 = .ok (liveAt env.now (a key)).isSome := by
  rw [← isSome_eq_of_rel (DB.Repr.peek h env.now key), ← Keyspace.setExpire_fst]
  rfl

/-- PERSIST rewrites an entry only when there is a deadline to take away. -/
theorem persist_shows (key : Bytes) (h : c.Shows env a) :
    ((persist env key : Cmd n m Bool) c).2.Shows env (afterOp env (some .persist) key a) := by
  refine onShard_shows h ?_
  have hrel := DB.Repr.peek h env.now key
  have hself : shardPart env.route a (env.route key) key = a key := if_pos rfl
  unfold Keyspace.persist KeyOp.apply
  generalize hp : (c.db (env.route key)).peek env.now key = p at hrel
  generalize hl : liveAt env.now (a key) = l at hrel
  cases hrel with
  | none =>
    rw [← hself, Function.update_eq_self]
    exact h _
  | @some e ae hr =>
    cases hx : e.hasExpiry with
    | true =>
      simp only [hx, Bool.not_true, Bool.false_eq_true, if_false]
      exact (h _).insert key (hr.withDeadline zeroTime) _
    | false =>
      have hzero : ae.expireAt = zeroTime := by
        rw [hr.hasExpiry_eq, AEntry.hasExpiry, Time.isZero] at hx
        simpa using hx
      have hsame : (some ⟨ae.value, zeroTime⟩ : Option AEntry)
          = shardPart env.route a (env.route key) key := by
        rw [hself, (liveAt_eq_some hl).1, ← hzero]
      simp only [hx, hsame, Function.update_eq_self]
      exact h _

/-- EXPIRE and PEXPIREAT, once the deadline is known. -/
theorem expireAt_does (h : c.Shows env a) (at' : Time) :
    Does env (expireAt env key at') c
      (.exact (.int (if (liveAt env.now (a key)).isSome then 1 else 0)))
      (afterOp env (some (.expireAt at')) key a) := by
  have hs := setExpire_shows key h at'
  refine Does.bind_ok (Prod.ext (setExpire_eq h key at') rfl) ?_
  cases (liveAt env.now (a key)).isSome <;> exact .reply hs _

/-- EXPIRE is PEXPIREAT from now on. -/
theorem apply_expireIn (now : Time) (lim : Limits) (d : Int64) (o : Option AEntry) :
    (KeyOp.expireIn d).apply now lim o = (KeyOp.expireAt (Time.add now d)).apply now lim o := by
  unfold KeyOp.apply
  cases liveAt now o <;> rfl

theorem cmdExpire_does (h : c.Shows env a) (arg2 : Bytes) (rest : List Bytes) :
    Does env (cmdExpire env (name :: key :: arg2 :: rest)) c
      (Answer.expire (arg2 :: rest) (liveAt env.now (a key)))
      (afterOp env ((parseInt arg2).map fun secs => .expireIn (seconds secs)) key a) := by
  unfold cmdExpire Answer.expire
  rw [arg_two_bind, List.head?_cons, Option.bind_some]
  cases parseInt arg2 with
  | none => exact .reply h _
  | some secs =>
    simp only [arg_one_bind, Option.map_some, afterOp, apply_expireIn]
    exact expireAt_does h _

theorem cmdPExpireAt_does (h : c.Shows env a) (arg2 : Bytes) (rest : List Bytes) :
    Does env (cmdPExpireAt env (name :: key :: arg2 :: rest)) c
      (Answer.expire (arg2 :: rest) (liveAt env.now (a key)))
      (afterOp env ((parseInt arg2).map fun ms => .expireAt (unixMilli ms)) key a) := by
  unfold cmdPExpireAt Answer.expire
  rw [arg_two_bind, List.head?_cons, Option.bind_some]
  cases parseInt arg2 with
  | none => exact .reply h _
  | some ms => exact expireAt_does h _

/-- PERSIST: was there a deadline to take away? -/
theorem cmdPersist_does (h : c.Shows env a) (rest : List Bytes) :
    Does env (cmdPersist env (name :: key :: rest)) c
      (.exact (.int (if (liveAt env.now (a key)).any AEntry.hasExpiry then 1 else 0)))
      (afterOp env (some .persist) key a) := by
  unfold cmdPersist
  rw [arg_one_bind]
  have hs := persist_shows key h
  -- `persist` looks at the entry it finds, which has the deadline of the one it stands for
  have hpersist : ((persist env key : Cmd n m Bool) c).1
      = .ok ((liveAt env.now (a key)).any AEntry.hasExpiry) := by
    have hrel := DB.Repr.peek h env.now key
    have hany : (liveAt env.now (a key)).any AEntry.hasExpiry
        = ((c.db (env.route key)).peek env.now key).any Entry.hasExpiry := by
      generalize (c.db (env.route key)).peek env.now key = p at hrel
      generalize liveAt env.now (a key) = l at hrel
      cases hrel with
      | none => rfl
      | some he => simp [he.hasExpiry_eq]
    rw [hany, ← Keyspace.persist_fst]
    rfl
  refine Does.bind_ok (Prod.ext hpersist rfl) ?_
  cases (liveAt env.now (a key)).any AEntry.hasExpiry <;> exact .reply hs _

/-! ### Collections -/

/-- LPUSH and RPUSH, on a new list or the one that is there: the length after the push. -/
theorem listPush_does (h : c.Shows env a) (front : Bool) (rest : List Bytes) :
    Does env (listPush env front (name :: key :: rest)) c
      (AReply.onKind AVal.list? (.exact (.int rest.length))
        (fun xs => .exact (.int (xs.length + rest.length))) (liveAt env.now (a key)))
      (afterOp env (some (.modify (.push front rest))) key a) := by
  unfold listPush
  rw [arg_one_bind, argsFrom_two_bind]
  refine withKind_does h (by rfl) AVal.list?_isSome ?_ fun e ae xs hp _ he hx => ?_
  · obtain ⟨l, hl, hr⟩ := pushAll_repr front rest (ListVal.new_repr env.limits.list)
    have hlen : l.len = rest.length := by
      rw [ListVal.len_repr hr, pushed_length]
      exact Nat.zero_add _
    rw [hl, ← hlen]
    exact ⟨⟨_, rfl, rfl⟩, set_shows (v := .list l) h hr trivial⟩
  · obtain ⟨l, hv, hr⟩ := he.list? hx
    obtain ⟨l', hl, hr'⟩ := pushAll_repr front rest hr
    have hlen : (l'.len : Int) = xs.length + rest.length := by
      rw [ListVal.len_repr hr', pushed_length, Nat.cast_add]
    simp only [hv, AVal.eq_of_list? hx, Value.getList, lift_ok_bind, hl, ← hlen]
    exact ⟨⟨_, rfl, rfl⟩, mutate_shows (v := .list l') h hp he hr' trivial⟩

/-- LPOP and RPOP without a count. -/
theorem popReply_does (h : c.Shows env a) (front : Bool) :
    Does env (popReply env front key none) c
      (AReply.onKind AVal.list? (.exact .nil)
        (fun xs => .exact (.bulk ((popEnd front xs).getD (Bytes.ofList []))))
        (liveAt env.now (a key)))
      (afterOp env (some (.modify (.pop front 1))) key a) := by
  refine withKind_does h (by rfl) AVal.list?_isSome (.reply (h.unchanged key) _)
    fun e ae xs hp _ he hx => ?_
  obtain ⟨l, hv, hr⟩ := he.list? hx
  obtain ⟨l', hl, hr'⟩ := popOne_repr front hr
  simp only [hv, AVal.eq_of_list? hx, Value.getList, lift_ok_bind, hl]
  exact storeShrunk_does (v := .list l') h hp he (.list _) hr' trivial (ListVal.len_repr hr') _

/-- The reply to a pop with a count. -/
abbrev poppedReply (front : Bool) (count : Nat) : Option AEntry → AReply :=
  AReply.onKind AVal.list? (.exact .nil) fun xs => .exact (.array ((popsOf front count xs).map .bulk))

/-- LPOP and RPOP with a count, when there is room for the reply. -/
theorem popReply_does_count (h : c.Shows env a) (front : Bool) {count : Nat}
    (hroom : count * replySize ≤ maxAlloc) :
    Does env (popReply env front key (some count)) c
      (poppedReply front count (liveAt env.now (a key)))
      (afterOp env (some (.modify (.pop front count))) key a) := by
  refine withKind_does h (by rfl) AVal.list?_isSome (.reply (h.unchanged key) _)
    fun e ae xs hp _ he hx => ?_
  obtain ⟨l, hv, hr⟩ := he.list? hx
  obtain ⟨l', hl, hr'⟩ := popMany_repr front count hr
  simp only [hv, AVal.eq_of_list? hx, Value.getList, lift_ok_bind, hl, makeSlice, if_pos hroom]
  exact storeShrunk_does (v := .list l') h hp he (.list _) hr' trivial (ListVal.len_repr hr') _

/-- A count that is too big to make room for stops the command before it pops, and a live list makes
it panic. -/
theorem popReply_too_big (h : c.Shows env a) (front : Bool) {count : Nat}
    (hbig : maxAlloc < count * replySize) :
    ((∃ e, liveAt env.now (a key) = some e ∧ e.value.kind = .list) ∧
        popReply env front key (some count) c = (.error .makeslice, c)) ∨
      (¬ ∃ e, liveAt env.now (a key) = some e ∧ e.value.kind = .list) ∧
        Does env (popReply env front key (some count)) c
          (poppedReply front count (liveAt env.now (a key))) a := by
  unfold popReply
  rcases withKind_cases h AVal.list?_isSome _ _ with ⟨hlive, hrun⟩ |
    ⟨e, ae, -, hlive, he, ⟨hx, hne, hrun⟩ | ⟨xs, hx, hkind, hrun⟩⟩
  · rw [hlive]
    exact .inr ⟨by simp, .of_eq hrun (.reply h _)⟩
  · rw [hlive, poppedReply, AReply.onKind, hx]
    exact .inr ⟨fun ⟨e, he, hlist⟩ => hne (Option.some.inj he ▸ hlist), .of_eq hrun (.reply h _)⟩
  · obtain ⟨l, hv, -⟩ := he.list? hx
    refine .inl ⟨⟨ae, hlive, hkind⟩, ?_⟩
    rw [hrun]
    simp only [hv, Value.getList, lift_ok_bind, makeSlice, if_neg (Nat.not_le_of_lt hbig)]
    rfl

/-- A pop with a count: what is left of it once the count is parsed. -/
theorem listPop_count (front : Bool) (arg2 : Bytes) :
    (listPop env front [name, key, arg2] : Cmd n m Reply)
      = match parseInt arg2 with
        | none => pure (.error msgNotInteger)
        | some count =>
          if count < 0 then pure (.error (ascii "ERR value is out of range, must be positive"))
          else popReply env front key (some count.toNat) := rfl

/-- LPOP and RPOP, unless they panic. -/
theorem listPop_does (h : c.Shows env a) (front : Bool) {rest : List Bytes}
    (hno : ¬ (KeyOp.oversized rest = true ∧
      ∃ e, liveAt env.now (a key) = some e ∧ e.value.kind = .list)) :
    Does env (listPop env front (name :: key :: rest)) c
      (Answer.pop front name rest (liveAt env.now (a key)))
      (afterOp env ((KeyOp.popCount rest).map fun count => .modify (.pop front count)) key a) := by
  match rest with
  | [] => exact popReply_does h front
  | _ :: _ :: _ => exact .reply h _
  | [arg2] =>
    rw [listPop_count, Answer.pop, KeyOp.popCount, KeyOp.oversized]
    rw [KeyOp.oversized] at hno
    cases hp : parseInt arg2 with
    | none => exact .reply h _
    | some count =>
      simp only [hp] at hno ⊢
      by_cases hneg : count < 0
      · rw [if_pos hneg, if_pos hneg, if_pos (Or.inl hneg)]
        exact .reply h _
      · rw [if_neg hneg, if_neg hneg]
        by_cases hroom : count.toNat * replySize ≤ maxAlloc
        · rw [if_neg (by simp [hneg, hroom])]
          exact popReply_does_count h front hroom
        · have hbig : (decide (0 ≤ count) && decide (maxAlloc < count.toNat * replySize)) = true := by
            simp [Int.not_lt.mp hneg, Nat.lt_of_not_le hroom]
          rw [if_pos (Or.inr hbig)]
          rcases popReply_too_big h front (Nat.lt_of_not_le hroom) with ⟨hlist, -⟩ | ⟨-, hdoes⟩
          · exact absurd ⟨hbig, hlist⟩ hno
          · exact hdoes

/-- When they panic, nothing is popped. -/
theorem listPop_panics (h : c.Shows env a) (front : Bool) {rest : List Bytes}
    (hsize : KeyOp.oversized rest = true)
    (hlist : ∃ e, liveAt env.now (a key) = some e ∧ e.value.kind = .list) :
    listPop env front (name :: key :: rest) c = (.error .makeslice, c) := by
  match rest with
  | [] | _ :: _ :: _ => cases hsize
  | [arg2] =>
    rw [listPop_count]
    rw [KeyOp.oversized] at hsize
    cases hp : parseInt arg2 with
    | none =>
      rw [hp] at hsize
      cases hsize
    | some count =>
      simp only [hp, Bool.and_eq_true, decide_eq_true_eq] at hsize
      simp only
      rw [if_neg (Int.not_lt.mpr hsize.1)]
      rcases popReply_too_big h front hsize.2 with ⟨-, hpanics⟩ | ⟨hno, -⟩
      · exact hpanics
      · exact absurd hlist hno

/-- HSET, unless a field has no value: the number of fields that are new. -/
theorem cmdHSet_does (h : c.Shows env a) (rest : List Bytes) :
    Does env (cmdHSet env (name :: key :: rest)) c (Answer.hset rest (liveAt env.now (a key)))
      (afterOp env (if rest.length % 2 = 0 then some (.modify (.hset rest)) else none) key a) := by
  unfold cmdHSet Answer.hset
  have hlen : (name :: key :: rest).length % 2 = rest.length % 2 := by
    simp only [List.length_cons]
    omega
  rw [hlen]
  by_cases heven : rest.length % 2 = 0
  · rw [if_neg (not_not.mpr heven), if_pos heven, if_pos heven, arg_one_bind, argsFrom_two_bind]
    refine withKind_does h (by rfl) AVal.hash?_isSome ?_ fun e ae x hp _ he hx => ?_
    · obtain ⟨x, hset, hr⟩ := hsetAll_repr rest 0 (HashVal.new_repr env.limits.hash)
      rw [hset]
      exact ⟨⟨_, rfl, rfl⟩, set_shows (v := .hash x) h hr trivial⟩
    · obtain ⟨l, hv, hr⟩ := he.hash? hx
      obtain ⟨l', hset, hr'⟩ := hsetAll_repr rest 0 hr
      simp only [hv, AVal.eq_of_hash? hx, Value.getHash, lift_ok_bind, hset]
      exact ⟨⟨_, rfl, rfl⟩, mutate_shows (v := .hash l') h hp he hr' trivial⟩
  · rw [if_pos heven, if_neg heven, if_neg heven]
    exact .reply h _

theorem cmdHDel_does (h : c.Shows env a) (rest : List Bytes) :
    Does env (cmdHDel env (name :: key :: rest)) c
      (AReply.onKind AVal.hash? (.exact (.int 0)) (fun x => .exact (.int (fieldsRemoved rest x 0)))
        (liveAt env.now (a key)))
      (afterOp env (some (.modify (.hdel rest))) key a) := by
  unfold cmdHDel
  rw [arg_one_bind]
  refine withKind_does h (by rfl) AVal.hash?_isSome (.reply (h.unchanged key) _)
    fun e ae x hp _ he hx => ?_
  obtain ⟨l, hv, hr⟩ := he.hash? hx
  obtain ⟨l', hdel, hr'⟩ := hdelAll_repr rest 0 hr
  simp only [hv, AVal.eq_of_hash? hx, Value.getHash, argsFrom_two_bind, lift_ok_bind, hdel]
  exact storeShrunk_does (v := .hash l') h hp he (.hash _) hr' trivial (HashVal.len_repr hr') _

theorem cmdSAdd_does (h : c.Shows env a) (rest : List Bytes) :
    Does env (cmdSAdd env (name :: key :: rest)) c
      (AReply.onKind AVal.set? (.exact (.int (membersAdded rest ∅ 0)))
        (fun x => .exact (.int (membersAdded rest x 0))) (liveAt env.now (a key)))
      (afterOp env (some (.modify (.sadd rest))) key a) := by
  unfold cmdSAdd
  rw [arg_one_bind, argsFrom_two_bind]
  refine withKind_does h (by rfl) AVal.set?_isSome ?_ fun e ae x hp _ he hx => ?_
  · obtain ⟨x, hadd, hr⟩ := saddAll_repr rest 0 (SetVal.new_repr env.limits.set)
    rw [hadd]
    exact ⟨⟨_, rfl, rfl⟩, set_shows (v := .set x) h hr trivial⟩
  · obtain ⟨l, hv, hr⟩ := he.set? hx
    obtain ⟨l', hadd, hr'⟩ := saddAll_repr rest 0 hr
    simp only [hv, AVal.eq_of_set? hx, Value.getSet, lift_ok_bind, hadd]
    exact ⟨⟨_, rfl, rfl⟩, mutate_shows (v := .set l') h hp he hr' trivial⟩

theorem cmdSRem_does (h : c.Shows env a) (rest : List Bytes) :
    Does env (cmdSRem env (name :: key :: rest)) c
      (AReply.onKind AVal.set? (.exact (.int 0)) (fun x => .exact (.int (membersRemoved rest x 0)))
        (liveAt env.now (a key)))
      (afterOp env (some (.modify (.srem rest))) key a) := by
  unfold cmdSRem
  rw [arg_one_bind]
  refine withKind_does h (by rfl) AVal.set?_isSome (.reply (h.unchanged key) _)
    fun e ae x hp _ he hx => ?_
  obtain ⟨l, hv, hr⟩ := he.set? hx
  obtain ⟨l', hrem, hr'⟩ := sremAll_repr rest 0 hr
  simp only [hv, AVal.eq_of_set? hx, Value.getSet, argsFrom_two_bind, lift_ok_bind, hrem]
  exact storeShrunk_does (v := .set l') h hp he (.set _) hr' trivial (SetVal.len_repr hr') _

/-- ZADD, unless a member has no score or a score does not parse: the number of members that are new,
whatever levels are drawn. -/
theorem cmdZAdd_does (h : c.Shows env a) (rest : List Bytes) :
    Does env (cmdZAdd env (name :: key :: rest)) c
      (Answer.zadd env.host env.limits rest (liveAt env.now (a key)))
      (afterOp env (if rest.length % 2 = 0 then
        (parsePairs env.host rest []).map fun ps => .modify (.zadd ps) else none) key a) := by
  unfold cmdZAdd Answer.zadd
  have hlen : (name :: key :: rest).length % 2 = rest.length % 2 := by
    simp only [List.length_cons]
    omega
  rw [hlen]
  by_cases heven : rest.length % 2 = 0
  · rw [if_neg (not_not.mpr heven), if_pos heven, if_pos heven, argsFrom_two_bind]
    cases hparse : parsePairs env.host rest [] with
    | none => exact .reply h _
    | some pairs =>
      have hnum := parsePairs_number rest hparse (by simp)
      simp only [arg_one_bind]
      refine Does.bind_ok (show getRng c = (.ok c.rng, c) from rfl) ?_
      refine withKind_does h (by rfl) AVal.zset?_isSome ?_ fun e ae x hp _ he hx => ?_
      · obtain ⟨z, rng, hadd, hr, hmax⟩ :=
          zaddAll_repr pairs c.rng 0 (ZSetVal.new_repr env.limits.zset) hnum
        rw [hadd]
        exact ⟨⟨_, rfl, rfl⟩, set_shows (v := .zset z) h hr hmax⟩
      · obtain ⟨z, hv, hr, hb⟩ := he.zset? hx
        obtain ⟨z', rng, hadd, hr', hmax⟩ := zaddAll_repr pairs c.rng 0 hr hnum
        rw [hb] at hr' hadd
        simp only [hv, AVal.eq_of_zset? hx, Value.getZSet, lift_ok_bind, hadd]
        exact ⟨⟨_, rfl, rfl⟩, mutate_shows (v := .zset z') h hp he hr' (hmax.trans hb)⟩
  · rw [if_pos heven, if_neg heven, if_neg heven]
    exact .reply h _

/-! ### Whole keys -/

/-- DEL one key: was it live, and it is gone. -/
theorem delete_eq (h : c.Shows env a) (key : Bytes) :
    ((delete env key : Cmd n m Bool) c).1 = .ok (liveAt env.now (a key)).isSome ∧
      ((delete env key : Cmd n m Bool) c).2.Shows env (Function.update a key none) := by
  refine ⟨?_, delete_shows key h⟩
  rw [← isSome_eq_of_rel (DB.Repr.peek h env.now key), ← Keyspace.delete_fst]
  rfl

/-- The loop of DEL: a key named twice is counted once, being gone the second time. -/
theorem countKeys_delete : ∀ (keys : List Bytes) (count : Int) (c : Context n m) (a : ADB),
    c.Shows env a →
      (countKeys (delete env) keys count c).1 = .ok (Answer.removed env.now keys a count) ∧
        (countKeys (delete env) keys count c).2.Shows env fun key =>
          if key ∈ keys then none else a key
  | [], count, c, a, h => ⟨rfl, by simpa [countKeys] using h⟩
  | key :: keys, count, c, a, h => by
      obtain ⟨hb, hs⟩ := delete_eq h key
      have hfun : (fun key' => if key' ∈ key :: keys then none else a key')
          = fun key' => if key' ∈ keys then none else Function.update a key none key' := by
        funext key'
        by_cases hk : key' = key
        · subst hk
          simp
        · simp [hk]
      rw [countKeys, bind_apply_ok (Prod.ext hb rfl), hfun, Answer.removed]
      cases (liveAt env.now (a key)).isSome with
      | true => exact countKeys_delete keys (count + 1) _ _ hs
      | false => exact countKeys_delete keys count _ _ hs

theorem cmdDel_does (h : c.Shows env a) (keys : List Bytes) :
    Does env (cmdDel env (name :: keys)) c (.exact (.int (Answer.removed env.now keys a 0)))
      fun key => if key ∈ keys then none else a key := by
  obtain ⟨hk, hs⟩ := countKeys_delete keys 0 c a h
  unfold cmdDel
  rw [argsFrom_one_bind]
  exact Does.bind_ok (Prod.ext hk rfl) (.reply hs _)

theorem cmdUnlink_eq (args : List Bytes) :
    (cmdUnlink env args : Cmd n m Reply) = cmdDel env args := by
  unfold cmdUnlink cmdDel
  rw [funext (unlink_eq_delete env)]

/-- FLUSHDB leaves every shard empty. -/
theorem cmdFlushDB_does (args : List Bytes) :
    Does env (cmdFlushDB args) c (.exact .ok) fun _ => none := by
  refine ⟨⟨_, rfl, rfl⟩, fun i => ?_⟩
  have hnone : shardPart env.route (fun _ => none) i = fun _ => none := by
    funext key
    simp [shardPart]
  have hdb : (cmdFlushDB args c).2.db = fun i => (c.db i).flush := Context.setDB_db c _
  rw [hdb, hnone]
  exact Keyspace.new_repr

end Writes

/-! ## Databases -/

section Databases

variable {n m : Nat} {env : Env m} {c : Context n m}

/-- The databases stand for the abstract databases `A`. -/
def Databases.Repr (env : Env m) (dbs : Fin n → DB m) (A : Fin n → ADB) : Prop :=
  ∀ k, DB.Repr env.route env.limits (dbs k) (A k)

/-- Databases stand for one thing only. -/
theorem Databases.Repr.unique {env : Env m} {dbs : Fin n → DB m} {A B : Fin n → ADB}
    (hA : Databases.Repr env dbs A) (hB : Databases.Repr env dbs B) : A = B := by
  funext d key
  have hrelA := (hA d).lookup_entries key
  have hrelB := (hB d).lookup_entries key
  generalize (dbs d (env.route key)).entries.lookup key = o at hrelA hrelB
  generalize A d key = x at hrelA ⊢
  cases hrelA with
  | none =>
    generalize B d key = y at hrelB ⊢
    cases hrelB
    rfl
  | some ha =>
    generalize B d key = y at hrelB ⊢
    cases hrelB with
    | some hb => rw [ha.unique hb]

/-- What a command leaves when it changes only the selected database, which stood for `A`. -/
theorem Databases.Repr.of_frame {A : Fin n → ADB} {d : Context n m} {a' : ADB}
    (h : Databases.Repr env c.databases A) (hf : Frame Finset.univ c d) (hs : d.Shows env a') :
    Databases.Repr env d.databases (Function.update A c.index a') := by
  intro k
  by_cases hk : k = c.index
  · subst hk
    rw [Function.update_self, ← hf.index]
    exact hs
  · rw [Function.update_of_ne hk, hf.others k hk]
    exact h k

end Databases

end Memcore
