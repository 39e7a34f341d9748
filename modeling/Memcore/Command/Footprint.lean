import Mathlib.Data.Finset.Image
import Memcore.Command.Registry

/-!
# What a command touches

A handler must touch only the shards its command declared, or the locks the executor takes protect
nothing. `Within (Agree S) (Frame S) m` says it of a handler's program: its outcome depends on the
shards of `S` of the selected database and it changes no other. `Guarded Unchanged isError m` says
that a command that ends with an error reply or a panic has changed nothing.
-/

namespace Memcore

open Go Cmd Prog

variable {n m : Nat} {α β : Type}

/-- The contexts have the same selection, the same random levels, and the same shards of `S`. -/
structure Agree (S : Finset (Fin m)) (c d : Context n m) : Prop where
  index : c.index = d.index
  rng : c.rng = d.rng
  shards : ∀ i ∈ S, c.db i = d.db i

/-- From `c` to `d` nothing changed but the shards of `S` of the selected database, and random
levels were drawn. -/
structure Frame (S : Finset (Fin m)) (c d : Context n m) : Prop where
  index : d.index = c.index
  settings : d.settings = c.settings
  selected : ∀ i ∉ S, d.db i = c.db i
  others : ∀ k ≠ c.index, d.databases k = c.databases k

namespace Frame

variable {S : Finset (Fin m)}

theorem refl (c : Context n m) : Frame S c c := ⟨rfl, rfl, fun _ _ => rfl, fun _ _ => rfl⟩

theorem trans {c d e : Context n m} (h : Frame S c d) (h' : Frame S d e) : Frame S c e where
  index := h'.index.trans h.index
  settings := h'.settings.trans h.settings
  selected i hi := (h'.selected i hi).trans (h.selected i hi)
  others k hk := (h'.others k (by rwa [h.index])).trans (h.others k hk)

end Frame

namespace Context

@[simp] theorem setDB_db (c : Context n m) (db : DB m) : (c.setDB db).db = db := by
  simp [Context.db, setDB]

@[simp] theorem setDB_index (c : Context n m) (db : DB m) : (c.setDB db).index = c.index := rfl

@[simp] theorem setDB_settings (c : Context n m) (db : DB m) :
    (c.setDB db).settings = c.settings := rfl

@[simp] theorem setDB_rng (c : Context n m) (db : DB m) : (c.setDB db).rng = c.rng := rfl

theorem setDB_databases_ne (c : Context n m) (db : DB m) {k : Fin n} (h : k ≠ c.index) :
    (c.setDB db).databases k = c.databases k := by
  simp [setDB, Function.update_of_ne h]

end Context

/-- SELECT of a database there is. -/
theorem select_of_lt {index : Int} (h : 0 ≤ index ∧ index.toNat < n) (c : Context n m) :
    select index c = (.ok true, { c with index := ⟨index.toNat, h.2⟩ }) := dif_pos h

/-- And of one there is not: the selection stays. -/
theorem select_of_not_lt {index : Int} (h : ¬ (0 ≤ index ∧ index.toNat < n)) (c : Context n m) :
    select index c = (.ok false, c) := dif_neg h

/-! ## Footprints of the primitives -/

/-- The program touches only the shards of `S`. -/
abbrev Touches (S : Finset (Fin m)) (p : Cmd n m α) : Prop := Within (Agree S) (Frame S) p

namespace Touches

variable {S : Finset (Fin m)}

theorem pure (a : α) : Touches (n := n) S (Pure.pure a) := Within.pure Frame.refl a

theorem bind {p : Cmd n m α} {f : α → Cmd n m β} (hp : Touches S p)
    (hf : ∀ a, Touches S (f a)) : Touches S (p >>= f) :=
  Within.bind Frame.trans hp hf

theorem readShard {i : Fin m} (hi : i ∈ S) (f : Keyspace → α) :
    Touches (n := n) S (Cmd.readShard i f) where
  same _ _ h := ⟨congrArg (fun ks => Except.ok (f ks)) (h.shards i hi), h⟩
  frame := Frame.refl

/-- A method that writes a shard of `S`: what it returns and what it stores come from that shard. -/
theorem onShard {i : Fin m} (hi : i ∈ S) (f : Keyspace → α × Keyspace) :
    Touches (n := n) S (Cmd.onShard i f) where
  same c d h := by
    have hks := h.shards i hi
    refine ⟨congrArg (fun ks => Except.ok (f ks).1) hks, h.index, h.rng, fun j hj => ?_⟩
    simp only [Cmd.onShard, Context.setDB_db, hks]
    -- the other shards of `S` agree as they did before
    by_cases hji : j = i
    · subst hji
      simp only [Function.update_self]
    · simp only [Function.update_of_ne hji]
      exact h.shards j hj
  frame c := by
    refine ⟨rfl, rfl, fun j hj => ?_, fun k hk => c.setDB_databases_ne _ hk⟩
    have hji : j ≠ i := fun h => hj (h ▸ hi)
    simp only [Cmd.onShard, Context.setDB_db, Function.update_of_ne hji]

theorem getRng : Touches (n := n) S Cmd.getRng where
  same _ _ h := ⟨congrArg Except.ok h.rng, h⟩
  frame := Frame.refl

/-- The source of random levels is the context's own: it is compared, and it may move on. -/
theorem setRng (rng : Rng) : Touches (n := n) S (Cmd.setRng rng) where
  same _ _ h := ⟨rfl, h.index, rfl, h.shards⟩
  frame _ := ⟨rfl, rfl, fun _ _ => rfl, fun _ _ => rfl⟩

/-- FLUSHDB replaces every shard, whatever is in it. -/
theorem flush : Touches (n := n) (Finset.univ : Finset (Fin m)) Cmd.flush where
  same c d h := ⟨rfl, h.index, h.rng, fun i _ => by simp [Cmd.flush, Keyspace.flush]⟩
  frame c := ⟨rfl, rfl, fun i hi => absurd (Finset.mem_univ i) hi,
    fun k hk => c.setDB_databases_ne _ hk⟩

end Touches

/-! ## Access to a key

What a handler may do with a footprint, whatever the footprint protects: draw random levels, and call
the data methods on its key. The handlers are taken through once, for every footprint; below, the
footprint is a set of shards (`Touches`), and in `Server/Declared` a set of keys. -/

/-- A footprint that a program may keep to step by step. -/
structure Framed (R F : Context n m → Context n m → Prop) : Prop where
  refl : ∀ c, F c c
  trans : ∀ {c d e}, F c d → F d e → F c e
  getRng : Within R F Cmd.getRng
  setRng : ∀ rng, Within R F (Cmd.setRng rng)

namespace Framed

variable {R F : Context n m → Context n m → Prop}

theorem pure (hF : Framed R F) (a : α) : Within R F (Pure.pure a : Cmd n m α) :=
  Within.pure hF.refl a

/-- Arguments are parsed, and values computed, outside the context. -/
theorem lift (hF : Framed R F) (x : Result α) : Within R F (Prog.lift x : Cmd n m α) :=
  Within.lift hF.refl x

theorem bind (hF : Framed R F) {p : Cmd n m α} {f : α → Cmd n m β} (hp : Within R F p)
    (hf : ∀ a, Within R F (f a)) : Within R F (p >>= f) :=
  Within.bind (F := F) hF.trans hp hf

end Framed

/-- The data methods that read keep to the footprint when they are called on `key`. -/
structure ReadAccess (R F : Context n m → Context n m → Prop) (env : Env m) (key : Bytes) :
    Prop where
  getBytes : Within R F (Cmd.getBytes env key)
  existsBytes : Within R F (Cmd.existsBytes env key)
  lookup : Within R F (Cmd.lookup env key)

/-- And so do those that write. -/
structure Access (R F : Context n m → Context n m → Prop) (env : Env m) (key : Bytes) : Prop
    extends ReadAccess R F env key where
  set : ∀ v, Within R F (Cmd.set env key v)
  setEntry : ∀ e, Within R F (Cmd.setEntry env key e)
  mutate : ∀ v, Within R F (Cmd.mutate env key v)
  setExpire : ∀ at', Within R F (Cmd.setExpire env key at')
  persist : Within R F (Cmd.persist env key)
  delete : Within R F (Cmd.delete env key)
  unlink : Within R F (Cmd.unlink env key)

theorem Touches.framed (S : Finset (Fin m)) : Framed (n := n) (Agree S) (Frame S) :=
  ⟨Frame.refl, Frame.trans, Touches.getRng, Touches.setRng⟩

/-- The shards of `S` give access to the keys routed to them. -/
theorem Touches.access {S : Finset (Fin m)} {env : Env m} {key : Bytes} (h : env.route key ∈ S) :
    Access (n := n) (Agree S) (Frame S) env key where
  getBytes := Touches.readShard h _
  existsBytes := Touches.readShard h _
  lookup := Touches.readShard h _
  set _ := Touches.onShard h _
  setEntry _ := Touches.onShard h _
  mutate _ := Touches.onShard h _
  setExpire _ := Touches.onShard h _
  persist := Touches.onShard h _
  delete := Touches.onShard h _
  unlink := Touches.onShard h _

/-! ## Nothing changed -/

/-- Databases and selection are as they were. -/
structure Unchanged (c d : Context n m) : Prop where
  databases : d.databases = c.databases
  index : d.index = c.index

theorem Unchanged.refl (c : Context n m) : Unchanged c c := ⟨rfl, rfl⟩

theorem Unchanged.trans {c d e : Context n m} (h : Unchanged c d) (h' : Unchanged d e) :
    Unchanged c e :=
  ⟨h'.databases.trans h.databases, h'.index.trans h.index⟩

/-- The program only looks: settings and random levels may change, data may not. -/
abbrev Looks (p : Cmd n m α) : Prop := Quiet Unchanged p

/-- A run that ends in a panic or an error reply has changed nothing. -/
abbrev FailsClean (p : Cmd n m Reply) : Prop := Guarded Unchanged (fun r => r.isError = true) p

namespace Looks

theorem pure (a : α) : Looks (Pure.pure a : Cmd n m α) := Quiet.pure Unchanged.refl a

theorem lift (x : Result α) : Looks (Prog.lift x : Cmd n m α) := Quiet.lift Unchanged.refl x

theorem readShard (i : Fin m) (f : Keyspace → α) : Looks (Cmd.readShard i f : Cmd n m α) :=
  Unchanged.refl

/-- To look is to keep to the footprint that lets nothing be changed, and anything be read. -/
theorem within {p : Cmd n m α} (h : Looks p) : Within Eq Unchanged p :=
  ⟨fun _ _ hsame => hsame ▸ ⟨rfl, rfl⟩, h⟩

theorem framed : Framed (n := n) (m := m) Eq Unchanged :=
  ⟨Unchanged.refl, Unchanged.trans, within Unchanged.refl, fun _ => within fun _ => ⟨rfl, rfl⟩⟩

/-- Every key may be read. -/
theorem reads (env : Env m) (key : Bytes) : ReadAccess (n := n) Eq Unchanged env key :=
  ⟨within (readShard _ _), within (readShard _ _), within (readShard _ _)⟩

end Looks

namespace FailsClean

/-- A failure after a look is a failure of what follows it. -/
theorem bind {p : Cmd n m α} {f : α → Cmd n m Reply} (hp : Looks p)
    (hf : ∀ a, FailsClean (f a)) : FailsClean (p >>= f) :=
  Guarded.bind (F := Unchanged) Unchanged.trans hp hf

theorem pure (r : Reply) : FailsClean (Pure.pure r : Cmd n m Reply) := (Looks.pure r).guarded

/-- After its last look a command changes data and replies without an error. -/
theorem of_reply {p : Cmd n m Reply} (h : ∀ c, ∃ r, (p c).1 = .ok r ∧ r.isError = false) :
    FailsClean p :=
  Guarded.of_good fun c => by
    obtain ⟨r, hr, he⟩ := h c
    exact ⟨r, hr, by simp [he]⟩

end FailsClean

/-! ## Arguments

The indices a handler uses, on a request that is long enough: the panic of `arg` is then ruled out. -/

@[simp] theorem arg_zero_bind (a : Bytes) (rest : List Bytes) (f : Bytes → Cmd n m β) :
    (arg (a :: rest) 0 >>= f) = f a := rfl

@[simp] theorem arg_one_bind (a b : Bytes) (rest : List Bytes) (f : Bytes → Cmd n m β) :
    (arg (a :: b :: rest) 1 >>= f) = f b := rfl

@[simp] theorem arg_two_bind (a b c : Bytes) (rest : List Bytes) (f : Bytes → Cmd n m β) :
    (arg (a :: b :: c :: rest) 2 >>= f) = f c := rfl

@[simp] theorem args_two_three_bind (a b c d : Bytes) (rest : List Bytes)
    (f : Bytes → Bytes → Cmd n m β) :
    (arg (a :: b :: c :: d :: rest) 2 >>= fun x => arg (a :: b :: c :: d :: rest) 3 >>= f x)
      = f c d := rfl

@[simp] theorem argsFrom_one_bind (a : Bytes) (rest : List Bytes) (f : List Bytes → Cmd n m β) :
    (argsFrom (a :: rest) 1 >>= f) = f rest := rfl

@[simp] theorem argsFrom_two_bind (a b : Bytes) (rest : List Bytes)
    (f : List Bytes → Cmd n m β) : (argsFrom (a :: b :: rest) 2 >>= f) = f rest := rfl

/-! ## Footprints of the handlers

Each handler of a single-key command, for any footprint that gives it its key: first those that only
read. -/

section ReadHandlers

variable (env : Env m) {R F : Context n m → Context n m → Prop} {name key : Bytes}
  (hF : Framed R F) (hr : ReadAccess R F env key)

include hF hr

/-- Look the key up, and answer WRONGTYPE to another kind. -/
theorem withKind_within {k : Kind} {absent : Cmd n m Reply} {present : Entry → Cmd n m Reply}
    (ha : Within R F absent) (hp : ∀ e, Within R F (present e)) :
    Within R F (withKind env key k absent present) := by
  unfold withKind
  refine hF.bind hr.lookup fun o => ?_
  cases o with
  | none => exact ha
  | some e =>
    simp only
    split
    · exact hF.pure _
    · exact hp e

theorem cmdGet_within (rest : List Bytes) :
    Within R F (cmdGet env (name :: key :: rest)) := by
  unfold cmdGet
  rw [arg_one_bind]
  refine hF.bind hr.getBytes fun o => ?_
  cases o with
  | none => exact hF.pure _
  | some v =>
    simp only
    split
    · exact hF.pure _
    · exact hF.bind (hF.lift _) fun _ => hF.pure _

theorem cmdTTL_within (rest : List Bytes) :
    Within R F (cmdTTL env (name :: key :: rest)) := by
  unfold cmdTTL
  rw [arg_one_bind]
  refine hF.bind hr.lookup fun o => ?_
  cases o with
  | none => exact hF.pure _
  | some e =>
    simp only
    split <;> exact hF.pure _

theorem cmdType_within (rest : List Bytes) :
    Within R F (cmdType env (name :: key :: rest)) := by
  unfold cmdType
  rw [arg_one_bind]
  refine hF.bind hr.lookup fun o => ?_
  cases o <;> exact hF.pure _

/-- LRANGE parses its bounds before it looks at the key. -/
theorem cmdLRange_within (rest : List Bytes) :
    Within R F (cmdLRange env (name :: key :: rest)) := by
  unfold cmdLRange
  refine hF.bind (hF.lift _) fun arg2 => hF.bind (hF.lift _) fun arg3 => ?_
  split
  · rw [arg_one_bind]
    exact withKind_within env hF hr (hF.pure _) fun e =>
      hF.bind (hF.lift _) fun _ => hF.bind (hF.lift _) fun _ => hF.pure _
  · exact hF.pure _

theorem cmdLLen_within (rest : List Bytes) :
    Within R F (cmdLLen env (name :: key :: rest)) := by
  unfold cmdLLen
  rw [arg_one_bind]
  exact withKind_within env hF hr (hF.pure _) fun e =>
    hF.bind (hF.lift _) fun _ => hF.pure _

theorem cmdHGet_within (rest : List Bytes) :
    Within R F (cmdHGet env (name :: key :: rest)) := by
  unfold cmdHGet
  rw [arg_one_bind]
  refine withKind_within env hF hr (hF.pure _) fun e => hF.bind (hF.lift _) fun _ =>
    hF.bind (hF.lift _) fun _ => hF.bind (hF.lift _) fun v => ?_
  cases v <;> exact hF.pure _

theorem cmdHGetAll_within (rest : List Bytes) :
    Within R F (cmdHGetAll env (name :: key :: rest)) := by
  unfold cmdHGetAll
  rw [arg_one_bind]
  exact withKind_within env hF hr (hF.pure _) fun e =>
    hF.bind (hF.lift _) fun _ => hF.bind (hF.lift _) fun _ => hF.pure _

theorem cmdSMembers_within (rest : List Bytes) :
    Within R F (cmdSMembers env (name :: key :: rest)) := by
  unfold cmdSMembers
  rw [arg_one_bind]
  exact withKind_within env hF hr (hF.pure _) fun e =>
    hF.bind (hF.lift _) fun _ => hF.bind (hF.lift _) fun _ => hF.pure _

/-- ZRANGE parses its bounds first, too. -/
theorem zrangeReply_within (rest : List Bytes) (withScores : Bool) :
    Within R F (zrangeReply env (name :: key :: rest) withScores) := by
  unfold zrangeReply
  refine hF.bind (hF.lift _) fun arg2 => hF.bind (hF.lift _) fun arg3 => ?_
  split
  · rw [arg_one_bind]
    refine withKind_within env hF hr (hF.pure _) fun e =>
      hF.bind (hF.lift _) fun _ => hF.bind (hF.lift _) fun _ => ?_
    split <;> exact hF.pure _
  · exact hF.pure _

/-- WITHSCORES is the only option; any other is refused without a look at the key. -/
theorem cmdZRange_within (rest : List Bytes) :
    Within R F (cmdZRange env (name :: key :: rest)) := by
  unfold cmdZRange
  split
  · exact zrangeReply_within env hF hr _ _
  · split
    · refine hF.bind (hF.lift _) fun option => ?_
      split
      · exact zrangeReply_within env hF hr _ _
      · exact hF.pure _
    · exact hF.pure _

theorem cmdZScore_within (rest : List Bytes) :
    Within R F (cmdZScore env (name :: key :: rest)) := by
  unfold cmdZScore
  rw [arg_one_bind]
  refine withKind_within env hF hr (hF.pure _) fun e => hF.bind (hF.lift _) fun _ =>
    hF.bind (hF.lift _) fun _ => hF.bind (hF.lift _) fun v => ?_
  cases v <;> exact hF.pure _

end ReadHandlers

section WriteHandlers

variable (env : Env m) {R F : Context n m → Context n m → Prop} {name key : Bytes}
  (hF : Framed R F) (hk : Access R F env key)

include hF hk

/-- A value that has become empty is deleted. -/
theorem storeShrunk_within (v : Value) (len : Nat) :
    Within R F (storeShrunk env key v len) := by
  unfold storeShrunk
  refine hF.bind (hk.mutate _) fun _ => ?_
  split
  · exact hF.bind hk.delete fun _ => hF.pure _
  · exact hF.pure _

theorem cmdSet_within (rest : List Bytes) :
    Within R F (cmdSet env (name :: key :: rest)) := by
  unfold cmdSet
  rw [arg_one_bind]
  exact hF.bind (hF.lift _) fun _ => hF.bind (hk.set _) fun _ => hF.pure _

/-- A new counter is stored by `Set`, an old one with its deadline by `SetEntry`. -/
theorem incrStore_within (e : Option Entry) (cur delta : Int) :
    Within R F (incrStore env key e cur delta) := by
  unfold incrStore
  split
  · exact hF.pure _
  · cases e with
    | none => exact hF.bind (hk.set _) fun _ => hF.pure _
    | some e => exact hF.bind (hk.setEntry _) fun _ => hF.pure _

/-- INCR and DECR. -/
theorem incrBy_within (delta : Int) : Within R F (incrBy env key delta) := by
  refine withKind_within env hF hk.toReadAccess (incrStore_within env hF hk _ _ _) fun e => ?_
  refine hF.bind (hF.lift _) fun b => ?_
  split
  · exact hF.pure _
  · exact incrStore_within env hF hk _ _ _

/-- EXPIRE and PEXPIREAT, once the deadline is known. -/
theorem expireAt_within (at' : Time) : Within R F (expireAt env key at') := by
  unfold expireAt
  refine hF.bind (hk.setExpire _) fun b => ?_
  split <;> exact hF.pure _

theorem cmdExpire_within (rest : List Bytes) :
    Within R F (cmdExpire env (name :: key :: rest)) := by
  unfold cmdExpire
  refine hF.bind (hF.lift _) fun arg2 => ?_
  split
  · exact hF.pure _
  · rw [arg_one_bind]
    exact expireAt_within env hF hk _

theorem cmdPExpireAt_within (rest : List Bytes) :
    Within R F (cmdPExpireAt env (name :: key :: rest)) := by
  unfold cmdPExpireAt
  refine hF.bind (hF.lift _) fun arg2 => ?_
  split
  · exact hF.pure _
  · rw [arg_one_bind]
    exact expireAt_within env hF hk _

theorem cmdPersist_within (rest : List Bytes) :
    Within R F (cmdPersist env (name :: key :: rest)) := by
  unfold cmdPersist
  rw [arg_one_bind]
  refine hF.bind hk.persist fun b => ?_
  split <;> exact hF.pure _

/-- LPUSH and RPUSH. -/
theorem listPush_within (front : Bool) (rest : List Bytes) :
    Within R F (listPush env front (name :: key :: rest)) := by
  unfold listPush
  rw [arg_one_bind]
  refine hF.bind (hF.lift _) fun vs => withKind_within env hF hk.toReadAccess ?_ fun e => ?_
  · exact hF.bind (hF.lift _) fun _ => hF.bind (hk.set _) fun _ => hF.pure _
  · exact hF.bind (hF.lift _) fun _ => hF.bind (hF.lift _) fun _ =>
      hF.bind (hk.mutate _) fun _ => hF.pure _

/-- LPOP and RPOP, of one element or of a count of them. -/
theorem popReply_within (front : Bool) (count : Option Nat) :
    Within R F (popReply env front key count) := by
  refine withKind_within env hF hk.toReadAccess (hF.pure _) fun e => hF.bind (hF.lift _) fun l => ?_
  cases count with
  | none =>
    exact hF.bind (hF.lift _) fun _ =>
      hF.bind (storeShrunk_within env hF hk _ _) fun _ => hF.pure _
  | some count =>
    exact hF.bind (hF.lift _) fun _ => hF.bind (hF.lift _) fun _ =>
      hF.bind (storeShrunk_within env hF hk _ _) fun _ => hF.pure _

/-- The count is parsed before the key is looked up. -/
theorem listPop_within (front : Bool) (rest : List Bytes) :
    Within R F (listPop env front (name :: key :: rest)) := by
  unfold listPop
  simp only [arg_one_bind, arg_zero_bind]
  split
  · exact hF.pure _
  · split
    · refine hF.bind (hF.lift _) fun arg2 => ?_
      split
      · exact hF.pure _
      · split
        · exact hF.pure _
        · exact popReply_within env hF hk _ _
    · exact popReply_within env hF hk _ _

/-- A field without a value is refused before the key is looked up. -/
theorem cmdHSet_within (rest : List Bytes) :
    Within R F (cmdHSet env (name :: key :: rest)) := by
  unfold cmdHSet
  split
  · exact hF.pure _
  · rw [arg_one_bind]
    refine hF.bind (hF.lift _) fun vs => withKind_within env hF hk.toReadAccess ?_ fun e => ?_
    · exact hF.bind (hF.lift _) fun _ => hF.bind (hk.set _) fun _ => hF.pure _
    · exact hF.bind (hF.lift _) fun _ => hF.bind (hF.lift _) fun _ =>
        hF.bind (hk.mutate _) fun _ => hF.pure _

theorem cmdHDel_within (rest : List Bytes) :
    Within R F (cmdHDel env (name :: key :: rest)) := by
  unfold cmdHDel
  rw [arg_one_bind]
  exact withKind_within env hF hk.toReadAccess (hF.pure _) fun e => hF.bind (hF.lift _) fun _ =>
    hF.bind (hF.lift _) fun _ => hF.bind (hF.lift _) fun _ =>
      hF.bind (storeShrunk_within env hF hk _ _) fun _ => hF.pure _

theorem cmdSAdd_within (rest : List Bytes) :
    Within R F (cmdSAdd env (name :: key :: rest)) := by
  unfold cmdSAdd
  rw [arg_one_bind]
  refine hF.bind (hF.lift _) fun vs => withKind_within env hF hk.toReadAccess ?_ fun e => ?_
  · exact hF.bind (hF.lift _) fun _ => hF.bind (hk.set _) fun _ => hF.pure _
  · exact hF.bind (hF.lift _) fun _ => hF.bind (hF.lift _) fun _ =>
      hF.bind (hk.mutate _) fun _ => hF.pure _

theorem cmdSRem_within (rest : List Bytes) :
    Within R F (cmdSRem env (name :: key :: rest)) := by
  unfold cmdSRem
  rw [arg_one_bind]
  exact withKind_within env hF hk.toReadAccess (hF.pure _) fun e => hF.bind (hF.lift _) fun _ =>
    hF.bind (hF.lift _) fun _ => hF.bind (hF.lift _) fun _ =>
      hF.bind (storeShrunk_within env hF hk _ _) fun _ => hF.pure _

/-- ZADD parses all its scores first, and draws a level for each member it adds. -/
theorem cmdZAdd_within (rest : List Bytes) :
    Within R F (cmdZAdd env (name :: key :: rest)) := by
  unfold cmdZAdd
  split
  · exact hF.pure _
  · refine hF.bind (hF.lift _) fun rest' => ?_
    split
    · exact hF.pure _
    · rw [arg_one_bind]
      -- absent, or there: the levels are drawn first, and where they stand is stored last
      refine hF.bind hF.getRng fun rng => withKind_within env hF hk.toReadAccess ?_ fun e => ?_
      · exact hF.bind (hF.lift _) fun _ => hF.bind (hk.set _) fun _ =>
          hF.bind (hF.setRng _) fun _ => hF.pure _
      · exact hF.bind (hF.lift _) fun _ => hF.bind (hF.lift _) fun _ =>
          hF.bind (hk.mutate _) fun _ => hF.bind (hF.setRng _) fun _ => hF.pure _

end WriteHandlers

/-! The handlers of multi-key commands, for any footprint that gives access to all their keys. -/

section MultiKey

variable (env : Env m) {R F : Context n m → Context n m → Prop} {name : Bytes} (hF : Framed R F)

include hF

/-- The loop of DEL, UNLINK and EXISTS, by induction on the keys. -/
theorem countKeys_within {op : Bytes → Cmd n m Bool} :
    ∀ (keys : List Bytes) (count : Int), (∀ k ∈ keys, Within R F (op k)) →
      Within R F (countKeys op keys count)
  | [], _, _ => hF.pure _
  | k :: keys, count, h => by
      unfold countKeys
      refine hF.bind (h k List.mem_cons_self) fun b => ?_
      have hrest := fun k' hk' => h k' (List.mem_cons_of_mem _ hk')
      split
      · exact countKeys_within keys _ hrest
      · exact countKeys_within keys _ hrest

theorem cmdDel_within {keys : List Bytes} (hk : ∀ k ∈ keys, Access R F env k) :
    Within R F (cmdDel env (name :: keys)) := by
  unfold cmdDel
  rw [argsFrom_one_bind]
  exact hF.bind (countKeys_within hF keys 0 fun k h => (hk k h).delete) fun _ =>
    hF.pure _

theorem cmdUnlink_within {keys : List Bytes} (hk : ∀ k ∈ keys, Access R F env k) :
    Within R F (cmdUnlink env (name :: keys)) := by
  unfold cmdUnlink
  rw [argsFrom_one_bind]
  exact hF.bind (countKeys_within hF keys 0 fun k h => (hk k h).unlink) fun _ =>
    hF.pure _

theorem cmdExists_within {keys : List Bytes} (hk : ∀ k ∈ keys, ReadAccess R F env k) :
    Within R F (cmdExists env (name :: keys)) := by
  unfold cmdExists
  rw [argsFrom_one_bind]
  exact hF.bind (countKeys_within hF keys 0 fun k h => (hk k h).existsBytes) fun _ =>
    hF.pure _

/-- The loop of SINTER, which ends at a key that is missing or holds no set. -/
theorem collectSets_within : ∀ (keys : List Bytes) (sets : List SetVal),
    (∀ k ∈ keys, ReadAccess R F env k) → Within R F (collectSets env keys sets)
  | [], _, _ => hF.pure _
  | k :: keys, sets, h => by
      unfold collectSets
      refine hF.bind ((h k List.mem_cons_self).lookup) fun o => ?_
      cases o with
      | none => exact hF.pure _
      | some e =>
        simp only
        split
        · exact hF.pure _
        · exact hF.bind (hF.lift _) fun s =>
            collectSets_within keys _ fun k' hk' => h k' (List.mem_cons_of_mem _ hk')

theorem cmdSInter_within {keys : List Bytes} (hk : ∀ k ∈ keys, ReadAccess R F env k) :
    Within R F (cmdSInter env (name :: keys)) := by
  unfold cmdSInter
  rw [argsFrom_one_bind]
  refine hF.bind (collectSets_within env hF keys [] hk) fun r => ?_
  cases r with
  | error reply => exact hF.pure _
  | ok sets =>
    exact hF.bind (hF.lift _) fun _ => hF.bind (hF.lift _) fun _ =>
      hF.bind (hF.lift _) fun _ => hF.bind (hF.lift _) fun _ => hF.pure _

end MultiKey

/-- FLUSHDB touches every shard of its database. -/
theorem cmdFlushDB_touches (args : List Bytes) :
    Touches (n := n) (Finset.univ : Finset (Fin m)) (cmdFlushDB args) :=
  Touches.flush.bind fun _ => Touches.pure _

/-! ## Failures leave no trace

A handler looks, then writes once, and what it answers after that is not an error. -/

section Clean

variable (env : Env m) (args : List Bytes)

theorem cmdPing_looks : Looks (cmdPing args : Cmd n m Reply) := by
  unfold cmdPing
  split <;> exact Looks.pure _

/-- CONFIG leaves everything as it is, or replaces the settings and answers `OK`. -/
theorem cmdConfig_cases (c : Context n m) :
    (∃ x, cmdConfig env args c = (x, c)) ∨
      ∃ r, c.settings.isSome = true ∧
        cmdConfig env args c = (.ok .ok, { c with settings := some r }) := by
  unfold cmdConfig
  rw [bind_apply_ok (show getSettings c = (.ok c.settings, c) from rfl)]
  cases hc : c.settings with
  | none => exact .inl ⟨_, rfl⟩
  | some r =>
    simp only
    cases harg : Go.index args 1 with
    | error p => exact .inl ⟨_, by rw [Cmd.arg, harg]; rfl⟩
    | ok arg1 =>
      rw [Cmd.arg, harg, lift_ok_bind]
      -- GET renders, SET stores what it has checked, anything else is refused
      split
      · split
        · exact .inl ⟨_, rfl⟩
        · refine .inl ?_
          cases hpat : Go.index args 2 with
          | error p => exact ⟨_, by rw [Cmd.arg, hpat]; rfl⟩
          | ok pattern => exact ⟨_, by rw [Cmd.arg, hpat]; rfl⟩
      · split
        · split
          · exact .inl ⟨_, rfl⟩
          · cases hname : Go.index args 2 with
            | error p => exact .inl ⟨_, by rw [Cmd.arg, hname]; rfl⟩
            | ok name =>
              rw [Cmd.arg, hname, lift_ok_bind]
              cases hval : Go.index args 3 with
              | error p => exact .inl ⟨_, by rw [Cmd.arg, hval]; rfl⟩
              | ok val =>
                rw [Cmd.arg, hval, lift_ok_bind]
                cases r.set env.host (env.host.toLower name) val with
                | error text => exact .inl ⟨_, rfl⟩
                | ok r' => exact .inr ⟨r', rfl, rfl⟩
        · exact .inl ⟨_, rfl⟩

theorem cmdConfig_looks : Looks (cmdConfig env args : Cmd n m Reply) := by
  intro c
  rcases cmdConfig_cases env args c with ⟨x, hx⟩ | ⟨r, -, hx⟩
  · rw [hx]
    exact Unchanged.refl c
  · rw [hx]
    exact ⟨rfl, rfl⟩

/-- SELECT changes which database is selected, and no database. -/
theorem cmdSelect_databases (c : Context n m) : (cmdSelect args c).2.databases = c.databases := by
  have hquiet : Quiet (fun c d : Context n m => d.databases = c.databases)
      (cmdSelect args : Cmd n m Reply) := by
    refine Quiet.bind (fun h h' => h'.trans h) (fun _ => rfl) fun arg1 => ?_
    split
    · exact fun _ => rfl
    · next index _ =>
        refine Quiet.bind (fun h h' => h'.trans h) (fun c => ?_) fun b => ?_
        · by_cases h : 0 ≤ index ∧ index.toNat < n
          · rw [select_of_lt h c]
          · rw [select_of_not_lt h c]
        · cases b <;> exact fun _ => rfl
  exact hquiet c

/-! ### Writes -/

/-- WRONGTYPE is answered before anything is written. -/
theorem withKind_failsClean {key : Bytes} {k : Kind} {absent : Cmd n m Reply}
    {present : Entry → Cmd n m Reply} (ha : FailsClean absent)
    (hp : ∀ e, FailsClean (present e)) : FailsClean (withKind env key k absent present) := by
  unfold withKind
  refine FailsClean.bind (Looks.readShard _ _) fun o => ?_
  cases o with
  | none => exact ha
  | some e =>
    simp only
    split
    · exact FailsClean.pure _
    · exact hp e

/-- Changing one shard and replying without an error. -/
theorem onShard_failsClean (i : Fin m) (f : Keyspace → α × Keyspace) {reply : α → Reply}
    (h : ∀ a, (reply a).isError = false) :
    FailsClean (onShard i f >>= fun a => pure (reply a) : Cmd n m Reply) :=
  FailsClean.of_reply fun _ => ⟨_, rfl, h _⟩

/-- To store what is left, or delete the key, cannot fail. -/
theorem storeShrunk_failsClean (key : Bytes) (v : Value) (len : Nat) {r : Reply}
    (h : r.isError = false) :
    FailsClean (storeShrunk env key v len >>= fun _ => pure r : Cmd n m Reply) := by
  refine FailsClean.of_reply fun c => ⟨r, ?_, h⟩
  unfold storeShrunk
  split <;> rfl

/-- The loop over the keys ends with a count if none of its steps can fail. -/
theorem countKeys_ok {op : Bytes → Cmd n m Bool} (hop : ∀ k c, ∃ b, (op k c).1 = .ok b) :
    ∀ (keys : List Bytes) (count : Int) (c : Context n m),
      ∃ r, (countKeys op keys count c).1 = .ok r
  | [], count, _ => ⟨count, rfl⟩
  | k :: keys, count, c => by
      obtain ⟨b, hb⟩ := hop k c
      have hpair : op k c = (.ok b, (op k c).2) := Prod.ext hb rfl
      rw [countKeys, bind_apply_ok hpair]
      cases b
      · exact countKeys_ok hop keys _ _
      · exact countKeys_ok hop keys _ _

/-- So DEL and UNLINK never fail. -/
theorem countKeys_failsClean {op : Bytes → Cmd n m Bool}
    (hop : ∀ k c, ∃ b, (op k c).1 = .ok b) (keys : List Bytes) :
    FailsClean (countKeys op keys 0 >>= fun count => pure (.int count)) := by
  refine FailsClean.of_reply fun c => ?_
  obtain ⟨r, hr⟩ := countKeys_ok hop keys 0 c
  have hpair : countKeys op keys 0 c = (.ok r, (countKeys op keys 0 c).2) := Prod.ext hr rfl
  rw [bind_apply_ok hpair]
  exact ⟨_, rfl, rfl⟩

theorem cmdSet_failsClean : FailsClean (cmdSet env args : Cmd n m Reply) :=
  FailsClean.bind (Looks.lift _) fun _ => FailsClean.bind (Looks.lift _) fun _ =>
    onShard_failsClean _ _ fun _ => rfl

/-- An overflow is found before the sum is stored. -/
theorem incrStore_failsClean (key : Bytes) (e : Option Entry) (cur delta : Int) :
    FailsClean (incrStore env key e cur delta : Cmd n m Reply) := by
  unfold incrStore
  split
  · exact FailsClean.pure _
  · cases e <;> exact onShard_failsClean _ _ fun _ => rfl

/-- And a value that is no number before that. -/
theorem incrBy_failsClean (key : Bytes) (delta : Int) :
    FailsClean (incrBy env key delta : Cmd n m Reply) := by
  refine withKind_failsClean env (incrStore_failsClean env _ _ _ _) fun e =>
    FailsClean.bind (Looks.lift _) fun b => ?_
  split
  · exact FailsClean.pure _
  · exact incrStore_failsClean env _ _ _ _

theorem cmdDel_failsClean : FailsClean (cmdDel env args : Cmd n m Reply) :=
  FailsClean.bind (Looks.lift _) fun _ => countKeys_failsClean (fun _ _ => ⟨_, rfl⟩) _

theorem cmdUnlink_failsClean : FailsClean (cmdUnlink env args : Cmd n m Reply) :=
  FailsClean.bind (Looks.lift _) fun _ => countKeys_failsClean (fun _ _ => ⟨_, rfl⟩) _

/-- Whether the key was there or not, the reply is a number. -/
theorem expireAt_failsClean (key : Bytes) (at' : Time) :
    FailsClean (expireAt env key at' : Cmd n m Reply) := by
  refine FailsClean.of_reply fun c => ?_
  unfold expireAt
  rw [bind_apply_ok (m := setExpire env key at') (s := c) rfl]
  split <;> exact ⟨_, rfl, rfl⟩

theorem cmdExpire_failsClean : FailsClean (cmdExpire env args : Cmd n m Reply) := by
  refine FailsClean.bind (Looks.lift _) fun arg2 => ?_
  split
  · exact FailsClean.pure _
  · exact FailsClean.bind (Looks.lift _) fun _ => expireAt_failsClean env _ _

theorem cmdPExpireAt_failsClean : FailsClean (cmdPExpireAt env args : Cmd n m Reply) := by
  refine FailsClean.bind (Looks.lift _) fun arg2 => ?_
  split
  · exact FailsClean.pure _
  · exact FailsClean.bind (Looks.lift _) fun _ => expireAt_failsClean env _ _

theorem cmdPersist_failsClean : FailsClean (cmdPersist env args : Cmd n m Reply) := by
  refine FailsClean.bind (Looks.lift _) fun key => FailsClean.of_reply fun c => ?_
  rw [bind_apply_ok (m := persist env key) (s := c) rfl]
  split <;> exact ⟨_, rfl, rfl⟩

/-- The elements are pushed on the handler's own value, which one write then stores. -/
theorem listPush_failsClean (front : Bool) :
    FailsClean (listPush env front args : Cmd n m Reply) :=
  FailsClean.bind (Looks.lift _) fun _ => FailsClean.bind (Looks.lift _) fun _ =>
    withKind_failsClean env
      (FailsClean.bind (Looks.lift _) fun _ => onShard_failsClean _ _ fun _ => rfl) fun _ =>
      FailsClean.bind (Looks.lift _) fun _ => FailsClean.bind (Looks.lift _) fun _ =>
        onShard_failsClean _ _ fun _ => rfl

/-- A pop that fails fails before the shorter list is stored. -/
theorem popReply_failsClean (front : Bool) (key : Bytes) (count : Option Nat) :
    FailsClean (popReply env front key count : Cmd n m Reply) := by
  refine withKind_failsClean env (FailsClean.pure _) fun e =>
    FailsClean.bind (Looks.lift _) fun l => ?_
  cases count with
  | none => exact FailsClean.bind (Looks.lift _) fun _ => storeShrunk_failsClean env _ _ _ rfl
  | some count =>
    exact FailsClean.bind (Looks.lift _) fun _ => FailsClean.bind (Looks.lift _) fun _ =>
      storeShrunk_failsClean env _ _ _ rfl

theorem listPop_failsClean (front : Bool) :
    FailsClean (listPop env front args : Cmd n m Reply) := by
  unfold listPop
  split
  · exact FailsClean.bind (Looks.lift _) fun _ => FailsClean.pure _
  · split
    · refine FailsClean.bind (Looks.lift _) fun arg2 => ?_
      split
      · exact FailsClean.pure _
      · split
        · exact FailsClean.pure _
        · exact FailsClean.bind (Looks.lift _) fun _ => popReply_failsClean env _ _ _
    · exact FailsClean.bind (Looks.lift _) fun _ => popReply_failsClean env _ _ _

theorem cmdHSet_failsClean : FailsClean (cmdHSet env args : Cmd n m Reply) := by
  unfold cmdHSet
  split
  · exact FailsClean.pure _
  · exact FailsClean.bind (Looks.lift _) fun _ => FailsClean.bind (Looks.lift _) fun _ =>
      withKind_failsClean env
        (FailsClean.bind (Looks.lift _) fun _ => onShard_failsClean _ _ fun _ => rfl) fun _ =>
        FailsClean.bind (Looks.lift _) fun _ => FailsClean.bind (Looks.lift _) fun _ =>
          onShard_failsClean _ _ fun _ => rfl

theorem cmdHDel_failsClean : FailsClean (cmdHDel env args : Cmd n m Reply) :=
  FailsClean.bind (Looks.lift _) fun _ => withKind_failsClean env (FailsClean.pure _) fun _ =>
    FailsClean.bind (Looks.lift _) fun _ => FailsClean.bind (Looks.lift _) fun _ =>
      FailsClean.bind (Looks.lift _) fun _ => storeShrunk_failsClean env _ _ _ rfl

theorem cmdSAdd_failsClean : FailsClean (cmdSAdd env args : Cmd n m Reply) :=
  FailsClean.bind (Looks.lift _) fun _ => FailsClean.bind (Looks.lift _) fun _ =>
    withKind_failsClean env
      (FailsClean.bind (Looks.lift _) fun _ => onShard_failsClean _ _ fun _ => rfl) fun _ =>
      FailsClean.bind (Looks.lift _) fun _ => FailsClean.bind (Looks.lift _) fun _ =>
        onShard_failsClean _ _ fun _ => rfl

theorem cmdSRem_failsClean : FailsClean (cmdSRem env args : Cmd n m Reply) :=
  FailsClean.bind (Looks.lift _) fun _ => withKind_failsClean env (FailsClean.pure _) fun _ =>
    FailsClean.bind (Looks.lift _) fun _ => FailsClean.bind (Looks.lift _) fun _ =>
      FailsClean.bind (Looks.lift _) fun _ => storeShrunk_failsClean env _ _ _ rfl

/-- A score that does not parse is found before the first pair is added. -/
theorem cmdZAdd_failsClean : FailsClean (cmdZAdd env args : Cmd n m Reply) := by
  unfold cmdZAdd
  split
  · exact FailsClean.pure _
  · refine FailsClean.bind (Looks.lift _) fun rest => ?_
    split
    · exact FailsClean.pure _
    · have hrng : Looks (getRng : Cmd n m Rng) := Unchanged.refl
      refine FailsClean.bind (Looks.lift _) fun _ => FailsClean.bind hrng fun _ =>
        withKind_failsClean env ?_ fun e => FailsClean.bind (Looks.lift _) fun _ => ?_
      · exact FailsClean.bind (Looks.lift _) fun _ => FailsClean.of_reply fun _ => ⟨_, rfl, rfl⟩
      · exact FailsClean.bind (Looks.lift _) fun _ => FailsClean.of_reply fun _ => ⟨_, rfl, rfl⟩

/-- An index that is refused leaves the selection as it was. -/
theorem cmdSelect_failsClean : FailsClean (cmdSelect args : Cmd n m Reply) := by
  refine FailsClean.bind (Looks.lift _) fun arg1 => ?_
  split
  · exact FailsClean.pure _
  · next index _ =>
      intro c hbad
      by_cases h : 0 ≤ index ∧ index.toNat < n
      · rw [bind_apply_ok (select_of_lt h c)] at hbad
        exact absurd (hbad _ rfl) (by decide)
      · rw [bind_apply_ok (select_of_not_lt h c)]
        exact Unchanged.refl c

theorem cmdFlushDB_failsClean : FailsClean (cmdFlushDB args : Cmd n m Reply) :=
  FailsClean.of_reply fun _ => ⟨_, rfl, rfl⟩

end Clean

/-! ## The whole table -/

/-- A fact about every command of the table, command by command. -/
theorem forall_registry {P : Command n m → Prop}
    (strings : ∀ c ∈ stringCommands, P c) (keys : ∀ c ∈ keyCommands, P c)
    (lists : ∀ c ∈ listCommands, P c) (hashes : ∀ c ∈ hashCommands, P c)
    (sets : ∀ c ∈ setCommands, P c) (zsets : ∀ c ∈ zsetCommands, P c)
    (server : ∀ c ∈ serverCommands, P c) : ∀ c ∈ registry, P c := by
  intro c hc
  simp only [registry, List.mem_append] at hc
  rcases hc with (((((h | h) | h) | h) | h) | h) | h
  · exact strings c h
  · exact keys c h
  · exact lists c h
  · exact hashes c h
  · exact sets c h
  · exact zsets c h
  · exact server c h

/-- A fact about the commands of one key: all but those on several keys and on none. -/
theorem forall_singleKey {P : Command n m → Prop} (strings : ∀ c ∈ stringCommands, P c)
    (keys : ∀ c ∈ keyCommands.drop 3, P c) (lists : ∀ c ∈ listCommands, P c)
    (hashes : ∀ c ∈ hashCommands, P c) (sets : ∀ c ∈ setCommands.take 3, P c)
    (zsets : ∀ c ∈ zsetCommands, P c) : ∀ c ∈ registry, c.singleKey = true → P c := by
  have hno {c : Command n m} (h : c.singleKey = false) : c.singleKey = true → P c :=
    fun h' => absurd (h.symm.trans h') Bool.false_ne_true
  refine forall_registry (fun c h _ => strings c h) ?_ (fun c h _ => lists c h)
    (fun c h _ => hashes c h) ?_ (fun c h _ => zsets c h) ?_
  · rw [← List.take_append_drop 3 keyCommands, List.forall_mem_append]
    refine ⟨?_, fun c h _ => keys c h⟩
    simp only [keyCommands, List.take_succ_cons, List.take_zero, List.forall_mem_cons]
    exact ⟨hno rfl, hno rfl, hno rfl, List.forall_mem_nil _⟩
  · rw [← List.take_append_drop 3 setCommands, List.forall_mem_append]
    refine ⟨fun c h _ => sets c h, ?_⟩
    simp only [setCommands, List.drop_succ_cons, List.drop_zero, List.forall_mem_cons]
    exact ⟨hno rfl, List.forall_mem_nil _⟩
  · simp only [serverCommands, List.forall_mem_cons]
    exact ⟨hno rfl, hno rfl, hno rfl, hno rfl, List.forall_mem_nil _⟩

/-- A fact about the commands of several keys. -/
theorem forall_multiKey {P : Command n m → Prop} (del : P (.writeKeys "del" (-2) cmdDel))
    (unlink : P (.writeKeys "unlink" (-2) cmdUnlink))
    (exist : P (.readKeys "exists" (-2) cmdExists))
    (sinter : P (.readKeys "sinter" (-2) cmdSInter)) :
    ∀ c ∈ registry, c.firstKey = 1 → c.lastKey = -1 → P c := by
  have hsingle {c : Command n m} (h : c.lastKey = 1) : c.firstKey = 1 → c.lastKey = -1 → P c :=
    fun _ h' => absurd (h.symm.trans h') (by decide)
  have hnone {c : Command n m} (h : c.firstKey = 0) : c.firstKey = 1 → c.lastKey = -1 → P c :=
    fun h' _ => absurd (h.symm.trans h') (by decide)
  refine forall_registry ?_ ?_ ?_ ?_ ?_ ?_ ?_
  · simp only [stringCommands, List.forall_mem_cons]
    exact ⟨hsingle rfl, hsingle rfl, hsingle rfl, hsingle rfl, List.forall_mem_nil _⟩
  · simp only [keyCommands, List.forall_mem_cons]
    exact ⟨fun _ _ => del, fun _ _ => unlink, fun _ _ => exist, hsingle rfl, hsingle rfl,
      hsingle rfl, hsingle rfl, hsingle rfl, List.forall_mem_nil _⟩
  · simp only [listCommands, List.forall_mem_cons]
    exact ⟨hsingle rfl, hsingle rfl, hsingle rfl, hsingle rfl, hsingle rfl, hsingle rfl,
      List.forall_mem_nil _⟩
  · simp only [hashCommands, List.forall_mem_cons]
    exact ⟨hsingle rfl, hsingle rfl, hsingle rfl, hsingle rfl, List.forall_mem_nil _⟩
  · simp only [setCommands, List.forall_mem_cons]
    exact ⟨hsingle rfl, hsingle rfl, hsingle rfl, fun _ _ => sinter, List.forall_mem_nil _⟩
  · simp only [zsetCommands, List.forall_mem_cons]
    exact ⟨hsingle rfl, hsingle rfl, hsingle rfl, List.forall_mem_nil _⟩
  · simp only [serverCommands, List.forall_mem_cons]
    exact ⟨hnone rfl, hnone rfl, hnone rfl, hnone rfl, List.forall_mem_nil _⟩

/-- Where a command finds its keys. -/
inductive Command.Shape (cmd : Command n m) : Prop where
  | single (key : cmd.singleKey = true) (long : ∀ k, cmd.accepts k = true → 2 ≤ k)
  | multi (first : cmd.firstKey = 1) (last : cmd.lastKey = -1) (step : cmd.keyStep = 1)
      (part : cmd.wholeDB = false) (long : ∀ k, cmd.accepts k = true → 2 ≤ k)
  | whole (is : cmd = .whole "flushdb" (-1) fun _ => cmdFlushDB)
  | plain (is : cmd = .plain "ping" (-1) (fun _ => cmdPing) ∨
      cmd = .plain "select" 2 (fun _ => cmdSelect) ∨ cmd = .plain "config" (-2) cmdConfig)

/-- A fixed or a least number of arguments that is at least two. -/
theorem two_le_of_accepts {cmd : Command n m} (h : 2 ≤ cmd.arity ∨ cmd.arity ≤ -2) (k : Nat)
    (hacc : cmd.accepts k = true) : 2 ≤ k := by
  unfold Command.accepts at hacc
  split at hacc
  · have hk := of_decide_eq_true hacc
    omega
  · have hk := of_decide_eq_true hacc
    omega

/-- **Every command finds its keys in one of four ways**, and one with keys takes at least one. -/
theorem registry_shape : ∀ c ∈ (registry : List (Command n m)), c.Shape := by
  have hread (name : String) (arity : Int) (run : Handler n m) (h : 2 ≤ arity ∨ arity ≤ -2) :
      (Command.readKey name arity run).Shape := .single rfl (two_le_of_accepts h)
  have hwrite (name : String) (arity : Int) (run : Handler n m) (h : 2 ≤ arity ∨ arity ≤ -2) :
      (Command.writeKey name arity run).Shape := .single rfl (two_le_of_accepts h)
  refine forall_registry ?_ ?_ ?_ ?_ ?_ ?_ ?_
  · simp only [stringCommands, List.forall_mem_cons]
    refine ⟨hread _ _ _ ?_, hwrite _ _ _ ?_, hwrite _ _ _ ?_, hwrite _ _ _ ?_,
      List.forall_mem_nil _⟩ <;> decide
  · simp only [keyCommands, List.forall_mem_cons]
    refine ⟨.multi rfl rfl rfl rfl (two_le_of_accepts ?_),
      .multi rfl rfl rfl rfl (two_le_of_accepts ?_), .multi rfl rfl rfl rfl (two_le_of_accepts ?_),
      hwrite _ _ _ ?_, hwrite _ _ _ ?_, hread _ _ _ ?_, hwrite _ _ _ ?_, hread _ _ _ ?_,
      List.forall_mem_nil _⟩ <;> simp [Command.writeKeys, Command.readKeys]
  · simp only [listCommands, List.forall_mem_cons]
    refine ⟨hwrite _ _ _ ?_, hwrite _ _ _ ?_, hwrite _ _ _ ?_, hwrite _ _ _ ?_, hread _ _ _ ?_,
      hread _ _ _ ?_, List.forall_mem_nil _⟩ <;> decide
  · simp only [hashCommands, List.forall_mem_cons]
    refine ⟨hwrite _ _ _ ?_, hread _ _ _ ?_, hwrite _ _ _ ?_, hread _ _ _ ?_,
      List.forall_mem_nil _⟩ <;> decide
  · simp only [setCommands, List.forall_mem_cons]
    refine ⟨hwrite _ _ _ ?_, hwrite _ _ _ ?_, hread _ _ _ ?_,
      .multi rfl rfl rfl rfl (two_le_of_accepts ?_), List.forall_mem_nil _⟩ <;>
      simp [Command.readKeys]
  · simp only [zsetCommands, List.forall_mem_cons]
    refine ⟨hwrite _ _ _ ?_, hread _ _ _ ?_, hread _ _ _ ?_, List.forall_mem_nil _⟩ <;> decide
  · simp only [serverCommands, List.forall_mem_cons]
    exact ⟨.plain (.inl rfl), .plain (.inr (.inl rfl)), .plain (.inr (.inr rfl)), .whole rfl,
      List.forall_mem_nil _⟩

/-- The requests a command accepts, by where it finds its keys. -/
inductive Command.Takes (cmd : Command n m) : List Bytes → Prop where
  | single {name key : Bytes} {rest : List Bytes} (single : cmd.singleKey = true) :
      Takes cmd (name :: key :: rest)
  | multi {name key : Bytes} {keys : List Bytes} (first : cmd.firstKey = 1) (last : cmd.lastKey = -1)
      (step : cmd.keyStep = 1) (part : cmd.wholeDB = false) : Takes cmd (name :: key :: keys)
  | whole {args : List Bytes} (is : cmd = .whole "flushdb" (-1) fun _ => cmdFlushDB) :
      Takes cmd args
  | ping {args : List Bytes} (is : cmd = .plain "ping" (-1) fun _ => cmdPing) : Takes cmd args
  | select {name index : Bytes} {rest : List Bytes}
      (is : cmd = .plain "select" 2 fun _ => cmdSelect) : Takes cmd (name :: index :: rest)
  | config {name sub : Bytes} {rest : List Bytes} (is : cmd = .plain "config" (-2) cmdConfig) :
      Takes cmd (name :: sub :: rest)

/-- **What a command accepts**, by where its keys are. -/
theorem takes_of_accepts {cmd : Command n m} (hcmd : cmd ∈ registry) {args : List Bytes}
    (hacc : cmd.accepts args.length = true) : cmd.Takes args := by
  cases registry_shape cmd hcmd with
  | single hkey hlong =>
    match args, hlong _ hacc with
    | _ :: _ :: _, _ => exact .single hkey
  | multi hfirst hlast hstep hpart hlong =>
    match args, hlong _ hacc with
    | _ :: _ :: _, _ => exact .multi hfirst hlast hstep hpart
  | whole his => exact .whole his
  | plain his =>
    rcases his with rfl | rfl | rfl
    · exact .ping rfl
    · match args, hacc with
      | _ :: _ :: _, _ => exact .select rfl
    · match args, hacc with
      | _ :: _ :: _, _ => exact .config rfl

/-- Does the command work on a database? -/
def Command.onData (cmd : Command n m) : Bool := cmd.firstKey == 1 || cmd.wholeDB

/-- The requests of the commands that do not. -/
inductive Command.TakesPlain (cmd : Command n m) : List Bytes → Prop where
  | ping {args : List Bytes} (is : cmd = .plain "ping" (-1) fun _ => cmdPing) : TakesPlain cmd args
  | select {name index : Bytes} {rest : List Bytes}
      (is : cmd = .plain "select" 2 fun _ => cmdSelect) : TakesPlain cmd (name :: index :: rest)
  | config {name sub : Bytes} {rest : List Bytes} (is : cmd = .plain "config" (-2) cmdConfig) :
      TakesPlain cmd (name :: sub :: rest)

theorem takesPlain_of_accepts {cmd : Command n m} (hcmd : cmd ∈ registry)
    (hplain : cmd.onData = false) {args : List Bytes} (hacc : cmd.accepts args.length = true) :
    cmd.TakesPlain args := by
  cases takes_of_accepts hcmd hacc with
  | single hkey =>
    simp only [Command.singleKey, Bool.and_eq_true, decide_eq_true_eq] at hkey
    simp [Command.onData, hkey.1.1.1] at hplain
  | multi hfirst => simp [Command.onData, hfirst] at hplain
  | whole his =>
    subst his
    cases hplain
  | ping his => exact .ping his
  | select his => exact .select his
  | config his => exact .config his

/-- A command of one key that only reads keeps to every footprint that lets its key be read. -/
theorem singleKey_reads (env : Env m) {R F : Context n m → Context n m → Prop} (hF : Framed R F)
    {name key : Bytes} (hr : ReadAccess R F env key) (rest : List Bytes) :
    ∀ c ∈ (registry : List (Command n m)), c.singleKey = true → c.readOnly = true →
      Within R F (c.run env (name :: key :: rest)) := by
  -- nothing is asked of the commands that write
  have hno {c : Command n m} (h : c.readOnly = false) :
      c.readOnly = true → Within R F (c.run env (name :: key :: rest)) :=
    fun h' => absurd (h.symm.trans h') Bool.false_ne_true
  refine forall_singleKey ?_ ?_ ?_ ?_ ?_ ?_
  · simp only [stringCommands, List.forall_mem_cons]
    exact ⟨fun _ => cmdGet_within env hF hr rest, hno rfl, hno rfl, hno rfl, List.forall_mem_nil _⟩
  · simp only [keyCommands, List.drop_succ_cons, List.drop_zero, List.forall_mem_cons]
    exact ⟨hno rfl, hno rfl, fun _ => cmdTTL_within env hF hr rest, hno rfl,
      fun _ => cmdType_within env hF hr rest, List.forall_mem_nil _⟩
  · simp only [listCommands, List.forall_mem_cons]
    exact ⟨hno rfl, hno rfl, hno rfl, hno rfl, fun _ => cmdLRange_within env hF hr rest,
      fun _ => cmdLLen_within env hF hr rest, List.forall_mem_nil _⟩
  · simp only [hashCommands, List.forall_mem_cons]
    exact ⟨hno rfl, fun _ => cmdHGet_within env hF hr rest, hno rfl,
      fun _ => cmdHGetAll_within env hF hr rest, List.forall_mem_nil _⟩
  · simp only [setCommands, List.take_succ_cons, List.take_zero, List.forall_mem_cons]
    exact ⟨hno rfl, hno rfl, fun _ => cmdSMembers_within env hF hr rest, List.forall_mem_nil _⟩
  · simp only [zsetCommands, List.forall_mem_cons]
    exact ⟨hno rfl, fun _ => cmdZRange_within env hF hr rest,
      fun _ => cmdZScore_within env hF hr rest, List.forall_mem_nil _⟩

/-- **A read-only command changes nothing.** -/
theorem run_looks (env : Env m) {cmd : Command n m} (hcmd : cmd ∈ registry)
    (hread : cmd.readOnly = true) {args : List Bytes} (hacc : cmd.accepts args.length = true) :
    Looks (cmd.run env args) := by
  cases takes_of_accepts hcmd hacc with
  | single hkey =>
    exact (singleKey_reads env Looks.framed (Looks.reads env _) _ cmd hcmd hkey hread).frame
  | @multi name key keys hfirst hlast =>
    have hall : ∀ k ∈ key :: keys, ReadAccess (n := n) Eq Unchanged env k :=
      fun k _ => Looks.reads env k
    exact forall_multiKey (P := fun c => c.readOnly = true → Looks (c.run env (name :: key :: keys)))
      nofun nofun (fun _ => (cmdExists_within env Looks.framed hall).frame)
      (fun _ => (cmdSInter_within env Looks.framed hall).frame) cmd hcmd hfirst hlast hread
  | whole his | ping his | select his | config his =>
    subst his
    cases hread

/-- A command that writes and fails. -/
theorem write_failsClean (env : Env m) (args : List Bytes) :
    ∀ c ∈ (registry : List (Command n m)), c.readOnly = false → FailsClean (c.run env args) := by
  have hno {c : Command n m} (h : c.readOnly = true) :
      c.readOnly = false → FailsClean (c.run env args) :=
    fun h' => absurd (h'.symm.trans h) Bool.false_ne_true
  refine forall_registry ?_ ?_ ?_ ?_ ?_ ?_ ?_
  · simp only [stringCommands, List.forall_mem_cons]
    exact ⟨hno rfl, fun _ => cmdSet_failsClean env args,
      fun _ => FailsClean.bind (Looks.lift _) fun _ => incrBy_failsClean env _ _,
      fun _ => FailsClean.bind (Looks.lift _) fun _ => incrBy_failsClean env _ _,
      List.forall_mem_nil _⟩
  · simp only [keyCommands, List.forall_mem_cons]
    exact ⟨fun _ => cmdDel_failsClean env args, fun _ => cmdUnlink_failsClean env args, hno rfl,
      fun _ => cmdExpire_failsClean env args, fun _ => cmdPExpireAt_failsClean env args, hno rfl,
      fun _ => cmdPersist_failsClean env args, hno rfl, List.forall_mem_nil _⟩
  · simp only [listCommands, List.forall_mem_cons]
    exact ⟨fun _ => listPush_failsClean env args _, fun _ => listPush_failsClean env args _,
      fun _ => listPop_failsClean env args _, fun _ => listPop_failsClean env args _, hno rfl, hno rfl,
      List.forall_mem_nil _⟩
  · simp only [hashCommands, List.forall_mem_cons]
    exact ⟨fun _ => cmdHSet_failsClean env args, hno rfl, fun _ => cmdHDel_failsClean env args,
      hno rfl, List.forall_mem_nil _⟩
  · simp only [setCommands, List.forall_mem_cons]
    exact ⟨fun _ => cmdSAdd_failsClean env args, fun _ => cmdSRem_failsClean env args, hno rfl,
      hno rfl, List.forall_mem_nil _⟩
  · simp only [zsetCommands, List.forall_mem_cons]
    exact ⟨fun _ => cmdZAdd_failsClean env args, hno rfl, hno rfl, List.forall_mem_nil _⟩
  · simp only [serverCommands, List.forall_mem_cons]
    exact ⟨fun _ => (cmdPing_looks args).guarded, fun _ => cmdSelect_failsClean args,
      fun _ => (cmdConfig_looks env args).guarded, fun _ => cmdFlushDB_failsClean args,
      List.forall_mem_nil _⟩

/-- **A command that fails changes nothing.** -/
theorem run_failsClean (env : Env m) {cmd : Command n m} (hcmd : cmd ∈ registry)
    {args : List Bytes} (hacc : cmd.accepts args.length = true) : FailsClean (cmd.run env args) := by
  cases hread : cmd.readOnly with
  | true => exact (run_looks env hcmd hread hacc).guarded
  | false => exact write_failsClean env args cmd hcmd hread

/-- A command of one key keeps to every footprint that gives access to its key. -/
theorem singleKey_within (env : Env m) {R F : Context n m → Context n m → Prop} (hF : Framed R F)
    {name key : Bytes} (hk : Access R F env key) (rest : List Bytes) :
    ∀ c ∈ (registry : List (Command n m)), c.singleKey = true →
      Within R F (c.run env (name :: key :: rest)) := by
  intro c hc hkey
  cases hread : c.readOnly with
  | true => exact singleKey_reads env hF hk.toReadAccess rest c hc hkey hread
  | false =>
    revert hread
    -- the other half of the table: the commands that write
    have hno {c : Command n m} (h : c.readOnly = true) :
        c.readOnly = false → Within R F (c.run env (name :: key :: rest)) :=
      fun h' => absurd (h'.symm.trans h) Bool.false_ne_true
    revert c
    refine forall_singleKey ?_ ?_ ?_ ?_ ?_ ?_
    · simp only [stringCommands, List.forall_mem_cons]
      exact ⟨hno rfl, fun _ => cmdSet_within env hF hk rest, fun _ => incrBy_within env hF hk _,
        fun _ => incrBy_within env hF hk _, List.forall_mem_nil _⟩
    · simp only [keyCommands, List.drop_succ_cons, List.drop_zero, List.forall_mem_cons]
      exact ⟨fun _ => cmdExpire_within env hF hk rest, fun _ => cmdPExpireAt_within env hF hk rest,
        hno rfl, fun _ => cmdPersist_within env hF hk rest, hno rfl, List.forall_mem_nil _⟩
    · simp only [listCommands, List.forall_mem_cons]
      exact ⟨fun _ => listPush_within env hF hk _ rest, fun _ => listPush_within env hF hk _ rest,
        fun _ => listPop_within env hF hk _ rest, fun _ => listPop_within env hF hk _ rest, hno rfl,
        hno rfl, List.forall_mem_nil _⟩
    · simp only [hashCommands, List.forall_mem_cons]
      exact ⟨fun _ => cmdHSet_within env hF hk rest, hno rfl,
        fun _ => cmdHDel_within env hF hk rest, hno rfl, List.forall_mem_nil _⟩
    · simp only [setCommands, List.take_succ_cons, List.take_zero, List.forall_mem_cons]
      exact ⟨fun _ => cmdSAdd_within env hF hk rest, fun _ => cmdSRem_within env hF hk rest, hno rfl,
        List.forall_mem_nil _⟩
    · simp only [zsetCommands, List.forall_mem_cons]
      exact ⟨fun _ => cmdZAdd_within env hF hk rest, hno rfl, hno rfl, List.forall_mem_nil _⟩

/-- A command of several keys keeps to every footprint that gives access to them. -/
theorem multiKey_within (env : Env m) {R F : Context n m → Context n m → Prop} (hF : Framed R F)
    {name : Bytes} {keys : List Bytes} (hk : ∀ k ∈ keys, Access R F env k) :
    ∀ c ∈ (registry : List (Command n m)), c.firstKey = 1 → c.lastKey = -1 →
      Within R F (c.run env (name :: keys)) :=
  forall_multiKey (cmdDel_within env hF hk) (cmdUnlink_within env hF hk)
    (cmdExists_within env hF fun k h => (hk k h).toReadAccess)
    (cmdSInter_within env hF fun k h => (hk k h).toReadAccess)

/-- A command of one key touches its key's shard. -/
theorem singleKey_touches (env : Env m) {S : Finset (Fin m)} {name key : Bytes}
    (hk : env.route key ∈ S) (rest : List Bytes) : ∀ c ∈ (registry : List (Command n m)),
    c.singleKey = true → Touches S (c.run env (name :: key :: rest)) :=
  singleKey_within env (Touches.framed S) (Touches.access hk) rest

/-- A command of several keys touches their shards. -/
theorem multiKey_touches (env : Env m) {S : Finset (Fin m)} {name : Bytes} {keys : List Bytes}
    (hk : ∀ k ∈ keys, env.route k ∈ S) : ∀ c ∈ (registry : List (Command n m)),
    c.firstKey = 1 → c.lastKey = -1 → Touches S (c.run env (name :: keys)) :=
  multiKey_within env (Touches.framed S) fun k h => Touches.access (hk k h)

end Memcore
