import Memcore.Command.Replies
import Memcore.Persistence.AppendLog
import Memcore.Server.Execute

/-!
# Recovery

The parts of `server.go` that turn databases into snapshot records and back: `emitRecords`, and the
`restore` and `replay` functions of `Server.recover`. A panic while a command is replayed is not
recovered from, so here it is a failure of recovery.

Each is tied to the abstract databases: restoring what was emitted gives the entries back, with the
deadline that survives nanoseconds in an `int64` where 0 means none (`AEntry.restored`); replaying a
command has its effect.
-/

namespace Memcore

open Go Prog ByteStream

variable {n m : Nat}

/-- Why recovery gives up. -/
inductive RecoverFailure where
  | snapshotDatabase (db : Int64)
  | databaseOutOfRange
  | panic (p : Panic)

/-! ## Records -/

/-- The deadline of a record: nanoseconds, or 0 for none. -/
def deadlineStamp (expireAt : Time) : Int64 :=
  if !Time.isZero expireAt then Time.unixNano expireAt else 0

/-- The deadline of a restored entry. -/
def stampDeadline (ts : Int64) : Time := if ts ≠ 0 then unixNanos ts else zeroTime

/-- `Server.emitRecords`: the records in the order they are written. -/
def emitRecords (ord : MapOrder) (dbs : Fin n → DB m) : List Record :=
  (List.finRange n).flatMap fun d =>
    (List.finRange m).flatMap fun i =>
      ((dbs d i).range ord).map fun (key, e) =>
        ⟨Int64.ofNat d, key, deadlineStamp e.expireAt, e.value⟩

/-- `restore` of `Server.recover`. -/
def restore (env : Env m) (c : Context n m) (r : Record) : Context n m × Option RecoverFailure :=
  if h : 0 ≤ r.db.toInt ∧ r.db.toInt.toNat < n then
    let d : Fin n := ⟨r.db.toInt.toNat, h.2⟩
    let i := env.route r.key
    let ks := (c.databases d i).setEntry r.key ⟨r.value, stampDeadline r.expireAt⟩
    ({ c with databases := Function.update c.databases d (Function.update (c.databases d) i ks) },
      none)
  else (c, some (.snapshotDatabase r.db))

/-- `replay` of `Server.recover`. -/
def replay (env : Env m) (c : Context n m) (db : Int64) (args : List Bytes) :
    Context n m × Option RecoverFailure :=
  match Cmd.select db.toInt c with
  | (.ok true, c) =>
    match dispatch env args c with
    | (.ok _, c) => (c, none)
    | (.error p, c) => (c, some (.panic p))
  | (_, c) => (c, some .databaseOutOfRange)

/-! ## What restoring and replaying do -/

/-- An entry after a round trip through a record. -/
def AEntry.restored (e : AEntry) : AEntry := ⟨e.value, stampDeadline (deadlineStamp e.expireAt)⟩

/-- The abstract databases after a request in database `d`. -/
def effectOf (env : Env m) (d : Fin n) (args : List Bytes) (A : Fin n → ADB) : Fin n → ADB :=
  match (resolve args : Except Reply (Command n m)) with
  | .error _ => A
  | .ok cmd => Function.update A d (cmd.effect env.now env.limits env.host args (A d))

/-- A database index is a Go `int`. -/
theorem toInt_ofNat_index (hn : n < 2 ^ 63) (d : Fin n) : (Int64.ofNat d).toInt = d :=
  Int64.toInt_ofNat_of_lt (d.isLt.trans hn)

theorem lookupFold_some {name : Bytes} {cmd : Command n m} (h : lookupFold name = some cmd) :
    cmd ∈ registry ∧ cmd.name = foldName name := by
  unfold lookupFold at h
  split at h
  next => cases h
  next =>
    have hname := List.find?_some h
    exact ⟨List.mem_of_find?_eq_some h, of_decide_eq_true hname⟩

theorem resolve_ok {args : List Bytes} {cmd : Command n m} (h : resolve args = .ok cmd) :
    cmd ∈ registry ∧ cmd.accepts args.length = true ∧
      ∃ name rest, args = name :: rest ∧ cmd.name = foldName name := by
  match args with
  | [] => cases h
  | name :: rest =>
    simp only [resolve] at h
    split at h
    next => cases h
    next cmd' hl =>
      split at h
      next => cases h
      next hacc =>
        cases h
        obtain ⟨hcmd, hname⟩ := lookupFold_some hl
        exact ⟨hcmd, by simpa using hacc, name, rest, rfl, hname⟩

theorem restore_refines (hn : n < 2 ^ 63) {env : Env m} {c : Context n m} {A : Fin n → ADB}
    (h : Databases.Repr env c.databases A) {r : Record} {d : Fin n} {a : AVal}
    (hdb : r.db = Int64.ofNat d) (hv : r.value.Repr a) (hb : r.value.Bounded env.limits) :
    (restore env c r).2 = none ∧ Databases.Repr env (restore env c r).1.databases
      (Function.update A d (Function.update (A d) r.key
        (some ⟨a, stampDeadline r.expireAt⟩))) := by
  have hint : r.db.toInt = d := by rw [hdb, toInt_ofNat_index hn]
  have hlt : 0 ≤ r.db.toInt ∧ r.db.toInt.toNat < n := by
    rw [hint]
    exact ⟨Int.natCast_nonneg _, by simp⟩
  have hd : (⟨r.db.toInt.toNat, hlt.2⟩ : Fin n) = d := Fin.ext (by simp [hint])
  simp only [restore, dif_pos hlt, hd, true_and]
  intro k
  by_cases hk : k = d
  · subst hk
    simp only [Function.update_self]
    exact (h k).update ((h k _).setEntry r.key ⟨hv, hb, rfl⟩)
  · simp only [Function.update_of_ne hk]
    exact h k

/-- Replaying a command of database `d` is dispatching it with `d` selected. -/
theorem replay_eq (hn : n < 2 ^ 63) (env : Env m) (c : Context n m) (d : Fin n)
    (args : List Bytes) :
    replay env c (Int64.ofNat d) args
      = ((dispatch env args { c with index := d }).2,
        match (dispatch env args { c with index := d }).1 with
        | .ok _ => none
        | .error p => some (.panic p)) := by
  have hint := toInt_ofNat_index hn d
  have hlt : 0 ≤ (Int64.ofNat d).toInt ∧ (Int64.ofNat d).toInt.toNat < n := by
    rw [hint]
    exact ⟨Int.natCast_nonneg _, by simp⟩
  have hd : (⟨(Int64.ofNat d).toInt.toNat, hlt.2⟩ : Fin n) = d := Fin.ext (by simp [hint])
  rw [replay, select_of_lt hlt, hd]
  rcases hrun : dispatch env args { c with index := d } with ⟨_ | _, _⟩ <;> simp only [hrun]

/-- **Replaying a command has its effect**, and does not fail when the command does not panic. -/
theorem replay_refines (hn : n < 2 ^ 63) {env : Env m} {c : Context n m} {A : Fin n → ADB}
    (h : Databases.Repr env c.databases A) (d : Fin n) (args : List Bytes) :
    Databases.Repr env (replay env c (Int64.ofNat d) args).1.databases (effectOf env d args A) ∧
      (∀ cmd : Command n m, resolve args = .ok cmd → cmd.readOnly = false →
        ¬ cmd.Crashes env.now args (A d) → (replay env c (Int64.ofNat d) args).2 = none) := by
  rw [replay_eq hn]
  unfold effectOf dispatch
  cases hres : (resolve args : Except Reply (Command n m)) with
  | error reply => exact ⟨h, nofun⟩
  | ok cmd =>
    obtain ⟨hcmd, hacc, -⟩ := resolve_ok hres
    refine ⟨run_refines (c := { c with index := d }) hcmd hacc h, fun cmd' heq hwrite hcrash => ?_⟩
    cases heq
    obtain ⟨r, hr⟩ :=
      (run_completes_iff (c := { c with index := d }) hcmd hacc (h d)).mpr hcrash
    simp only [hr]

/-! ## Restoring what was emitted -/

theorem mem_emitRecords {ord : MapOrder} {dbs : Fin n → DB m} {r : Record} :
    r ∈ emitRecords ord dbs ↔ ∃ d i key e, (dbs d i).entries.lookup key = some e ∧
      r = ⟨Int64.ofNat d, key, deadlineStamp e.expireAt, e.value⟩ := by
  simp only [emitRecords, Keyspace.range, List.mem_flatMap, List.mem_map, List.mem_finRange,
    true_and, Prod.exists]
  constructor
  · rintro ⟨d, i, key, e, hmem, rfl⟩
    exact ⟨d, i, key, e, ((ord.entries_lists _).2 key e).mp hmem, rfl⟩
  · rintro ⟨d, i, key, e, hl, rfl⟩
    exact ⟨d, i, key, e, ((ord.entries_lists _).2 key e).mpr hl, rfl⟩

/-- `r` is the record of an entry of `A`. -/
def Record.Of (lim : Limits) (A : Fin n → ADB) (r : Record) : Prop :=
  ∃ (d : Fin n) (e : AEntry), r.db = Int64.ofNat d ∧ A d r.key = some e ∧ r.value.Repr e.value ∧
    r.value.Bounded lim ∧ r.expireAt = deadlineStamp e.expireAt

theorem emitRecords_of {env : Env m} {dbs : Fin n → DB m} {A : Fin n → ADB}
    (h : Databases.Repr env dbs A) (ord : MapOrder) :
    ∀ r ∈ emitRecords ord dbs, r.Of env.limits A := by
  intro r hr
  obtain ⟨d, i, key, e, hl, rfl⟩ := mem_emitRecords.mp hr
  have hrel := h d i key
  rw [hl] at hrel
  generalize ho : shardPart env.route (A d) i key = o at hrel
  cases hrel with
  | @some _ ae he =>
    have hA : A d key = some ae := by
      unfold shardPart at ho
      split at ho
      · exact ho
      · cases ho
    exact ⟨d, ae, rfl, hA, he.1, he.2.1, by rw [he.2.2]⟩

theorem exists_mem_emitRecords {env : Env m} {dbs : Fin n → DB m} {A : Fin n → ADB}
    (h : Databases.Repr env dbs A) (ord : MapOrder) {d : Fin n} {key : Bytes} {e : AEntry}
    (he : A d key = some e) : ∃ r ∈ emitRecords ord dbs, r.db = Int64.ofNat d ∧ r.key = key := by
  have hrel := (h d).lookup_entries key
  rw [he] at hrel
  generalize hl : (dbs d (env.route key)).entries.lookup key = o at hrel
  cases hrel with
  | some hr => exact ⟨_, mem_emitRecords.mpr ⟨d, _, key, _, hl, rfl⟩, rfl, rfl⟩

theorem exists_of_forall₂_right {α β : Type} {R : α → β → Prop} {xs : List α} {ys : List β}
    (h : List.Forall₂ R xs ys) : ∀ y ∈ ys, ∃ x ∈ xs, R x y := by
  induction h with
  | nil => nofun
  | cons hR _ ih =>
    refine List.forall_mem_cons.mpr ⟨⟨_, List.mem_cons_self, hR⟩, fun y hy => ?_⟩
    obtain ⟨x, hx, hxy⟩ := ih y hy
    exact ⟨x, List.mem_cons_of_mem _ hx, hxy⟩

/-- Restoring records of `A` one after the other gives the entries they are of. -/
theorem callEach_restore (hn : n < 2 ^ 63) {env : Env m} {A : Fin n → ADB} :
    ∀ (rs : List Record) (c : Context n m) (B : Fin n → ADB), Databases.Repr env c.databases B →
      (∀ r ∈ rs, r.Of env.limits A) →
      (callEach (restore env) rs c).2 = none ∧
      ∃ B', Databases.Repr env (callEach (restore env) rs c).1.databases B' ∧
        ∀ (d : Fin n) (key : Bytes), ((∃ r ∈ rs, r.db = Int64.ofNat d ∧ r.key = key) →
            B' d key = (A d key).map AEntry.restored) ∧
          ((¬ ∃ r ∈ rs, r.db = Int64.ofNat d ∧ r.key = key) → B' d key = B d key)
  | [], c, B, h, _ => ⟨rfl, B, h, fun _ _ => ⟨by simp, fun _ => rfl⟩⟩
  | r :: rs, c, B, h, hof => by
      obtain ⟨⟨d₀, e, hdb, hA, hv, hb, hts⟩, hrest⟩ := List.forall_mem_cons.mp hof
      -- one record stores its entry; of two records of a key the later wins
      obtain ⟨hok, hr⟩ := restore_refines hn h hdb hv hb
      rw [callEach]
      rcases hstep : restore env c r with ⟨c', err⟩
      rw [hstep] at hok hr
      cases hok
      obtain ⟨hnone, B', hB', hspec⟩ := callEach_restore hn rs c' _ hr hrest
      refine ⟨hnone, B', hB', fun d key => ⟨fun hex => ?_, fun hno => ?_⟩⟩
      · by_cases hin : ∃ r ∈ rs, r.db = Int64.ofNat d ∧ r.key = key
        · exact (hspec d key).1 hin
        · -- the last record of the key is `r`
          obtain ⟨r', hmem, hd, rfl⟩ := hex
          obtain rfl : r' = r := by
            rcases List.mem_cons.mp hmem with rfl | hmem
            · rfl
            · exact absurd ⟨r', hmem, hd, rfl⟩ hin
          obtain rfl : d = d₀ := by
            have heq := congrArg Int64.toInt (hd.symm.trans hdb)
            rw [toInt_ofNat_index hn, toInt_ofNat_index hn] at heq
            exact Fin.ext (by exact_mod_cast heq)
          rw [(hspec d _).2 hin, hA]
          simp [AEntry.restored, hts]
      · have hne : ¬ (r.db = Int64.ofNat d ∧ r.key = key) := fun heq =>
          hno ⟨r, List.mem_cons_self, heq⟩
        have hlater : ¬ ∃ r ∈ rs, r.db = Int64.ofNat d ∧ r.key = key := by
          rintro ⟨r', hmem, heq⟩
          exact hno ⟨r', List.mem_cons_of_mem _ hmem, heq⟩
        rw [(hspec d key).2 hlater]
        by_cases hd : d = d₀
        · subst hd
          rw [Function.update_self, Function.update_of_ne fun hk => hne ⟨hdb, hk.symm⟩]
        · rw [Function.update_of_ne hd]

/-- Restoring records of all entries of `A` into empty databases gives `A`, up to what a record keeps
of a deadline. -/
theorem callEach_restore_all (hn : n < 2 ^ 63) {env : Env m} {A : Fin n → ADB} {rs : List Record}
    (hof : ∀ r ∈ rs, r.Of env.limits A)
    (hall : ∀ d key e, A d key = some e → ∃ r ∈ rs, r.db = Int64.ofNat d ∧ r.key = key)
    {c : Context n m} (hc : Databases.Repr env c.databases fun _ _ => none) :
    ∃ c', callEach (restore env) rs c = (c', none) ∧
      Databases.Repr env c'.databases fun d key => (A d key).map AEntry.restored := by
  obtain ⟨hnone, B, hB, hspec⟩ := callEach_restore hn rs c _ hc hof
  refine ⟨_, Prod.ext rfl hnone, ?_⟩
  convert hB using 1
  funext d key
  cases hA : A d key with
  | none =>
    refine ((hspec d key).2 fun ⟨r, hr, hdb, hkey⟩ => ?_).symm
    obtain ⟨d', e, hdb', hA', -⟩ := hof r hr
    have heq := congrArg Int64.toInt (hdb.symm.trans hdb')
    rw [toInt_ofNat_index hn, toInt_ofNat_index hn] at heq
    obtain rfl : d = d' := Fin.ext (by exact_mod_cast heq)
    rw [hkey, hA] at hA'
    cases hA'
  | some e => rw [(hspec d key).1 (hall d key e hA), hA]

theorem callEach_restore_emitRecords (hn : n < 2 ^ 63) {env : Env m} {dbs : Fin n → DB m}
    {A : Fin n → ADB} (h : Databases.Repr env dbs A) (ord : MapOrder) {c : Context n m}
    (hc : Databases.Repr env c.databases fun _ _ => none) :
    ∃ c', callEach (restore env) (emitRecords ord dbs) c = (c', none) ∧
      Databases.Repr env c'.databases fun d key => (A d key).map AEntry.restored :=
  callEach_restore_all hn (emitRecords_of h ord) (fun _ _ _ he => exists_mem_emitRecords h ord he) hc

/-- **A snapshot restores the databases it was taken of**, up to what a record keeps of a
deadline. -/
theorem readSnapshot_emitRecords (hn : n < 2 ^ 63) {env : Env m} {dbs : Fin n → DB m}
    {A : Fin n → ADB} (h : Databases.Repr env dbs A)
    (hsize : ∀ d key e, A d key = some e → e.value.size < 2 ^ 64) (ord : MapOrder)
    (ords : Nat → MapOrder) (rngs : Nat → Rng) (baseGen : Int64) {c : Context n m}
    (hc : Databases.Repr env c.databases fun _ _ => none) :
    ∃ enc c', writeSnapshot ords baseGen (emitRecords ord dbs) = .ok enc ∧
      (∃ bs, enc = snapshotMagic ++ (putUvarint (toUint64 baseGen) ++ bs)) ∧
      readSnapshot env.limits rngs (restore env) enc c = (c', baseGen, none) ∧
      Databases.Repr env c'.databases fun d key => (A d key).map AEntry.restored := by
  obtain ⟨enc, records', hw, hsame, hhead, hread⟩ := readSnapshot_writeSnapshot env.limits ords rngs
    baseGen fun r hr => by
      obtain ⟨d, e, -, hA, hv, -, -⟩ := emitRecords_of h ord r hr
      exact ⟨e.value, hv, hsize d _ e hA⟩
  have hof : ∀ r ∈ records', r.Of env.limits A := by
    intro r' hr'
    obtain ⟨r, hr, hs⟩ := exists_of_forall₂_right hsame r' hr'
    obtain ⟨d, e, hdb, hA, hv, -, hts⟩ := emitRecords_of h ord r hr
    obtain ⟨a, ha, ha', hb⟩ := hs.value
    have hval : e.value = a := (Value.obsEq_iff hv ha).mp ((Value.obsEq_iff ha ha).mpr rfl)
    exact ⟨d, e, hs.db.trans hdb, by rw [hs.key, hA], hval ▸ ha', hb, hs.expireAt.trans hts⟩
  have hall : ∀ d key e, A d key = some e → ∃ r ∈ records', r.db = Int64.ofNat d ∧ r.key = key := by
    intro d key e he
    obtain ⟨r, hr, hdb, hkey⟩ := exists_mem_emitRecords h ord he
    obtain ⟨r', hr', hs⟩ := exists_of_forall₂_right hsame.flip r hr
    exact ⟨r', hr', hs.db.trans hdb, hs.key.trans hkey⟩
  obtain ⟨c', hcall, hrepr⟩ := callEach_restore_all hn hof hall hc
  refine ⟨enc, c', hw, hhead, ?_, hrepr⟩
  rw [hread, hcall]
  rfl

/-! ## Deadlines -/

theorem expired_eq (v : Value) {t : Time} (h : t ≠ zeroTime) (now : Time) :
    Entry.expired ⟨v, t⟩ now = decide (t ≤ now) := by
  simp only [Entry.expired, Entry.hasExpiry, Time.isZero, h, decide_false, Bool.not_false,
    Bool.true_and, ← decide_not]
  exact decide_eq_decide.mpr Int.not_lt

/-- When a deadline survives a record: there is none, or it is a nonzero `int64` of nanoseconds. -/
theorem restored_lifetime_iff (v v' : Value) (t : Time) :
    (∀ now, Entry.expired ⟨v', stampDeadline (deadlineStamp t)⟩ now = Entry.expired ⟨v, t⟩ now) ↔
      t = zeroTime ∨ (minInt64 ≤ t ∧ t ≤ maxInt64 ∧ t ≠ 0) := by
  by_cases hz : t = zeroTime
  · subst hz
    exact iff_of_true (fun _ => rfl) (.inl rfl)
  · have hstamp : deadlineStamp t = Int64.ofInt t := by
      simp [deadlineStamp, Time.isZero, hz, Time.unixNano]
    rw [hstamp, or_iff_right hz]
    constructor
    · intro h
      by_cases hns : Int64.ofInt t = 0
      · -- the restored entry has no deadline
        have ht := h t
        rw [expired_eq v hz, hns] at ht
        simp [stampDeadline, Entry.expired, Entry.hasExpiry, Time.isZero] at ht
      · -- both have one, and it is the first moment at which the entry is expired
        have hlo := (Int64.ofInt t).le_toInt
        have hhi := (Int64.ofInt t).toInt_lt
        have hne : (Int64.ofInt t).toInt ≠ zeroTime := by
          rw [zeroTime]
          omega
        have hd : stampDeadline (Int64.ofInt t) = (Int64.ofInt t).toInt := if_pos hns
        simp only [hd, expired_eq v hz, expired_eq v' hne, decide_eq_decide] at h
        have heq : (Int64.ofInt t).toInt = t := le_antisymm ((h t).mpr le_rfl) ((h _).mp le_rfl)
        rw [heq] at hlo hhi
        refine ⟨hlo, Int.le_sub_one_of_lt hhi, fun h0 => hns ?_⟩
        rw [h0]
        rfl
    · rintro ⟨hlo, hhi, h0⟩
      have hint : (Int64.ofInt t).toInt = t :=
        Int64.toInt_ofInt_of_le hlo (Int.lt_of_le_sub_one hhi)
      have hns : Int64.ofInt t ≠ 0 := by
        intro h
        rw [h] at hint
        exact h0 hint.symm
      have hd : stampDeadline (Int64.ofInt t) = t := (if_pos hns).trans hint
      intro now
      rw [hd, expired_eq v hz, expired_eq v' hz]

/-- The context of a server that starts with nothing. -/
def Context.empty (settings : Option Reloadable) (index : Fin n) (rng : Rng) : Context n m :=
  ⟨fun _ _ => Keyspace.new, settings, index, rng⟩

theorem new_databases_repr (env : Env m) :
    Databases.Repr env (fun (_ : Fin n) _ => Keyspace.new) fun _ _ => none := by
  intro d i
  have hnone : shardPart env.route (fun _ => none) i = fun _ => none := by
    funext key
    simp [shardPart]
  rw [hnone]
  exact Keyspace.new_repr

theorem empty_repr (env : Env m) (settings : Option Reloadable) (index : Fin n) (rng : Rng) :
    Databases.Repr env (Context.empty settings index rng : Context n m).databases
      fun _ _ => none := new_databases_repr env

/-- **What a snapshot does to the lifetime of a key.** Databases written with `emitRecords` and
`WriteSnapshot` and read into empty ones give every entry back with an equal value; it is live at the
same times if and only if it has no deadline, or one that is a nonzero number of nanoseconds in an
`int64`. -/
theorem snapshot_lifetime_iff (hn : n < 2 ^ 63) {env : Env m} {dbs : Fin n → DB m} {A : Fin n → ADB}
    (h : Databases.Repr env dbs A)
    (hsize : ∀ d key e, A d key = some e → e.value.size < 2 ^ 63)
    (ord : MapOrder) (ords : Nat → MapOrder) (rngs : Nat → Rng) (baseGen : Int64)
    (settings : Option Reloadable) (index : Fin n) (rng : Rng) :
    ∃ enc c, writeSnapshot ords baseGen (emitRecords ord dbs) = .ok enc ∧
      readSnapshot env.limits rngs (restore env) enc (Context.empty settings index rng)
        = (c, baseGen, none) ∧
      ∀ d key, Option.Rel (fun e e' : Entry => e.value.ObsEq e'.value ∧
          ((∀ t, e'.expired t = e.expired t) ↔
            e.expireAt = zeroTime ∨
              (minInt64 ≤ e.expireAt ∧ e.expireAt ≤ maxInt64 ∧ e.expireAt ≠ 0)))
        ((dbs d (env.route key)).entries.lookup key)
        ((c.databases d (env.route key)).entries.lookup key) := by
  obtain ⟨enc, c, hw, -, hread, hc⟩ := readSnapshot_emitRecords hn h
    (fun d key e he => (hsize d key e he).trans (by decide)) ord ords rngs baseGen
    (empty_repr env settings index rng)
  refine ⟨enc, c, hw, hread, fun d key => ?_⟩
  -- both entries represent one abstract entry, the second with its deadline stamped and read back
  have hold := (h d).lookup_entries key
  have hnew : Option.Rel (Entry.Repr env.limits) _ ((A d key).map AEntry.restored) :=
    (hc d).lookup_entries key
  generalize (dbs d (env.route key)).entries.lookup key = o at hold
  generalize (c.databases d (env.route key)).entries.lookup key = o' at hnew
  cases hA : A d key with
  | none =>
    rw [hA] at hold hnew
    cases hold
    cases hnew
    exact Option.Rel.none
  | some ae =>
    rw [hA] at hold hnew
    cases hold with
    | @some e _ he =>
      cases hnew with
      | @some e' _ he' =>
        refine Option.Rel.some ⟨(Value.obsEq_iff he.1 he'.1).mpr rfl, ?_⟩
        obtain ⟨v, t⟩ := e
        obtain ⟨v', t'⟩ := e'
        obtain rfl : t = ae.expireAt := he.2.2
        obtain rfl : t' = stampDeadline (deadlineStamp ae.expireAt) := he'.2.2
        exact restored_lifetime_iff v v' ae.expireAt

/-- A session that sets a key and, at one second past 1970, gives it the deadline 1970. -/
def expiredKey : Context 1 1 :=
  (cmdPExpireAt (Env.single (10 ^ 9)) [ascii "PEXPIREAT", ascii "k", ascii "0"]
    (cmdSet (Env.single (10 ^ 9)) [ascii "SET", ascii "k", ascii "v"]
      (Context.empty none 0 fun _ => 0)).2).2

/-- The key is gone, and a snapshot brings it back with no deadline at all. -/
theorem snapshot_revives_expired_key :
    ((expiredKey.databases 0 0).lookup (10 ^ 9) (ascii "k")).isNone = true ∧
      (match writeSnapshot (fun _ => MapOrder.default) 1
          (emitRecords MapOrder.default expiredKey.databases) with
        | .error _ => false
        | .ok enc =>
          match readSnapshot (Env.single 0).limits (fun _ _ => 0)
              (restore (n := 1) (Env.single 0)) enc (Context.empty none 0 fun _ => 0) with
          | (c, _, none) =>
            ((c.databases 0 0).lookup (10 ^ 9) (ascii "k")).any fun e => !e.hasExpiry
          | (_, _, some _) => false) = true := by
  decide +kernel

/-- Databases with one key whose deadline is one second past 1970. -/
theorem snapshot_lifetime_iff_second :
    ∃ enc c, writeSnapshot (fun _ => MapOrder.default) 1 (emitRecords MapOrder.default
          fun (_ : Fin 1) (_ : Fin 1) => Keyspace.new.setEntry (ascii "k") ⟨.str (ascii "v"), 10 ^ 9⟩)
        = .ok enc ∧
      readSnapshot (Env.single 0).limits (fun _ _ => 0) (restore (n := 1) (Env.single 0)) enc
          (Context.empty none 0 fun _ => 0)
        = (c, 1, none) ∧
      ∀ d key, Option.Rel (fun e e' : Entry => e.value.ObsEq e'.value ∧
          ((∀ t, e'.expired t = e.expired t) ↔
            e.expireAt = zeroTime ∨
              (minInt64 ≤ e.expireAt ∧ e.expireAt ≤ maxInt64 ∧ e.expireAt ≠ 0)))
        ((Keyspace.new.setEntry (ascii "k") ⟨.str (ascii "v"), 10 ^ 9⟩).entries.lookup key)
        ((c.databases d 0).entries.lookup key) := by
  have hrepr : Databases.Repr (Env.single 0)
      (fun (_ : Fin 1) (_ : Fin 1) =>
        Keyspace.new.setEntry (ascii "k") ⟨.str (ascii "v"), 10 ^ 9⟩)
      (fun _ => Function.update (fun _ => none) (ascii "k") (some ⟨.str (ascii "v"), 10 ^ 9⟩)) := by
    intro d i key
    have hone := Keyspace.new_repr.setEntry (ascii "k")
      (show Entry.Repr (Env.single 0).limits ⟨.str (ascii "v"), 10 ^ 9⟩ ⟨.str (ascii "v"), 10 ^ 9⟩ from
        ⟨rfl, trivial, rfl⟩) key
    rwa [shardPart, if_pos (Subsingleton.elim _ _)]
  exact snapshot_lifetime_iff (by decide) hrepr
    (fun d key e he => by
      by_cases hk : key = ascii "k"
      · subst hk
        rw [Function.update_self] at he
        cases he
        decide
      · rw [Function.update_of_ne hk] at he
        cases he)
    MapOrder.default (fun _ => MapOrder.default) (fun _ _ => 0) 1 none 0 fun _ => 0

end Memcore
