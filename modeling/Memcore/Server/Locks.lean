import Mathlib.Data.Prod.Lex
import Mathlib.Data.Fintype.Card
import Mathlib.Data.Fintype.Prod
import Mathlib.Data.Fintype.WithTopBot
import Memcore.Lib.RWLock
import Memcore.Server.Concurrent

/-!
# The order of the locks

The locks of the server are those of the shards of every database and `Store.mu` of the append log.
All that takes more than one of them takes them in one order: by database, then by shard, then
`Store.mu`. A command locks the shards of its keys through `shardSet`, which sorts them and drops
duplicates; FLUSHDB all shards of its database; compaction all shards of all databases; active expiry
one at a time; and the log is appended to, or rotated, under the locks of the shards.

So threads that run any of these, in any number and in any order, never deadlock
(`locks_never_deadlock`), although a waiting writer makes readers wait.
-/

namespace Memcore

open Go RWLock

variable {n m : Nat}

/-- The locks in their order; the last one is `Store.mu`. -/
abbrev Lock (n m : Nat) := WithTop (Fin n ×ₗ Fin m)

/-- `db.mus[i]` of the database `d`. -/
def shardLock (d : Fin n) (i : Fin m) : Lock n m := ((toLex (d, i) : Fin n ×ₗ Fin m) : Lock n m)

/-- `Store.mu`. -/
def storeMu : Lock n m := ⊤

/-- `Lock` or `RLock`. -/
def LockMode.mode : LockMode → Mode
  | .read => .read
  | .write => .write

/-! ## Scripts -/

/-- A method of the store: `Append`, `Flush`, `NextGen`, `Rotate`, and the end of `InstallSnapshot`. -/
def storeScript : List (Instr (Lock n m)) := bracket .write [storeMu] []

/-- `execute`: the shards of a command, and the log if it is written to. -/
def commandScript (d : Fin n) (mode : Mode) (shards : List (Fin m)) (logged : Bool) :
    List (Instr (Lock n m)) :=
  bracket mode (shards.map (shardLock d)) (if logged then storeScript else [])

/-- `ExpireCycle`: one shard after the other. -/
def expireScript (d : Fin n) : List (Instr (Lock n m)) :=
  (List.finRange m).flatMap fun i => bracket .write [shardLock d i] []

/-- `compact`: `NextGen`, `lockAllDatabases`, `Rotate`, and `InstallSnapshot` if that is reached. -/
def compactScript (installs : Bool) : List (Instr (Lock n m)) :=
  storeScript ++ (bracket .write ((allShards n m).map fun p => shardLock p.1 p.2) storeScript ++
    if installs then storeScript else [])

/-- What a thread can be doing. -/
inductive Activity (route : Bytes → Fin m) : List (Instr (Lock n m)) → Prop where
  | command {d : Fin n} {cmd : Command n m} {args : List Bytes} {shards : List (Fin m)}
      {logged : Bool} (locks : lockShards route cmd args = .ok shards)
      (write : logged = true → cmd.readOnly = false) :
      Activity route (commandScript d (lockMode cmd).mode shards logged)
  | expireCycle (d : Fin n) : Activity route (expireScript d)
  | compact (installs : Bool) : Activity route (compactScript installs)
  | flush : Activity route storeScript

/-! ## Every script ascends -/

theorem distinctShards_nodup : ∀ (seen rest : List (Fin m)),
    (distinctShards seen rest).Nodup ∧ ∀ i ∈ distinctShards seen rest, i ∉ seen
  | _, [] => ⟨List.nodup_nil, nofun⟩
  | seen, i :: rest => by
      rw [distinctShards]
      split
      · exact distinctShards_nodup seen rest
      · next hi =>
        obtain ⟨hnodup, hnew⟩ := distinctShards_nodup (i :: seen) rest
        refine ⟨List.nodup_cons.mpr ⟨fun hmem => hnew i hmem List.mem_cons_self, hnodup⟩, ?_⟩
        intro j hj
        rcases List.mem_cons.mp hj with rfl | hj
        · exact hi
        · exact fun hseen => hnew j hj (List.mem_cons_of_mem _ hseen)

/-- `shardSet` sorts, and drops duplicates. -/
theorem shardSet_ascends (route : Bytes → Fin m) (keys : List Bytes) :
    (shardSet route keys).Pairwise (· < ·) := by
  unfold shardSet
  split
  · exact .nil
  · exact List.pairwise_singleton _ _
  · have hsorted := List.pairwise_insertionSort (· ≤ ·) (distinctShards [] (keys.map route))
    have hnodup := (List.perm_insertionSort (· ≤ ·) _).nodup_iff.mpr
      (distinctShards_nodup [] (keys.map route)).1
    exact hsorted.imp₂ (fun _ _ hle hne => lt_of_le_of_ne hle hne) hnodup

theorem lockShards_ascends {route : Bytes → Fin m} {cmd : Command n m} {args : List Bytes}
    {shards : List (Fin m)} (h : lockShards route cmd args = .ok shards) :
    shards.Pairwise (· < ·) := by
  unfold lockShards at h
  split at h
  next =>
    cases hkey : Go.index args 1 with
    | error p =>
      rw [hkey] at h
      cases h
    | ok key =>
      rw [hkey] at h
      cases h
      exact List.pairwise_singleton _ _
  next =>
    split at h
    next =>
      cases h
      exact List.pairwise_lt_finRange m
    next =>
      cases hkeys : cmd.keys args with
      | error p =>
        rw [hkeys] at h
        cases h
      | ok keys =>
        rw [hkeys] at h
        cases h
        exact shardSet_ascends route keys

theorem shardLock_lt {d d' : Fin n} {i i' : Fin m} :
    shardLock d i < shardLock d' i' ↔ d < d' ∨ d = d' ∧ i < i' := by
  rw [shardLock, shardLock, WithTop.coe_lt_coe, Prod.Lex.toLex_lt_toLex]

theorem shardLock_lt_storeMu (d : Fin n) (i : Fin m) : shardLock d i < storeMu :=
  WithTop.coe_lt_top _

/-- `Store.mu` can be taken under any locks of shards. -/
theorem storeScript_ascends {held : List (Lock n m × Mode)} (h : ∀ k ∈ held, k.1 < storeMu) :
    after held storeScript = some held := by
  refine after_bracket (List.pairwise_singleton _ _) (fun k hk l hl => ?_) rfl
  rw [List.mem_singleton.mp hl]
  exact h k hk

theorem commandScript_ascends (d : Fin n) (mode : Mode) {shards : List (Fin m)}
    (h : shards.Pairwise (· < ·)) (logged : Bool) :
    after [] (commandScript d mode shards logged) = some [] := by
  refine after_bracket ?_ nofun ?_
  · exact h.map _ fun i j hij => shardLock_lt.mpr (.inr ⟨rfl, hij⟩)
  · cases logged with
    | false => rfl
    | true =>
      refine storeScript_ascends fun k hk => ?_
      simp only [List.append_nil, List.mem_reverse, List.mem_map] at hk
      obtain ⟨_, ⟨i, -, rfl⟩, rfl⟩ := hk
      exact shardLock_lt_storeMu d i

theorem expireScript_ascends (d : Fin n) :
    after [] (expireScript d : List (Instr (Lock n m))) = some [] :=
  after_flatMap fun _ _ => after_bracket (List.pairwise_singleton _ _) nofun rfl

theorem allShards_ascends :
    ((allShards n m).map fun p => shardLock p.1 p.2).Pairwise (· < ·) := by
  rw [List.pairwise_map]
  unfold allShards
  rw [List.pairwise_flatMap]
  constructor
  · intro d _
    rw [List.pairwise_map]
    exact (List.pairwise_lt_finRange m).imp fun hij => shardLock_lt.mpr (.inr ⟨rfl, hij⟩)
  · refine (List.pairwise_lt_finRange n).imp fun hd => ?_
    simp only [List.mem_map]
    rintro _ ⟨i, -, rfl⟩ _ ⟨j, -, rfl⟩
    exact shardLock_lt.mpr (.inl hd)

theorem compactScript_ascends (installs : Bool) :
    after [] (compactScript installs : List (Instr (Lock n m))) = some [] := by
  have hstore : after [] (storeScript : List (Instr (Lock n m))) = some [] :=
    storeScript_ascends nofun
  have hall : after [] (bracket .write ((allShards n m).map fun p => shardLock p.1 p.2) storeScript)
      = some [] := by
    refine after_bracket allShards_ascends nofun (storeScript_ascends fun k hk => ?_)
    simp only [List.append_nil, List.mem_reverse, List.mem_map] at hk
    obtain ⟨_, ⟨p, -, rfl⟩, rfl⟩ := hk
    exact shardLock_lt_storeMu p.1 p.2
  unfold compactScript
  rw [after_append, hstore, Option.bind_some, after_append, hall, Option.bind_some]
  cases installs with
  | false => rfl
  | true => exact hstore

/-- **All that takes locks takes them in ascending order.** -/
theorem activity_ascends {route : Bytes → Fin m} {script : List (Instr (Lock n m))}
    (h : Activity route script) : after [] script = some [] := by
  cases h with
  | command hlocks _ => exact commandScript_ascends _ _ (lockShards_ascends hlocks) _
  | expireCycle d => exact expireScript_ascends d
  | compact installs => exact compactScript_ascends installs
  | flush => exact storeScript_ascends nofun

/-! ## No deadlocks -/

section Runs

variable {τ : Type} [DecidableEq τ] {route : Bytes → Fin m} {s : State τ (Lock n m)}
  {es : List (Event τ)}

/-- **Lock acquisition cannot deadlock.** Any number of threads run commands on one key, on several
keys and on whole databases, active expiry, flushes of the log and compactions, one after the other
and in any interleaving. In no state they can get to is there a set of threads that are all blocked by
threads of the set, and no thread asks for a lock it has. -/
theorem locks_never_deadlock (h : Run (Step (Activity route)) .start es s) :
    (∀ S : Set τ, ¬ Deadlocked s S) ∧
      ∀ t l mode script, (s t).status = .running → (s t).script = .lock l mode :: script →
        ∀ mode', (l, mode') ∉ (s t).held := by
  have hvalid := Valid.run (fun _ => activity_ascends) h
  exact ⟨no_deadlock hvalid, fun t l mode script hrun hnext => request_new hvalid hrun hnext⟩

/-- The scripts of a SET and of a GET. -/
theorem activity_key (route : Bytes → Fin m) (d : Fin n) (key : Bytes) :
    Activity route (commandScript d .write [route key] true) ∧
      Activity route (commandScript d .read [route key] false) := by
  have hset : lockShards (n := n) route (.writeKey "set" 3 cmdSet) [ascii "SET", key, ascii "v"] =
      .ok [route key] := rfl
  have hget : lockShards (n := n) route (.readKey "get" 2 cmdGet) [ascii "GET", key] =
      .ok [route key] := rfl
  exact ⟨.command hset fun _ => rfl, .command hget nofun⟩

/-- A SET has announced itself, and a GET of the same key waits behind it. -/
theorem locks_never_deadlock_behind :
    ∃ s : State Bool (Lock 1 1),
      Run (Step (Activity fun _ => 0)) .start
        [.start true, .request true, .announce true, .start false, .request false] s ∧
      (s true).status = .writePending (shardLock 0 0) ∧
      (s false).status = .readWait (shardLock 0 0) ∧ ∀ S : Set Bool, ¬ Deadlocked s S := by
  obtain ⟨hset, hget⟩ := activity_key (fun _ => (0 : Fin 1)) (0 : Fin 1) (ascii "k")
  have hstart := (Run.nil (State.start : State Bool (Lock 1 1))).snoc
    (Step.start (t := true) rfl hset)
  have hqueued := hstart.snoc (Step.writeLock (t := true) rfl rfl)
  have hannounced := hqueued.snoc (Step.announce (t := true) rfl fun u hu => by
    rcases hu with hu | hu <;> cases u <;> cases hu)
  have hrun := (hannounced.snoc (Step.start (t := false) rfl hget)).snoc
    (Step.readWait (t := false) rfl rfl ⟨true, .inl rfl⟩)
  exact ⟨_, hrun, rfl, rfl, (locks_never_deadlock hrun).1⟩

/-- While a thread is at work, some thread can go on. -/
theorem locks_progress (h : Run (Step (Activity route)) .start es s) {t : τ} (ht : s t ≠ .idle) :
    ∃ e s', Step (Activity route) s e s' ∧ ∀ t, e ≠ .start t :=
  progress (Valid.run (fun _ => activity_ascends) h) ht

end Runs

end Memcore
