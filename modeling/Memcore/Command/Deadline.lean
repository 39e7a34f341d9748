import Memcore.Command.Footprint

/-!
# The deadlines EXPIRE and PEXPIREAT set

EXPIRE multiplies its argument by a second in 64-bit arithmetic; the deadline is the one asked for
exactly when that product does not wrap. PEXPIREAT stores any millisecond exactly, but a keyspace
reads one instant, the zero time, as "no deadline": for every other one the key is live exactly up
to it.
-/

namespace Memcore

open Go Prog Cmd

variable {n m : Nat}

/-! ## What the two handlers do -/

/-- A computation that leaves its shard alone leaves the session alone. -/
theorem onShard_unchanged {α : Type} {i : Fin m} {f : Keyspace → α × Keyspace} {c : Context n m}
    (h : (f (c.db i)).2 = c.db i) : onShard i f c = (.ok (f (c.db i)).1, c) := by
  unfold onShard
  rw [h, Function.update_eq_self]
  unfold Context.setDB Context.db
  rw [Function.update_eq_self]

section

variable {env : Env m} {c : Context n m} {key : Bytes}

theorem expireAt_absent (h : (c.db (env.route key)).lookup env.now key = none) (t : Time) :
    expireAt env key t c = (.ok (.int 0), c) := by
  have hstep : (c.db (env.route key)).setExpire env.now key t = (false, c.db (env.route key)) := by
    unfold Keyspace.setExpire
    rw [show (c.db (env.route key)).peek env.now key = none from h]
  have hset : Cmd.setExpire env key t c = (.ok false, c) := by
    unfold Cmd.setExpire
    rw [onShard_unchanged (by rw [hstep]), hstep]
  unfold expireAt
  rw [bind_apply_ok hset]
  rfl

/-- The entry gets the deadline and keeps its value. -/
theorem expireAt_live {e : Entry} (h : (c.db (env.route key)).lookup env.now key = some e)
    (t : Time) : ∃ c', expireAt env key t c = (.ok (.int 1), c') ∧
      (c'.db (env.route key)).entries.lookup key = some { e with expireAt := t } := by
  have hstep : (c.db (env.route key)).setExpire env.now key t =
      (true, ⟨(c.db (env.route key)).entries.insert key { e with expireAt := t },
        insert key (c.db (env.route key)).withTTL⟩) := by
    unfold Keyspace.setExpire
    rw [show (c.db (env.route key)).peek env.now key = some e from h]
  have hset : Cmd.setExpire env key t c = (.ok true, c.setDB (Function.update c.db (env.route key)
      ((c.db (env.route key)).setExpire env.now key t).2)) := by
    unfold Cmd.setExpire onShard
    simp only [hstep]
  refine ⟨c.setDB (Function.update c.db (env.route key)
    ((c.db (env.route key)).setExpire env.now key t).2), ?_, ?_⟩
  · unfold expireAt
    rw [bind_apply_ok hset]
    rfl
  · rw [hstep, Context.setDB_db, Function.update_self, Finmap.lookup_insert]

end

/-! ## EXPIRE -/

/-- A duration in seconds is the one meant exactly when it fits. -/
theorem add_seconds_eq_iff (now secs : Int) :
    Time.add now (seconds secs) = now + secs * 10 ^ 9 ↔ IsInt64 (secs * 10 ^ 9) := by
  show now + (Int64.ofInt (secs * 10 ^ 9)).toInt = _ ↔ _
  constructor
  · intro h
    have hsame : (Int64.ofInt (secs * 10 ^ 9)).toInt = secs * 10 ^ 9 := by omega
    have hlo := (Int64.ofInt (secs * 10 ^ 9)).le_toInt
    have hhi := (Int64.ofInt (secs * 10 ^ 9)).toInt_lt
    rw [hsame] at hlo hhi
    exact ⟨hlo, Int.le_sub_one_of_lt hhi⟩
  · rintro ⟨hlo, hhi⟩
    rw [Int64.toInt_ofInt_of_le hlo (Int.lt_of_le_sub_one hhi)]

/-- A deadline that lies ahead has not passed. -/
theorem Keyspace.exists'_of_lt {k : Keyspace} {key : Bytes} {e : Entry} {now : Time}
    (h : k.entries.lookup key = some e) (hlt : now < e.expireAt) : k.exists' now key = true := by
  have hexp : e.expired now = false := by simp [Entry.expired, hlt]
  simp [exists', peek, h, hexp]

/-- **What EXPIRE does.** An argument that is no integer is an error and an absent key is answered
with 0, both without a change. A live key gets a deadline and keeps its value; the deadline is the
reading of the clock plus the seconds asked for exactly when they are an `int64` of nanoseconds, and
then a positive number leaves the key live. -/
theorem cmdExpire_deadline (env : Env m) (c : Context n m) (name key arg : Bytes) :
    (parseInt arg = none →
      cmdExpire env [name, key, arg] c = (.ok (.error msgNotInteger), c)) ∧
    (∀ secs, parseInt arg = some secs → (c.db (env.route key)).lookup env.now key = none →
      cmdExpire env [name, key, arg] c = (.ok (.int 0), c)) ∧
    ∀ secs e, parseInt arg = some secs → (c.db (env.route key)).lookup env.now key = some e →
      ∃ c' at', cmdExpire env [name, key, arg] c = (.ok (.int 1), c') ∧
        (c'.db (env.route key)).entries.lookup key = some { e with expireAt := at' } ∧
        (at' = env.now + secs * 10 ^ 9 ↔ IsInt64 (secs * 10 ^ 9)) ∧
        (IsInt64 (secs * 10 ^ 9) → 0 < secs →
          (c'.db (env.route key)).exists' env.now key = true) := by
  refine ⟨fun hnone => ?_, fun secs hsecs habsent => ?_, fun secs e hsecs hlive => ?_⟩
  · unfold cmdExpire
    simp only [arg_two_bind, hnone]
    rfl
  · unfold cmdExpire
    simp only [arg_two_bind, hsecs, arg_one_bind]
    exact expireAt_absent habsent _
  · obtain ⟨c', hrun, hentry⟩ := expireAt_live hlive (Time.add env.now (seconds secs))
    refine ⟨c', Time.add env.now (seconds secs), ?_, hentry, add_seconds_eq_iff env.now secs, ?_⟩
    · unfold cmdExpire
      simp only [arg_two_bind, hsecs, arg_one_bind]
      exact hrun
    · intro hfit hpos
      refine Keyspace.exists'_of_lt hentry ?_
      show env.now < Time.add env.now (seconds secs)
      rw [(add_seconds_eq_iff env.now secs).mpr hfit]
      exact Int.lt_add_of_pos_right _ (Int.mul_pos hpos (by decide))

/-- A session with one key. -/
def keyed : Context 1 1 :=
  ⟨fun _ _ => Keyspace.new.set (ascii "k") (.str (ascii "v")), none, 0, fun _ => 0⟩

/-- EXPIRE of the live key with one second more than fits into a duration: the reply is 1, and the
key is gone at once. -/
theorem cmdExpire_wraps :
    (cmdExpire (Env.single 0) [ascii "EXPIRE", ascii "k", ascii "9223372037"] keyed).1
      = .ok (.int 1) ∧
    ((cmdExpire (Env.single 0) [ascii "EXPIRE", ascii "k", ascii "9223372037"] keyed).2.db 0).exists'
      0 (ascii "k") = false ∧
    (((cmdExpire (Env.single 0) [ascii "EXPIRE", ascii "k", ascii "9223372037"] keyed).2.db
      0).entries.lookup (ascii "k")).map Entry.expireAt = some (-9223372036709551616) :=
  ⟨rfl, by decide +kernel, by decide +kernel⟩

/-- The largest number of seconds that fits. -/
theorem cmdExpire_deadline_largest : ∃ c' at',
    cmdExpire (Env.single 0) [ascii "EXPIRE", ascii "k", ascii "9223372036"] keyed
      = (.ok (.int 1), c') ∧
    (c'.db 0).entries.lookup (ascii "k") = some ⟨.str (ascii "v"), at'⟩ ∧
    at' = 9223372036 * 10 ^ 9 ∧ (c'.db 0).exists' 0 (ascii "k") = true := by
  have hlive : (keyed.db 0).lookup 0 (ascii "k") = some ⟨.str (ascii "v"), zeroTime⟩ := rfl
  obtain ⟨c', at', hrun, hentry, hiff, hsoon⟩ :=
    (cmdExpire_deadline (Env.single 0) keyed (ascii "EXPIRE") (ascii "k") (ascii "9223372036")).2.2
      9223372036 _ (by decide) hlive
  have hfit : IsInt64 (9223372036 * 10 ^ 9) := by unfold IsInt64; decide
  exact ⟨c', at', hrun, hentry, (hiff.mpr hfit).trans (Int.zero_add _), hsoon hfit (by decide)⟩

/-! ## PEXPIREAT -/

/-- Every read of the keyspace agrees at `now` on whether the key is there. -/
structure Keyspace.Reports (k : Keyspace) (now : Time) (key : Bytes) (b : Bool) : Prop where
  get : (k.get now key).isSome = b
  lookup : (k.lookup now key).isSome = b
  exists' : k.exists' now key = b
  getBytes : (k.getBytes now key).isSome = b
  existsBytes : k.existsBytes now key = b

/-- They all look at the entry that is stored. -/
theorem Keyspace.reports_iff {k : Keyspace} {now : Time} {key : Bytes} {e : Entry} {b : Bool}
    (h : k.entries.lookup key = some e) : k.Reports now key b ↔ (!e.expired now) = b := by
  have hpeek : (k.peek now key).isSome = !e.expired now := by
    unfold peek
    rw [h]
    cases hx : e.expired now <;> simp [hx]
  constructor
  · intro hrep
    exact hpeek.symm.trans hrep.lookup
  · intro hb
    have hsome : (k.peek now key).isSome = b := hpeek.trans hb
    refine ⟨?_, hsome, hsome, ?_, ?_⟩
    · rw [Keyspace.get, Option.isSome_map, hsome]
    · rw [getBytes_eq, Option.isSome_map, hsome]
    · rw [existsBytes_eq, hsome]

/-- An entry whose deadline is not the zero time is hidden from its deadline on. -/
theorem not_expired_eq {e : Entry} (hne : e.expireAt ≠ zeroTime) (t : Time) :
    (!e.expired t) = decide (t < e.expireAt) := by
  simp [Entry.expired, Entry.hasExpiry, Time.isZero, hne]

/-- An entry whose deadline is the zero time is never hidden. -/
theorem not_expired_zeroTime {e : Entry} (hz : e.expireAt = zeroTime) (t : Time) :
    e.expired t = false := by
  simp [Entry.expired, Entry.hasExpiry, Time.isZero, hz]

theorem unixMilli_eq_zeroTime_iff (ms : Int) : unixMilli ms = zeroTime ↔ ms = -62135596800000 := by
  show @Eq Int (ms * 10 ^ 6) (-62135596800 * 10 ^ 9) ↔ _
  omega

/-- **When PEXPIREAT makes a live key live exactly up to its deadline.** The reply is 1. As long as
the entry stays stored, whatever happens to the rest of the keyspace, every read at every later time
finds the key exactly when that time is before the deadline, for every millisecond but one: the zero
time, at which the key never expires. -/
theorem cmdPExpireAt_live_iff {env : Env m} {c : Context n m} {name key arg : Bytes} {ms : Int}
    {e : Entry} (hms : parseInt arg = some ms)
    (hlive : (c.db (env.route key)).lookup env.now key = some e) :
    ∃ c', cmdPExpireAt env [name, key, arg] c = (.ok (.int 1), c') ∧
      ((∀ k : Keyspace, k.entries.lookup key = (c'.db (env.route key)).entries.lookup key →
          ∀ t, env.now ≤ t → k.Reports t key (decide (t < unixMilli ms))) ↔
        ms ≠ -62135596800000) := by
  obtain ⟨c', hrun, hentry⟩ := expireAt_live hlive (unixMilli ms)
  refine ⟨c', ?_, ?_, ?_⟩
  · unfold cmdPExpireAt
    simp only [arg_two_bind, hms, arg_one_bind]
    exact hrun
  · -- at the zero time the key is still there when that time has passed
    intro hall hz
    have hzero := (unixMilli_eq_zeroTime_iff ms).mpr hz
    have hlate := (Keyspace.reports_iff hentry).mp
      (hall _ rfl (max env.now zeroTime) (Int.le_max_left _ _))
    rw [not_expired_zeroTime hzero, hzero] at hlate
    have hnot : ¬ max env.now zeroTime < zeroTime := Int.not_lt.mpr (Int.le_max_right _ _)
    simp [hnot] at hlate
  · intro hne k hk t _
    have hk' := hk.trans hentry
    exact (Keyspace.reports_iff hk').mpr
      (not_expired_eq (mt (unixMilli_eq_zeroTime_iff ms).mp hne) t)

/-- PEXPIREAT to the zero time, at the epoch: the deadline is long past, and the key stays. -/
theorem cmdPExpireAt_zeroTime :
    (cmdPExpireAt (Env.single 0) [ascii "PEXPIREAT", ascii "k", ascii "-62135596800000"] keyed).1
      = .ok (.int 1) ∧
    unixMilli (-62135596800000) < 0 ∧
    ((cmdPExpireAt (Env.single 0) [ascii "PEXPIREAT", ascii "k", ascii "-62135596800000"]
      keyed).2.db 0).exists' 0 (ascii "k") = true :=
  ⟨rfl, by decide, by decide +kernel⟩

/-- A millisecond later it is gone. -/
theorem cmdPExpireAt_live_iff_past :
    ∃ c', cmdPExpireAt (Env.single 0) [ascii "PEXPIREAT", ascii "k", ascii "-62135596799999"] keyed
        = (.ok (.int 1), c') ∧ (c'.db 0).exists' 0 (ascii "k") = false := by
  have hlive : (keyed.db 0).lookup 0 (ascii "k") = some ⟨.str (ascii "v"), zeroTime⟩ := rfl
  have hms : parseInt (ascii "-62135596799999") = some (-62135596799999) := by decide
  obtain ⟨c', hrun, hiff⟩ :
      ∃ c', cmdPExpireAt (Env.single 0) [ascii "PEXPIREAT", ascii "k", ascii "-62135596799999"]
        keyed = (.ok (.int 1), c') ∧ _ := cmdPExpireAt_live_iff hms hlive
  exact ⟨c', hrun, (hiff.mpr (by decide) _ rfl 0 (Int.le_refl _)).exists'⟩

end Memcore
