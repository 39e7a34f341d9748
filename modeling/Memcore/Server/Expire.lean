import Memcore.Server.Recover

/-!
# How EXPIRE is logged

A relative deadline must not be replayed as such: `persistArgs` turns EXPIRE into PEXPIREAT with an
absolute deadline. The handler has stored a deadline in nanoseconds from its own reading of the
clock; the logged one is in milliseconds, from a later reading.
-/

namespace Memcore

open Go Prog

variable {n m : Nat}

/-- The deadline stored under `key` in the selected database. -/
def storedDeadline (env : Env m) (c : Context n m) (key : Bytes) : Option Time :=
  ((c.db (env.route key)).entries.lookup key).map Entry.expireAt

theorem storedDeadline_setExpire {env : Env m} {c : Context n m} {key : Bytes} {e : Entry}
    (h : (c.db (env.route key)).lookup env.now key = some e) (t : Time) :
    storedDeadline env (expireAt env key t c).2 key = some t := by
  have hpeek : (c.db (env.route key)).peek env.now key = some e := h
  have hstore : Cmd.setExpire env key t c = (.ok true, c.setDB (Function.update c.db (env.route key)
      ⟨(c.db (env.route key)).entries.insert key { e with expireAt := t },
        insert key (c.db (env.route key)).withTTL⟩)) := by
    simp only [Cmd.setExpire, Cmd.onShard, Keyspace.setExpire, hpeek]
  unfold expireAt
  rw [bind_apply_ok hstore]
  simp [storedDeadline, Finmap.lookup_insert]

/-- The logged form of EXPIRE. -/
theorem persistArgs_expire {cmd : Command n m} (hcmd : cmd.name = ascii "expire") (logNow : Time)
    {name key arg2 : Bytes} {secs : Int} (hsecs : parseInt arg2 = some secs) :
    persistArgs logNow cmd [name, key, arg2] = [ascii "PEXPIREAT", key,
      formatInt (Time.unixMilli (Time.add logNow (seconds secs))).toInt] := by
  simp only [persistArgs, if_pos hcmd, hsecs]

/-- A deadline of `D` nanoseconds is `10 ^ 6` times the `int64` that `q` wraps to exactly when it is
a whole number of milliseconds, in range, and `q` differs from that number by a multiple of
`2 ^ 64`. -/
theorem eq_unixMilli_wrap_iff (D q : Int) :
    D = unixMilli (Int64.ofInt q).toInt ↔
      D % 10 ^ 6 = 0 ∧ minInt64 ≤ D / 10 ^ 6 ∧ D / 10 ^ 6 ≤ maxInt64 ∧
        2 ^ 64 ∣ q - D / 10 ^ 6 := by
  have hlo := (Int64.ofInt q).le_toInt
  have hhi := (Int64.ofInt q).toInt_lt
  have hwrap : (2 ^ 64 : Int) ∣ q - (Int64.ofInt q).toInt := by
    rw [Int64.toInt_ofInt]
    exact Int.dvd_self_sub_bmod
  unfold unixMilli minInt64 maxInt64
  constructor
  · intro h
    have hdiv : D / 10 ^ 6 = (Int64.ofInt q).toInt := by omega
    rw [hdiv]
    exact ⟨by omega, hlo, by omega, hwrap⟩
  · rintro ⟨hmod, hlo', hhi', hdvd⟩
    omega

/-- **When the logged form of EXPIRE reproduces the live deadline**: the clock of the handler stood
at a whole millisecond, the deadline in milliseconds is an `int64`, and the reading of `persistArgs`
gives the same number of milliseconds (up to the wrapping of an `int64`). The readings may be any;
in the server that of `persistArgs` is the later one. -/
theorem expire_replay_deadline_iff {env env' : Env m} (hroute : env'.route = env.route)
    {cmd : Command n m} (hcmd : cmd.name = ascii "expire") {name key arg2 : Bytes} {secs : Int}
    (hsecs : parseInt arg2 = some secs)
    (hfit : minInt64 ≤ secs * 10 ^ 9 ∧ secs * 10 ^ 9 ≤ maxInt64)
    {logNow : Time} {c : Context n m} {e : Entry}
    (hlive : (c.db (env.route key)).lookup env.now key = some e)
    (hlive' : (c.db (env'.route key)).lookup env'.now key = some e) :
    storedDeadline env (cmdExpire env [name, key, arg2] c).2 key
        = storedDeadline env
            (cmdPExpireAt env' (persistArgs logNow cmd [name, key, arg2]) c).2 key ↔
      (env.now % 10 ^ 6 = 0 ∧ minInt64 ≤ (env.now + secs * 10 ^ 9) / 10 ^ 6 ∧
        (env.now + secs * 10 ^ 9) / 10 ^ 6 ≤ maxInt64 ∧
        2 ^ 64 ∣ (logNow + secs * 10 ^ 9) / 10 ^ 6 - (env.now + secs * 10 ^ 9) / 10 ^ 6) := by
  have hd : (seconds secs).toInt = secs * 10 ^ 9 :=
    Int64.toInt_ofInt_of_le hfit.1 (Int.lt_of_le_sub_one hfit.2)
  -- `EXPIRE` stores nanoseconds; its record has milliseconds, cut and wrapped to an `int64`
  have hexp : storedDeadline env (cmdExpire env [name, key, arg2] c).2 key
      = some (env.now + secs * 10 ^ 9) := by
    unfold cmdExpire
    simp only [arg_two_bind, hsecs, arg_one_bind]
    rw [storedDeadline_setExpire hlive, Time.add, hd]
    rfl
  have hreplay : storedDeadline env
      (cmdPExpireAt env' (persistArgs logNow cmd [name, key, arg2]) c).2 key
      = some (unixMilli (Int64.ofInt ((logNow + secs * 10 ^ 9) / 10 ^ 6)).toInt) := by
    have hparse := parseInt_formatInt (Int64.ofInt ((logNow + secs * 10 ^ 9) / 10 ^ 6)).le_toInt
      (Int.le_sub_one_of_lt (Int64.ofInt ((logNow + secs * 10 ^ 9) / 10 ^ 6)).toInt_lt)
    have hstamp : Time.unixMilli (Time.add logNow (seconds secs))
        = Int64.ofInt ((logNow + secs * 10 ^ 9) / 10 ^ 6) := by
      rw [Time.unixMilli, Time.add, hd]
      rfl
    rw [persistArgs_expire hcmd logNow hsecs, hstamp]
    unfold cmdPExpireAt
    simp only [arg_two_bind, hparse, arg_one_bind]
    have hstored := storedDeadline_setExpire hlive'
      (unixMilli (Int64.ofInt ((logNow + secs * 10 ^ 9) / 10 ^ 6)).toInt)
    unfold storedDeadline at hstored ⊢
    rwa [hroute] at hstored
  rw [hexp, hreplay, Option.some.injEq, eq_unixMilli_wrap_iff]
  have hmod (t : Int) : (t + secs * 10 ^ 9) % 10 ^ 6 = t % 10 ^ 6 := by omega
  rw [hmod env.now]

/-- A session with one key. -/
def oneKey : Context 1 1 :=
  (cmdSet (Env.single 0) [ascii "SET", ascii "k", ascii "v"] (Context.empty none 0 fun _ => 0)).2

/-- EXPIRE half a millisecond past the second, logged by the same reading of the clock: the replayed
deadline is half a millisecond early. -/
theorem expire_replay_deadline_early :
    storedDeadline (Env.single 1000500000)
        (cmdExpire (Env.single 1000500000) [ascii "EXPIRE", ascii "k", ascii "10"] oneKey).2
        (ascii "k") = some 11000500000 ∧
      storedDeadline (Env.single 1000500000)
        (cmdPExpireAt (Env.single 1000500000)
          (persistArgs 1000500000 (Command.writeKey "expire" 3 cmdExpire : Command 1 1)
            [ascii "EXPIRE", ascii "k", ascii "10"]) oneKey).2
        (ascii "k") = some 11000000000 := by
  decide +kernel

/-- At a whole millisecond the two agree. -/
theorem expire_replay_deadline_iff_whole :
    storedDeadline (Env.single (10 ^ 9))
        (cmdExpire (Env.single (10 ^ 9)) [ascii "EXPIRE", ascii "k", ascii "10"] oneKey).2
        (ascii "k")
      = storedDeadline (Env.single (10 ^ 9))
        (cmdPExpireAt (Env.single (10 ^ 9))
          (persistArgs (10 ^ 9 + 1) (Command.writeKey "expire" 3 cmdExpire : Command 1 1)
            [ascii "EXPIRE", ascii "k", ascii "10"]) oneKey).2
        (ascii "k") := by
  obtain ⟨e, hlive⟩ := Option.isSome_iff_exists.mp
    (show ((oneKey.db ((Env.single (10 ^ 9)).route (ascii "k"))).lookup (10 ^ 9)
      (ascii "k")).isSome = true by decide +kernel)
  have hsecs : parseInt (ascii "10") = some 10 := by decide
  exact (expire_replay_deadline_iff rfl rfl hsecs (by decide) hlive hlive).mpr (by decide)

end Memcore
