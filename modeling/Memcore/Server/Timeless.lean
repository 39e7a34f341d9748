import Memcore.Server.Serve

/-!
# Databases without deadlines

Where no entry has a deadline and no command sets one, the clock does not matter: an operation does
the same at any time. So replaying the commands a server logged gives the state it had, whenever
that happens and whatever the runtime chooses meanwhile (`Executable.replay`).
-/

namespace Memcore

open Go Prog

variable {n m : Nat}

/-- No entry has a deadline. -/
def Timeless (A : Fin n → ADB) : Prop := ∀ d key e, A d key = some e → e.expireAt = zeroTime

theorem liveAt_timeless {o : Option AEntry} (h : ∀ e, o = some e → e.expireAt = zeroTime)
    (now : Time) : liveAt now o = o := by
  cases o with
  | none => rfl
  | some e =>
    have hx : e.expired now = false := by
      rw [AEntry.expired, AEntry.hasExpiry, h e rfl]
      rfl
    rw [liveAt_some, hx]
    rfl

/-- Without deadlines an operation does the same at any time, and leaves none. -/
theorem apply_timeless {op : KeyOp} (hop : op.setsDeadline = false) {o : Option AEntry}
    (h : ∀ e, o = some e → e.expireAt = zeroTime) (now now' : Time) (lim : Limits) :
    op.apply now lim o = op.apply now' lim o ∧
      ∀ e, op.apply now lim o = some e → e.expireAt = zeroTime := by
  refine ⟨?_, fun e he => ?_⟩
  · cases op with
    | expireAt | expireIn => cases hop
    | put | remove => rfl
    | persist | modify =>
      -- without a deadline the clock decides nothing
      simp only [KeyOp.apply, liveAt_timeless h]
      cases o <;> rfl
  · cases op with
    | expireAt | expireIn => cases hop
    | put v =>
      cases he
      rfl
    | remove => cases he
    | persist =>
      simp only [KeyOp.apply, liveAt_timeless h] at he
      cases o with
      | none => cases he
      | some e' =>
        cases he
        rfl
    | modify op =>
      cases o with
      | none =>
        rw [apply_modify_absent op (liveAt_none now)] at he
        cases hc : op.create lim with
        | none =>
          rw [hc] at he
          cases he
        | some v =>
          rw [hc] at he
          cases he
          rfl
      | some e' =>
        rw [apply_modify_live op (liveAt_timeless h now)] at he
        -- an update keeps the deadline of the entry
        obtain ⟨v, -, rfl⟩ := Option.map_eq_some_iff.mp he
        exact h e' rfl

theorem opAt_setsDeadline {host : Host} {cmd : Command n m} {args : List Bytes} {key : Bytes}
    {op : KeyOp} (h : cmd.opAt host args key = some op) (hexpire : cmd.name ≠ ascii "expire")
    (hpexpire : cmd.name ≠ ascii "pexpireat") : op.setsDeadline = false := by
  by_contra hop
  rw [Bool.not_eq_false] at hop
  unfold Command.opAt at h
  split_ifs at h
  · cases h
    cases hop
  · cases h
    cases hop
  · match args, h with
    | _ :: key' :: rest, h =>
      simp only at h
      split_ifs at h
      rcases KeyOp.parse_setsDeadline h hop with ⟨hname, -⟩ | ⟨hname, -⟩
      · exact hexpire hname
      · exact hpexpire hname

/-! ## Commands a server has logged -/

/-- Without deadlines the effect of a command is the same at any time, and leaves none. -/
theorem effectOf_timeless {env env' : Env m} (hlim : env'.limits = env.limits)
    (hhost : env'.host = env.host) {A : Fin n → ADB} (hA : Timeless A) (d : Fin n)
    {args : List Bytes} {cmd : Command n m} (hres : resolve args = .ok cmd)
    (hexpire : cmd.name ≠ ascii "expire") (hpexpire : cmd.name ≠ ascii "pexpireat") :
    effectOf env' d args A = effectOf env d args A ∧ Timeless (effectOf env d args A) := by
  have hkey (key : Bytes) :
      cmd.effect env'.now env'.limits env'.host args (A d) key
        = cmd.effect env.now env.limits env.host args (A d) key ∧
      ∀ e, cmd.effect env.now env.limits env.host args (A d) key = some e →
        e.expireAt = zeroTime := by
    rw [hlim, hhost]
    unfold Command.effect
    cases hop : cmd.opAt env.host args key with
    | none => exact ⟨rfl, fun e he => hA d key e he⟩
    | some op =>
      have hset := opAt_setsDeadline hop hexpire hpexpire
      have happly := apply_timeless hset (fun e he => hA d key e he)
      exact ⟨((happly env.now env'.now _).1).symm, (happly env.now env.now _).2⟩
  unfold effectOf
  simp only [hres]
  refine ⟨?_, fun k key e he => ?_⟩
  · congr 1
    funext key
    exact (hkey key).1
  · by_cases hk : k = d
    · subst hk
      rw [Function.update_self] at he
      exact (hkey key).2 e he
    · rw [Function.update_of_ne hk] at he
      exact hA k key e he

theorem crashes_timeless {A : Fin n → ADB} (hA : Timeless A) {d : Fin n} {cmd : Command n m}
    {args : List Bytes} {now now' : Time} (h : cmd.Crashes now args (A d)) :
    cmd.Crashes now' args (A d) := by
  refine ⟨h.1, ?_⟩
  match args, h.2 with
  | _ :: key :: rest, ⟨hsize, e, he, hk⟩ =>
    rw [liveAt_timeless fun e he => hA d key e he] at he
    refine ⟨hsize, e, ?_, hk⟩
    rw [liveAt_timeless fun e he => hA d key e he]
    exact he

/-- A server whose databases stand for `A` can have run the command in database `d`, as a write that
sets no deadline. -/
def Executable (env : Env m) (A : Fin n → ADB) (d : Fin n) (args : List Bytes) : Prop :=
  ∃ cmd : Command n m, resolve args = .ok cmd ∧ cmd.readOnly = false ∧
    cmd.name ≠ ascii "expire" ∧ cmd.name ≠ ascii "pexpireat" ∧ ¬ cmd.Crashes env.now args (A d)

namespace Executable

variable {env : Env m} {A : Fin n → ADB} {d : Fin n} {args : List Bytes}

theorem timeless (h : Executable env A d args) (hA : Timeless A) :
    Timeless (effectOf env d args A) := by
  obtain ⟨cmd, hres, -, hexpire, hpexpire, -⟩ := h
  exact (effectOf_timeless rfl rfl hA d hres hexpire hpexpire).2

/-- **Replaying a command that was logged does what it did**, at any time and with any choices of the
runtime. -/
theorem replay (hn : n < 2 ^ 63) (h : Executable env A d args) (hA : Timeless A)
    {c : Context n m} (hc : Databases.Repr env c.databases A) (now : Time) (ord : MapOrder) :
    ∃ c', Memcore.replay (env.at now ord) c (Int64.ofNat d) args = (c', none) ∧
      Databases.Repr env c'.databases (effectOf env d args A) := by
  obtain ⟨cmd, hres, hwrite, hexpire, hpexpire, hok⟩ := h
  have hc' : Databases.Repr (env.at now ord) c.databases A := hc
  have heffect : effectOf (env.at now ord) d args A = effectOf env d args A :=
    (effectOf_timeless (show (env.at now ord).limits = env.limits from rfl) rfl hA d hres hexpire
      hpexpire).1
  obtain ⟨hrepr, hfine⟩ := replay_refines hn hc' d args
  rw [heffect] at hrepr
  exact ⟨_, Prod.ext rfl (hfine cmd hres hwrite fun hcrash => hok (crashes_timeless hA hcrash)),
    hrepr⟩

end Executable

/-- Records of databases without deadlines restore them exactly. -/
theorem restored_timeless {A : Fin n → ADB} (hA : Timeless A) :
    (fun d key => (A d key).map AEntry.restored) = A := by
  funext d key
  cases h : A d key with
  | none => rfl
  | some e =>
    have hzero := hA d key e h
    obtain ⟨v, t⟩ := e
    obtain rfl : t = zeroTime := hzero
    rfl

end Memcore
