import Memcore.Command.Footprint

/-!
# CONFIG SET and CONFIG GET

A parameter is set from a text and reported as one. The threshold of the slow log goes from
milliseconds to a 64-bit number of nanoseconds and back; what is reported is what was asked for
exactly when that number does not wrap. Everything else about the two agrees always.
-/

namespace Memcore

open Go Prog Cmd

namespace Reloadable

/-- `Settings.Set` with the settings it leaves behind the pointer: the text of the error, if any, and
the settings afterwards. Only a success stores. -/
def setStored (host : Host) (name val : Bytes) (r : Reloadable) : Option Bytes × Reloadable :=
  match r.set host name val with
  | .ok r' => (none, r')
  | .error text => (some text, r)

/-- The canonical text of the value that `val` denotes for the parameter. -/
def canonical (name val : Bytes) : Option Bytes :=
  if name = paramSlowThreshold ∨ name = paramExpirySample then (parseCount val).map formatInt
  else if name = paramSlowLog then (parseBoolParam val).map boolParam
  else none

/-- Both numbers are non-negative. -/
def NonNegative (r : Reloadable) : Prop := 0 ≤ r.slowThreshold.toInt ∧ 0 ≤ r.expirySample

/-- A threshold is an `int64` of nanoseconds. -/
def FitsNanos (name val : Bytes) : Prop :=
  name = paramSlowThreshold → ∀ ms, parseInt val = some ms → ms ≤ 9223372036854

end Reloadable

open Reloadable

/-! ## One parameter -/

theorem parseCount_eq_some {val : Bytes} {k : Int} (h : parseCount val = some k) :
    parseInt val = some k ∧ 0 ≤ k := by
  unfold parseCount at h
  split at h
  next v hv =>
    split at h
    next => cases h
    next hpos =>
      cases h
      exact ⟨hv, Int.not_lt.mp hpos⟩
  next => cases h

/-- A quotient of an `int64` by a million. -/
theorem tdiv_million_bounds {t : Int} (hlo : -2 ^ 63 ≤ t) (hhi : t < 2 ^ 63) :
    -9223372036854 ≤ Int.tdiv t (10 ^ 6) ∧ Int.tdiv t (10 ^ 6) ≤ 9223372036854 := by
  have hsign : Int.sign (10 ^ 6) = 1 := rfl
  rw [Int.tdiv_eq_ediv, hsign]
  split <;> omega

/-- A threshold that fits comes back in milliseconds. -/
theorem millis_of_fits {ms : Int} (hpos : 0 ≤ ms) (hms : ms ≤ 9223372036854) :
    (Int64.ofInt (ms * 10 ^ 6)).toInt = ms * 10 ^ 6 :=
  Int64.toInt_ofInt_of_le (by omega) (by omega)

/-- One that does not fit is reported as something else: what is stored is too small. -/
theorem slowMillis_eq_iff (r : Reloadable) {ms : Int} (hpos : 0 ≤ ms) :
    ({ r with slowThreshold := Int64.ofInt (ms * 10 ^ 6) } : Reloadable).slowMillis = ms ↔
      ms ≤ 9223372036854 := by
  unfold slowMillis
  constructor
  · intro h
    have hbounds := tdiv_million_bounds (Int64.ofInt (ms * 10 ^ 6)).le_toInt
      (Int64.ofInt (ms * 10 ^ 6)).toInt_lt
    rw [h] at hbounds
    exact hbounds.2
  · intro hms
    rw [millis_of_fits hpos hms]
    exact Int.mul_tdiv_cancel ms (by decide)

theorem formatInt_inj {v w : Int} (hv : IsInt64 v) (hw : IsInt64 w)
    (h : formatInt v = formatInt w) : v = w := by
  have hparse := parseInt_formatInt hv.1 hv.2
  rw [h, parseInt_formatInt hw.1 hw.2] at hparse
  exact (Option.some.inj hparse).symm

theorem slowMillis_int64 (r : Reloadable) : IsInt64 r.slowMillis := by
  have hbounds := tdiv_million_bounds r.slowThreshold.le_toInt r.slowThreshold.toInt_lt
  unfold IsInt64 minInt64 maxInt64 slowMillis
  omega

/-! ## A successful update -/

/-- The three ways in which `Settings.Set` succeeds. -/
theorem set_ok_cases {host : Host} {r r' : Reloadable} {name val : Bytes}
    (h : r.set host name val = .ok r') :
    (∃ ms, name = paramSlowThreshold ∧ parseCount val = some ms ∧
      r' = { r with slowThreshold := Int64.ofInt (ms * 10 ^ 6) }) ∨
    (∃ k, name = paramExpirySample ∧ parseCount val = some k ∧ r' = { r with expirySample := k }) ∨
    ∃ b, name = paramSlowLog ∧ parseBoolParam val = some b ∧ r' = { r with slowLogEnabled := b } := by
  unfold Reloadable.set at h
  simp only at h
  split at h
  next hname =>
    split at h
    next ms hms =>
      cases h
      exact .inl ⟨ms, hname, hms, rfl⟩
    next => cases h
  next =>
    split at h
    next hname =>
      split at h
      next k hk =>
        cases h
        exact .inr (.inl ⟨k, hname, hk, rfl⟩)
      next => cases h
    next =>
      split at h
      next hname =>
        split at h
        next b hb =>
          cases h
          exact .inr (.inr ⟨b, hname, hb, rfl⟩)
        next => cases h
      next => cases h

theorem expirySample_ne_slowThreshold : paramExpirySample ≠ paramSlowThreshold := by decide

theorem slowLog_ne_slowThreshold : paramSlowLog ≠ paramSlowThreshold := by decide

theorem slowLog_ne_expirySample : paramSlowLog ≠ paramExpirySample := by decide

section Get

variable (r : Reloadable)

theorem get_slowThreshold : r.get paramSlowThreshold = some (formatInt r.slowMillis) := if_pos rfl

theorem get_expirySample : r.get paramExpirySample = some (formatInt r.expirySample) := by
  unfold Reloadable.get
  rw [if_neg expirySample_ne_slowThreshold, if_pos rfl]

theorem get_slowLog : r.get paramSlowLog = some (boolParam r.slowLogEnabled) := by
  unfold Reloadable.get
  rw [if_neg slowLog_ne_slowThreshold, if_neg slowLog_ne_expirySample, if_pos rfl]

end Get

/-- The other parameters keep their values. -/
theorem get_set_other {host : Host} {r r' : Reloadable} {name val : Bytes}
    (h : r.set host name val = .ok r') {name' : Bytes} (hne : name' ≠ name) :
    r'.get name' = r.get name' := by
  unfold Reloadable.get
  rcases set_ok_cases h with ⟨ms, hname, -, rfl⟩ | ⟨k, hname, -, rfl⟩ | ⟨b, hname, -, rfl⟩
  · rw [hname] at hne
    rw [if_neg hne, if_neg hne]
  · rw [hname] at hne
    rw [if_neg hne, if_neg hne]
    rfl
  · rw [hname] at hne
    rw [if_neg hne, if_neg hne]
    rfl

theorem fitsNanos_slowThreshold_iff {val : Bytes} {ms : Int} (h : parseInt val = some ms) :
    FitsNanos paramSlowThreshold val ↔ ms ≤ 9223372036854 := by
  constructor
  · intro hfits
    exact hfits rfl ms h
  · intro hms _ ms' hms'
    obtain rfl : ms = ms' := Option.some.inj (h.symm.trans hms')
    exact hms

/-- The parameter itself is reported as asked for exactly when it fits. -/
theorem get_set_self {host : Host} {r r' : Reloadable} {name val : Bytes}
    (h : r.set host name val = .ok r') :
    ∃ text, canonical name val = some text ∧ (r'.get name = some text ↔ FitsNanos name val) := by
  unfold canonical
  rcases set_ok_cases h with ⟨ms, rfl, hms, rfl⟩ | ⟨k, rfl, hk, rfl⟩ | ⟨b, rfl, hb, rfl⟩
  · obtain ⟨hparse, hpos⟩ := parseCount_eq_some hms
    refine ⟨formatInt ms, by rw [if_pos (.inl rfl), hms]; rfl, ?_⟩
    rw [get_slowThreshold, Option.some.injEq, fitsNanos_slowThreshold_iff hparse, ← slowMillis_eq_iff r hpos]
    constructor
    · intro heq
      exact formatInt_inj (slowMillis_int64 _) (parseInt_int64 hparse) heq
    · intro heq
      exact congrArg formatInt heq
  · refine ⟨formatInt k, by rw [if_pos (.inr rfl), hk]; rfl, iff_of_true ?_ ?_⟩
    · rw [get_expirySample]
    · exact fun hname => absurd hname expirySample_ne_slowThreshold
  · refine ⟨boolParam b, ?_, iff_of_true ?_ ?_⟩
    · rw [if_neg (not_or.mpr ⟨slowLog_ne_slowThreshold, slowLog_ne_expirySample⟩), if_pos rfl, hb]
      rfl
    · rw [get_slowLog]
    · exact fun hname => absurd hname slowLog_ne_slowThreshold

theorem Reloadable.NonNegative.set {host : Host} {r r' : Reloadable} {name val : Bytes} (hr : r.NonNegative)
    (h : r.set host name val = .ok r') (hfits : FitsNanos name val) : r'.NonNegative := by
  rcases set_ok_cases h with ⟨ms, rfl, hms, rfl⟩ | ⟨k, rfl, hk, rfl⟩ | ⟨b, rfl, hb, rfl⟩
  · obtain ⟨hparse, hpos⟩ := parseCount_eq_some hms
    have hthreshold : 0 ≤ (Int64.ofInt (ms * 10 ^ 6)).toInt := by
      rw [millis_of_fits hpos (hfits rfl ms hparse)]
      omega
    exact ⟨hthreshold, hr.2⟩
  · exact ⟨hr.1, (parseCount_eq_some hk).2⟩
  · exact hr

/-! ## CONFIG SET then CONFIG GET -/

/-- **When CONFIG SET and CONFIG GET agree.** A failed `Settings.Set` leaves the settings as they
were. After a successful one every other parameter has its value, and the parameter itself is
reported by the canonical text of what was asked for exactly when a threshold, in nanoseconds, is an
`int64`; then the numbers stay non-negative. -/
theorem setStored_get_iff (host : Host) {r : Reloadable} (hr : r.NonNegative) (name val : Bytes) :
    (∀ text, (r.setStored host name val).1 = some text → (r.setStored host name val).2 = r) ∧
    ((r.setStored host name val).1 = none →
      (∀ name', name' ≠ name → (r.setStored host name val).2.get name' = r.get name') ∧
      (∃ text, canonical name val = some text ∧
        ((r.setStored host name val).2.get name = some text ↔ FitsNanos name val)) ∧
      (FitsNanos name val → (r.setStored host name val).2.NonNegative)) := by
  unfold setStored
  cases h : r.set host name val with
  | error text =>
    refine ⟨fun _ _ => rfl, fun hnone => ?_⟩
    cases hnone
  | ok r' =>
    refine ⟨fun text htext => ?_, fun _ => ⟨fun name' hne => ?_, ?_, ?_⟩⟩
    · cases htext
    · exact get_set_other h hne
    · exact get_set_self h
    · exact hr.set h

/-- The settings the counterexample starts from. -/
def plainSettings : Reloadable := ⟨0, 20, true⟩

/-- One millisecond more than fits is accepted, stored as a negative duration and reported as
such. -/
theorem setStored_wraps :
    (plainSettings.setStored Host.verbatim paramSlowThreshold (ascii "9223372036855")).1 = none ∧
    (plainSettings.setStored Host.verbatim paramSlowThreshold (ascii "9223372036855")).2.get
      paramSlowThreshold = some (ascii "-9223372036854") ∧
    (plainSettings.setStored Host.verbatim paramSlowThreshold
      (ascii "9223372036855")).2.slowThreshold.toInt < 0 := by
  decide +kernel

/-- The largest threshold that fits. -/
theorem setStored_get_iff_largest :
    (plainSettings.setStored Host.verbatim paramSlowThreshold (ascii "9223372036854")).2.get
      paramSlowThreshold = some (ascii "9223372036854") := by
  obtain ⟨text, htext, hiff⟩ := ((setStored_get_iff Host.verbatim
    (show plainSettings.NonNegative by unfold NonNegative; decide) paramSlowThreshold
    (ascii "9223372036854")).2 (by decide)).2.1
  have hparse : parseInt (ascii "9223372036854") = some 9223372036854 := by decide
  obtain rfl : ascii "9223372036854" = text :=
    Option.some.inj ((show some (ascii "9223372036854") = _ by decide).trans htext)
  refine hiff.mpr fun _ ms hms => ?_
  obtain rfl : 9223372036854 = ms := Option.some.inj (hparse.symm.trans hms)
  decide

/-! ## The command -/

section Command

variable {n m : Nat}

theorem cmdConfig_set (env : Env m) (config : Bytes) {arg1 : Bytes}
    (hset : env.host.toUpper arg1 = ascii "SET") (name val : Bytes) {c : Context n m}
    {r : Reloadable} (hc : c.settings = some r) :
    cmdConfig env [config, arg1, name, val] c
      = match r.set env.host (env.host.toLower name) val with
        | .error text => (.ok (.error (concat [ascii "ERR ", text])), c)
        | .ok r => (.ok .ok, { c with settings := some r }) := by
  unfold cmdConfig
  rw [bind_apply_ok (show Cmd.getSettings c = (.ok (some r), c) from hc ▸ rfl)]
  have hget : env.host.toUpper arg1 ≠ ascii "GET" := by
    rw [hset]
    decide
  have hval : (Cmd.arg [config, arg1, name, val] 3 : Cmd n m Bytes) = Prog.lift (.ok val) := rfl
  simp only [arg_one_bind, arg_two_bind, hval, lift_ok_bind, if_neg hget, if_pos hset]
  cases r.set env.host (env.host.toLower name) val <;> rfl

/-- What CONFIG SET leaves in the session is what `Settings.Set` leaves of its settings. -/
theorem cmdConfig_setStored (env : Env m) (config : Bytes) {arg1 : Bytes}
    (hset : env.host.toUpper arg1 = ascii "SET") (name val : Bytes) {c : Context n m}
    {r : Reloadable} (hc : c.settings = some r) :
    (cmdConfig env [config, arg1, name, val] c).2 =
      { c with settings := some (r.setStored env.host (env.host.toLower name) val).2 } := by
  rw [cmdConfig_set env config hset name val hc]
  unfold setStored
  cases r.set env.host (env.host.toLower name) val with
  | ok r' => rfl
  | error text =>
    show c = { c with settings := some r }
    rw [← hc]

end Command

end Memcore
