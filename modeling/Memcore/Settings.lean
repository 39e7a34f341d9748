import Memcore.Reply
import Memcore.Value.Score

/-!
# Reloadable settings

`settings.go`: the configuration CONFIG GET and CONFIG SET reach. A failed update leaves the
settings as they were.
-/

namespace Memcore

open Go

/-- The text functions of the Go library the server hands its input to. What they compute is not
part of the server; every statement holds for any of them. -/
structure Host where
  /-- `strings.ToUpper`. -/
  toUpper : Bytes → Bytes
  /-- `strings.ToLower`. -/
  toLower : Bytes → Bytes
  /-- `strings.EqualFold`. -/
  equalFold : Bytes → Bytes → Bool
  /-- The `%q` verb. -/
  quote : Bytes → Bytes
  /-- `strconv.ParseFloat(s, 64)`, `none` for an error. -/
  parseFloat : Bytes → Option Score
  /-- `strconv.FormatFloat(f, 'g', -1, 64)`. -/
  formatFloat : Score → Bytes

/-- Text functions that take their input as it is, to run the model with. -/
def Host.verbatim : Host := ⟨id, id, fun a b => decide (a = b), id, fun _ => none, fun _ => ascii "0"⟩

/-- `Reloadable`; the threshold in nanoseconds. -/
structure Reloadable where
  slowThreshold : Int64
  expirySample : Int
  slowLogEnabled : Bool

/-- `paramSlowThreshold`. -/
def paramSlowThreshold : Bytes := ascii "slowlog-threshold-ms"

/-- `paramExpirySample`. -/
def paramExpirySample : Bytes := ascii "expiry-sample-per-shard"

/-- `paramSlowLog`. -/
def paramSlowLog : Bytes := ascii "slowlog-enabled"

/-- `boolParam`. -/
def boolParam (b : Bool) : Bytes := if b then ascii "yes" else ascii "no"

/-- `parseBoolParam`. -/
def parseBoolParam (s : Bytes) : Option Bool :=
  if s = ascii "yes" ∨ s = ascii "1" ∨ s = ascii "true" then some true
  else if s = ascii "no" ∨ s = ascii "0" ∨ s = ascii "false" then some false
  else none

namespace Reloadable

/-- The threshold in whole milliseconds, rounded towards zero. -/
def slowMillis (r : Reloadable) : Int := Int.tdiv r.slowThreshold.toInt (10 ^ 6)

/-- `Settings.Get`. -/
def get (r : Reloadable) (name : Bytes) : Option Bytes :=
  if name = paramSlowThreshold then some (formatInt r.slowMillis)
  else if name = paramExpirySample then some (formatInt r.expirySample)
  else if name = paramSlowLog then some (boolParam r.slowLogEnabled)
  else none

/-- `Settings.All`. -/
def all (r : Reloadable) : List (Bytes × Bytes) :=
  [(paramSlowThreshold, formatInt r.slowMillis), (paramExpirySample, formatInt r.expirySample),
    (paramSlowLog, boolParam r.slowLogEnabled)]

/-- The text of `config.ErrInvalid`. -/
def errInvalid : Bytes := ascii "config: invalid"

/-- A non-negative integer argument. -/
def parseCount (val : Bytes) : Option Int :=
  match parseInt val with
  | some n => if n < 0 then none else some n
  | none => none

/-- `Settings.Set`: the new settings, or the text of the error. -/
def set (host : Host) (r : Reloadable) (name val : Bytes) : Except Bytes Reloadable :=
  let notCount := concat [errInvalid, ascii ": ", name, ascii " must be a non-negative integer"]
  if name = paramSlowThreshold then
    match parseCount val with
    | some ms => .ok { r with slowThreshold := Int64.ofInt (ms * 10 ^ 6) }
    | none => .error notCount
  else if name = paramExpirySample then
    match parseCount val with
    | some n => .ok { r with expirySample := n }
    | none => .error notCount
  else if name = paramSlowLog then
    match parseBoolParam val with
    | some b => .ok { r with slowLogEnabled := b }
    | none => .error (concat [errInvalid, ascii ": ", name, ascii " must be yes or no"])
  else
    .error (concat [errInvalid, ascii ": unknown or non-reloadable parameter ", host.quote name])

end Reloadable

/-! ## Updates -/

/-- The reloadable parameters. -/
inductive Param where
  | slowThreshold
  | expirySample
  | slowLog
deriving DecidableEq

/-- A parameter with a value for it. -/
inductive Assign where
  | slowThreshold (d : Int64)
  | expirySample (n : Int)
  | slowLog (b : Bool)
deriving DecidableEq

/-- The settings have the same value of the parameter. -/
def Param.Agree (r r' : Reloadable) : Param → Prop
  | .slowThreshold => r.slowThreshold = r'.slowThreshold
  | .expirySample => r.expirySample = r'.expirySample
  | .slowLog => r.slowLogEnabled = r'.slowLogEnabled

namespace Assign

/-- The parameter. -/
def param : Assign → Param
  | .slowThreshold _ => .slowThreshold
  | .expirySample _ => .expirySample
  | .slowLog _ => .slowLog

/-- The settings with the value. -/
def apply (r : Reloadable) : Assign → Reloadable
  | .slowThreshold d => { r with slowThreshold := d }
  | .expirySample n => { r with expirySample := n }
  | .slowLog b => { r with slowLogEnabled := b }

/-- The settings have the value. -/
def Holds (r : Reloadable) : Assign → Prop
  | .slowThreshold d => r.slowThreshold = d
  | .expirySample n => r.expirySample = n
  | .slowLog b => r.slowLogEnabled = b

/-- What `Settings.Set` accepts. -/
def parse (name val : Bytes) : Option Assign :=
  if name = paramSlowThreshold then
    (Reloadable.parseCount val).map fun ms => .slowThreshold (Int64.ofInt (ms * 10 ^ 6))
  else if name = paramExpirySample then (Reloadable.parseCount val).map .expirySample
  else if name = paramSlowLog then (parseBoolParam val).map .slowLog
  else none

end Assign

theorem Reloadable.eq_iff_agree {r r' : Reloadable} : r = r' ↔ ∀ p, Param.Agree r r' p := by
  constructor
  · rintro rfl p
    cases p <;> rfl
  · intro h
    obtain ⟨d, k, b⟩ := r
    obtain ⟨d', k', b'⟩ := r'
    obtain rfl : d = d' := h .slowThreshold
    obtain rfl : k = k' := h .expirySample
    obtain rfl : b = b' := h .slowLog
    rfl

/-- The assigned parameter has the value. -/
theorem Assign.agree_apply_self (a : Assign) (r r' : Reloadable) :
    Param.Agree (a.apply r) r' a.param ↔ a.Holds r' := by
  cases a <;> exact eq_comm

/-- The other parameters stay as they are. -/
theorem Assign.agree_apply_of_ne {a : Assign} {p : Param} (h : a.param ≠ p) (r r' : Reloadable) :
    Param.Agree (a.apply r) r' p ↔ Param.Agree r r' p := by
  cases a <;> cases p <;> first | rfl | exact absurd rfl h

/-- What an assignment makes of two settings is the same if and only if they agree on the other
parameters. -/
theorem Assign.apply_eq_iff {a : Assign} {r r' : Reloadable} :
    a.apply r = a.apply r' ↔ ∀ p, a.param ≠ p → Param.Agree r r' p := by
  rw [Reloadable.eq_iff_agree]
  refine forall_congr' fun p => ?_
  cases a <;> cases p <;> simp [Assign.apply, Assign.param, Param.Agree]

/-- An update assigns one parameter. -/
theorem Reloadable.set_eq (host : Host) (r : Reloadable) (name val : Bytes) :
    (r.set host name val).toOption = (Assign.parse name val).map fun a => a.apply r := by
  unfold Reloadable.set Assign.parse
  simp only
  split_ifs
  · cases parseCount val <;> rfl
  · cases parseCount val <;> rfl
  · cases parseBoolParam val <;> rfl
  · rfl

/-- Whether an update is accepted, and the text it is refused with, do not depend on the settings it
meets. -/
theorem Reloadable.set_verdict (host : Host) (r r' : Reloadable) (name val : Bytes) :
    (r.set host name val).map (fun _ => ()) = (r'.set host name val).map fun _ => () := by
  unfold Reloadable.set
  by_cases hslow : name = paramSlowThreshold
  · simp only [if_pos hslow]
    cases parseCount val <;> rfl
  by_cases hsample : name = paramExpirySample
  · simp only [if_neg hslow, if_pos hsample]
    cases parseCount val <;> rfl
  by_cases hlog : name = paramSlowLog
  · simp only [if_neg hslow, if_neg hsample, if_pos hlog]
    cases parseBoolParam val <;> rfl
  · simp only [if_neg hslow, if_neg hsample, if_neg hlog]

end Memcore
