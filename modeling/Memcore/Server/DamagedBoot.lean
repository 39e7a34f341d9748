import Memcore.Command.Replies
import Memcore.Persistence.Damaged
import Memcore.Server.Recover

/-!
# Booting from damaged files

`Server.recover` gives `ReadSnapshot` and `replaySegment` its own callbacks. Nothing recovers from a
panic there, so a panic of a callback aborts the boot just as one of the readers does. `restore` has
none. `replay` runs the handler of whatever command it is given, and a handler has one: a pop that asks
for more replies than can be allocated. `recovery_panics_iff` says when either happens.
-/

namespace Memcore

open Go Cmd Prog ByteStream

variable {n m : Nat}

/-! ## The callbacks -/

/-- `restore` refuses a record or stores it. -/
theorem restore_no_panic (env : Env m) (c : Context n m) (r : Record) (p : Panic) :
    (restore env c r).2 ≠ some (.panic p) := by
  unfold restore
  split <;> nofun

/-- What `replay` does in the database it selects, if there is one of that number. -/
theorem replay_cases (env : Env m) (c : Context n m) (db : Int64) (args : List Bytes) :
    ((¬ ∃ d : Fin n, db.toInt = d) ∧ replay env c db args = (c, some .databaseOutOfRange)) ∨
      ∃ d : Fin n, db.toInt = d ∧
        replay env c db args = ((dispatch env args { c with index := d }).2,
          match (dispatch env args { c with index := d }).1 with
          | .ok _ => none
          | .error p => some (.panic p)) := by
  by_cases h : 0 ≤ db.toInt ∧ db.toInt.toNat < n
  · refine .inr ⟨⟨db.toInt.toNat, h.2⟩, (Int.toNat_of_nonneg h.1).symm, ?_⟩
    rw [replay, select_of_lt h]
    rcases hrun : dispatch env args { c with index := ⟨db.toInt.toNat, h.2⟩ } with ⟨_ | _, _⟩ <;>
      simp only [hrun]
  · refine .inl ⟨?_, by rw [replay, select_of_not_lt h]⟩
    rintro ⟨d, hd⟩
    exact h ⟨by rw [hd]; exact Int.natCast_nonneg _, by rw [hd]; simp⟩

section Represented

variable {env : Env m} {c : Context n m} {A : Fin n → ADB}

/-- Replaying anything, whatever comes of it, leaves well-formed databases well-formed. -/
theorem replay_represented (h : Databases.Repr env c.databases A) (db : Int64) (args : List Bytes) :
    ∃ A', Databases.Repr env (replay env c db args).1.databases A' := by
  rcases replay_cases env c db args with ⟨-, hrun⟩ | ⟨d, -, hrun⟩
  · rw [hrun]
    exact ⟨A, h⟩
  · rw [hrun]
    unfold dispatch
    cases hres : (resolve args : Except Reply (Command n m)) with
    | error reply => exact ⟨A, h⟩
    | ok cmd =>
      obtain ⟨hcmd, hacc, -⟩ := resolve_ok hres
      exact ⟨_, run_refines (c := { c with index := d }) hcmd hacc h⟩

/-- **What `replay` panics on**, in well-formed databases: a command whose handler does. -/
theorem replay_panics_iff (h : Databases.Repr env c.databases A) (db : Int64) (args : List Bytes) :
    (∃ p, (replay env c db args).2 = some (.panic p)) ↔
      ∃ d : Fin n, db.toInt = d ∧ ∃ cmd : Command n m, resolve args = .ok cmd ∧
        cmd.Crashes env.now args (A d) := by
  -- an index out of range is an error; any other selects one database
  rcases replay_cases env c db args with ⟨hnone, hrun⟩ | ⟨d, hd, hrun⟩
  · rw [hrun]
    refine iff_of_false (by rintro ⟨p, hp⟩; cases hp) ?_
    rintro ⟨d, hd, -⟩
    exact hnone ⟨d, hd⟩
  · have hunique (d' : Fin n) (hd' : db.toInt = d') : d' = d :=
      Fin.ext (by exact_mod_cast hd'.symm.trans hd)
    rw [hrun]
    unfold dispatch
    cases hres : (resolve args : Except Reply (Command n m)) with
    | error reply =>
      refine iff_of_false (by rintro ⟨p, hp⟩; cases hp) ?_
      rintro ⟨_, -, cmd, hcmd, -⟩
      cases hcmd
    | ok cmd =>
      obtain ⟨hcmd, hacc, -⟩ := resolve_ok hres
      have hcompletes := run_completes_iff (c := { c with index := d }) hcmd hacc (h d)
      have hcrash : (∃ d' : Fin n, db.toInt = d' ∧ ∃ cmd' : Command n m,
          (.ok cmd : Except Reply (Command n m)) = .ok cmd' ∧
            cmd'.Crashes env.now args (A d')) ↔ cmd.Crashes env.now args (A d) := by
        constructor
        · rintro ⟨d', hd', cmd', heq, hcrash⟩
          cases heq
          rwa [hunique d' hd'] at hcrash
        · exact fun hcrash => ⟨d, hd, cmd, rfl, hcrash⟩
      rw [hcrash]
      simp only
      cases hout : (cmd.run env args { c with index := d }).1 with
      | ok reply =>
        refine iff_of_false (by rintro ⟨p, hp⟩; cases hp) ?_
        exact hcompletes.mp ⟨reply, hout⟩
      | error p =>
        refine iff_of_true ⟨p, rfl⟩ (not_not.mp fun hno => ?_)
        obtain ⟨reply, hok⟩ := hcompletes.mpr hno
        cases hout.symm.trans hok

end Represented

/-! ## The boot -/

/-- The commands of a segment one after the other, with the callback of the server. -/
abbrev ReplayReaches (env : Env m) (segment : List UInt8) (c : Context n m)
    (bad : Nat → List UInt8 → Context n m → Prop) : Prop :=
  ByteStream.Reaches (fun _ => readCommand) (fun c x => replay env c x.1 x.2) 0 segment c bad

/-- **When the boot is aborted.** Whatever bytes the snapshot file and a segment file hold,
`ReadSnapshot` and `replaySegment` end, with the callbacks `Server.recover` gives them. On the snapshot
they end in a panic only where `make` is asked for more than can be allocated, exactly when, behind a
whole header and whole records that were restored, the rest has an oversized key, element, field, value
or member. On a segment they end in a panic exactly when, behind whole commands that were replayed, the
rest has an oversized number of arguments or an oversized argument, or is a whole command and replaying
it panics. In databases that are well formed, as they then stay, the latter is a counted pop of a live
list with a count that is too big, and nothing else. On all other files they return, with success or with
an error value. -/
theorem recovery_panics_iff (env : Env m) (lim : Limits) (rngs : Nat → Rng)
    (snapshot segment : List UInt8) (c : Context n m) (p : Panic) :
    ((readSnapshot lim rngs (restore env) snapshot c).2.2 = some (.stream (.other (.panic p))) ↔
      p = .makeslice ∧ ∃ q gen records, snapshot = snapshotMagic ++ q ∧
        (readUvarint : Read Nat) q = .ok (gen, records) ∧
        ByteStream.Reaches (fun k => readRecord lim (rngs k)) (restore env) 0 records c
          fun _ rest _ => OversizedRecord rest) ∧
    (readSnapshot lim rngs (restore env) snapshot c).2.2 ≠ some (.callback (.panic p)) ∧
    ((replaySegment (replay env) segment c).2.2 = some (.stream (.other (.panic p))) ↔
      p = .makeslice ∧ ReplayReaches env segment c fun _ rest _ => OversizedCommand rest) ∧
    ((replaySegment (replay env) segment c).2.2 = some (.callback (.panic p)) ↔
      ReplayReaches env segment c fun _ rest c' => ∃ db args t,
        readCommand rest = .ok ((db, args), t) ∧ (replay env c' db args).2 = some (.panic p)) ∧
    ∀ A : Fin n → ADB, Databases.Repr env c.databases A → ∀ {k rest c'},
      Accepted (fun _ => readCommand) (fun c x => replay env c x.1 x.2) 0 segment c k rest c' →
      ∃ A', Databases.Repr env c'.databases A' ∧ ∀ db args,
        (∃ p, (replay env c' db args).2 = some (.panic p)) ↔
          ∃ d : Fin n, db.toInt = d ∧ ∃ cmd : Command n m, resolve args = .ok cmd ∧
            cmd.Crashes env.now args (A' d) := by
  refine ⟨readSnapshot_panics_iff, fun hpanic => ?_,
    replayLoop_panics_iff _ segment 0 c (Nat.lt_succ_self _),
    replayLoop_callback_iff _ segment 0 c (Nat.lt_succ_self _), fun A hA _ _ c' hacc => ?_⟩
  · obtain ⟨c', r, hr⟩ := readSnapshot_callback hpanic
    exact restore_no_panic env c' r p hr
  · obtain ⟨A', hA'⟩ := hacc.invariant (fun c => ∃ A, Databases.Repr env c.databases A) ⟨A, hA⟩
      fun c x ⟨A, hA⟩ => replay_represented hA x.1 x.2
    exact ⟨A', hA', replay_panics_iff hA'⟩

/-- RPUSH k v. -/
def pushCommand : LogCommand := ⟨0, ["RPUSH", "k", "v"].map ascii, by decide⟩

/-- LPOP k with the largest count there is. -/
def popCommand : LogCommand := ⟨0, ["LPOP", "k", "9223372036854775807"].map ascii, by decide⟩

/-- A segment of two whole records without an oversized length, the second of which aborts the boot:
it is a pop of the list that the first one makes. -/
theorem recovery_panics_iff_pop :
    (replaySegment (replay (Env.single 0)) (writeCommand pushCommand ++ writeCommand popCommand)
        (Context.empty none 0 fun _ => 0 : Context 1 1)).2.2
      = some (.callback (.panic .makeslice)) ∧
    ∃ (c : Context 1 1) (A : Fin 1 → ADB), Databases.Repr (Env.single 0) c.databases A ∧
      ∃ (d : Fin 1) (cmd : Command 1 1), resolve popCommand.args = .ok cmd ∧
        cmd.Crashes (Env.single 0).now popCommand.args (A d) := by
  obtain ⟨-, -, -, hcallback, hrepresented⟩ := recovery_panics_iff (Env.single 0)
    ⟨⟨0, 0⟩, ⟨0, 0⟩, ⟨0, 0⟩, ⟨0, 0⟩⟩ (fun _ _ => 0) []
    (writeCommand pushCommand ++ writeCommand popCommand)
    (Context.empty none 0 fun _ => 0 : Context 1 1) .makeslice
  have hpop : readCommand (writeCommand popCommand) = .ok ((popCommand.db, popCommand.args), []) := by
    have hread := (decodes_readCommand popCommand).full []
    rwa [List.append_nil] at hread
  have hpanic : (replay (Env.single 0) (replay (Env.single 0)
      (Context.empty none 0 fun _ => 0 : Context 1 1) pushCommand.db pushCommand.args).1
      popCommand.db popCommand.args).2 = some (.panic .makeslice) := rfl
  have hacc : Accepted (fun _ => readCommand)
      (fun (c : Context 1 1) x => replay (Env.single 0) c x.1 x.2) 0
      (writeCommand pushCommand ++ writeCommand popCommand) (Context.empty none 0 fun _ => 0) 1
      (writeCommand popCommand) (replay (Env.single 0) (Context.empty none 0 fun _ => 0)
        pushCommand.db pushCommand.args).1 :=
    .next ((decodes_readCommand pushCommand).full (writeCommand popCommand)) (Prod.ext rfl rfl) .here
  obtain ⟨A, hA, hiff⟩ := hrepresented _ (empty_repr (Env.single 0) none 0 fun _ => 0) hacc
  obtain ⟨d, -, cmd, hres, hcrash⟩ := (hiff popCommand.db popCommand.args).mp ⟨_, hpanic⟩
  exact ⟨hcallback.mpr ⟨_, _, _, hacc, _, _, _, hpop, hpanic⟩, _, A, hA, d, cmd, hres, hcrash⟩

end Memcore
