import Memcore.Persistence.Synced
import Memcore.Server.Timeless

/-!
# Durability of the server

The file effects of one lifetime (`Persistence.Compaction`) with what the server logs and
snapshots. Only commands that set no deadline are considered, on databases without any, so that a
state does not depend on when it is looked at.

A process crash at any moment loses nothing that was flushed or rotated, and never applies a command
twice (`recover_process_crash`). A power failure can leave a hole: `Rotate` flushes the segment it
closes but does not sync it, and while the snapshot is being written a `Flush` syncs the next one
(`power_loss_hole`). Without that, what was flushed survives (`recover_power_loss`).
-/

namespace Memcore

open Go Prog ByteStream

variable {n m : Nat}

/-- Collections have fewer than `2 ^ 64` elements. -/
def InMemory (A : Fin n → ADB) : Prop := ∀ d key e, A d key = some e → e.value.size < 2 ^ 64

/-- The abstract databases after a logged command. -/
def applyCommand (env : Env m) (A : Fin n → ADB) (c : LogCommand) : Fin n → ADB :=
  if h : 0 ≤ c.db.toInt ∧ c.db.toInt.toNat < n then
    effectOf env ⟨c.db.toInt.toNat, h.2⟩ c.args A
  else A

theorem applyCommand_eq (hn : n < 2 ^ 63) (env : Env m) (A : Fin n → ADB) {c : LogCommand}
    {d : Fin n} (hdb : c.db = Int64.ofNat d) :
    applyCommand env A c = effectOf env d c.args A := by
  have hint : c.db.toInt = d := by rw [hdb, toInt_ofNat_index hn]
  have hlt : 0 ≤ c.db.toInt ∧ c.db.toInt.toNat < n := by
    rw [hint]
    exact ⟨Int.natCast_nonneg _, by simp⟩
  have hd : (⟨c.db.toInt.toNat, hlt.2⟩ : Fin n) = d := Fin.ext (by simp [hint])
  rw [applyCommand, dif_pos hlt, hd]

/-- What the server logs and snapshots stands for its databases. -/
def logSemantics (n : Nat) (env : Env m) : Semantics (Fin n → ADB) where
  step := applyCommand env
  Runs A c := ∃ d : Fin n, c.db = Int64.ofNat d ∧ Executable env A d c.args
  Captures A base snap := ∃ (dbs : Fin n → DB m) (ord : MapOrder) (ords : Nat → MapOrder),
    Databases.Repr env dbs A ∧ InMemory A ∧
      writeSnapshot ords (Int64.ofNat base) (emitRecords ord dbs) = .ok snap

/-- `Server.recover` at a time, with choices of the runtime, from a context. -/
def serverRecovery (env : Env m) (now : Time) (ord : MapOrder) (rngs : Nat → Rng)
    (c : Context n m) : Recovery (Context n m) RecoverFailure :=
  ⟨env.limits, rngs, restore (env.at now ord), replay (env.at now ord), c⟩

/-- Recovery understands what the server writes. -/
theorem serverRecovery_faithful (hn : n < 2 ^ 63) (env : Env m) (now : Time) (ord : MapOrder)
    (rngs : Nat → Rng) {c : Context n m}
    (hc : Databases.Repr env c.databases fun _ _ => none) :
    Faithful (logSemantics n env) (serverRecovery env now ord rngs c)
      (fun c A => Databases.Repr env c.databases A) Timeless where
  good := by
    rintro A c hA ⟨d, hdb, hexec⟩
    show Timeless (applyCommand env A c)
    rw [applyCommand_eq hn env A hdb]
    exact hexec.timeless hA
  replay := by
    rintro c A l hA ⟨d, hdb, hexec⟩ hc
    obtain ⟨c', hreplay, hc'⟩ := hexec.replay hn hA hc now ord
    rw [← applyCommand_eq hn env A hdb] at hc'
    rw [← hdb] at hreplay
    exact ⟨c', hreplay, hc'⟩
  restore := by
    rintro A base snap hA ⟨dbs, ord', ords, hrepr, hsize, hwrite⟩
    have hrepr' : Databases.Repr (env.at now ord) dbs A := hrepr
    obtain ⟨enc, c', henc, -, hread, hc'⟩ := readSnapshot_emitRecords hn hrepr' hsize ord' ords rngs
      (Int64.ofNat base) hc
    rw [hwrite] at henc
    cases henc
    rw [restored_timeless hA] at hc'
    exact ⟨c', hread, hc'⟩

/-! ## A run with two commands -/

/-- A SET as it is logged. -/
def setCommand (key value : String) : LogCommand :=
  ⟨0, [ascii "SET", ascii key, ascii value], show 3 * sliceHeader ≤ maxAlloc by decide⟩

theorem resolve_set (key value : String) :
    ∃ cmd : Command 1 1, resolve (setCommand key value).args = .ok cmd ∧ cmd.readOnly = false ∧
      cmd.wholeDB = false ∧ cmd.name = ascii "set" := by
  have hcheck : (match (lookupFold (ascii "SET") : Option (Command 1 1)) with
      | some cmd => decide (cmd.accepts 3 = true ∧ cmd.readOnly = false ∧ cmd.wholeDB = false ∧
          cmd.name = ascii "set")
      | none => false) = true := by decide +kernel
  cases hl : (lookupFold (ascii "SET") : Option (Command 1 1)) with
  | none =>
    rw [hl] at hcheck
    cases hcheck
  | some cmd =>
    rw [hl] at hcheck
    obtain ⟨hacc, hrest⟩ := of_decide_eq_true hcheck
    exact ⟨cmd, by simp [setCommand, resolve, hl, hacc], hrest⟩

theorem set_executable (env : Env 1) (A : Fin 1 → ADB) (key value : String) :
    Executable env A 0 (setCommand key value).args := by
  obtain ⟨cmd, hres, hwrite, -, hname⟩ := resolve_set key value
  refine ⟨cmd, hres, hwrite, ?_, ?_, fun hcrash => ?_⟩
  · rw [hname]
    decide
  · rw [hname]
    decide
  · have hpop := hcrash.1
    rw [hname] at hpop
    revert hpop
    decide

/-- A snapshot of databases with one string. -/
theorem exists_captures_set (env : Env 1) (key value : String) (base : Nat) :
    ∃ snap, (logSemantics 1 env).Captures
      ((logSemantics 1 env).run (fun _ _ => none) [setCommand key value]) base snap := by
  obtain ⟨c, -, hrepr⟩ := (set_executable env (fun _ _ => none) key value).replay (by decide)
    (fun _ _ _ h => by cases h) (empty_repr env none 0 fun _ => 0) env.now env.ord
  rw [← applyCommand_eq (by decide) env _ rfl] at hrepr
  have hsize : InMemory (n := 1) (applyCommand env (fun _ _ => none) (setCommand key value)) := by
    obtain ⟨cmd, hres, -, hpart, hname⟩ := resolve_set key value
    intro d k e he
    rw [applyCommand_eq (d := 0) (by decide) env _ rfl] at he
    simp only [effectOf, hres] at he
    obtain rfl : d = 0 := Subsingleton.elim _ _
    rw [Function.update_self] at he
    simp only [setCommand] at he
    rw [effect_singleKey hpart (by rw [hname]; decide), hname] at he
    have hparse : KeyOp.parse env.host (ascii "set") [ascii value] = some (.put (ascii value)) := rfl
    rw [hparse] at he
    by_cases hk : k = ascii key
    · subst hk
      simp only [afterOp, Function.update_self, KeyOp.apply, Option.some.injEq] at he
      rw [← he]
      exact Nat.two_pow_pos 64
    · simp [afterOp, hk] at he
  obtain ⟨snap, -, hsnap, -⟩ := readSnapshot_emitRecords (by decide) hrepr hsize env.ord
    (fun _ => env.ord) (fun _ _ => 0) (Int64.ofNat base) (empty_repr env none 0 fun _ => 0)
  exact ⟨snap, _, _, _, hrepr, hsize, hsnap⟩

/-- The directory after SET a was appended and rotated away, and SET b was appended to the next segment
and flushed, while the snapshot is still to be written. -/
def holeDisk : Disk :=
  ((((Disk.empty.openSegment 0).modifySeg 0 fun f =>
    f.write (writeCommand (setCommand "a" "1"))).openSegment 1).modifySeg 1 fun f =>
      f.write (writeCommand (setCommand "b" "2"))).modifySeg 1 File.sync

theorem hole_run : ∃ events s,
    Run (FileStep (logSemantics 1 (Env.single 0)) fun _ _ => none)
        (Node.start .everySec Disk.empty) events s ∧
      s.disk = holeDisk ∧ s.appended = [setCommand "a" "1", setCommand "b" "2"] ∧
      s.marked = 2 ∧ s.flushed = 2 := by
  obtain ⟨snap, hsnap⟩ := exists_captures_set (Env.single 0) "a" "1" 1
  have hruns (A : Fin 1 → ADB) (key value : String) :
      (logSemantics 1 (Env.single 0)).Runs A (setCommand key value) :=
    ⟨0, rfl, set_executable _ A key value⟩
  have h₀ : Run (FileStep (logSemantics 1 (Env.single 0)) fun _ _ => none) _ _ _ :=
    .nil (Node.start .everySec Disk.empty)
  have h₁ := h₀.snoc (.append rfl rfl (hruns _ "a" "1") nofun)
  have h₂ := h₁.snoc (.flush rfl)
  have h₃ := h₂.snoc (.nextGen rfl rfl (by decide))
  have h₄ := h₃.snoc (.capture rfl hsnap)
  have h₅ := h₄.snoc (.close rfl rfl rfl)
  have h₆ := h₅.snoc (.openNext rfl)
  have h₇ := h₆.snoc (.append rfl rfl (hruns _ "b" "2") nofun)
  have h₈ := h₇.snoc (.flush rfl)
  have h₉ := h₈.snoc (.sync rfl rfl)
  exact ⟨_, _, h₉, rfl, rfl, rfl, rfl⟩

/-- An empty directory recovers to empty databases. -/
theorem empty_gives :
    (serverRecovery (Env.single 0) 0 MapOrder.default (fun _ _ => 0)
      (Context.empty none 0 fun _ => 0)).Gives Disk.empty fun c =>
        Databases.Repr (n := 1) (Env.single 0) c.databases fun _ _ => none :=
  ⟨_, _, _, rfl, empty_repr (Env.single 0) none 0 fun _ => 0⟩

/-! ## Process crashes -/

/-- **Compaction is crash-safe.** Any directory whose segments end with whole records, and whose
recovery gives databases `S₀` without deadlines; any run of appends, flushes and compactions on it,
cut after any file effect. Recovery into empty databases then succeeds and gives the state after a
prefix of the appended commands, each applied once, and the prefix has every command appended before
the last completed `Flush` or `Rotate`. -/
theorem recover_process_crash (hn : n < 2 ^ 63) (env : Env m) (now : Time) (ord : MapOrder)
    (rngs : Nat → Rng) (settings : Option Reloadable) (index : Fin n) (rng : Rng) (fsync : FSync)
    {disk₀ : Disk} {S₀ : Fin n → ADB} (htimeless : Timeless S₀) (hwhole : disk₀.WholeRecords)
    (hrec : (serverRecovery env now ord rngs (Context.empty settings index rng)).Gives disk₀
      fun c => Databases.Repr env c.databases S₀)
    {events : List FileEvent} {s : Node}
    (hrun : Run (FileStep (logSemantics n env) S₀) (Node.start fsync disk₀) events s) :
    ∃ k, s.marked ≤ k ∧ k ≤ s.appended.length ∧
      (serverRecovery env now ord rngs (Context.empty settings index rng)).Gives s.disk
        fun c => Databases.Repr env c.databases
          ((logSemantics n env).run S₀ (s.appended.take k)) :=
  gives_of_run (serverRecovery_faithful hn env now ord rngs (empty_repr env settings index rng))
    htimeless hwhole hrec hrun

/-- A crash while the snapshot is still to be written, with a command in each of two segments. -/
theorem recover_process_crash_window : ∃ events s,
    Run (FileStep (logSemantics 1 (Env.single 0)) fun _ _ => none)
        (Node.start .everySec Disk.empty) events s ∧ s.marked = 2 ∧
      ∃ k, s.marked ≤ k ∧ k ≤ s.appended.length ∧
        (serverRecovery (Env.single 0) 0 MapOrder.default (fun _ _ => 0)
          (Context.empty none 0 fun _ => 0)).Gives s.disk fun c =>
            Databases.Repr (Env.single 0) c.databases
              ((logSemantics 1 (Env.single 0)).run (fun _ _ => none) (s.appended.take k)) := by
  obtain ⟨events, s, hrun, -, -, hmarked, -⟩ := hole_run
  refine ⟨events, s, hrun, hmarked, ?_⟩
  exact recover_process_crash (by decide) (Env.single 0) 0 MapOrder.default (fun _ _ => 0) none 0
    (fun _ => 0) .everySec (fun _ _ _ h => by cases h) (fun _ => ⟨[], rfl⟩) empty_gives hrun

/-! ## Power failures -/

/-- **What was flushed survives a power failure in careful runs.** Every policy; any run of appends,
flushes and compactions on a synced directory of whole records, in which, unless the policy is
`always`, no byte reaches the active segment and no `Flush` completes while a closed segment that the
installed snapshot does not cover is not synced. After a power failure at any moment, recovery gives
the state after a prefix of the appended commands, and the prefix has every command appended before
the last `Flush` that returned, and under `always` every command whose `Append` returned. -/
theorem recover_power_loss (hn : n < 2 ^ 63) (env : Env m) (now : Time) (ord : MapOrder)
    (rngs : Nat → Rng) (settings : Option Reloadable) (index : Fin n) (rng : Rng) (fsync : FSync)
    {disk₀ : Disk} {S₀ : Fin n → ADB} (htimeless : Timeless S₀) (hwhole : disk₀.WholeRecords)
    (hsync : disk₀.AllSynced)
    (hrec : (serverRecovery env now ord rngs (Context.empty settings index rng)).Gives disk₀
      fun c => Databases.Repr env c.databases S₀)
    {events : List FileEvent} {s : Node}
    (hrun : Run (CarefulStep (logSemantics n env) S₀) (Node.start fsync disk₀) events s)
    {disk : Disk} (hloss : PowerLoss s.disk disk) :
    ∃ k, s.flushed ≤ k ∧ (s.store.fsync = .always → s.returned ≤ k) ∧ k ≤ s.appended.length ∧
      (serverRecovery env now ord rngs (Context.empty settings index rng)).Gives disk
        fun c => Databases.Repr env c.databases
          ((logSemantics n env).run S₀ (s.appended.take k)) :=
  gives_of_careful_run
    (serverRecovery_faithful hn env now ord rngs (empty_repr env settings index rng)) htimeless hwhole
    hsync hrec hrun hloss

/-- A power failure that keeps nothing of the closed segment, which nobody has synced. -/
def holeLoss : Disk := { holeDisk with segs := holeDisk.segs.insert 0 File.empty }

/-- What recovery finds there. -/
theorem holeLoss_recover :
    let c := (recover (Env.single 0).limits (fun _ _ => 0) (restore (n := 1) (Env.single 0))
      (replay (Env.single 0)) holeLoss (Context.empty none 0 fun _ => 0)).1
    ((c.databases 0 0).entries.lookup (ascii "a")).isSome = false ∧
      ((c.databases 0 0).entries.lookup (ascii "b")).isSome = true := by
  decide +kernel

theorem isSome_of_rel {α β : Type} {r : α → β → Prop} {o : Option α} {o' : Option β}
    (h : Option.Rel r o o') : o'.isSome = o.isSome := by
  cases h <;> rfl

theorem holeLoss_powerLoss : PowerLoss holeDisk holeLoss where
  snapshot := .refl _
  tmp := .refl _
  segs g := by
    by_cases hg : g = 0
    · subst hg
      rw [holeLoss, Finmap.lookup_insert]
      exact .some ⟨[], List.nil_prefix, rfl⟩
    · rw [holeLoss, Finmap.lookup_insert_of_ne _ hg]
      exact .refl _

/-- **A power failure between `Rotate` and the installation of the snapshot can lose a command and
keep a later one**, although a `Flush` has returned after both: what recovery finds is the state after
no prefix of the two commands. -/
theorem power_loss_hole : ∃ events s disk,
    Run (FileStep (logSemantics 1 (Env.single 0)) fun _ _ => none)
        (Node.start .everySec Disk.empty) events s ∧
      s.flushed = s.appended.length ∧ PowerLoss s.disk disk ∧
      ¬ ∃ k, k ≤ s.appended.length ∧
        (serverRecovery (Env.single 0) 0 MapOrder.default (fun _ _ => 0)
          (Context.empty none 0 fun _ => 0)).Gives disk fun c =>
            Databases.Repr (Env.single 0) c.databases
              ((logSemantics 1 (Env.single 0)).run (fun _ _ => none) (s.appended.take k)) := by
  obtain ⟨events, s, hrun, hdisk, happended, -, hflushed⟩ := hole_run
  refine ⟨events, s, holeLoss, hrun, ?_, hdisk ▸ holeLoss_powerLoss, ?_⟩
  · rw [hflushed, happended]
    rfl
  · rintro ⟨k, hk, c, loaded, replayed, hrec, hrepr⟩
    obtain rfl : c = (recover _ _ _ _ _ _).1 := (congrArg Prod.fst hrec).symm
    obtain ⟨ha, hb⟩ := holeLoss_recover
    have hnoA := (isSome_of_rel ((hrepr 0).lookup_entries (ascii "a"))).trans ha
    have hisB := (isSome_of_rel ((hrepr 0).lookup_entries (ascii "b"))).trans hb
    rw [happended] at hk hnoA hisB
    have hcases : k = 0 ∨ k = 1 ∨ k = 2 := by
      have hle : k ≤ 2 := hk
      omega
    revert hnoA hisB
    rcases hcases with rfl | rfl | rfl <;> decide +kernel

/-- The same directory before SET b: under the policy `everysec` the run is careful, and keeps what a
`Flush` has synced. -/
theorem recover_power_loss_flushed : ∃ events s,
    Run (CarefulStep (logSemantics 1 (Env.single 0)) fun _ _ => none)
        (Node.start .everySec Disk.empty) events s ∧ s.flushed = 1 ∧
      ∀ disk, PowerLoss s.disk disk →
        ∃ k, s.flushed ≤ k ∧ (s.store.fsync = .always → s.returned ≤ k) ∧ k ≤ s.appended.length ∧
          (serverRecovery (Env.single 0) 0 MapOrder.default (fun _ _ => 0)
            (Context.empty none 0 fun _ => 0)).Gives disk fun c =>
              Databases.Repr (Env.single 0) c.databases
                ((logSemantics 1 (Env.single 0)).run (fun _ _ => none) (s.appended.take k)) := by
  have h₀ : Run (CarefulStep (logSemantics 1 (Env.single 0)) fun _ _ => none) _ _ _ :=
    .nil (Node.start .everySec Disk.empty)
  have h₁ := h₀.snoc ⟨.append rfl rfl ⟨0, rfl, set_executable _ _ "a" "1"⟩ nofun, trivial⟩
  have h₂ := h₁.snoc ⟨.flush rfl, fun _ g _ _ hlt _ => absurd hlt (Nat.not_lt_zero g)⟩
  have h₃ := h₂.snoc ⟨.sync rfl rfl, fun _ g _ _ hlt _ => absurd hlt (Nat.not_lt_zero g)⟩
  refine ⟨_, _, h₃, rfl, fun disk hloss => ?_⟩
  exact recover_power_loss (by decide) (Env.single 0) 0 MapOrder.default (fun _ _ => 0) none 0
    (fun _ => 0) .everySec (fun _ _ _ h => by cases h) (fun _ => ⟨[], rfl⟩) 
    ⟨fun _ h => (by cases h), fun _ _ h => (by cases h)⟩ empty_gives h₃ hloss

end Memcore
