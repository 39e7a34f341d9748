import Memcore.Lib.Run
import Memcore.Persistence.Lifetime

/-!
# One lifetime of a store, effect by effect

`Append`, `Flush`, `Rotate` and `InstallSnapshot` of `appendlog.go` and `compact` of `server.go`, cut
into what each does to a file: a spill of the buffer at any byte, a sync, a create, a write, a rename,
a removal. A process can stop between any two of them, and so can the machine.

What is logged is left open: a `Semantics` says what a command does to the state, when a server can
have run it, and which bytes `WriteSnapshot` can make of a state. The server's own is in
`Server.Durability`.
-/

namespace Memcore

open Go ByteStream

/-- What a log and a snapshot stand for; a command runs when a server can have run it and logged
it. -/
structure Semantics (A : Type) extends Machine A LogCommand where
  /-- `WriteSnapshot` can turn the state and a base generation into these bytes -/
  Captures : A → Nat → List UInt8 → Prop

/-! ## The steps -/

/-- How far `compact` has come. `base` is what `NextGen` returned, `snap` what `WriteSnapshot`
wrote. -/
inductive Phase where
  | idle
  | planned (base : Nat)
  | captured (base : Nat) (snap : List UInt8)
  | closed (base : Nat) (snap : List UInt8)
  | rotated (base : Nat) (snap : List UInt8)
  | writing (base : Nat) (snap : List UInt8)
  | written (base : Nat) (snap : List UInt8)
  | installed (base : Nat)
  | removing (base next : Nat)

/-- Another goroutine can take the store's lock: `Rotate` is not past its flush, and the loop of
removals does not run. -/
def Phase.unlocked : Phase → Bool
  | .closed .. | .removing .. => false
  | _ => true

/-- The snapshot has been taken, and the locks of the databases are still held. -/
def Phase.frozen : Phase → Bool
  | .captured .. => true
  | _ => false

/-- A store with its directory in the middle of a lifetime. -/
structure Node where
  disk : Disk
  store : Store
  phase : Phase
  /-- an `Append` of the policy `always` is on its way to its sync -/
  pending : Bool
  /-- what has been appended so far -/
  appended : List LogCommand
  /-- how many of them were appended before the last completed `Flush` or `Rotate` -/
  marked : Nat
  /-- how many of them were appended before the last sync -/
  flushed : Nat

/-- How many calls of `Append` have returned. -/
def Node.returned (s : Node) : Nat :=
  if s.pending then s.appended.length - 1 else s.appended.length

/-- What happens to the files. -/
inductive FileEvent where
  | append (c : LogCommand)
  | spill (k : Nat)
  | sync
  | nextGen
  | capture (snap : List UInt8)
  | close
  | openNext
  | createTmp
  | writeTmp (k : Nat)
  | syncTmp
  | rename
  | lock
  | remove
  | finish

/-- The store just opened. -/
def Node.start (fsync : FSync) (disk : Disk) : Node where
  disk := (openStore fsync disk).2
  store := (openStore fsync disk).1
  phase := .idle
  pending := false
  appended := []
  marked := 0
  flushed := 0

/-- One effect. A sync is the end of a `Flush`, or of an `Append` under the policy `always`. -/
inductive FileStep {A : Type} (M : Semantics A) (a₀ : A) : Node → FileEvent → Node → Prop where
  /-- A command that changes the state is not appended between the snapshot and the rotation: it
  would need a lock of the databases. -/
  | append {s : Node} {c : LogCommand} (hfree : s.pending = false) (hlock : s.phase.unlocked = true)
      (hruns : M.Runs (M.run a₀ s.appended) c)
      (hfrozen : s.phase.frozen = true →
        M.step (M.run a₀ s.appended) c = M.run a₀ s.appended) :
      FileStep M a₀ s (.append c)
        { s with
          store := { s.store with buf := s.store.buf ++ writeCommand c }
          pending := decide (s.store.fsync = .always)
          appended := s.appended ++ [c] }
  | spill {s : Node} {k : Nat} (hlock : s.phase.unlocked = true) :
      FileStep M a₀ s (.spill k)
        { s with
          disk := s.disk.modifySeg s.store.gen fun f => f.write (s.store.buf.take k)
          store := { s.store with buf := s.store.buf.drop k } }
  | sync {s : Node} (hlock : s.phase.unlocked = true) (hbuf : s.store.buf = []) :
      FileStep M a₀ s .sync
        { s with
          disk := s.disk.modifySeg s.store.gen File.sync
          pending := false
          marked := s.appended.length
          flushed := s.appended.length }
  | nextGen {s : Node} (hfree : s.pending = false) (hphase : s.phase = .idle)
      (hint : s.store.gen + 1 < 2 ^ 63) :
      FileStep M a₀ s .nextGen { s with phase := .planned (s.store.gen + 1) }
  | capture {s : Node} {base : Nat} {snap : List UInt8} (hphase : s.phase = .planned base)
      (hsnap : M.Captures (M.run a₀ s.appended) base snap) :
      FileStep M a₀ s (.capture snap) { s with phase := .captured base snap }
  | close {s : Node} {base : Nat} {snap : List UInt8} (hfree : s.pending = false)
      (hphase : s.phase = .captured base snap) (hbuf : s.store.buf = []) :
      FileStep M a₀ s .close { s with phase := .closed base snap }
  | openNext {s : Node} {base : Nat} {snap : List UInt8} (hphase : s.phase = .closed base snap) :
      FileStep M a₀ s .openNext
        { s with
          disk := s.disk.openSegment (s.store.gen + 1)
          store := { s.store with gen := s.store.gen + 1 }
          phase := .rotated base snap
          marked := s.appended.length }
  | createTmp {s : Node} {base : Nat} {snap : List UInt8} (hphase : s.phase = .rotated base snap) :
      FileStep M a₀ s .createTmp
        { s with
          disk := { s.disk with tmp := some File.empty }
          phase := .writing base snap }
  | writeTmp {s : Node} {base k : Nat} {snap : List UInt8} {f : File}
      (hphase : s.phase = .writing base snap) (htmp : s.disk.tmp = some f) :
      FileStep M a₀ s (.writeTmp k)
        { s with
          disk := { s.disk with
            tmp := some (f.write ((snap.drop f.contents.length).take k)) } }
  | syncTmp {s : Node} {base : Nat} {snap : List UInt8} {f : File}
      (hphase : s.phase = .writing base snap) (htmp : s.disk.tmp = some f)
      (hall : f.contents = snap) :
      FileStep M a₀ s .syncTmp
        { s with
          disk := { s.disk with tmp := some f.sync }
          phase := .written base snap }
  | rename {s : Node} {base : Nat} {snap : List UInt8} (hphase : s.phase = .written base snap) :
      FileStep M a₀ s .rename
        { s with
          disk := { s.disk with snapshot := s.disk.tmp, tmp := none }
          phase := .installed base }
  | lock {s : Node} {base : Nat} (hfree : s.pending = false) (hphase : s.phase = .installed base) :
      FileStep M a₀ s .lock { s with phase := .removing base 0 }
  | remove {s : Node} {base next : Nat} (hphase : s.phase = .removing base next)
      (hnext : next < base) :
      FileStep M a₀ s .remove
        { s with
          disk := { s.disk with segs := s.disk.segs.erase next }
          phase := .removing base (next + 1) }
  | finish {s : Node} {base : Nat} (hphase : s.phase = .removing base base) :
      FileStep M a₀ s .finish { s with phase := .idle }

/-- The flush of the buffer as one spill. -/
theorem FileStep.flush {A : Type} {M : Semantics A} {a₀ : A} {s : Node}
    (hlock : s.phase.unlocked = true) :
    FileStep M a₀ s (.spill s.store.buf.length)
      { s with
        disk := s.disk.modifySeg s.store.gen fun f => f.write s.store.buf
        store := { s.store with buf := [] } } := by
  have hstep : FileStep M a₀ s (.spill s.store.buf.length) _ := .spill hlock
  rwa [List.take_length, List.drop_length] at hstep

/-! ## Power failures -/

/-- A file before and after a power failure. -/
def FileLoss : Option File → Option File → Prop := Option.Rel fun f f' => f.Survives f'.contents

theorem FileLoss.refl (o : Option File) : FileLoss o o := by
  cases o with
  | none => exact .none
  | some f => exact .some ⟨f.unsynced, List.prefix_rfl, rfl⟩

/-- A power failure: creations, renames and removals are on the disk, of every file what was synced
and some of the rest. -/
structure PowerLoss (disk disk' : Disk) : Prop where
  snapshot : FileLoss disk.snapshot disk'.snapshot
  tmp : FileLoss disk.tmp disk'.tmp
  segs : ∀ g, FileLoss (disk.segs.lookup g) (disk'.segs.lookup g)

/-- The first generation a recovery replays. -/
def Disk.base (disk : Disk) : Nat :=
  match disk.baseGen with
  | some base => base.toInt.toNat
  | none => 0

/-- The closed segments a recovery replays are completely synced. -/
def Node.ClosedSynced (s : Node) : Prop :=
  ∀ g f, s.disk.base ≤ g → g < s.store.gen → s.disk.segs.lookup g = some f → f.unsynced = []

/-- Under the policies that do not sync every `Append`, nothing reaches the active segment and no
`Flush` completes while a closed segment that is still needed is not synced. -/
def FileEvent.Careful (s : Node) : FileEvent → Prop
  | .spill _ | .sync => s.store.fsync ≠ .always → s.ClosedSynced
  | _ => True

/-- A step that is careful. -/
def CarefulStep {A : Type} (M : Semantics A) (a₀ : A) (s : Node) (e : FileEvent) (t : Node) : Prop :=
  FileStep M a₀ s e t ∧ e.Careful s

/-! ## Recovery -/

/-- `Recover` with its callbacks, the choices the runtime makes meanwhile, and the state it starts
from. -/
structure Recovery (σ E : Type) where
  lim : Limits
  rngs : Nat → Rng
  restore : σ → Record → σ × Option E
  replay : σ → Int64 → List Bytes → σ × Option E
  start : σ

variable {σ E : Type}

/-- Recovery of the directory succeeds, with a state that is as said. -/
def Recovery.Gives (R : Recovery σ E) (disk : Disk) (P : σ → Prop) : Prop :=
  ∃ s loaded replayed,
    recover R.lim R.rngs R.restore R.replay disk R.start = (s, loaded, replayed, none) ∧ P s

end Memcore
