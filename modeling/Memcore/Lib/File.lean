import Mathlib.Data.List.Basic

/-!
# Files and power failures

A file is what has been synced and what was written after that. A process that stops leaves all of
it; a power failure keeps what was synced and some prefix of the rest.
-/

/-- A file of bytes. -/
structure File where
  synced : List UInt8
  unsynced : List UInt8
deriving DecidableEq

namespace File

variable {f : File}

/-- What a reader finds. -/
def contents (f : File) : List UInt8 := f.synced ++ f.unsynced

/-- An empty file. -/
def empty : File := ⟨[], []⟩

/-- Append bytes. -/
def write (f : File) (bs : List UInt8) : File := ⟨f.synced, f.unsynced ++ bs⟩

/-- `fsync`. -/
def sync (f : File) : File := ⟨f.contents, []⟩

/-- `bs` may be what a power failure leaves of the file. -/
def Survives (f : File) (bs : List UInt8) : Prop := ∃ p, p <+: f.unsynced ∧ bs = f.synced ++ p

@[simp] theorem contents_empty : empty.contents = [] := rfl

@[simp] theorem contents_write (f : File) (bs : List UInt8) :
    (f.write bs).contents = f.contents ++ bs := (List.append_assoc _ _ _).symm

@[simp] theorem contents_sync (f : File) : f.sync.contents = f.contents := List.append_nil _

theorem Survives.prefix_contents {bs : List UInt8} (h : f.Survives bs) : bs <+: f.contents := by
  obtain ⟨p, hp, rfl⟩ := h
  exact (List.prefix_append_right_inj _).mpr hp

theorem Survives.synced_prefix {bs : List UInt8} (h : f.Survives bs) : f.synced <+: bs := by
  obtain ⟨p, -, rfl⟩ := h
  exact List.prefix_append _ _

theorem Survives.eq_contents {bs : List UInt8} (h : f.Survives bs) (hs : f.unsynced = []) :
    bs = f.contents := by
  obtain ⟨p, hp, rfl⟩ := h
  rw [hs] at hp
  rw [List.prefix_nil.mp hp, contents, hs]

end File
