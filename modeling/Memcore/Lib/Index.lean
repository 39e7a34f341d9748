import Memcore.Lib.GoMap

/-!
# A set of keys kept beside a map

A program that must find the entries of a map with some property `p` without visiting all of them
keeps their keys in a second set. `Indexes p idx m` is what such a set has to satisfy: no key of it
dangles, and no entry with `p` is missing. It may hold more keys than needed. The lemmas say which
update of the set goes with which update of the map.
-/

namespace Go

variable {V : Type}

/-- Every key of `idx` has an entry in `m`, and every entry with `p` has its key in `idx`. -/
structure Indexes (p : V → Bool) (idx : Finset Bytes) (m : GoMap V) : Prop where
  present : ∀ k ∈ idx, ∃ v, m.lookup k = some v
  complete : ∀ k v, m.lookup k = some v → p v = true → k ∈ idx

namespace Indexes

variable {p : V → Bool} {idx : Finset Bytes} {m : GoMap V}

theorem empty : Indexes p ∅ ∅ where
  present k hk := absurd hk (Finset.notMem_empty k)
  complete k v hv := by simp at hv

/-- Storing an entry and recording its key. -/
theorem insert_key (h : Indexes p idx m) (k : Bytes) (v : V) :
    Indexes p (insert k idx) (m.insert k v) where
  present k' hk' := by
    rw [lookup_insert_eq]
    split
    next => exact ⟨v, rfl⟩
    next hne => exact h.present k' (Finset.mem_of_mem_insert_of_ne hk' hne)
  complete k' v' hv' hp := by
    rw [lookup_insert_eq] at hv'
    split at hv'
    next heq => exact heq ▸ Finset.mem_insert_self k idx
    next => exact Finset.mem_insert_of_mem (h.complete k' v' hv' hp)

/-- Storing an entry without the property and forgetting its key. -/
theorem insert_erase_key (h : Indexes p idx m) (k : Bytes) {v : V} (hv : p v = false) :
    Indexes p (idx.erase k) (m.insert k v) where
  present k' hk' := by
    rw [lookup_insert_eq, if_neg (Finset.ne_of_mem_erase hk')]
    exact h.present k' (Finset.mem_of_mem_erase hk')
  complete k' v' hv' hp := by
    rw [lookup_insert_eq] at hv'
    split at hv'
    next =>
      cases hv'
      exact absurd hp (by simp [hv])
    next hne => exact Finset.mem_erase.mpr ⟨hne, h.complete k' v' hv' hp⟩

/-- Taking an entry out of both. -/
theorem erase (h : Indexes p idx m) (k : Bytes) : Indexes p (idx.erase k) (m.erase k) where
  present k' hk' := by
    rw [lookup_erase_eq, if_neg (Finset.ne_of_mem_erase hk')]
    exact h.present k' (Finset.mem_of_mem_erase hk')
  complete k' v' hv' hp := by
    rw [lookup_erase_eq] at hv'
    split at hv'
    next => cases hv'
    next hne => exact Finset.mem_erase.mpr ⟨hne, h.complete k' v' hv' hp⟩

/-- Forgetting a key whose entry, if there is one, does not have the property. -/
theorem erase_key (h : Indexes p idx m) {k : Bytes}
    (hk : ∀ v, m.lookup k = some v → p v = false) : Indexes p (idx.erase k) m where
  present k' hk' := h.present k' (Finset.mem_of_mem_erase hk')
  complete k' v' hv' hp := by
    refine Finset.mem_erase.mpr ⟨?_, h.complete k' v' hv' hp⟩
    rintro rfl
    exact absurd hp (by simp [hk v' hv'])

end Indexes

end Go
