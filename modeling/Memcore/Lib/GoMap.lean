import Mathlib.Data.Finmap
import Mathlib.Data.Finset.Sort
import Memcore.Lib.Go

/-!
# Go maps keyed by strings

A `map[string]V` is a finite map; what an iteration over it visits is fixed, the order is not.
`MapOrder` is one choice of iteration order for every key set, and a program that ranges over a
map is modelled for an arbitrary one. `Lists ps m` says that `ps` enumerates the entries of `m`,
each once: it is what such an iteration yields, and also what a packed encoding of `m` holds.
-/

namespace Go

/-- `map[string]V`. -/
abbrev GoMap (V : Type) := Finmap fun _ : Bytes => V

variable {V : Type}

theorem lookup_insert_eq (m : GoMap V) (k k' : Bytes) (v : V) :
    (m.insert k v).lookup k' = if k' = k then some v else m.lookup k' := by
  split
  · next h => rw [h, Finmap.lookup_insert]
  · next h => rw [Finmap.lookup_insert_of_ne _ h]

theorem lookup_erase_eq (m : GoMap V) (k k' : Bytes) :
    (m.erase k).lookup k' = if k' = k then none else m.lookup k' := by
  split
  · next h => rw [h, Finmap.lookup_erase]
  · next h => rw [Finmap.lookup_erase_ne h]

/-- Storing a key again only replaces its value. -/
theorem mem_insert_keys (m : GoMap V) (k k' : Bytes) (v : V) :
    k' ∈ (m.insert k v).keys ↔ k' = k ∨ k' ∈ m.keys := by
  rw [Finmap.mem_keys, Finmap.mem_insert, Finmap.mem_keys]

/-! ## Iteration -/

/-- An iteration order for every set of keys. -/
structure MapOrder where
  keys : Finset Bytes → List Bytes
  nodup : ∀ s, (keys s).Nodup
  mem : ∀ s k, k ∈ keys s ↔ k ∈ s

theorem MapOrder.length_keys (ord : MapOrder) (s : Finset Bytes) :
    (ord.keys s).length = s.card := by
  rw [← List.toFinset_card_of_nodup (ord.nodup s)]
  congr 1
  ext k
  rw [List.mem_toFinset, ord.mem]

/-- `ps` enumerates the entries of `m`, each once. -/
def Lists (ps : List (Bytes × V)) (m : GoMap V) : Prop :=
  (ps.map Prod.fst).Nodup ∧ ∀ k v, (k, v) ∈ ps ↔ m.lookup k = some v

/-- The entries of `m` in the order `ord` visits them. -/
def MapOrder.entries (ord : MapOrder) (m : GoMap V) : List (Bytes × V) :=
  (ord.keys m.keys).filterMap fun k => (m.lookup k).map fun v => (k, v)

theorem MapOrder.map_fst_entries (ord : MapOrder) (m : GoMap V) :
    (ord.entries m).map Prod.fst = ord.keys m.keys := by
  have hall : ∀ k ∈ ord.keys m.keys, ∃ v, m.lookup k = some v := by
    intro k hk
    exact Finmap.mem_iff.mp (Finmap.mem_keys.mp ((ord.mem _ _).mp hk))
  rw [entries]
  revert hall
  generalize ord.keys m.keys = ks
  intro hall
  induction ks with
  | nil => rfl
  | cons k ks ih =>
    obtain ⟨v, hv⟩ := hall k List.mem_cons_self
    rw [List.filterMap_cons, hv]
    simp only [Option.map_some, List.map_cons]
    rw [ih fun k' hk' => hall k' (List.mem_cons_of_mem _ hk')]

theorem MapOrder.entries_lists (ord : MapOrder) (m : GoMap V) : Lists (ord.entries m) m := by
  refine ⟨by rw [ord.map_fst_entries]; exact ord.nodup _, fun k v => ?_⟩
  simp only [entries, List.mem_filterMap, Option.map_eq_some_iff, Prod.mk.injEq]
  constructor
  · rintro ⟨k', -, v', hv, rfl, rfl⟩
    exact hv
  · intro hv
    exact ⟨k, (ord.mem _ _).mpr (Finmap.mem_keys.mpr (Finmap.mem_of_lookup_eq_some hv)), v, hv,
      rfl, rfl⟩

/-- The order that visits keys in increasing byte order; it exists, so an order exists. -/
def MapOrder.default : MapOrder where
  keys s := (s.image Bytes.data).sort (· ≤ ·) |>.map Bytes.ofList
  nodup s := by
    refine List.Nodup.map_on ?_ (Finset.sort_nodup _ _)
    intro a ha b hb hab
    obtain ⟨x, -, rfl⟩ := Finset.mem_image.mp ((Finset.mem_sort _).mp ha)
    obtain ⟨y, -, rfl⟩ := Finset.mem_image.mp ((Finset.mem_sort _).mp hb)
    have hxy : x = y := by simpa using hab
    rw [hxy]
  mem s k := by
    simp only [List.mem_map, Finset.mem_sort, Finset.mem_image]
    constructor
    · rintro ⟨-, ⟨x, hx, rfl⟩, rfl⟩
      simpa using hx
    · intro hk
      exact ⟨k.data, ⟨k, hk, rfl⟩, by simp⟩

instance : Inhabited MapOrder := ⟨MapOrder.default⟩

/-! ## Enumerations -/

namespace Lists

variable {ps : List (Bytes × V)} {m : GoMap V}

theorem empty : Lists ([] : List (Bytes × V)) ∅ :=
  ⟨List.nodup_nil, fun k v => by simp⟩

theorem lookup_none (h : Lists ps m) {k : Bytes} : m.lookup k = none ↔ k ∉ ps.map Prod.fst := by
  constructor
  · intro hn hk
    obtain ⟨⟨k', v⟩, hp, rfl⟩ := List.mem_map.mp hk
    rw [(h.2 _ _).mp hp] at hn
    cases hn
  · intro hk
    cases hl : m.lookup k with
    | none => rfl
    | some v => exact absurd (List.mem_map_of_mem (f := Prod.fst) ((h.2 k v).mpr hl)) hk

theorem keys_eq (h : Lists ps m) : m.keys = (ps.map Prod.fst).toFinset := by
  ext k
  rw [Finmap.mem_keys, List.mem_toFinset, ← Finmap.lookup_isSome]
  have := h.lookup_none (k := k)
  cases hl : m.lookup k with
  | none => simpa [hl] using this
  | some v => simpa [hl] using this

theorem length_eq (h : Lists ps m) : ps.length = m.keys.card := by
  rw [h.keys_eq, List.toFinset_card_of_nodup h.1, List.length_map]

theorem perm {ps' : List (Bytes × V)} (h : Lists ps m) (hp : ps.Perm ps') : Lists ps' m :=
  ⟨(hp.map Prod.fst).nodup_iff.mp h.1, fun k v => by rw [← hp.mem_iff]; exact h.2 k v⟩

/-- Two enumerations of one map differ in their order only. -/
theorem reorder {qs : List (Bytes × V)} (hp : Lists ps m) (hq : Lists qs m) : ps.Perm qs :=
  (List.perm_ext_iff_of_nodup hp.1.of_map hq.1.of_map).mpr fun e => (hp.2 e.1 e.2).trans
    (hq.2 e.1 e.2).symm

/-- Two maps with the same enumeration are equal. -/
theorem unique {m' : GoMap V} (h : Lists ps m) (h' : Lists ps m') : m = m' := by
  refine Finmap.ext_lookup fun k => Option.ext fun v => ?_
  rw [← h.2 k v, ← h'.2 k v]

theorem append_new (h : Lists ps m) {k : Bytes} (hk : m.lookup k = none) (v : V) :
    Lists (ps ++ [(k, v)]) (m.insert k v) := by
  have hk' := h.lookup_none.mp hk
  refine ⟨?_, fun k' v' => ?_⟩
  · rw [List.map_append, List.nodup_append]
    refine ⟨h.1, by simp, fun a ha b hb => ?_⟩
    have hb' : b = k := by simpa using hb
    rintro rfl
    exact hk' (hb' ▸ ha)
  · rw [List.mem_append, h.2, lookup_insert_eq]
    by_cases heq : k' = k
    · subst heq
      simp [hk, eq_comm]
    · simp [heq]

/-- Every list of entries with different keys enumerates a map. -/
theorem exists_of_nodup {ps : List (Bytes × V)} (h : (ps.map Prod.fst).Nodup) :
    ∃ m, Lists ps m := by
  induction ps using List.reverseRecOn with
  | nil => exact ⟨∅, empty⟩
  | append_singleton ps p ih =>
    rw [List.map_append, List.nodup_append] at h
    obtain ⟨m, hm⟩ := ih h.1
    refine ⟨m.insert p.1 p.2, hm.append_new (hm.lookup_none.mpr fun hp => ?_) p.2⟩
    exact h.2.2 _ hp p.1 (by simp) rfl

theorem replace (h : Lists ps m) {k : Bytes} (hk : m.lookup k ≠ none) (v : V) :
    Lists (ps.map fun p => if p.1 = k then (p.1, v) else p) (m.insert k v) := by
  have hfst : (ps.map fun p => if p.1 = k then (p.1, v) else p).map Prod.fst
      = ps.map Prod.fst := by
    rw [List.map_map]
    refine List.map_congr_left fun p _ => ?_
    simp only [Function.comp]
    split <;> rfl
  refine ⟨by rw [hfst]; exact h.1, fun k' v' => ?_⟩
  rw [lookup_insert_eq, List.mem_map]
  by_cases heq : k' = k
  · subst heq
    obtain ⟨w, hw⟩ := Option.ne_none_iff_exists'.mp hk
    rw [if_pos rfl]
    constructor
    · rintro ⟨⟨a, b⟩, hp, he⟩
      by_cases ha : a = k'
      · simpa [ha] using he
      · simp [ha] at he
    · intro hv
      cases hv
      exact ⟨(k', w), (h.2 _ _).mpr hw, by simp⟩
  · rw [if_neg heq, ← h.2]
    constructor
    · rintro ⟨⟨a, b⟩, hp, he⟩
      by_cases ha : a = k
      · simp only [ha, if_true, Prod.mk.injEq] at he
        exact absurd he.1.symm heq
      · simp only [ha, if_false, Prod.mk.injEq] at he
        obtain ⟨rfl, rfl⟩ := he
        exact hp
    · intro hp
      exact ⟨(k', v'), hp, by simp [heq]⟩

theorem filter (h : Lists ps m) (k : Bytes) :
    Lists (ps.filter fun p => decide (p.1 ≠ k)) (m.erase k) := by
  refine ⟨h.1.sublist (List.filter_sublist.map _), fun k' v' => ?_⟩
  rw [List.mem_filter, h.2, lookup_erase_eq]
  by_cases heq : k' = k
  · simp [heq]
  · simp [heq]

/-- Storing the entries of an enumeration one by one rebuilds the map. -/
theorem foldl_insert : ∀ {ps : List (Bytes × V)} {m m₀ : GoMap V}, (ps.map Prod.fst).Nodup →
    (∀ k, m.lookup k = if k ∈ ps.map Prod.fst then none else m₀.lookup k) →
    (∀ k v, (k, v) ∈ ps → m₀.lookup k = some v) →
    ps.foldl (fun m p => m.insert p.1 p.2) m = m₀
  | [], m, m₀, _, hm, _ => Finmap.ext_lookup fun k => by simpa using hm k
  | (k, v) :: ps, m, m₀, hnd, hm, hps => by
      simp only [List.map_cons, List.nodup_cons] at hnd
      show ps.foldl _ (m.insert k v) = m₀
      refine foldl_insert hnd.2 (fun k' => ?_) fun k' v' h => hps k' v' (List.mem_cons_of_mem _ h)
      rw [lookup_insert_eq, hm]
      by_cases heq : k' = k
      · subst heq
        rw [if_pos rfl, if_neg hnd.1, hps k' v List.mem_cons_self]
      · have hmem : k' ∈ ((k, v) :: ps).map Prod.fst ↔ k' ∈ ps.map Prod.fst := by
          rw [List.map_cons, List.mem_cons]
          exact or_iff_right heq
        rw [if_neg heq]
        simp only [hmem]

theorem foldl_insert_empty (h : Lists ps m) :
    ps.foldl (fun m p => m.insert p.1 p.2) ∅ = m := by
  refine foldl_insert h.1 (fun k => ?_) fun k v hp => (h.2 k v).mp hp
  split
  · simp
  · next hk => simp [h.lookup_none.mpr hk]

end Lists

end Go
