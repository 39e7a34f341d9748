import Memcore.Value.AnyScore
import Memcore.Value.List
import Memcore.Value.Maps
import Memcore.Value.Ranking

/-!
# Packed collections keep to their thresholds

Each of the four collections looks at its thresholds when something is stored, and then only at how
many elements there are and how long the new one is. That all of them are short is an invariant:
what is stored is checked as it comes in, and nothing else makes a collection larger
(`Thresholds.Admits.put`, `Thresholds.Admits.shrink`). A promoted collection is never packed again.

Sorted sets are taken with any scores. A score that is not a number leaves no order to speak of, but
which members are packed does not depend on the order they are sorted in.
-/

namespace Memcore

open Go

/-! ## Thresholds and what is stored -/

namespace Thresholds

variable {max : Thresholds} {size size' : Nat} {Stored Stored' : Bytes → Prop}

/-- `size` elements, made of the strings in `Stored`, are within the thresholds. -/
structure Admits (max : Thresholds) (size : Nat) (Stored : Bytes → Prop) : Prop where
  entries : (size : Int) ≤ max.maxEntries
  bytes : ∀ b, Stored b → (b.len : Int) ≤ max.maxBytes

theorem exceeded_eq_false {count elemSize : Nat} : max.exceeded count elemSize = false ↔
    (count : Int) ≤ max.maxEntries ∧ (elemSize : Int) ≤ max.maxBytes := by
  simp [exceeded]

/-- Something of at most `n` bytes was stored, and the thresholds were looked at. -/
theorem Admits.put (h : max.Admits size Stored) {n : Nat} (hx : max.exceeded size' n = false)
    (hstored : ∀ b, Stored' b → b.len ≤ n ∨ Stored b) : max.Admits size' Stored' := by
  obtain ⟨hentries, hbytes⟩ := exceeded_eq_false.mp hx
  refine ⟨hentries, fun b hb => ?_⟩
  rcases hstored b hb with hn | hold
  · exact (Int.ofNat_le.mpr hn).trans hbytes
  · exact h.bytes b hold

/-- Nothing was stored. -/
theorem Admits.shrink (h : max.Admits size Stored) (hsize : size' ≤ size)
    (hstored : ∀ b, Stored' b → Stored b) : max.Admits size' Stored' :=
  ⟨(Int.ofNat_le.mpr hsize).trans h.entries, fun b hb => h.bytes b (hstored b hb)⟩

end Thresholds

/-! ## Collections over whole runs -/

/-- What the collections have in common: a pack and the count kept beside it, `Compact`, the
thresholds, how elements are written in a pack and which strings an element is made of. -/
structure Collection (σ α : Type) where
  pack : σ → List UInt8
  count : σ → Nat
  compact : σ → Bool
  max : σ → Thresholds
  encode : List α → List UInt8
  strings : α → List Bytes

namespace Collection

variable {σ α X Op Out : Type} {c : Collection σ α}

/-- The pack is elements one after the other, as many as are counted, within the thresholds. -/
def Bounded (c : Collection σ α) (max : Thresholds) (s : σ) : Prop :=
  ∃ xs : List α, c.pack s = c.encode xs ∧ c.count s = xs.length ∧
    max.Admits xs.length fun b => ∃ x ∈ xs, b ∈ c.strings x

/-- No sequence of calls fails. While the collection is packed it is bounded; once it is not, it
never is again, and its pack stays empty. -/
def StaysBounded (c : Collection σ α) (call : Op → σ → Result (Out × σ)) (max : Thresholds)
    (new : σ) : Prop :=
  ∀ ops : List Op, ∃ outs s, callAll call ops new = .ok (outs, s) ∧
    (c.compact s = true → c.Bounded max s) ∧
    (c.compact s = false → ∀ ops' : List Op, ∃ outs' s', callAll call ops' s = .ok (outs', s') ∧
      c.compact s' = false ∧ c.pack s' = [])

/-- What a collection stands for, whichever way it is encoded: how many elements that is and which
strings they are made of, and that a pack holds them and a promoted collection has none. -/
structure Contents (c : Collection σ α) (X : Type) where
  Repr : σ → X → Prop
  size : X → Nat
  Stored : X → Bytes → Prop
  packed : ∀ {s x}, Repr s x → c.compact s = true →
    ∃ xs, c.pack s = c.encode xs ∧ c.count s = xs.length ∧ xs.length = size x ∧
      ∀ y ∈ xs, ∀ b ∈ c.strings y, Stored x b
  promoted : ∀ {s x}, Repr s x → c.compact s = false → c.pack s = []

namespace Contents

variable {C : c.Contents X} {s s' : σ} {x x' : X} {max : Thresholds}

/-- What a call does that takes `s` to `s'`: the thresholds stay, a promoted collection does not
go back to a pack, and one that is still packed is within the thresholds if it was. -/
structure Step (C : c.Contents X) (s : σ) (x : X) (s' : σ) (x' : X) : Prop where
  repr : C.Repr s' x'
  max_eq : c.max s' = c.max s
  compact : c.compact s' = true → c.compact s = true
  admits : c.compact s' = true → (c.max s).Admits (C.size x) (C.Stored x) →
    (c.max s).Admits (C.size x') (C.Stored x')

theorem Step.refl (h : C.Repr s x) : C.Step s x s x := ⟨h, rfl, id, fun _ => id⟩

theorem count_eq (h : C.Repr s x) (hc : c.compact s = true) : c.count s = C.size x := by
  obtain ⟨xs, -, hcount, hsize, -⟩ := C.packed h hc
  exact hcount.trans hsize

/-- The invariant of a run: the collection, with its thresholds, is within them while packed. -/
def Within (C : c.Contents X) (max : Thresholds) (s : σ) : Prop :=
  ∃ x, C.Repr s x ∧ c.max s = max ∧ (c.compact s = true → max.Admits (C.size x) (C.Stored x))

theorem Step.within (h : C.Step s x s' x') (hmax : c.max s = max)
    (hadm : c.compact s = true → max.Admits (C.size x) (C.Stored x)) : C.Within max s' := by
  subst hmax
  exact ⟨x', h.repr, h.max_eq, fun hc => h.admits hc (hadm (h.compact hc))⟩

theorem Within.bounded (h : C.Within max s) (hc : c.compact s = true) : c.Bounded max s := by
  obtain ⟨x, hr, -, hadm⟩ := h
  obtain ⟨xs, hpack, hcount, hsize, hstored⟩ := C.packed hr hc
  refine ⟨xs, hpack, hcount, (hadm hc).shrink hsize.le fun b hb => ?_⟩
  obtain ⟨y, hy, hby⟩ := hb
  exact hstored y hy b hby

/-- **Calls that take such steps keep a new collection bounded.** -/
theorem staysBounded (C : c.Contents X) {call : Op → σ → Result (Out × σ)}
    (hcall : ∀ s x op, C.Repr s x → ∃ out s' x', call op s = .ok (out, s') ∧ C.Step s x s' x')
    {new : σ} (hnew : C.Within max new) : c.StaysBounded call max new := by
  have hkeeps (s : σ) (op : Op) (h : C.Within max s) : ∃ out s', call op s = .ok (out, s') ∧
      C.Within max s' ∧ (c.compact s = false → c.compact s' = false) := by
    obtain ⟨x, hr, hmax, hadm⟩ := h
    obtain ⟨out, s', x', hop, hstep⟩ := hcall s x op hr
    refine ⟨out, s', hop, hstep.within hmax hadm, fun hc => ?_⟩
    exact Bool.eq_false_iff.mpr fun hc' => Bool.eq_false_iff.mp hc (hstep.compact hc')
  intro ops
  obtain ⟨outs, s, hrun, hs⟩ := callAll_invariant (I := C.Within max) (fun s op h => by
    obtain ⟨out, s', hop, h', -⟩ := hkeeps s op h
    exact ⟨out, s', hop, h'⟩) ops hnew
  refine ⟨outs, s, hrun, hs.bounded, fun hc ops' => ?_⟩
  -- from a promoted collection on, being promoted is part of the invariant
  obtain ⟨outs', s', hrun', ⟨x, hr, -⟩, hc'⟩ := callAll_invariant
    (I := fun s => C.Within max s ∧ c.compact s = false) (fun s op h => by
      obtain ⟨out, s', hop, h', hone⟩ := hkeeps s op h.1
      exact ⟨out, s', hop, h', hone h.2⟩) ops' ⟨hs, hc⟩
  exact ⟨outs', s', hrun', hc', C.promoted hr hc'⟩

end Contents

end Collection

/-! ## Lists -/

namespace ListVal

variable {l l' : ListVal} {xs : List Bytes} {b : Bytes} {v : Option Bytes}

/-- A list as a collection of its elements. -/
def collection : Collection ListVal Bytes where
  pack := pack
  count := count
  compact := compact
  max := max
  encode := packOf
  strings b := [b]

theorem Repr.packed (h : l.Repr xs) (hc : l.compact = true) :
    l.pack = packOf xs ∧ l.count = xs.length := by
  rw [Repr, Option.isNone_iff_eq_none.mp hc] at h
  exact h

theorem Repr.promoted (h : l.Repr xs) (hc : l.compact = false) : l.pack = [] := by
  obtain ⟨f, hf⟩ := Option.isSome_iff_exists.mp (Option.isNone_eq_false_iff.mp hc)
  rw [Repr, hf] at h
  exact h.2.1

theorem promoteIfNeeded_compact {n : Nat} (h : l.promoteIfNeeded n = .ok l') :
    l'.max = l.max ∧
      (l'.compact = true → l.compact = true ∧ l.max.exceeded l'.count n = false) := by
  unfold promoteIfNeeded at h
  split at h
  · obtain ⟨f, -, h⟩ := Except.bind_eq_ok.mp h
    cases h
    exact ⟨rfl, fun hc => Bool.noConfusion hc⟩
  · next hx =>
      cases h
      exact ⟨rfl, fun hc => ⟨hc, Bool.eq_false_iff.mpr hx⟩⟩

theorem pushFront_compact (h : l.pushFront b = .ok l') :
    l'.max = l.max ∧
      (l'.compact = true → l.compact = true ∧ l.max.exceeded l'.count b.len = false) := by
  unfold pushFront at h
  split at h
  · obtain ⟨f, -, h⟩ := Except.bind_eq_ok.mp h
    cases h
    exact ⟨rfl, fun hc => Bool.noConfusion hc⟩
  · obtain ⟨hmax, hkept⟩ := promoteIfNeeded_compact h
    exact ⟨hmax, hkept⟩

theorem pushBack_compact (h : l.pushBack b = .ok l') :
    l'.max = l.max ∧
      (l'.compact = true → l.compact = true ∧ l.max.exceeded l'.count b.len = false) := by
  unfold pushBack at h
  split at h
  · obtain ⟨f, -, h⟩ := Except.bind_eq_ok.mp h
    cases h
    exact ⟨rfl, fun hc => Bool.noConfusion hc⟩
  · obtain ⟨hmax, hkept⟩ := promoteIfNeeded_compact h
    exact ⟨hmax, hkept⟩

theorem popFront_compact (h : l.popFront = .ok (v, l')) :
    l'.max = l.max ∧ (l'.compact = true → l.compact = true) := by
  unfold popFront at h
  split at h
  · obtain ⟨r, -, h⟩ := Except.bind_eq_ok.mp h
    cases h
    exact ⟨rfl, fun hc => Bool.noConfusion hc⟩
  · grind [compact]

theorem popBack_compact (h : l.popBack = .ok (v, l')) :
    l'.max = l.max ∧ (l'.compact = true → l.compact = true) := by
  unfold popBack at h
  split at h
  · obtain ⟨r, -, h⟩ := Except.bind_eq_ok.mp h
    cases h
    exact ⟨rfl, fun hc => Bool.noConfusion hc⟩
  · split at h
    · cases h
      exact ⟨rfl, id⟩
    · obtain ⟨r, -, h⟩ := Except.bind_eq_ok.mp h
      grind [compact]

/-- A list stands for a sequence. -/
def contents : collection.Contents (List Bytes) where
  Repr := Repr
  size := List.length
  Stored xs b := b ∈ xs
  packed {l xs} h hc := by
    obtain ⟨hpack, hcount⟩ := h.packed hc
    refine ⟨xs, hpack, hcount, rfl, fun y hy b hb => ?_⟩
    rwa [List.mem_singleton.mp hb]
  promoted h hc := h.promoted hc

end ListVal

/-- The element a call stores. -/
def ListOp.pushed : ListOp → Option Bytes
  | .pushFront b | .pushBack b => some b
  | .popFront | .popBack | .range _ _ | .len => none

theorem ListOp.run_compact {op : ListOp} {l l' : ListVal} {out : ListOut}
    (h : op.run l = .ok (out, l')) :
    l'.max = l.max ∧ (l'.compact = true → l.compact = true ∧
      ∀ b, op.pushed = some b → l.max.exceeded l'.count b.len = false) := by
  cases op with
  | pushFront b =>
    -- a push that leaves the list compact was within the limits; the other operations only keep
    -- the form
    obtain ⟨l₁, hpush, h⟩ := Except.bind_eq_ok.mp h
    cases h
    obtain ⟨hmax, hkept⟩ := ListVal.pushFront_compact hpush
    refine ⟨hmax, fun hc => ⟨(hkept hc).1, fun b' hb => ?_⟩⟩
    cases hb
    exact (hkept hc).2
  | pushBack b =>
    obtain ⟨l₁, hpush, h⟩ := Except.bind_eq_ok.mp h
    cases h
    obtain ⟨hmax, hkept⟩ := ListVal.pushBack_compact hpush
    refine ⟨hmax, fun hc => ⟨(hkept hc).1, fun b' hb => ?_⟩⟩
    cases hb
    exact (hkept hc).2
  | popFront =>
    obtain ⟨r, hpop, h⟩ := Except.bind_eq_ok.mp h
    cases h
    obtain ⟨hmax, hkept⟩ := ListVal.popFront_compact hpop
    exact ⟨hmax, fun hc => ⟨hkept hc, fun b hb => by cases hb⟩⟩
  | popBack =>
    obtain ⟨r, hpop, h⟩ := Except.bind_eq_ok.mp h
    cases h
    obtain ⟨hmax, hkept⟩ := ListVal.popBack_compact hpop
    exact ⟨hmax, fun hc => ⟨hkept hc, fun b hb => by cases hb⟩⟩
  | range start stop =>
    obtain ⟨bs, -, h⟩ := Except.bind_eq_ok.mp h
    cases h
    exact ⟨rfl, fun hc => ⟨hc, fun b hb => by cases hb⟩⟩
  | len =>
    cases h
    exact ⟨rfl, fun hc => ⟨hc, fun b hb => by cases hb⟩⟩

theorem ListOp.run_step {l : ListVal} {xs : List Bytes} (h : l.Repr xs) (op : ListOp) :
    ∃ out l' xs', op.run l = .ok (out, l') ∧ ListVal.contents.Step l xs l' xs' := by
  obtain ⟨l', hrun, hr⟩ := run_repr h op
  obtain ⟨hmax, hkept⟩ := run_compact hrun
  refine ⟨_, l', _, hrun, hr, hmax, fun hc => (hkept hc).1, fun hc hold => ?_⟩
  have hx := (hkept hc).2
  rw [(hr.packed hc).2] at hx
  cases op with
  | pushFront b =>
    refine hold.put (hx b rfl) fun y hy => ?_
    rcases List.mem_cons.mp hy with rfl | hy
    · exact .inl (Nat.le_refl _)
    · exact .inr hy
  | pushBack b =>
    refine hold.put (hx b rfl) fun y hy => ?_
    rcases List.mem_append.mp hy with hy | hy
    · exact .inr hy
    · exact .inl (List.mem_singleton.mp hy ▸ Nat.le_refl _)
  | popFront =>
    refine hold.shrink ?_ fun _ => List.mem_of_mem_tail
    exact (List.tail_sublist xs).length_le
  | popBack =>
    refine hold.shrink ?_ fun _ => List.mem_of_mem_dropLast
    exact (List.dropLast_sublist xs).length_le
  | range start stop => exact hold
  | len => exact hold

/-! ## Hashes -/

namespace HashVal

variable {h h' : HashVal} {m : GoMap Bytes} {field val : Bytes} {b : Bool}

/-- A hash as a collection of its pairs. -/
def collection : Collection HashVal (Bytes × Bytes) where
  pack := pack
  count := count
  compact := compact
  max := max
  encode ps := packOf (flatPairs ps)
  strings p := [p.1, p.2]

theorem Repr.packed (hr : h.Repr m) (hc : h.compact = true) :
    ∃ ps, Lists ps m ∧ h.pack = packOf (flatPairs ps) ∧ h.count = ps.length := by
  rw [Repr, Option.isNone_iff_eq_none.mp hc] at hr
  exact hr

theorem Repr.promoted (hr : h.Repr m) (hc : h.compact = false) : h.pack = [] := by
  obtain ⟨fields, hf⟩ := Option.isSome_iff_exists.mp (Option.isNone_eq_false_iff.mp hc)
  rw [Repr, hf] at hr
  exact hr.2.1

theorem promoteIfNeeded_compact {fieldSize valSize : Nat}
    (heq : h.promoteIfNeeded fieldSize valSize = .ok h') :
    h'.max = h.max ∧ (h'.compact = true → h.compact = true ∧
      ∃ n, fieldSize ≤ n ∧ valSize ≤ n ∧ h.max.exceeded h'.count n = false) := by
  obtain ⟨n, hn, hfield, hval⟩ : ∃ n, (if fieldSize < valSize then valSize else fieldSize) = n ∧
      fieldSize ≤ n ∧ valSize ≤ n := ⟨_, rfl, by split <;> omega, by split <;> omega⟩
  unfold promoteIfNeeded at heq
  simp only [hn] at heq
  split at heq
  · obtain ⟨fields, -, heq⟩ := Except.bind_eq_ok.mp heq
    cases heq
    exact ⟨rfl, fun hc => Bool.noConfusion hc⟩
  · next hx =>
      cases heq
      exact ⟨rfl, fun hc => ⟨hc, n, hfield, hval, Bool.eq_false_iff.mpr hx⟩⟩

theorem set_compact (heq : h.set field val = .ok (b, h')) :
    h'.max = h.max ∧ (h'.compact = true → h.compact = true ∧
      ∃ n, field.len ≤ n ∧ val.len ≤ n ∧ h.max.exceeded h'.count n = false) := by
  unfold set at heq
  split at heq
  · cases heq
    exact ⟨rfl, fun hc => Bool.noConfusion hc⟩
  · obtain ⟨r, -, heq⟩ := Except.bind_eq_ok.mp heq
    obtain ⟨h₁, hpro, heq⟩ := Except.bind_eq_ok.mp heq
    cases heq
    obtain ⟨hmax, hkept⟩ := promoteIfNeeded_compact hpro
    grind [compact]

theorem delete_compact (heq : h.delete field = .ok (b, h')) :
    h'.max = h.max ∧ (h'.compact = true → h.compact = true) := by
  unfold delete at heq
  split at heq
  · cases heq
    exact ⟨rfl, fun hc => Bool.noConfusion hc⟩
  · obtain ⟨r, -, heq⟩ := Except.bind_eq_ok.mp heq
    grind [compact]

/-- The fields and values of a map. -/
def Holds (m : GoMap Bytes) (b : Bytes) : Prop := ∃ f v, m.lookup f = some v ∧ (b = f ∨ b = v)

/-- A hash stands for a finite map. -/
def contents : collection.Contents (GoMap Bytes) where
  Repr := Repr
  size m := m.keys.card
  Stored := Holds
  packed h hc := by
    obtain ⟨ps, hl, hpack, hcount⟩ := h.packed hc
    refine ⟨ps, hpack, hcount, hl.length_eq, fun p hp b hb => ?_⟩
    exact ⟨p.1, p.2, (hl.2 _ _).mp hp, by simpa [collection] using hb⟩
  promoted h hc := h.promoted hc

end HashVal

theorem HashOp.call_compact {op : HashOp} {h h' : HashVal} {out : HashOut}
    (hcall : op.call h = .ok (out, h')) :
    h'.max = h.max ∧ (h'.compact = true → h.compact = true ∧ ∀ field val, op = .set field val →
      ∃ n, field.len ≤ n ∧ val.len ≤ n ∧ h.max.exceeded h'.count n = false) := by
  cases op with
  | set field val =>
    obtain ⟨r, hset, heq⟩ := Except.bind_eq_ok.mp hcall
    cases heq
    obtain ⟨hmax, hkept⟩ := HashVal.set_compact hset
    refine ⟨hmax, fun hc => ⟨(hkept hc).1, fun field' val' hop => ?_⟩⟩
    cases hop
    exact (hkept hc).2
  | delete field =>
    obtain ⟨r, hdel, heq⟩ := Except.bind_eq_ok.mp hcall
    cases heq
    obtain ⟨hmax, hkept⟩ := HashVal.delete_compact hdel
    exact ⟨hmax, fun hc => ⟨hkept hc, fun _ _ hop => by cases hop⟩⟩
  | get field =>
    obtain ⟨v, -, heq⟩ := Except.bind_eq_ok.mp hcall
    cases heq
    exact ⟨rfl, fun hc => ⟨hc, fun _ _ hop => by cases hop⟩⟩
  | pairs ord =>
    obtain ⟨elems, -, heq⟩ := Except.bind_eq_ok.mp hcall
    cases heq
    exact ⟨rfl, fun hc => ⟨hc, fun _ _ hop => by cases hop⟩⟩
  | len =>
    cases hcall
    exact ⟨rfl, fun hc => ⟨hc, fun _ _ hop => by cases hop⟩⟩

theorem HashOp.call_step {h : HashVal} {m : GoMap Bytes} (hr : h.Repr m) (op : HashOp) :
    ∃ out h' m', op.call h = .ok (out, h') ∧ HashVal.contents.Step h m h' m' := by
  obtain ⟨out, h', hcall, -, hr'⟩ := call_repr hr op
  obtain ⟨hmax, hkept⟩ := call_compact hcall
  refine ⟨out, h', _, hcall, hr', hmax, fun hc => (hkept hc).1, fun hc hold => ?_⟩
  have hx := (hkept hc).2
  rw [show h'.count = _ from HashVal.contents.count_eq hr' hc] at hx
  cases op with
  | set field val =>
    obtain ⟨n, hfield, hval, hx⟩ := hx field val rfl
    refine hold.put hx fun b hb => ?_
    obtain ⟨f, v, hfv, hb⟩ := hb
    rw [after, lookup_insert_eq] at hfv
    split at hfv
    · next hf =>
        -- the pair just stored
        cases hfv
        left
        rcases hb with rfl | rfl
        · exact hf ▸ hfield
        · exact hval
    · exact .inr ⟨f, v, hfv, hb⟩
  | delete field =>
    refine hold.shrink ?_ fun b hb => ?_
    · show (m.erase field).keys.card ≤ m.keys.card
      rw [Finmap.keys_erase]
      exact Finset.card_le_card (Finset.erase_subset _ _)
    · obtain ⟨f, v, hfv, hb⟩ := hb
      rw [after, lookup_erase_eq] at hfv
      split at hfv
      · cases hfv
      · exact ⟨f, v, hfv, hb⟩
  | get field => exact hold
  | pairs ord => exact hold
  | len => exact hold

/-! ## Sets -/

namespace SetVal

variable {s s' : SetVal} {m : Finset Bytes} {member : Bytes} {b : Bool}

/-- A set as a collection of its members. -/
def collection : Collection SetVal Bytes where
  pack := pack
  count := count
  compact := compact
  max := max
  encode := packOf
  strings b := [b]

theorem Repr.packed (hr : s.Repr m) (hc : s.compact = true) :
    ∃ xs : List Bytes, xs.Nodup ∧ xs.toFinset = m ∧ s.pack = packOf xs ∧ s.count = xs.length := by
  rw [Repr, Option.isNone_iff_eq_none.mp hc] at hr
  exact hr

theorem Repr.promoted (hr : s.Repr m) (hc : s.compact = false) : s.pack = [] := by
  obtain ⟨members, hf⟩ := Option.isSome_iff_exists.mp (Option.isNone_eq_false_iff.mp hc)
  rw [Repr, hf] at hr
  exact hr.2.1

/-- The thresholds are looked at only when the member is new. -/
theorem add_compact (h : s.add member = .ok (b, s')) :
    s'.max = s.max ∧ (s'.compact = true → s.compact = true ∧
      (b = true → s.max.exceeded s'.count member.len = false)) := by
  unfold add at h
  split at h
  · next members hf => grind [compact]
  · obtain ⟨found, -, h⟩ := Except.bind_eq_ok.mp h
    split at h
    · cases h
      exact ⟨rfl, fun hc => ⟨hc, fun hb => Bool.noConfusion hb⟩⟩
    · dsimp only at h
      split at h
      · obtain ⟨s₁, hpro, h⟩ := Except.bind_eq_ok.mp h
        obtain ⟨members, -, hpro⟩ := Except.bind_eq_ok.mp hpro
        cases hpro
        cases h
        exact ⟨rfl, fun hc => Bool.noConfusion hc⟩
      · next hx =>
          cases h
          exact ⟨rfl, fun hc => ⟨hc, fun _ => Bool.eq_false_iff.mpr hx⟩⟩

theorem remove_compact (h : s.remove member = .ok (b, s')) :
    s'.max = s.max ∧ (s'.compact = true → s.compact = true) := by
  unfold remove at h
  split at h
  · grind [compact]
  · obtain ⟨r, -, h⟩ := Except.bind_eq_ok.mp h
    grind [compact]

/-- A set stands for a finite set. -/
def contents : collection.Contents (Finset Bytes) where
  Repr := Repr
  size := Finset.card
  Stored m b := b ∈ m
  packed {s m} h hc := by
    obtain ⟨xs, hnd, hm, hpack, hcount⟩ := h.packed hc
    refine ⟨xs, hpack, hcount, ?_, fun y hy b hb => ?_⟩
    · rw [← hm, List.toFinset_card_of_nodup hnd]
    · rw [List.mem_singleton.mp hb, ← hm]
      exact List.mem_toFinset.mpr hy
  promoted h hc := h.promoted hc

end SetVal

theorem SetOp.call_compact {op : SetOp} {s s' : SetVal} {out : SetOut}
    (hcall : op.call s = .ok (out, s')) :
    s'.max = s.max ∧ (s'.compact = true → s.compact = true ∧ ∀ member, op = .add member →
      out = .isNew true → s.max.exceeded s'.count member.len = false) := by
  cases op with
  | add member =>
    obtain ⟨r, hadd, heq⟩ := Except.bind_eq_ok.mp hcall
    cases heq
    obtain ⟨hmax, hkept⟩ := SetVal.add_compact hadd
    refine ⟨hmax, fun hc => ⟨(hkept hc).1, fun member' hop hout => ?_⟩⟩
    cases hop
    exact (hkept hc).2 (SetOut.isNew.inj hout)
  | remove member =>
    obtain ⟨r, hrem, heq⟩ := Except.bind_eq_ok.mp hcall
    cases heq
    obtain ⟨hmax, hkept⟩ := SetVal.remove_compact hrem
    exact ⟨hmax, fun hc => ⟨hkept hc, fun _ hop => by cases hop⟩⟩
  | contains member =>
    obtain ⟨v, -, heq⟩ := Except.bind_eq_ok.mp hcall
    cases heq
    exact ⟨rfl, fun hc => ⟨hc, fun _ hop => by cases hop⟩⟩
  | members ord =>
    obtain ⟨elems, -, heq⟩ := Except.bind_eq_ok.mp hcall
    cases heq
    exact ⟨rfl, fun hc => ⟨hc, fun _ hop => by cases hop⟩⟩
  | len =>
    cases hcall
    exact ⟨rfl, fun hc => ⟨hc, fun _ hop => by cases hop⟩⟩

theorem SetOp.call_step {s : SetVal} {m : Finset Bytes} (hr : s.Repr m) (op : SetOp) :
    ∃ out s' m', op.call s = .ok (out, s') ∧ SetVal.contents.Step s m s' m' := by
  obtain ⟨out, s', hcall, hmay, hr'⟩ := call_repr hr op
  obtain ⟨hmax, hkept⟩ := call_compact hcall
  refine ⟨out, s', _, hcall, hr', hmax, fun hc => (hkept hc).1, fun hc hold => ?_⟩
  have hx := (hkept hc).2
  rw [show s'.count = _ from SetVal.contents.count_eq hr' hc] at hx
  cases op with
  | add member =>
    by_cases hin : member ∈ m
    · rw [after, Finset.insert_eq_of_mem hin]
      exact hold
    · cases out with
      | isNew b =>
        have hb : b = true := hmay.trans (decide_eq_true hin)
        refine hold.put (hx member rfl (hb ▸ rfl)) fun y hy => ?_
        rcases Finset.mem_insert.mp hy with rfl | hy
        · exact .inl (Nat.le_refl _)
        · exact .inr hy
      | present b => exact hmay.elim
      | contained b => exact hmay.elim
      | members elems => exact hmay.elim
      | length n => exact hmay.elim
  | remove member =>
    refine hold.shrink ?_ fun _ => Finset.mem_of_mem_erase
    exact Finset.card_le_card (Finset.erase_subset _ _)
  | contains member => exact hold
  | members ord => exact hold
  | len => exact hold

/-! ## Sorted sets -/

namespace ZSetVal

variable {z z' : ZSetVal} {es : List ZMember}

/-- A sorted set, with the levels left for its skip list, as a collection of its members. -/
def collection : Collection (ZSetVal × Rng) ZMember where
  pack s := s.1.pack
  count s := s.1.count
  compact s := s.1.compact
  max s := s.1.max
  encode := packOfZ
  strings e := [e.member]

/-- The members while they are packed; of a promoted set only the shape. -/
def Packs (z : ZSetVal) (es : List ZMember) : Prop :=
  (z.full = none ∧ z.pack = packOfZ es ∧ z.count = es.length) ∨
    ∃ f, z.full = some f ∧ f.Shaped ∧ z.pack = []

theorem compact_of_full {f : FullZSet} (h : z.full = some f) : z.compact = false := by
  rw [compact, h]
  rfl

/-- A sorted set stands for a list of members, in whatever order. -/
def contents : collection.Contents (List ZMember) where
  Repr s := s.1.Packs
  size := List.length
  Stored es b := ∃ e ∈ es, b = e.member
  packed {s es} h hc := by
    rcases h with ⟨-, hpack, hcount⟩ | ⟨f, hf, -⟩
    · exact ⟨es, hpack, hcount, rfl, fun e he b hb => ⟨e, he, List.mem_singleton.mp hb⟩⟩
    · exact absurd hc (Bool.eq_false_iff.mp (compact_of_full hf))
  promoted {s es} h hc := by
    rcases h with ⟨hf, -⟩ | ⟨f, -, -, hpack⟩
    · rw [show collection.compact s = s.1.full.isNone from rfl, hf] at hc
      cases hc
    · exact hpack

theorem add_step (h : z.Packs es) (e : ZMember) (rng : Rng) :
    ∃ added z' rng' es', z.add e rng = .ok (added, z', rng') ∧
      contents.Step (z, rng) es (z', rng') es' := by
  rcases h with ⟨hnone, hpack, hcount⟩ | ⟨f, hf, hshape, hpack⟩
  · obtain ⟨added, z', rng', hadd, hmax, hout⟩ := add_packed hnone hpack e rng
    have hc : z.compact = true := by rw [compact, hnone]; rfl
    rcases hout with ⟨hnone', hx, es', hpack', hcount', hmem⟩ | ⟨f, hf, hshape, hpack'⟩
    · have hlen : z'.count = es'.length := by omega
      refine ⟨added, z', rng', es', hadd, .inl ⟨hnone', hpack', hlen⟩, hmax, fun _ => hc,
        fun _ hold => ?_⟩
      rw [hlen] at hx
      refine hold.put hx fun b hb => ?_
      obtain ⟨y, hy, rfl⟩ := hb
      rcases hmem y hy with rfl | hy
      · exact .inl (Nat.le_refl _)
      · exact .inr ⟨y, hy, rfl⟩
    · exact ⟨added, z', rng', es, hadd, .inr ⟨f, hf, hshape, hpack'⟩, hmax, fun _ => hc,
        fun _ => id⟩
  · obtain ⟨added, f', rng', hadd, hshape'⟩ := add_promoted hf hshape e rng
    have hno : ({ z with full := some f' } : ZSetVal).compact ≠ true := Bool.false_ne_true
    exact ⟨added, _, rng', es, hadd, .inr ⟨f', rfl, hshape', hpack⟩, rfl,
      fun hc => absurd hc hno, fun _ => id⟩

theorem score_total (h : z.Packs es) (member : Bytes) : ∃ s, z.score member = .ok s := by
  unfold score
  rcases h with ⟨hnone, hpack, -⟩ | ⟨f, hf, -⟩
  · have hstep (out : Option Score) (m : ZMember) (_ : True) : ∃ s b,
        (if m.member = member then .ok (some m.score, false) else .ok (out, true)
          : Result (Option Score × Bool)) = .ok (s, b) ∧ True := by
      split <;> exact ⟨_, _, rfl, trivial⟩
    obtain ⟨s, hscan, -⟩ := foldWhile_total (I := fun _ => True) hstep es (s := none) trivial
    refine ⟨s, ?_⟩
    simp only [hnone, hpack, scanZPairs_packOfZ, hscan]
  · exact ⟨f.score member, by simp only [hf]⟩

theorem range_total (h : z.Packs es) (start stop : Int) : ∃ out, z.range start stop = .ok out := by
  unfold range
  split
  · exact ⟨[], rfl⟩
  · next lo hi _ =>
      rcases h with ⟨hnone, hpack, -⟩ | ⟨f, hf, ⟨fs, hfs⟩, -⟩
      · have hstep (r : Nat × List ZMember) (m : ZMember) (_ : True) :
            ∃ r' b, rangeStep lo hi r m = .ok (r', b) ∧ True := ⟨_, _, rfl, trivial⟩
        obtain ⟨r, hscan, -⟩ := foldWhile_total (I := fun _ => True) hstep es (s := (0, [])) trivial
        refine ⟨r.2, ?_⟩
        simp only [hnone, hpack, scanZPairs_packOfZ, hscan]
        rfl
      · simp only [hf]
        exact ⟨_, SkipList.eachInRank_repr hfs lo hi⟩

end ZSetVal

theorem ZSetOp.call_step {s : ZSetVal × Rng} {es : List ZMember} (h : s.1.Packs es) (op : ZSetOp) :
    ∃ out s' es', op.call s = .ok (out, s') ∧ ZSetVal.contents.Step s es s' es' := by
  obtain ⟨z, rng⟩ := s
  have hsame : ZSetVal.contents.Step (z, rng) es (z, rng) es :=
    Collection.Contents.Step.refl (C := ZSetVal.contents) h
  cases op with
  | add e =>
    obtain ⟨added, z', rng', es', hadd, hstep⟩ := ZSetVal.add_step h e rng
    refine ⟨.isNew added, (z', rng'), es', ?_, hstep⟩
    rw [call, hadd]
    rfl
  | score member =>
    obtain ⟨v, hscore⟩ := ZSetVal.score_total h member
    refine ⟨.score v, (z, rng), es, ?_, hsame⟩
    rw [call, hscore]
    rfl
  | range start stop =>
    obtain ⟨ms, hrange⟩ := ZSetVal.range_total h start stop
    refine ⟨.members ms, (z, rng), es, ?_, hsame⟩
    rw [call, hrange]
    rfl
  | len => exact ⟨.length z.len, (z, rng), es, rfl, hsame⟩

/-! ## All four -/

/-- **Packed collections keep to their thresholds, and promotion is one-way.** Whatever is called
on a new list, hash, set or sorted set, no call fails. While the collection is packed, its pack is
whole elements, as many as are counted, at most `maxEntries` of them and each string in them of at
most `maxBytes` bytes; once it is promoted it stays so, with an empty pack. -/
theorem collections_stay_bounded (max : Thresholds) (hmax : 0 ≤ max.maxEntries) (rng : Rng) :
    ListVal.collection.StaysBounded (fun op l => ListOp.run l op) max (ListVal.new max) ∧
    HashVal.collection.StaysBounded HashOp.call max (HashVal.new max) ∧
    SetVal.collection.StaysBounded SetOp.call max (SetVal.new max) ∧
    ZSetVal.collection.StaysBounded ZSetOp.call max (ZSetVal.new max, rng) := by
  refine ⟨?_, ?_, ?_, ?_⟩
  · refine ListVal.contents.staysBounded (fun l xs op h => ListOp.run_step h op)
      ⟨[], ListVal.new_repr max, rfl, fun _ => ⟨hmax, fun b hb => ?_⟩⟩
    exact absurd hb List.not_mem_nil
  · refine HashVal.contents.staysBounded (fun h m op hr => HashOp.call_step hr op)
      ⟨∅, HashVal.new_repr max, rfl, fun _ => ⟨hmax, fun b hb => ?_⟩⟩
    obtain ⟨f, v, hfv, -⟩ := hb
    rw [Finmap.lookup_empty] at hfv
    cases hfv
  · refine SetVal.contents.staysBounded (fun s m op hr => SetOp.call_step hr op)
      ⟨∅, SetVal.new_repr max, rfl, fun _ => ⟨hmax, fun b hb => ?_⟩⟩
    exact absurd hb (Finset.notMem_empty b)
  · refine ZSetVal.contents.staysBounded (fun s es op h => ZSetOp.call_step h op)
      ⟨[], .inl ⟨rfl, rfl, rfl⟩, rfl, fun _ => ⟨hmax, fun b hb => ?_⟩⟩
    obtain ⟨e, he, -⟩ := hb
    exact absurd he List.not_mem_nil

/-- A list and a sorted set, packed up to 128 elements of up to 64 bytes. -/
theorem collections_stay_bounded_128 :
    (0 : Int) ≤ (⟨128, 64⟩ : Thresholds).maxEntries ∧
      ListVal.collection.StaysBounded (fun op l => ListOp.run l op) ⟨128, 64⟩
        (ListVal.new ⟨128, 64⟩) ∧
      ZSetVal.collection.StaysBounded ZSetOp.call ⟨128, 64⟩ (ZSetVal.new ⟨128, 64⟩, fun _ => 3) := by
  have h := collections_stay_bounded ⟨128, 64⟩ (by decide) fun _ => 3
  exact ⟨by decide, h.1, h.2.2.2⟩

end Memcore
