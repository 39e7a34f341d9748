import Memcore.Lib.GoMap
import Memcore.Value.Pack

/-!
# Hashes

`hash.go`: a map from field to value, packed as alternating field and value elements while small and
a Go map once it crosses its thresholds. `HashVal.Repr h m` says that `h` holds the finite map `m`.
-/

namespace Memcore

open Go ByteStream

/-! ## Scanning pairs -/

/-- `scanPairs`: a scan that hands elements to the callback two at a time. -/
def scanPairs {σ : Type} (buf : List UInt8) (fn : σ → Bytes → Bytes → Result (σ × Bool)) (s : σ) :
    Result σ := do
  let (_, s) ← packEach buf
    (fun ((field, s) : Option Bytes × σ) e =>
      match field with
      | none => .ok ((some e, s), true)
      | some f => do
          let (s, more) ← fn s f e
          .ok ((none, s), more))
    (none, s)
  .ok s

/-- Field, value, field, value, and so on. -/
def flatPairs (ps : List (Bytes × Bytes)) : List Bytes := ps.flatMap fun p => [p.1, p.2]

@[simp] theorem flatPairs_nil : flatPairs [] = [] := rfl

theorem flatPairs_cons (p : Bytes × Bytes) (ps : List (Bytes × Bytes)) :
    flatPairs (p :: ps) = p.1 :: p.2 :: flatPairs ps := rfl

theorem flatPairs_append (ps qs : List (Bytes × Bytes)) :
    flatPairs (ps ++ qs) = flatPairs ps ++ flatPairs qs := by
  simp [flatPairs]

theorem flatPairs_length (ps : List (Bytes × Bytes)) : (flatPairs ps).length = ps.length * 2 := by
  induction ps with
  | nil => rfl
  | cons p ps ih =>
    rw [flatPairs_cons]
    simp only [List.length_cons, ih]
    omega

theorem packAppend_pair (ps : List (Bytes × Bytes)) (p : Bytes × Bytes) :
    packAppend (packAppend (packOf (flatPairs ps)) p.1) p.2 = packOf (flatPairs (ps ++ [p])) := by
  rw [packAppend_packOf, packAppend_packOf, flatPairs_append, flatPairs_cons]
  simp

/-- Scanning a pack of pairs folds over the pairs. -/
theorem scanPairs_packOf {σ : Type} (ps : List (Bytes × Bytes))
    (fn : σ → Bytes → Bytes → Result (σ × Bool)) (s : σ) :
    scanPairs (packOf (flatPairs ps)) fn s = foldWhile (fun s p => fn s p.1 p.2) ps s := by
  rw [scanPairs, packEach_packOf]
  induction ps generalizing s with
  | nil => rfl
  | cons p ps ih =>
    simp only [flatPairs_cons, foldWhile]
    cases hp : fn s p.1 p.2 with
    | error e => rfl
    | ok r =>
      obtain ⟨s', more⟩ := r
      cases more with
      | false => rfl
      | true => exact ih s'

/-! ## The hash value -/

/-- `Hash`: packed while `full` is nil; `full` is the map of `fullHash`. -/
structure HashVal where
  pack : List UInt8
  count : Nat
  full : Option (GoMap Bytes)
  max : Thresholds

namespace HashVal

/-- `NewHash`. -/
def new (max : Thresholds) : HashVal := ⟨[], 0, none, max⟩

/-- `Hash.Compact`. -/
def compact (h : HashVal) : Bool := h.full.isNone

/-- `Hash.Len`. -/
def len (h : HashVal) : Nat :=
  match h.full with
  | some fields => fields.keys.card
  | none => h.count

/-- `Hash.Get`. -/
def get (h : HashVal) (field : Bytes) : Result (Option Bytes) :=
  match h.full with
  | some fields => .ok (fields.lookup field)
  | none =>
    scanPairs h.pack
      (fun out f v => if f = field then .ok (some v, false) else .ok (out, true)) none

/-- `Hash.promote`. -/
def promote (h : HashVal) : Result HashVal := do
  let fields ← scanPairs h.pack
    (fun (fields : GoMap Bytes) f v => .ok (fields.insert f v, true)) ∅
  .ok { h with full := some fields, pack := [], count := 0 }

/-- `Hash.promoteIfNeeded`. -/
def promoteIfNeeded (h : HashVal) (fieldSize valSize : Nat) : Result HashVal :=
  let big := if fieldSize < valSize then valSize else fieldSize
  if h.max.exceeded h.count big then h.promote else .ok h

/-- The callback of `Hash.Set` on a packed hash: copy every pair, with the new value under
`field`. -/
def setStep (field val : Bytes) (acc : List UInt8 × Bool) (f v : Bytes) :
    Result ((List UInt8 × Bool) × Bool) :=
  let rebuilt := packAppend acc.1 f
  if f = field then .ok ((packAppend rebuilt val, true), true)
  else .ok ((packAppend rebuilt v, acc.2), true)

/-- `Hash.Set`: is the field new, and the hash after it. -/
def set (h : HashVal) (field val : Bytes) : Result (Bool × HashVal) :=
  match h.full with
  | some fields =>
    .ok (!(fields.lookup field).isSome, { h with full := some (fields.insert field val) })
  | none => do
      let (rebuilt, existed) ← scanPairs h.pack (setStep field val) ([], false)
      let h := if existed then { h with pack := rebuilt }
        else { h with pack := packAppend (packAppend rebuilt field) val, count := h.count + 1 }
      let h ← h.promoteIfNeeded field.len val.len
      .ok (!existed, h)

/-- The callback of `Hash.Delete` on a packed hash: copy every pair but the one under `field`. -/
def deleteStep (field : Bytes) (acc : List UInt8 × Bool) (f v : Bytes) :
    Result ((List UInt8 × Bool) × Bool) :=
  if f = field then .ok ((acc.1, true), true)
  else .ok ((packAppend (packAppend acc.1 f) v, acc.2), true)

/-- `Hash.Delete`: was the field present, and the hash after it. -/
def delete (h : HashVal) (field : Bytes) : Result (Bool × HashVal) :=
  match h.full with
  | some fields =>
    .ok ((fields.lookup field).isSome, { h with full := some (fields.erase field) })
  | none => do
      let (rebuilt, found) ← scanPairs h.pack (deleteStep field) ([], false)
      if found then .ok (true, { h with pack := rebuilt, count := h.count - 1 })
      else .ok (false, h)

/-- `Hash.Pairs`, a map being visited in the order `ord`. -/
def pairs (ord : MapOrder) (h : HashVal) : Result (List Bytes) :=
  match h.full with
  | some fields => .ok (flatPairs (ord.entries fields))
  | none => scanPairs h.pack (fun out f v => .ok (out ++ [f, v], true)) []

/-! ### What it represents -/

/-- `h` holds the finite map `m`. -/
def Repr (h : HashVal) (m : GoMap Bytes) : Prop :=
  match h.full with
  | none => ∃ ps, Lists ps m ∧ h.pack = packOf (flatPairs ps) ∧ h.count = ps.length
  | some fields => fields = m ∧ h.pack = [] ∧ h.count = 0

theorem new_repr (max : Thresholds) : (new max).Repr ∅ := ⟨[], Lists.empty, rfl, rfl⟩

theorem len_repr {h : HashVal} {m : GoMap Bytes} (hr : h.Repr m) : h.len = m.keys.card := by
  unfold Repr at hr
  unfold len
  cases hf : h.full with
  | none =>
    rw [hf] at hr
    obtain ⟨ps, hl, -, hc⟩ := hr
    rw [← hl.length_eq]
    exact hc
  | some fields =>
    rw [hf] at hr
    rw [← hr.1]

/-- Looking a field up in an enumeration, as the scan does it. -/
theorem foldWhile_get (field : Bytes) : ∀ {ps : List (Bytes × Bytes)} {m : GoMap Bytes},
    Lists ps m →
    foldWhile (fun (out : Option Bytes) (p : Bytes × Bytes) =>
      if p.1 = field then .ok (some p.2, false) else .ok (out, true)) ps none
      = .ok (m.lookup field) := by
  intro ps m hl
  suffices h : ∀ qs : List (Bytes × Bytes), (∀ p ∈ qs, p ∈ ps) →
      (∀ v, (field, v) ∈ ps → (field, v) ∈ qs) →
      foldWhile (fun (out : Option Bytes) (p : Bytes × Bytes) =>
        if p.1 = field then .ok (some p.2, false) else .ok (out, true)) qs none
        = .ok (m.lookup field) from h ps (fun _ => id) fun _ => id
  intro qs
  induction qs with
  | nil =>
    intro _ hno
    cases hm : m.lookup field with
    | none => rfl
    | some v => simpa using hno v ((hl.2 _ _).mpr hm)
  | cons p qs ih =>
    intro hsub hmem
    rw [foldWhile]
    by_cases hp : p.1 = field
    · rw [if_pos hp]
      have hv : m.lookup field = some p.2 := by
        rw [← hp]
        exact (hl.2 _ _).mp (hsub p List.mem_cons_self)
      rw [hv]
    · rw [if_neg hp]
      refine ih (fun q hq => hsub q (List.mem_cons_of_mem _ hq)) fun v hv => ?_
      rcases List.mem_cons.mp (hmem v hv) with rfl | hq
      · exact absurd rfl hp
      · exact hq

theorem get_repr {h : HashVal} {m : GoMap Bytes} (hr : h.Repr m) (field : Bytes) :
    h.get field = .ok (m.lookup field) := by
  unfold Repr at hr
  unfold get
  cases hf : h.full with
  | none =>
    rw [hf] at hr
    obtain ⟨ps, hl, hp, -⟩ := hr
    simp only [hp, scanPairs_packOf]
    exact foldWhile_get field hl
  | some fields =>
    rw [hf] at hr
    rw [← hr.1]

theorem promote_repr {h : HashVal} {m : GoMap Bytes} {ps : List (Bytes × Bytes)}
    (hl : Lists ps m) (hp : h.pack = packOf (flatPairs ps)) :
    ∃ h', h.promote = .ok h' ∧ h'.Repr m := by
  refine ⟨{ h with full := some m, pack := [], count := 0 }, ?_, rfl, rfl, rfl⟩
  rw [promote, hp, scanPairs_packOf,
    foldWhile_eq_foldl fun (fields : GoMap Bytes) (p : Bytes × Bytes) => fields.insert p.1 p.2,
    hl.foldl_insert_empty]
  rfl

theorem promoteIfNeeded_repr {h : HashVal} {m : GoMap Bytes} {ps : List (Bytes × Bytes)}
    (hf : h.full = none) (hl : Lists ps m) (hp : h.pack = packOf (flatPairs ps))
    (hc : h.count = ps.length) (fieldSize valSize : Nat) :
    ∃ h', h.promoteIfNeeded fieldSize valSize = .ok h' ∧ h'.Repr m := by
  unfold promoteIfNeeded
  simp only
  generalize (if fieldSize < valSize then valSize else fieldSize) = big
  split
  · exact promote_repr hl hp
  · refine ⟨h, rfl, ?_⟩
    rw [Repr, hf]
    exact ⟨ps, hl, hp, hc⟩

theorem decide_mem_keys_cons {field : Bytes} {p : Bytes × Bytes} {ps : List (Bytes × Bytes)}
    (hp : ¬ p.1 = field) :
    decide (field ∈ (p :: ps).map Prod.fst) = decide (field ∈ ps.map Prod.fst) :=
  decide_eq_decide.mpr (List.mem_cons.trans (or_iff_right fun h => hp h.symm))

/-- One pass of `Hash.Set` over a pack: the pairs with the new value, and whether it was there. -/
theorem foldWhile_setStep (field val : Bytes) :
    ∀ (ps qs : List (Bytes × Bytes)) (b : Bool),
      foldWhile (fun s p => setStep field val s p.1 p.2) ps (packOf (flatPairs qs), b)
        = .ok (packOf (flatPairs (qs ++ ps.map fun p => if p.1 = field then (p.1, val) else p)),
            b || decide (field ∈ ps.map Prod.fst))
  | [], qs, b => by simp [foldWhile]
  | p :: ps, qs, b => by
      rw [foldWhile, setStep]
      by_cases hp : p.1 = field
      · simp only [if_pos hp]
        have hpair := packAppend_pair qs (p.1, val)
        simp only at hpair
        rw [hpair, foldWhile_setStep field val ps (qs ++ [(p.1, val)]) true]
        simp [hp]
      · simp only [if_neg hp]
        rw [packAppend_pair qs p, foldWhile_setStep field val ps (qs ++ [p]) b]
        rw [decide_mem_keys_cons hp]
        simp [hp]

theorem set_repr {h : HashVal} {m : GoMap Bytes} (hr : h.Repr m) (field val : Bytes) :
    ∃ h', h.set field val = .ok (!(m.lookup field).isSome, h') ∧ h'.Repr (m.insert field val) := by
  unfold Repr at hr
  unfold set
  cases hf : h.full with
  | some fields =>
    rw [hf] at hr
    obtain ⟨rfl, hp, hc⟩ := hr
    exact ⟨_, rfl, rfl, hp, hc⟩
  | none =>
    rw [hf] at hr
    obtain ⟨ps, hl, hp, hc⟩ := hr
    have hscan := foldWhile_setStep field val ps [] false
    simp only [flatPairs_nil, packOf_nil, List.nil_append, Bool.false_or] at hscan
    have hmem : field ∈ ps.map Prod.fst ↔ (m.lookup field).isSome = true := by
      rw [Option.isSome_iff_ne_none]
      exact iff_not_comm.mp hl.lookup_none
    simp only [hp, scanPairs_packOf, hscan]
    by_cases hin : field ∈ ps.map Prod.fst
    · have hsome := hmem.mp hin
      have hne : m.lookup field ≠ none := Option.isSome_iff_ne_none.mp hsome
      obtain ⟨h', he, hr'⟩ := promoteIfNeeded_repr
        (h := { h with pack := packOf (flatPairs (ps.map fun p =>
          if p.1 = field then (p.1, val) else p)) })
        hf (hl.replace hne val) rfl (by simpa using hc) field.len val.len
      refine ⟨h', ?_, hr'⟩
      simp only [hin, decide_true, hsome, bind, Except.bind, if_true]
      rw [hf] at he
      simp only [he]
    · have hnone : (m.lookup field).isSome = false := by
        cases hs : (m.lookup field).isSome with
        | false => rfl
        | true => exact absurd (hmem.mpr hs) hin
      have hnone' : m.lookup field = none := by simpa using hnone
      -- the field occurs nowhere, so the copied pairs are the old ones
      have hmap : (ps.map fun p => if p.1 = field then (p.1, val) else p) = ps := by
        refine (List.map_congr_left fun p hp => ?_).trans (List.map_id ps)
        have hne : p.1 ≠ field := by
          rintro rfl
          exact hin (List.mem_map_of_mem hp)
        simp [hne]
      obtain ⟨h', he, hr'⟩ := promoteIfNeeded_repr
        (h := { h with pack := packOf (flatPairs (ps ++ [(field, val)])), count := h.count + 1 })
        hf (hl.append_new hnone' val) rfl (by simp [hc]) field.len val.len
      refine ⟨h', ?_, hr'⟩
      have hpair := packAppend_pair ps (field, val)
      simp only at hpair
      simp only [hin, decide_false, hnone, bind, Except.bind, hmap, hpair]
      rw [hf] at he
      simp [he]

/-- One pass of `Hash.Delete` over a pack. -/
theorem foldWhile_deleteStep (field : Bytes) :
    ∀ (ps qs : List (Bytes × Bytes)) (b : Bool),
      foldWhile (fun s p => deleteStep field s p.1 p.2) ps (packOf (flatPairs qs), b)
        = .ok (packOf (flatPairs (qs ++ ps.filter fun p => decide (p.1 ≠ field))),
            b || decide (field ∈ ps.map Prod.fst))
  | [], qs, b => by simp [foldWhile]
  | p :: ps, qs, b => by
      rw [foldWhile, deleteStep]
      by_cases hp : p.1 = field
      · simp only [if_pos hp]
        rw [foldWhile_deleteStep field ps qs true]
        simp [hp]
      · simp only [if_neg hp]
        rw [packAppend_pair qs p, foldWhile_deleteStep field ps (qs ++ [p]) b]
        rw [decide_mem_keys_cons hp]
        simp [hp]

theorem delete_repr {h : HashVal} {m : GoMap Bytes} (hr : h.Repr m) (field : Bytes) :
    ∃ h', h.delete field = .ok ((m.lookup field).isSome, h') ∧ h'.Repr (m.erase field) := by
  unfold Repr at hr
  unfold delete
  cases hf : h.full with
  | some fields =>
    rw [hf] at hr
    obtain ⟨rfl, hp, hc⟩ := hr
    exact ⟨_, rfl, rfl, hp, hc⟩
  | none =>
    rw [hf] at hr
    obtain ⟨ps, hl, hp, hc⟩ := hr
    have hscan := foldWhile_deleteStep field ps [] false
    simp only [flatPairs_nil, packOf_nil, List.nil_append, Bool.false_or] at hscan
    have hfilter := hl.filter field
    have hmem : field ∈ ps.map Prod.fst ↔ (m.lookup field).isSome = true := by
      rw [Option.isSome_iff_ne_none]
      exact iff_not_comm.mp hl.lookup_none
    simp only [hp, scanPairs_packOf, hscan]
    by_cases hin : field ∈ ps.map Prod.fst
    · refine ⟨{ h with
        pack := packOf (flatPairs (ps.filter fun p => decide (p.1 ≠ field))),
        count := h.count - 1 }, ?_, ?_⟩
      · simp only [hin, decide_true, hmem.mp hin, bind, Except.bind, if_true, hf]
      · rw [Repr, hf]
        refine ⟨_, hfilter, rfl, ?_⟩
        -- erasing a present key takes one element off the key set
        have hk : field ∈ m.keys := by
          rw [hl.keys_eq]
          exact List.mem_toFinset.mpr hin
        show h.count - 1 = _
        rw [hc, hfilter.length_eq, Finmap.keys_erase, Finset.card_erase_of_mem hk, hl.length_eq]
    · have hnone : m.lookup field = none := hl.lookup_none.mpr hin
      refine ⟨h, ?_, ?_⟩
      · simp only [hin, decide_false, hnone, Option.isSome_none, bind, Except.bind]
        simp
      · have hsame : m.erase field = m := by
          refine Finmap.ext_lookup fun k => ?_
          rw [lookup_erase_eq]
          split
          · next hk => rw [hk, hnone]
          · rfl
        rw [hsame, Repr, hf]
        exact ⟨ps, hl, hp, hc⟩

theorem pairs_repr {h : HashVal} {m : GoMap Bytes} (hr : h.Repr m) (ord : MapOrder) :
    ∃ ps, h.pairs ord = .ok (flatPairs ps) ∧ Lists ps m := by
  unfold Repr at hr
  unfold pairs
  cases hf : h.full with
  | some fields =>
    rw [hf] at hr
    obtain ⟨rfl, -, -⟩ := hr
    exact ⟨_, rfl, ord.entries_lists _⟩
  | none =>
    rw [hf] at hr
    obtain ⟨ps, hl, hp, -⟩ := hr
    refine ⟨ps, ?_, hl⟩
    simp only [hp, scanPairs_packOf]
    rw [foldWhile_eq_foldl fun (out : List Bytes) (p : Bytes × Bytes) => out ++ [p.1, p.2]]
    have hfold : ∀ (ps : List (Bytes × Bytes)) (out : List Bytes),
        ps.foldl (fun out p => out ++ [p.1, p.2]) out = out ++ flatPairs ps := by
      intro ps
      induction ps with
      | nil => simp
      | cons p ps ih =>
        intro out
        rw [List.foldl_cons, ih, flatPairs_cons]
        simp
    rw [hfold, List.nil_append]

end HashVal

end Memcore
