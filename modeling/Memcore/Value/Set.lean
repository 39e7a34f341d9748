import Memcore.Lib.GoMap
import Memcore.Value.Pack

/-!
# Sets

`set.go`: distinct members, packed while small and a Go map with empty values once the set crosses
its thresholds. `SetVal.Repr s m` says that `s` holds the finite set `m`.
-/

namespace Memcore

open Go ByteStream

/-- `Set`: packed while `full` is nil; `full` is the key set of `fullSet`. -/
structure SetVal where
  pack : List UInt8
  count : Nat
  full : Option (Finset Bytes)
  max : Thresholds

namespace SetVal

/-- `NewSet`. -/
def new (max : Thresholds) : SetVal := ⟨[], 0, none, max⟩

/-- `Set.Compact`. -/
def compact (s : SetVal) : Bool := s.full.isNone

/-- `Set.Len`. -/
def len (s : SetVal) : Nat :=
  match s.full with
  | some members => members.card
  | none => s.count

/-- `Set.scanContains`. -/
def scanContains (s : SetVal) (member : Bytes) : Result Bool :=
  packEach s.pack (fun found e => if e = member then .ok (true, false) else .ok (found, true)) false

/-- `Set.promote`. -/
def promote (s : SetVal) : Result SetVal := do
  let members ← packEach s.pack (fun (members : Finset Bytes) e => .ok (insert e members, true)) ∅
  .ok { s with full := some members, pack := [], count := 0 }

/-- `Set.Add`: is the member new, and the set after it. -/
def add (s : SetVal) (member : Bytes) : Result (Bool × SetVal) :=
  match s.full with
  | some members =>
    if member ∈ members then .ok (false, s)
    else .ok (true, { s with full := some (insert member members) })
  | none => do
      if ← s.scanContains member then .ok (false, s)
      else
        let s := { s with pack := packAppend s.pack member, count := s.count + 1 }
        if s.max.exceeded s.count member.len then
          let s ← s.promote
          .ok (true, s)
        else .ok (true, s)

/-- The callback of `Set.Remove` on a packed set: copy every member but the one removed. -/
def removeStep (member : Bytes) (acc : List UInt8 × Bool) (e : Bytes) :
    Result ((List UInt8 × Bool) × Bool) :=
  if e = member then .ok ((acc.1, true), true)
  else .ok ((packAppend acc.1 e, acc.2), true)

/-- `Set.Remove`: was the member present, and the set after it. -/
def remove (s : SetVal) (member : Bytes) : Result (Bool × SetVal) :=
  match s.full with
  | some members =>
    if member ∈ members then .ok (true, { s with full := some (members.erase member) })
    else .ok (false, s)
  | none => do
      let (rebuilt, found) ← packEach s.pack (removeStep member) ([], false)
      if found then .ok (true, { s with pack := rebuilt, count := s.count - 1 })
      else .ok (false, s)

/-- `Set.Contains`. -/
def contains (s : SetVal) (member : Bytes) : Result Bool :=
  match s.full with
  | some members => .ok (decide (member ∈ members))
  | none => s.scanContains member

/-- `Set.Members`, a map being visited in the order `ord`. -/
def members (ord : MapOrder) (s : SetVal) : Result (List Bytes) :=
  match s.full with
  | some members => .ok (ord.keys members)
  | none => packEach s.pack (fun out e => .ok (out ++ [e], true)) []

/-! ### What it represents

Both encodings hold a set: the packed one a list of its members without repetition, in the order they
were added, the full one a map. -/

/-- `s` holds the finite set `m`. -/
def Repr (s : SetVal) (m : Finset Bytes) : Prop :=
  match s.full with
  | none => ∃ xs : List Bytes, xs.Nodup ∧ xs.toFinset = m ∧ s.pack = packOf xs ∧ s.count = xs.length
  | some members => members = m ∧ s.pack = [] ∧ s.count = 0

theorem new_repr (max : Thresholds) : (new max).Repr ∅ := ⟨[], List.nodup_nil, rfl, rfl, rfl⟩

/-- `Len` counts a packed set by its counter and a full one by its map. -/
theorem len_repr {s : SetVal} {m : Finset Bytes} (hr : s.Repr m) : s.len = m.card := by
  unfold Repr at hr
  unfold len
  cases hf : s.full with
  | none =>
    rw [hf] at hr
    obtain ⟨xs, hnd, rfl, -, hc⟩ := hr
    rw [List.toFinset_card_of_nodup hnd]
    exact hc
  | some members =>
    rw [hf] at hr
    rw [← hr.1]

theorem foldWhile_contains (member : Bytes) : ∀ xs : List Bytes,
    foldWhile (fun (found : Bool) e =>
      if e = member then .ok (true, false) else .ok (found, true)) xs false
      = .ok (decide (member ∈ xs))
  | [] => by simp [foldWhile]
  | x :: xs => by
      rw [foldWhile]
      by_cases hx : x = member
      · simp [hx]
      · have hmem : decide (member ∈ x :: xs) = decide (member ∈ xs) :=
          decide_eq_decide.mpr (List.mem_cons.trans (or_iff_right fun h => hx h.symm))
        rw [if_neg hx, hmem]
        exact foldWhile_contains member xs

/-- The scan finds a member wherever it is, and stops there. -/
theorem scanContains_packOf {s : SetVal} {xs : List Bytes} (hp : s.pack = packOf xs)
    (member : Bytes) : s.scanContains member = .ok (decide (member ∈ xs)) := by
  rw [scanContains, hp, packEach_packOf, foldWhile_contains]

/-- `Contains`, in either encoding. -/
theorem contains_repr {s : SetVal} {m : Finset Bytes} (hr : s.Repr m) (member : Bytes) :
    s.contains member = .ok (decide (member ∈ m)) := by
  unfold Repr at hr
  unfold contains
  cases hf : s.full with
  | none =>
    rw [hf] at hr
    obtain ⟨xs, -, rfl, hp, -⟩ := hr
    simp only [scanContains_packOf hp, List.mem_toFinset]
  | some members =>
    rw [hf] at hr
    rw [← hr.1]

/-- `promote` moves the members into a map, and no two of them fall together. -/
theorem promote_repr {s : SetVal} {xs : List Bytes} (hp : s.pack = packOf xs) :
    ∃ s', s.promote = .ok s' ∧ s'.Repr xs.toFinset := by
  refine ⟨{ s with full := some xs.toFinset, pack := [], count := 0 }, ?_, rfl, rfl, rfl⟩
  have hfold : ∀ (xs : List Bytes) (m : Finset Bytes),
      xs.foldl (fun m e => insert e m) m = m ∪ xs.toFinset := by
    intro xs
    induction xs with
    | nil => simp
    | cons x xs ih =>
      intro m
      rw [List.foldl_cons, ih, List.toFinset_cons, Finset.insert_union, Finset.union_insert]
  rw [promote, hp, packEach_packOf,
    foldWhile_eq_foldl fun (m : Finset Bytes) (e : Bytes) => insert e m, hfold, Finset.empty_union]
  rfl

/-- **`Add`** says whether the member is new, and the set holds it after; a set that crosses a
threshold is promoted on the way. -/
theorem add_repr {s : SetVal} {m : Finset Bytes} (hr : s.Repr m) (member : Bytes) :
    ∃ s', s.add member = .ok (decide (member ∉ m), s') ∧ s'.Repr (insert member m) := by
  have hr₀ := hr
  unfold Repr at hr
  unfold add
  cases hf : s.full with
  | some members =>
    rw [hf] at hr
    obtain ⟨rfl, hp, hc⟩ := hr
    by_cases hin : member ∈ members
    · refine ⟨s, by simp [hin], ?_⟩
      rwa [Finset.insert_eq_of_mem hin]
    · refine ⟨{ s with full := some (insert member members) }, by simp [hin], rfl, hp, hc⟩
  | none =>
    rw [hf] at hr
    obtain ⟨xs, hnd, rfl, hp, hc⟩ := hr
    simp only [scanContains_packOf hp, List.mem_toFinset, bind, Except.bind]
    by_cases hin : member ∈ xs
    · refine ⟨s, by simp [hin], ?_⟩
      rwa [Finset.insert_eq_of_mem (List.mem_toFinset.mpr hin)]
    · have hset : insert member xs.toFinset = (xs ++ [member]).toFinset := by
        rw [List.toFinset_append, List.toFinset_cons, List.toFinset_nil, Finset.union_comm]
        rfl
      have hpack : packAppend s.pack member = packOf (xs ++ [member]) := by
        rw [hp, packAppend_packOf]
      simp only [hin, decide_false, not_false_eq_true, decide_true, hpack, hset]
      simp only [Bool.false_eq_true, if_false]
      -- promoted, or still packed
      split
      · obtain ⟨s', he, hr'⟩ := promote_repr
          (s := { s with pack := packOf (xs ++ [member]), count := s.count + 1 }) rfl
        rw [hf] at he
        simp only [he]
        exact ⟨s', rfl, hr'⟩
      · refine ⟨_, rfl, xs ++ [member], ?_, rfl, rfl, by simp [hc]⟩
        rw [List.nodup_append_comm, List.singleton_append, List.nodup_cons]
        exact ⟨hin, hnd⟩

/-- The walk of `Remove` rebuilds the pack without the member. -/
theorem foldWhile_removeStep (member : Bytes) : ∀ (xs ys : List Bytes) (b : Bool),
    foldWhile (removeStep member) xs (packOf ys, b)
      = .ok (packOf (ys ++ xs.filter fun e => decide (e ≠ member)), b || decide (member ∈ xs))
  | [], ys, b => by simp [foldWhile]
  | x :: xs, ys, b => by
      rw [foldWhile, removeStep]
      by_cases hx : x = member
      · simp only [if_pos hx]
        rw [foldWhile_removeStep member xs ys true]
        simp [hx]
      · have hmem : decide (member ∈ x :: xs) = decide (member ∈ xs) :=
          decide_eq_decide.mpr (List.mem_cons.trans (or_iff_right fun h => hx h.symm))
        simp only [if_neg hx]
        rw [packAppend_packOf, foldWhile_removeStep member xs (ys ++ [x]) b, hmem]
        simp [hx]

/-- **`Remove`** says whether the member was there, and it is not after. A full set stays full. -/
theorem remove_repr {s : SetVal} {m : Finset Bytes} (hr : s.Repr m) (member : Bytes) :
    ∃ s', s.remove member = .ok (decide (member ∈ m), s') ∧ s'.Repr (m.erase member) := by
  have hr₀ := hr
  unfold Repr at hr
  unfold remove
  cases hf : s.full with
  | some members =>
    rw [hf] at hr
    obtain ⟨rfl, hp, hc⟩ := hr
    by_cases hin : member ∈ members
    · refine ⟨{ s with full := some (members.erase member) }, by simp [hin], rfl, hp, hc⟩
    · refine ⟨s, by simp [hin], ?_⟩
      rwa [Finset.erase_eq_of_notMem hin]
  | none =>
    rw [hf] at hr
    obtain ⟨xs, hnd, rfl, hp, hc⟩ := hr
    have hscan := foldWhile_removeStep member xs [] false
    simp only [packOf_nil, List.nil_append, Bool.false_or] at hscan
    simp only [hp, packEach_packOf, hscan, List.mem_toFinset, bind, Except.bind]
    by_cases hin : member ∈ xs
    · have hset : (xs.filter fun e => decide (e ≠ member)).toFinset = xs.toFinset.erase member := by
        rw [List.toFinset_filter]
        ext x
        simp [and_comm]
      refine ⟨_, by simp only [hin, decide_true, if_true]; rfl, ?_⟩
      refine ⟨xs.filter fun e => decide (e ≠ member), hnd.filter _, hset, rfl, ?_⟩
      · -- the counter goes down by one, which is what the list has lost
        show s.count - 1 = _
        rw [← List.toFinset_card_of_nodup (hnd.filter _), hset,
          Finset.card_erase_of_mem (List.mem_toFinset.mpr hin),
          List.toFinset_card_of_nodup hnd, hc]
    · refine ⟨s, by simp [hin], ?_⟩
      have hno : member ∉ xs.toFinset := fun h => hin (List.mem_toFinset.mp h)
      rwa [Finset.erase_eq_of_notMem hno]

/-- **`Members`** lists each member once. -/
theorem members_repr {s : SetVal} {m : Finset Bytes} (hr : s.Repr m) (ord : MapOrder) :
    ∃ xs, s.members ord = .ok xs ∧ xs.Nodup ∧ xs.toFinset = m := by
  unfold Repr at hr
  unfold members
  cases hf : s.full with
  | some members =>
    rw [hf] at hr
    obtain ⟨rfl, -, -⟩ := hr
    refine ⟨_, rfl, ord.nodup _, ?_⟩
    ext x
    rw [List.mem_toFinset, ord.mem]
  | none =>
    rw [hf] at hr
    obtain ⟨xs, hnd, hm, hp, -⟩ := hr
    refine ⟨xs, ?_, hnd, hm⟩
    have hfold : ∀ (xs out : List Bytes), xs.foldl (fun out e => out ++ [e]) out = out ++ xs := by
      intro xs
      induction xs with
      | nil => simp
      | cons x xs ih => intro out; rw [List.foldl_cons, ih, List.append_assoc]; rfl
    simp only [hp, packEach_packOf]
    rw [foldWhile_eq_foldl fun (out : List Bytes) (e : Bytes) => out ++ [e], hfold,
      List.nil_append]

end SetVal

end Memcore
