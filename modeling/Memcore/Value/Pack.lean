import Memcore.Lib.ByteStream
import Memcore.Lib.Go

/-!
# Packs, thresholds and index ranges

`pack.go`, `limits.go` and `normalizeRange` of `value.go`: what the four collection types share.

A pack is a flat byte slice of uvarint-prefixed elements. `packOf es` is the pack that holds the
elements `es`; `packEach` scans one the way the source does, so it can run off the end of bytes that
are not a pack. `packEach_packOf` says it never does on a pack: the scan is a fold over the elements.
-/

namespace Memcore

open Go ByteStream

/-! ## Thresholds -/

/-- Bounds of the compact encoding of a collection. -/
structure Thresholds where
  maxEntries : Int
  maxBytes : Int
  deriving DecidableEq

/-- Must a collection of `count` elements, the last added of `elemSize` bytes, be promoted? -/
def Thresholds.exceeded (t : Thresholds) (count elemSize : Nat) : Bool :=
  decide (t.maxEntries < count) || decide (t.maxBytes < elemSize)

/-- The thresholds of each collection kind. -/
structure Limits where
  list : Thresholds
  hash : Thresholds
  set : Thresholds
  zset : Thresholds
  deriving DecidableEq

/-! ## Index ranges -/

/-- Resolve Redis-style indices against a length: the inclusive bounds, or `none` when the range
selects nothing. -/
def normalizeRange (start stop : Int) (length : Nat) : Option (Nat × Nat) :=
  if length = 0 then none
  else
    let start := if start < 0 then length + start else start
    let stop := if stop < 0 then length + stop else stop
    let start := if start < 0 then 0 else start
    let stop := if stop ≥ length then (length : Int) - 1 else stop
    if start > stop ∨ start ≥ length then none
    else some (start.toNat, stop.toNat)

theorem normalizeRange_all_succ (n : Nat) : normalizeRange 0 (-1) (n + 1) = some (0, n) := by
  have hstop : ((n + 1 : Nat) : Int) + -1 = n := by omega
  simp only [normalizeRange, hstop, Int.lt_irrefl, if_false, Nat.succ_ne_zero,
    show (-1 : Int) < 0 by decide, if_true]
  rw [if_neg (show ¬ (n : Int) ≥ ((n + 1 : Nat) : Int) by omega), if_neg (by omega)]
  simp

/-- An index with negative ones counted from the end of a sequence. -/
def fromEnd (i : Int) (length : Nat) : Int := if i < 0 then length + i else i

theorem normalizeRange_fromEnd (start stop : Int) (length : Nat) :
    normalizeRange start stop length =
      if length = 0 then none
      else
        let start := if fromEnd start length < 0 then 0 else fromEnd start length
        let stop := if fromEnd stop length ≥ length then (length : Int) - 1
          else fromEnd stop length
        if start > stop ∨ start ≥ length then none else some (start.toNat, stop.toNat) := rfl

/-- What `normalizeRange` has cut out: the ranks between the two indices. -/
theorem normalizeRange_some {start stop : Int} {length lo hi : Nat}
    (h : normalizeRange start stop length = some (lo, hi)) : lo ≤ hi ∧ hi < length ∧
      ∀ k < length, (fromEnd start length ≤ k ∧ k ≤ fromEnd stop length ↔ lo ≤ k ∧ k ≤ hi) := by
  rw [normalizeRange_fromEnd] at h
  generalize fromEnd start length = start at h ⊢
  generalize fromEnd stop length = stop at h ⊢
  simp only at h
  split_ifs at h <;> cases h <;> exact ⟨by omega, by omega, fun k hk => by omega⟩

theorem normalizeRange_none {start stop : Int} {length : Nat}
    (h : normalizeRange start stop length = none) {k : Nat} (hk : k < length) :
    ¬ (fromEnd start length ≤ k ∧ k ≤ fromEnd stop length) := by
  rw [normalizeRange_fromEnd] at h
  generalize fromEnd start length = start at h ⊢
  generalize fromEnd stop length = stop at h ⊢
  simp only at h
  split_ifs at h <;> omega

theorem normalizeRange_bounds {start stop : Int} {length lo hi : Nat}
    (h : normalizeRange start stop length = some (lo, hi)) : lo ≤ hi ∧ hi < length :=
  ⟨(normalizeRange_some h).1, (normalizeRange_some h).2.1⟩

/-- The elements a range of indices selects from a sequence. -/
def rangeOf {α : Type} (start stop : Int) (xs : List α) : List α :=
  match normalizeRange start stop xs.length with
  | none => []
  | some (lo, hi) => (xs.take (hi + 1)).drop lo

@[simp] theorem rangeOf_all {α : Type} (xs : List α) : rangeOf 0 (-1) xs = xs := by
  cases xs with
  | nil => rfl
  | cons x xs => simp [rangeOf, normalizeRange_all_succ]

/-- The elements whose rank lies between two indices, both included. -/
def ranked {α : Type} (start stop : Int) (xs : List α) : List α :=
  (xs.zipIdx.filter fun x =>
    decide (fromEnd start xs.length ≤ x.2 ∧ x.2 ≤ fromEnd stop xs.length)).map Prod.fst

/-- The elements of rank `lo` to `hi`, when the first one has rank `k`. -/
theorem map_filter_zipIdx {α : Type} (lo hi : Nat) : ∀ (xs : List α) (k : Nat),
    ((xs.zipIdx k).filter fun x => decide (lo ≤ x.2 ∧ x.2 ≤ hi)).map Prod.fst
      = (xs.take (hi + 1 - k)).drop (lo - k)
  | [], k => by simp
  | x :: xs, k => by
      have ih := map_filter_zipIdx lo hi xs (k + 1)
      rw [List.zipIdx_cons]
      by_cases hhi : k ≤ hi
      · have htake : hi + 1 - k = (hi + 1 - (k + 1)) + 1 := by omega
        rw [htake, List.take_succ_cons]
        by_cases hlo : lo ≤ k
        · rw [List.filter_cons_of_pos (by simpa using ⟨hlo, hhi⟩), List.map_cons, ih,
            Nat.sub_eq_zero_of_le hlo, Nat.sub_eq_zero_of_le (Nat.le_succ_of_le hlo)]
          rfl
        · have hdrop : lo - k = (lo - (k + 1)) + 1 := by omega
          rw [List.filter_cons_of_neg (by simp [hlo]), ih, hdrop, List.drop_succ_cons]
      · -- the ranks from here on are too big
        have hnone : hi + 1 - k = 0 := by omega
        have hnone' : hi + 1 - (k + 1) = 0 := by omega
        rw [List.filter_cons_of_neg (by simp [hhi]), ih, hnone, hnone']
        simp

/-- **Index ranges select by rank**: what `normalizeRange` cuts out is what lies between the two
indices. -/
theorem rangeOf_eq_ranked {α : Type} (start stop : Int) (xs : List α) :
    rangeOf start stop xs = ranked start stop xs := by
  have hrank : ∀ x ∈ xs.zipIdx, x.2 < xs.length := fun x hx => by
    have := List.snd_lt_of_mem_zipIdx hx
    omega
  unfold rangeOf ranked
  cases hr : normalizeRange start stop xs.length with
  | none =>
    refine (List.map_eq_nil_iff.mpr (List.filter_eq_nil_iff.mpr fun x hx => ?_)).symm
    intro hselected
    exact normalizeRange_none hr (hrank x hx) (of_decide_eq_true hselected)
  | some r =>
    obtain ⟨lo, hi⟩ := r
    have hsame : ∀ x ∈ xs.zipIdx, decide (fromEnd start xs.length ≤ x.2 ∧
        x.2 ≤ fromEnd stop xs.length) = decide (lo ≤ x.2 ∧ x.2 ≤ hi) := by
      intro x hx
      rw [decide_eq_decide]
      exact (normalizeRange_some hr).2.2 x.2 (hrank x hx)
    rw [List.filter_congr hsame, map_filter_zipIdx, Nat.sub_zero, Nat.sub_zero]

/-! ## Packs -/

/-- `packAppend`. -/
def packAppend (buf : List UInt8) (elem : Bytes) : List UInt8 :=
  buf ++ putUvarint elem.len ++ elem.data

/-- The loop of `packEach` with a callback that threads a state and says whether to go on. A width of
`0` would make the loop spin; a negative width or a length past the end is a slice out of range. -/
def packEachAux {σ : Type} (fn : σ → Bytes → Result (σ × Bool)) :
    Nat → List UInt8 → σ → Result σ
  | 0, _, _ => .error .diverge
  | fuel + 1, buf, s =>
    if buf = [] then .ok s
    else
      let (n, w) := uvarint buf
      let rest := buf.drop w.toNat
      if w < 0 ∨ rest.length < n then .error .indexOutOfRange
      else
        match fn s (Bytes.ofList (rest.take n)) with
        | .ok (s, true) => packEachAux fn fuel (rest.drop n) s
        | .ok (s, false) => .ok s
        | .error p => .error p

/-- `packEach`. -/
def packEach {σ : Type} (buf : List UInt8) (fn : σ → Bytes → Result (σ × Bool)) (s : σ) : Result σ :=
  packEachAux fn (buf.length + 1) buf s

/-- The pack that holds `es`. -/
def packOf (es : List Bytes) : List UInt8 :=
  es.flatMap fun e => putUvarint e.len ++ e.data

@[simp] theorem packOf_nil : packOf [] = [] := rfl

theorem packOf_cons (e : Bytes) (es : List Bytes) :
    packOf (e :: es) = putUvarint e.len ++ (e.data ++ packOf es) := by
  simp [packOf]

theorem packOf_append (es fs : List Bytes) : packOf (es ++ fs) = packOf es ++ packOf fs := by
  simp [packOf]

theorem packAppend_packOf (es : List Bytes) (e : Bytes) :
    packAppend (packOf es) e = packOf (es ++ [e]) := by
  simp [packAppend, packOf_append, packOf_cons]

theorem packAppend_nil_append (e : Bytes) (es : List Bytes) :
    packAppend [] e ++ packOf es = packOf (e :: es) := by
  simp [packAppend, packOf_cons]

theorem packOf_eq_nil {es : List Bytes} (h : packOf es = []) : es = [] := by
  cases es with
  | nil => rfl
  | cons e es =>
    rw [packOf_cons] at h
    exact absurd (List.append_eq_nil_iff.mp h).1 (putUvarint_ne_nil _)

/-- The elements `packEach` reads off the front of a pack. -/
theorem uvarint_packOf_cons (e : Bytes) (es : List Bytes) :
    uvarint (packOf (e :: es)) = (e.len, ((putUvarint e.len).length : Int)) := by
  rw [packOf_cons, uvarint_put e.len_lt]

/-- A fold over a list that the step function may end early. -/
def foldWhile {σ α : Type} (fn : σ → α → Result (σ × Bool)) : List α → σ → Result σ
  | [], s => .ok s
  | e :: es, s =>
    match fn s e with
    | .ok (s, true) => foldWhile fn es s
    | .ok (s, false) => .ok s
    | .error p => .error p

/-- A step function that never stops is a plain fold. -/
theorem foldWhile_eq_foldl {σ α : Type} (step : σ → α → σ) : ∀ (es : List α) (s : σ),
    foldWhile (fun s e => .ok (step s e, true)) es s = .ok (es.foldl step s)
  | [], _ => rfl
  | _ :: es, _ => foldWhile_eq_foldl step es _

theorem packEachAux_packOf {σ : Type} (fn : σ → Bytes → Result (σ × Bool)) :
    ∀ (es : List Bytes) (fuel : Nat) (s : σ), (packOf es).length < fuel →
      packEachAux fn fuel (packOf es) s = foldWhile fn es s
  | _, 0, _, h => absurd h (Nat.not_lt_zero _)
  | [], fuel + 1, s, _ => by simp [packEachAux, foldWhile]
  | e :: es, fuel + 1, s, h => by
      have hne : packOf (e :: es) ≠ [] := fun h => by simpa using packOf_eq_nil h
      have hdrop : (packOf (e :: es)).drop (putUvarint e.len).length = e.data ++ packOf es := by
        rw [packOf_cons, List.drop_left]
      have hlen : ¬ (((putUvarint e.len).length : Int) < 0 ∨
          (e.data ++ packOf es).length < e.len) := by
        simp [Bytes.len]
      have hfuel : (packOf es).length < fuel := by
        have hpos : 0 < (putUvarint e.len).length := List.length_pos_iff.mpr (putUvarint_ne_nil _)
        rw [packOf_cons] at h
        simp only [List.length_append] at h
        omega
      rw [packEachAux, if_neg hne, uvarint_packOf_cons]
      simp only [Int.toNat_natCast, hdrop]
      rw [if_neg hlen, e.take_len_append, e.drop_len_append, e.ofList_self, foldWhile]
      rcases fn s e with p | ⟨s', b⟩
      · rfl
      · cases b
        · rfl
        · exact packEachAux_packOf fn es fuel s' hfuel

/-- **Scanning a pack folds over its elements**, and never leaves the slice. -/
theorem packEach_packOf {σ : Type} (es : List Bytes) (fn : σ → Bytes → Result (σ × Bool)) (s : σ) :
    packEach (packOf es) fn s = foldWhile fn es s :=
  packEachAux_packOf fn es _ s (Nat.lt_succ_self _)

/-! ### Selecting a range while scanning -/

/-- The callback of a range scan: skip the elements before `lo`, stop after `hi`. -/
def rangeStep {α : Type} (lo hi : Nat) : Nat × List α → α → Result ((Nat × List α) × Bool) :=
  fun (i, out) e => .ok ((i + 1, if lo ≤ i then out ++ [e] else out), decide (i + 1 ≤ hi))

theorem foldWhile_rangeStep {α : Type} (lo hi : Nat) :
    ∀ (es : List α) (i : Nat) (out : List α), i ≤ hi →
      (foldWhile (rangeStep lo hi) es (i, out)).map Prod.snd
        = .ok (out ++ (es.take (hi + 1 - i)).drop (lo - i))
  | [], i, out, _ => by simp [foldWhile, Except.map]
  | e :: es, i, out, hi' => by
      have htake : hi + 1 - i = (hi - i) + 1 := by omega
      rw [foldWhile, rangeStep]
      by_cases hstop : i + 1 ≤ hi
      · rw [decide_eq_true hstop]
        simp only
        rw [foldWhile_rangeStep lo hi es (i + 1) _ hstop, htake, List.take_succ_cons,
          show hi + 1 - (i + 1) = hi - i by omega]
        split
        · next hlo => simp [show lo - i = 0 by omega, show lo - (i + 1) = 0 by omega]
        · next hlo => rw [show lo - i = (lo - (i + 1)) + 1 by omega, List.drop_succ_cons]
      · have hii : hi - i = 0 := by omega
        rw [decide_eq_false hstop]
        simp only [Except.map, htake, hii, List.take_succ_cons, List.take_zero]
        split
        · next hlo => simp [show lo - i = 0 by omega]
        · next hlo =>
            rw [show lo - i = (lo - (i + 1)) + 1 by omega, List.drop_succ_cons]
            simp

end Memcore
