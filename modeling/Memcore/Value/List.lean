import Memcore.Lib.DList
import Memcore.Value.Pack

/-!
# Lists

`list.go`: an ordered sequence of byte strings, packed while small and a doubly-linked list once it
crosses its thresholds. `ListVal.Repr l xs` says that `l` holds the sequence `xs`, in either
encoding, and every operation is specified by what it does to `xs`.
-/

namespace Memcore

open Go ByteStream DList

/-! ## The promoted representation -/

/-- `fullList`: the heap of nodes allocated for it, its two ends and its length. -/
structure FullList where
  nodes : List (Node Bytes)
  head : Option Nat
  tail : Option Nat
  length : Nat
  deriving DecidableEq

namespace FullList

/-- `&fullList{}`. -/
def new : FullList := ⟨[], none, none, 0⟩

def pushFront (l : FullList) (b : Bytes) : Result FullList := do
  let n := l.nodes.length
  let nodes := l.nodes ++ [⟨b, none, l.head⟩]
  match l.head with
  | some h =>
    let hd ← deref nodes (some h)
    .ok ⟨nodes.set h { hd with prev := some n }, some n, l.tail, l.length + 1⟩
  | none => .ok ⟨nodes, some n, some n, l.length + 1⟩

def pushBack (l : FullList) (b : Bytes) : Result FullList := do
  let n := l.nodes.length
  let nodes := l.nodes ++ [⟨b, l.tail, none⟩]
  match l.tail with
  | some t =>
    let tl ← deref nodes (some t)
    .ok ⟨nodes.set t { tl with next := some n }, l.head, some n, l.length + 1⟩
  | none => .ok ⟨nodes, some n, some n, l.length + 1⟩

def popFront (l : FullList) : Result (Option Bytes × FullList) :=
  match l.head with
  | none => .ok (none, l)
  | some h => do
      let n ← deref l.nodes (some h)
      match n.next with
      | some j =>
        let hd ← deref l.nodes (some j)
        .ok (some n.value, ⟨l.nodes.set j { hd with prev := none }, some j, l.tail, l.length - 1⟩)
      | none => .ok (some n.value, ⟨l.nodes, none, none, l.length - 1⟩)

def popBack (l : FullList) : Result (Option Bytes × FullList) :=
  match l.tail with
  | none => .ok (none, l)
  | some t => do
      let n ← deref l.nodes (some t)
      match n.prev with
      | some j =>
        let tl ← deref l.nodes (some j)
        .ok (some n.value, ⟨l.nodes.set j { tl with next := none }, l.head, some j, l.length - 1⟩)
      | none => .ok (some n.value, ⟨l.nodes, none, none, l.length - 1⟩)

def rangeElems (l : FullList) (start stop : Int) : Result (List Bytes) :=
  match normalizeRange start stop l.length with
  | none => .ok []
  | some (lo, hi) => do
      let n ← skip l.nodes lo l.head
      collect l.nodes (hi + 1 - lo) n

/-! ### What it represents -/

/-- `l` holds the sequence `xs`. -/
def Repr (l : FullList) (xs : List Bytes) : Prop :=
  ∃ ids : List Nat, ids.Nodup ∧ DSeg l.nodes none ids xs none ∧
    l.head = ids.head? ∧ l.tail = ids.getLast? ∧ l.length = xs.length

theorem new_repr : new.Repr [] := ⟨[], List.nodup_nil, trivial, rfl, rfl, rfl⟩

/-- A heap extended at the end, then changed at one old node, is unchanged at every other one. -/
theorem set_append_of_ne {nodes : List (Node Bytes)} {n m : Node Bytes} {i j : Nat}
    (hj : j < nodes.length) (hij : j ≠ i) :
    ((nodes ++ [n]).set i m)[j]? = nodes[j]? := by
  rw [List.getElem?_set_ne (Ne.symm hij), List.getElem?_append_left hj]

theorem pushFront_repr {l : FullList} {xs : List Bytes} (h : l.Repr xs) (b : Bytes) :
    ∃ l', l.pushFront b = .ok l' ∧ l'.Repr (b :: xs) := by
  obtain ⟨ids, hnd, hs, hhead, htail, hlen⟩ := h
  cases ids with
  | nil =>
    cases xs with
    | cons x xs => exact absurd hs (by simp [DSeg])
    | nil =>
      simp only [pushFront, hhead, List.head?_nil]
      refine ⟨_, rfl, [l.nodes.length], by simp, ?_, rfl, rfl, by simp [hlen]⟩
      simp [DSeg]
  | cons i is =>
    cases xs with
    | nil => exact absurd hs (by simp [DSeg])
    | cons x xs =>
      have hi : i < l.nodes.length := hs.lt_length i List.mem_cons_self
      have hnode : (l.nodes ++ [⟨b, none, some i⟩])[i]? = some ⟨x, none, is.head?⟩ := by
        rw [List.getElem?_append_left hi, hs.1, Option.or_none]
      simp only [pushFront, hhead, List.head?_cons]
      rw [deref_some hnode]
      refine ⟨_, rfl, l.nodes.length :: i :: is, ?_, ?_, rfl, ?_, by simp [hlen]⟩
      · refine List.nodup_cons.mpr ⟨fun hmem => ?_, hnd⟩
        exact absurd (hs.lt_length _ hmem) (Nat.lt_irrefl _)
      · refine ⟨?_, ?_, hs.2.frame fun j hj => ?_⟩
        · rw [List.getElem?_set_ne (Nat.ne_of_lt hi)]
          simp
        · rw [List.getElem?_set_self (by simp; omega)]
          simp
        · refine set_append_of_ne (hs.2.lt_length j hj) ?_
          rintro rfl
          exact (List.nodup_cons.mp hnd).1 hj
      · rw [htail, List.getLast?_cons_cons]

theorem pushBack_repr {l : FullList} {xs : List Bytes} (h : l.Repr xs) (b : Bytes) :
    ∃ l', l.pushBack b = .ok l' ∧ l'.Repr (xs ++ [b]) := by
  obtain ⟨ids, hnd, hs, hhead, htail, hlen⟩ := h
  rcases List.eq_nil_or_concat' ids with rfl | ⟨is, t, rfl⟩
  · cases xs with
    | cons x xs => exact absurd hs (by simp [DSeg])
    | nil =>
      simp only [pushBack, htail, List.getLast?_nil]
      refine ⟨_, rfl, [l.nodes.length], by simp, ?_, rfl, rfl, by simp [hlen]⟩
      simp [DSeg]
  · have hl := hs.length_eq
    rcases List.eq_nil_or_concat' xs with rfl | ⟨ys, x, rfl⟩
    · simp at hl
    · have hl' : is.length = ys.length := by simpa using hl
      have ht : t < l.nodes.length := hs.lt_length t (by simp)
      -- the old tail gets the new node as its next; the others are not touched
      obtain ⟨hseg, hnode⟩ := (dseg_snoc hl').mp hs
      have hnode' : (l.nodes ++ [⟨b, some t, none⟩])[t]? = some ⟨x, is.getLast?, none⟩ := by
        rw [List.getElem?_append_left ht, hnode, Option.or_none]
      have hnt : t ∉ is := by
        intro hmem
        exact (List.nodup_append.mp hnd).2.2 t hmem t (by simp) rfl
      simp only [pushBack, htail, List.getLast?_append, List.getLast?_singleton, Option.some_or]
      rw [deref_some hnode']
      refine ⟨_, rfl, is ++ [t] ++ [l.nodes.length], ?_, ?_, ?_, by simp, by simp [hlen]⟩
      · refine List.nodup_append.mpr ⟨hnd, by simp, ?_⟩
        intro j hj k hk
        have hjlt := hs.lt_length j hj
        have hk' : k = l.nodes.length := by simpa using hk
        omega
      · rw [dseg_snoc (by simpa using hl'), dseg_snoc hl']
        refine ⟨⟨hseg.frame fun j hj => ?_, ?_⟩, ?_⟩
        · refine set_append_of_ne (hseg.lt_length j hj) ?_
          rintro rfl
          exact hnt hj
        · rw [List.getElem?_set_self (by simp; omega)]
          simp
        · rw [List.getElem?_set_ne (Nat.ne_of_lt ht)]
          simp
      · rw [hhead]
        cases is <;> simp

theorem popFront_repr_nil {l : FullList} (h : l.Repr []) : l.popFront = .ok (none, l) := by
  obtain ⟨ids, -, hs, hhead, -, -⟩ := h
  cases ids with
  | nil => simp [popFront, hhead]
  | cons i is => exact absurd hs (by simp [DSeg])

theorem popFront_repr {l : FullList} {x : Bytes} {xs : List Bytes} (h : l.Repr (x :: xs)) :
    ∃ l', l.popFront = .ok (some x, l') ∧ l'.Repr xs := by
  obtain ⟨ids, hnd, hs, hhead, htail, hlen⟩ := h
  cases ids with
  | nil => exact absurd hs (by simp [DSeg])
  | cons i is =>
    simp only [popFront, hhead, List.head?_cons]
    rw [deref_some hs.1]
    cases is with
    | nil =>
      cases xs with
      | cons y ys => exact absurd hs.2 (by simp [DSeg])
      | nil => exact ⟨_, rfl, [], List.nodup_nil, trivial, rfl, rfl, by simp [hlen]⟩
    | cons j js =>
      cases xs with
      | nil => exact absurd hs.2 (by simp [DSeg])
      | cons y ys =>
        have hj : j < l.nodes.length := hs.lt_length j (by simp)
        have hnd' := (List.nodup_cons.mp hnd).2
        have hseg := hs.2
        refine ⟨⟨l.nodes.set j ⟨y, none, js.head?.or none⟩, some j, l.tail, l.length - 1⟩,
          ?_, j :: js, hnd', ?_, rfl, ?_, by simp [hlen]⟩
        · show (deref l.nodes (some j) >>= _) = _
          rw [deref_some hseg.1]
          rfl
        · refine ⟨List.getElem?_set_self hj, hseg.2.frame fun k hk => ?_⟩
          rw [List.getElem?_set_ne]
          rintro rfl
          exact (List.nodup_cons.mp hnd').1 hk
        · rw [htail, List.getLast?_cons_cons]

theorem popBack_repr_nil {l : FullList} (h : l.Repr []) : l.popBack = .ok (none, l) := by
  obtain ⟨ids, -, hs, -, htail, -⟩ := h
  cases ids with
  | nil => simp [popBack, htail]
  | cons i is => exact absurd hs (by simp [DSeg])

theorem popBack_repr {l : FullList} {x : Bytes} {xs : List Bytes} (h : l.Repr (xs ++ [x])) :
    ∃ l', l.popBack = .ok (some x, l') ∧ l'.Repr xs := by
  obtain ⟨ids, hnd, hs, hhead, htail, hlen⟩ := h
  have hl := hs.length_eq
  rcases List.eq_nil_or_concat' ids with rfl | ⟨is, t, rfl⟩
  · simp at hl
  · have hl' : is.length = xs.length := by simpa using hl
    obtain ⟨hseg, hnode⟩ := (dseg_snoc hl').mp hs
    simp only [popBack, htail, List.getLast?_append, List.getLast?_singleton, Option.some_or]
    rw [deref_some hnode]
    have hndis : is.Nodup := (List.nodup_append.mp hnd).1
    rcases List.eq_nil_or_concat' is with rfl | ⟨js, j, rfl⟩
    · have hxs : xs = [] := List.length_eq_zero_iff.mp (by simpa using hl'.symm)
      subst hxs
      exact ⟨_, rfl, [], List.nodup_nil, trivial, rfl, rfl, by simp [hlen]⟩
    · rcases List.eq_nil_or_concat' xs with rfl | ⟨ys, y, rfl⟩
      · simp at hl'
      · have hl'' : js.length = ys.length := by simpa using hl'
        have hj : j < l.nodes.length := hseg.lt_length j (by simp)
        obtain ⟨hsegj, hnodej⟩ := (dseg_snoc hl'').mp hseg
        refine ⟨⟨l.nodes.set j ⟨y, js.getLast?.or none, none⟩, l.head, some j, l.length - 1⟩,
          ?_, js ++ [j], hndis, ?_, ?_, by simp, by simp [hlen]⟩
        · simp only [List.getLast?_append, List.getLast?_singleton, Option.some_or]
          show (deref l.nodes (some j) >>= _) = _
          rw [deref_some hnodej]
          rfl
        · rw [dseg_snoc hl'']
          refine ⟨hsegj.frame fun k hk => ?_, List.getElem?_set_self hj⟩
          rw [List.getElem?_set_ne]
          rintro rfl
          exact (List.nodup_append.mp hndis).2.2 j hk j (by simp) rfl
        · rw [hhead]
          cases js <;> simp

theorem rangeElems_repr {l : FullList} {xs : List Bytes} (h : l.Repr xs) (start stop : Int) :
    l.rangeElems start stop = .ok (rangeOf start stop xs) := by
  obtain ⟨ids, -, hs, hhead, -, hlen⟩ := h
  rw [rangeElems, rangeOf, hlen]
  cases hr : normalizeRange start stop xs.length with
  | none => rfl
  | some r =>
    obtain ⟨lo, hi⟩ := r
    obtain ⟨hlo, hhi⟩ := normalizeRange_bounds hr
    have hl := hs.length_eq
    obtain ⟨p, hdrop⟩ := hs.drop (k := lo)
    show (skip l.nodes lo l.head >>= _) = _
    rw [hhead, skip_dseg hs (by omega)]
    show collect l.nodes (hi + 1 - lo) (ids.drop lo).head? = _
    rw [collect_dseg hdrop (by simp; omega), List.take_drop,
      show lo + (hi + 1 - lo) = hi + 1 by omega]

end FullList

/-! ## The list value -/

/-- `List`: packed while `full` is nil. -/
structure ListVal where
  pack : List UInt8
  count : Nat
  full : Option FullList
  max : Thresholds
  deriving DecidableEq

namespace ListVal

/-- `NewList`. -/
def new (max : Thresholds) : ListVal := ⟨[], 0, none, max⟩

/-- `List.Compact`. -/
def compact (l : ListVal) : Bool := l.full.isNone

/-- `List.Len`. -/
def len (l : ListVal) : Nat :=
  match l.full with
  | some f => f.length
  | none => l.count

/-- `List.promote`. -/
def promote (l : ListVal) : Result ListVal := do
  let full ← packEach l.pack
    (fun (full : FullList) e => do
      let full ← full.pushBack e
      .ok (full, true))
    FullList.new
  .ok { l with full := some full, pack := [], count := 0 }

/-- `List.promoteIfNeeded`. -/
def promoteIfNeeded (l : ListVal) (elemSize : Nat) : Result ListVal :=
  if l.max.exceeded l.count elemSize then l.promote else .ok l

/-- `List.PushFront`. -/
def pushFront (l : ListVal) (b : Bytes) : Result ListVal :=
  match l.full with
  | some f => do
      let f ← f.pushFront b
      .ok { l with full := some f }
  | none =>
    { l with pack := packAppend [] b ++ l.pack, count := l.count + 1 }.promoteIfNeeded b.len

/-- `List.PushBack`. -/
def pushBack (l : ListVal) (b : Bytes) : Result ListVal :=
  match l.full with
  | some f => do
      let f ← f.pushBack b
      .ok { l with full := some f }
  | none =>
    { l with pack := packAppend l.pack b, count := l.count + 1 }.promoteIfNeeded b.len

/-- `List.PopFront`: the element, `none` when the list is empty, and the list that is left. -/
def popFront (l : ListVal) : Result (Option Bytes × ListVal) :=
  match l.full with
  | some f => do
      let (v, f) ← f.popFront
      .ok (v, { l with full := some f })
  | none =>
    if l.count = 0 then .ok (none, l)
    else
      let (n, w) := uvarint l.pack
      let rest := l.pack.drop w.toNat
      if w < 0 ∨ rest.length < n then .error .indexOutOfRange
      else .ok (some (Bytes.ofList (rest.take n)),
        { l with pack := rest.drop n, count := l.count - 1 })

/-- The scan of `List.PopBack` from offset `off`: where the last element starts, where its bytes
start and how many there are. -/
def lastElem (pack : List UInt8) : Nat → Nat → Nat × Nat × Nat → Result (Nat × Nat × Nat)
  | 0, _, _ => .error .diverge
  | fuel + 1, off, last =>
    if off < pack.length then
      let (n, w) := uvarint (pack.drop off)
      if w < 0 then .error .indexOutOfRange
      else lastElem pack fuel (off + w.toNat + n) (off, off + w.toNat, n)
    else .ok last

/-- `List.PopBack`. -/
def popBack (l : ListVal) : Result (Option Bytes × ListVal) :=
  match l.full with
  | some f => do
      let (v, f) ← f.popBack
      .ok (v, { l with full := some f })
  | none =>
    if l.count = 0 then .ok (none, l)
    else do
      let (lastOff, dataOff, dataLen) ← lastElem l.pack (l.pack.length + 1) 0 (0, 0, 0)
      if l.pack.length < dataOff + dataLen then .error .indexOutOfRange
      else .ok (some (Bytes.ofList ((l.pack.drop dataOff).take dataLen)),
        { l with pack := l.pack.take lastOff, count := l.count - 1 })

/-- `List.Range`. -/
def range (l : ListVal) (start stop : Int) : Result (List Bytes) :=
  match l.full with
  | some f => f.rangeElems start stop
  | none =>
    match normalizeRange start stop l.count with
    | none => .ok []
    | some (lo, hi) => do
        let (_, out) ← packEach l.pack (rangeStep lo hi) (0, [])
        .ok out

/-! ### What it represents -/

/-- `l` holds the sequence `xs`. -/
def Repr (l : ListVal) (xs : List Bytes) : Prop :=
  match l.full with
  | none => l.pack = packOf xs ∧ l.count = xs.length
  | some f => f.Repr xs ∧ l.pack = [] ∧ l.count = 0

theorem new_repr (max : Thresholds) : (new max).Repr [] := ⟨rfl, rfl⟩

theorem len_repr {l : ListVal} {xs : List Bytes} (h : l.Repr xs) : l.len = xs.length := by
  unfold Repr at h
  unfold len
  cases hf : l.full with
  | none => rw [hf] at h; exact h.2
  | some f =>
    rw [hf] at h
    obtain ⟨⟨ids, -, -, -, -, hlen⟩, -⟩ := h
    exact hlen

/-- Pushing the elements of a pack one by one builds the same sequence. -/
theorem foldWhile_pushBack : ∀ (es : List Bytes) {f : FullList} {xs : List Bytes}, f.Repr xs →
    ∃ f', foldWhile (fun (full : FullList) e => do
        let full ← full.pushBack e
        (.ok (full, true) : Result _)) es f = .ok f' ∧ f'.Repr (xs ++ es)
  | [], f, xs, h => ⟨f, rfl, by simpa using h⟩
  | e :: es, f, xs, h => by
      obtain ⟨f₁, he, h₁⟩ := FullList.pushBack_repr h e
      obtain ⟨f₂, he₂, h₂⟩ := foldWhile_pushBack es h₁
      refine ⟨f₂, ?_, by simpa using h₂⟩
      rw [foldWhile, he]
      exact he₂

theorem promote_repr {l : ListVal} {xs : List Bytes} (hp : l.pack = packOf xs) :
    ∃ l', l.promote = .ok l' ∧ l'.Repr xs := by
  obtain ⟨f, he, hr⟩ := foldWhile_pushBack xs FullList.new_repr
  refine ⟨{ l with full := some f, pack := [], count := 0 }, ?_, by simpa using hr, rfl, rfl⟩
  rw [promote, hp, packEach_packOf, he]
  rfl

theorem promoteIfNeeded_repr {l : ListVal} {xs : List Bytes} (hf : l.full = none)
    (hp : l.pack = packOf xs) (hc : l.count = xs.length) (elemSize : Nat) :
    ∃ l', l.promoteIfNeeded elemSize = .ok l' ∧ l'.Repr xs := by
  unfold promoteIfNeeded
  split
  · exact promote_repr hp
  · exact ⟨l, rfl, by simp [Repr, hf, hp, hc]⟩

theorem pushFront_repr {l : ListVal} {xs : List Bytes} (h : l.Repr xs) (b : Bytes) :
    ∃ l', l.pushFront b = .ok l' ∧ l'.Repr (b :: xs) := by
  unfold Repr at h
  unfold pushFront
  cases hf : l.full with
  | none =>
    rw [hf] at h
    obtain ⟨hp, hc⟩ := h
    exact promoteIfNeeded_repr rfl (by rw [hp, packAppend_nil_append]) (by simp [hc]) b.len
  | some f =>
    rw [hf] at h
    obtain ⟨f', he, hr⟩ := FullList.pushFront_repr h.1 b
    refine ⟨{ l with full := some f' }, ?_, hr, h.2⟩
    simp only [he]
    rfl

theorem pushBack_repr {l : ListVal} {xs : List Bytes} (h : l.Repr xs) (b : Bytes) :
    ∃ l', l.pushBack b = .ok l' ∧ l'.Repr (xs ++ [b]) := by
  unfold Repr at h
  unfold pushBack
  cases hf : l.full with
  | none =>
    rw [hf] at h
    obtain ⟨hp, hc⟩ := h
    exact promoteIfNeeded_repr rfl (by rw [hp, packAppend_packOf]) (by simp [hc]) b.len
  | some f =>
    rw [hf] at h
    obtain ⟨f', he, hr⟩ := FullList.pushBack_repr h.1 b
    refine ⟨{ l with full := some f' }, ?_, hr, h.2⟩
    simp only [he]
    rfl

theorem popFront_repr_nil {l : ListVal} (h : l.Repr []) :
    ∃ l', l.popFront = .ok (none, l') ∧ l'.Repr [] := by
  refine ⟨l, ?_, h⟩
  unfold Repr at h
  unfold popFront
  cases hf : l.full with
  | none =>
    rw [hf] at h
    simp [h.2]
  | some f =>
    rw [hf] at h
    simp only [FullList.popFront_repr_nil h.1]
    show Except.ok (none, { l with full := some f }) = _
    rw [← hf]

theorem popFront_repr {l : ListVal} {x : Bytes} {xs : List Bytes} (h : l.Repr (x :: xs)) :
    ∃ l', l.popFront = .ok (some x, l') ∧ l'.Repr xs := by
  unfold Repr at h
  unfold popFront
  cases hf : l.full with
  | none =>
    rw [hf] at h
    obtain ⟨hp, hc⟩ := h
    have hdrop : l.pack.drop (putUvarint x.len).length = x.data ++ packOf xs := by
      rw [hp, packOf_cons, List.drop_left]
    refine ⟨{ l with pack := packOf xs, count := l.count - 1 }, ?_, ?_⟩
    · simp only [hp ▸ uvarint_packOf_cons x xs, Int.toNat_natCast, hdrop]
      rw [if_neg (by simp [hc]), if_neg (by simp [Bytes.len]), x.take_len_append,
        x.drop_len_append, x.ofList_self, hf]
    · simp [Repr, hf, hc]
  | some f =>
    rw [hf] at h
    obtain ⟨f', he, hr⟩ := FullList.popFront_repr h.1
    refine ⟨{ l with full := some f' }, ?_, hr, h.2⟩
    simp only [he]
    rfl

theorem popBack_repr_nil {l : ListVal} (h : l.Repr []) :
    ∃ l', l.popBack = .ok (none, l') ∧ l'.Repr [] := by
  refine ⟨l, ?_, h⟩
  unfold Repr at h
  unfold popBack
  cases hf : l.full with
  | none =>
    rw [hf] at h
    simp [h.2]
  | some f =>
    rw [hf] at h
    simp only [FullList.popBack_repr_nil h.1]
    show Except.ok (none, { l with full := some f }) = _
    rw [← hf]

/-- The scan for the last element, started at the boundary after `es`. -/
theorem lastElem_packOf (pre : List UInt8) (x : Bytes) :
    ∀ (es : List Bytes) (fuel : Nat) (es₀ : List Bytes) (last : Nat × Nat × Nat),
      pre = packOf (es₀ ++ es ++ [x]) → (packOf (es ++ [x])).length < fuel →
      lastElem pre fuel (packOf es₀).length last
        = .ok ((packOf (es₀ ++ es)).length,
            (packOf (es₀ ++ es)).length + (putUvarint x.len).length, x.len)
  | _, 0, _, _, _, hfuel => absurd hfuel (Nat.not_lt_zero _)
  | [], fuel + 1, es₀, last, hpre, hfuel => by
      -- `x` is the next element and the last: the loop ends behind it
      have hlt : (packOf es₀).length < pre.length := by
        have := List.length_pos_iff.mpr (putUvarint_ne_nil x.len)
        simp only [hpre, packOf_append, packOf_cons, List.length_append, List.append_nil]
        omega
      have hdrop : pre.drop (packOf es₀).length = packOf [x] := by
        rw [hpre, List.append_nil, packOf_append, List.drop_left]
      have hend : ¬ (packOf es₀).length + (putUvarint x.len).length + x.len < pre.length := by
        simp only [hpre, packOf_append, packOf_cons, packOf_nil, List.length_append, Bytes.len,
          List.length_nil]
        omega
      obtain ⟨fuel, rfl⟩ : ∃ k, fuel = k + 1 := by
        have := List.length_pos_iff.mpr (putUvarint_ne_nil x.len)
        rw [List.nil_append, packOf_cons] at hfuel
        simp only [List.length_append] at hfuel
        exact ⟨fuel - 1, by omega⟩
      rw [lastElem, if_pos hlt, hdrop, uvarint_packOf_cons]
      simp only [Int.toNat_natCast]
      rw [if_neg (by omega), lastElem, if_neg hend, List.append_nil]
  | e :: es, fuel + 1, es₀, last, hpre, hfuel => by
      have hpos := List.length_pos_iff.mpr (putUvarint_ne_nil e.len)
      have hlt : (packOf es₀).length < pre.length := by
        simp only [hpre, packOf_append, packOf_cons, List.length_append]
        omega
      have hdrop : pre.drop (packOf es₀).length = packOf (e :: (es ++ [x])) := by
        rw [hpre, List.append_assoc, packOf_append, List.drop_left]
        rfl
      -- one element further, `e` is among those passed
      have hnext : (packOf es₀).length + (putUvarint e.len).length + e.len
          = (packOf (es₀ ++ [e])).length := by
        simp [packOf_append, packOf_cons, Bytes.len]
        omega
      have hfuel' : (packOf (es ++ [x])).length < fuel := by
        rw [List.cons_append, packOf_cons] at hfuel
        simp only [List.length_append] at hfuel
        omega
      have ih := lastElem_packOf pre x es fuel (es₀ ++ [e])
        ((packOf es₀).length, (packOf es₀).length + (putUvarint e.len).length, e.len)
        (by rw [hpre]; simp) hfuel'
      rw [lastElem, if_pos hlt, hdrop, uvarint_packOf_cons]
      simp only [Int.toNat_natCast]
      rw [if_neg (by omega), hnext, ih]
      simp

theorem popBack_repr {l : ListVal} {x : Bytes} {xs : List Bytes} (h : l.Repr (xs ++ [x])) :
    ∃ l', l.popBack = .ok (some x, l') ∧ l'.Repr xs := by
  unfold Repr at h
  unfold popBack
  cases hf : l.full with
  | none =>
    rw [hf] at h
    obtain ⟨hp, hc⟩ := h
    have hscan := lastElem_packOf l.pack x xs (l.pack.length + 1) [] (0, 0, 0)
      (by simpa using hp) (by rw [hp]; exact Nat.lt_succ_self _)
    simp only [packOf_nil, List.length_nil, List.nil_append] at hscan
    have hpack : l.pack = packOf xs ++ (putUvarint x.len ++ x.data) := by
      rw [hp, packOf_append, packOf_cons]
      simp
    have hdata : (l.pack.drop ((packOf xs).length + (putUvarint x.len).length)).take x.len
        = x.data := by
      rw [hpack, ← List.append_assoc, ← List.length_append, List.drop_left]
      exact List.take_of_length_le (Nat.le_refl _)
    have hlen : ¬ l.pack.length < (packOf xs).length + (putUvarint x.len).length + x.len := by
      simp only [hpack, List.length_append, Bytes.len]
      omega
    refine ⟨{ l with pack := packOf xs, count := l.count - 1 }, ?_, ?_⟩
    · rw [if_neg (by simp [hc]), hscan]
      show (if l.pack.length < _ then _ else _) = _
      rw [if_neg hlen, hdata, x.ofList_self, hpack, List.take_left, hf]
    · simp [Repr, hf, hc]
  | some f =>
    rw [hf] at h
    obtain ⟨f', he, hr⟩ := FullList.popBack_repr h.1
    refine ⟨{ l with full := some f' }, ?_, hr, h.2⟩
    simp only [he]
    rfl

theorem range_repr {l : ListVal} {xs : List Bytes} (h : l.Repr xs) (start stop : Int) :
    l.range start stop = .ok (rangeOf start stop xs) := by
  unfold Repr at h
  unfold range
  cases hf : l.full with
  | none =>
    rw [hf] at h
    obtain ⟨hp, hc⟩ := h
    simp only [hc, rangeOf]
    cases hr : normalizeRange start stop xs.length with
    | none => rfl
    | some r =>
      obtain ⟨lo, hi⟩ := r
      have hscan := foldWhile_rangeStep lo hi xs 0 [] (Nat.zero_le _)
      show (packEach l.pack (rangeStep lo hi) (0, []) >>= _) = _
      rw [hp, packEach_packOf]
      cases hw : foldWhile (rangeStep lo hi) xs (0, []) with
      | error e => rw [hw] at hscan; cases hscan
      | ok r =>
        rw [hw] at hscan
        simp only [Except.map, List.nil_append, Nat.sub_zero] at hscan
        exact hscan
  | some f =>
    rw [hf] at h
    exact FullList.rangeElems_repr h.1 start stop

/-- Popping at the front, whatever is there. -/
theorem popFront_spec {l : ListVal} {xs : List Bytes} (h : l.Repr xs) :
    ∃ l', l.popFront = .ok (xs.head?, l') ∧ l'.Repr xs.tail := by
  cases xs with
  | nil => exact popFront_repr_nil h
  | cons x xs => exact popFront_repr h

/-- Popping at the back, whatever is there. -/
theorem popBack_spec {l : ListVal} {xs : List Bytes} (h : l.Repr xs) :
    ∃ l', l.popBack = .ok (xs.getLast?, l') ∧ l'.Repr xs.dropLast := by
  rcases List.eq_nil_or_concat' xs with rfl | ⟨ys, y, rfl⟩
  · exact popBack_repr_nil h
  · obtain ⟨l', he, hr⟩ := popBack_repr h
    exact ⟨l', by simpa using he, by simpa using hr⟩

end ListVal

/-! ## A list is a sequence -/

/-- A call on a list. -/
inductive ListOp where
  | pushFront (b : Bytes)
  | pushBack (b : Bytes)
  | popFront
  | popBack
  | range (start stop : Int)
  | len
deriving DecidableEq

/-- What a call returns. -/
inductive ListOut where
  | done
  | popped (b : Option Bytes)
  | elems (bs : List Bytes)
  | length (n : Nat)
deriving DecidableEq

namespace ListOp

/-- A call on a `List`. -/
def run (l : ListVal) : ListOp → Result (ListOut × ListVal)
  | .pushFront b => do
      let l ← l.pushFront b
      .ok (.done, l)
  | .pushBack b => do
      let l ← l.pushBack b
      .ok (.done, l)
  | .popFront => do
      let (b, l) ← l.popFront
      .ok (.popped b, l)
  | .popBack => do
      let (b, l) ← l.popBack
      .ok (.popped b, l)
  | .range start stop => do
      let bs ← l.range start stop
      .ok (.elems bs, l)
  | .len => .ok (.length l.len, l)

/-- Calls one after the other. -/
def runAll : List ListOp → ListVal → Result (List ListOut × ListVal)
  | [], l => .ok ([], l)
  | op :: ops, l => do
      let (out, l) ← op.run l
      let (outs, l) ← runAll ops l
      .ok (out :: outs, l)

/-- What a call is for: the result it has on a sequence, and the sequence that is left. -/
def onSeq (xs : List Bytes) : ListOp → ListOut × List Bytes
  | .pushFront b => (.done, b :: xs)
  | .pushBack b => (.done, xs ++ [b])
  | .popFront => (.popped xs.head?, xs.tail)
  | .popBack => (.popped xs.getLast?, xs.dropLast)
  | .range start stop => (.elems (ranked start stop xs), xs)
  | .len => (.length xs.length, xs)

/-- The results on a sequence. -/
def onSeqAll : List ListOp → List Bytes → List ListOut
  | [], _ => []
  | op :: ops, xs => (op.onSeq xs).1 :: onSeqAll ops (op.onSeq xs).2

/-- A call does to a list what it does to the sequence the list stands for. -/
theorem run_repr {l : ListVal} {xs : List Bytes} (h : l.Repr xs) (op : ListOp) :
    ∃ l', op.run l = .ok ((op.onSeq xs).1, l') ∧ l'.Repr (op.onSeq xs).2 := by
  cases op with
  | pushFront b =>
    obtain ⟨l', he, hr⟩ := ListVal.pushFront_repr h b
    exact ⟨l', by rw [run, he]; rfl, hr⟩
  | pushBack b =>
    obtain ⟨l', he, hr⟩ := ListVal.pushBack_repr h b
    exact ⟨l', by rw [run, he]; rfl, hr⟩
  | popFront =>
    obtain ⟨l', he, hr⟩ := ListVal.popFront_spec h
    exact ⟨l', by rw [run, he]; rfl, hr⟩
  | popBack =>
    obtain ⟨l', he, hr⟩ := ListVal.popBack_spec h
    exact ⟨l', by rw [run, he]; rfl, hr⟩
  | range start stop =>
    refine ⟨l, ?_, h⟩
    rw [run, ListVal.range_repr h, rangeOf_eq_ranked]
    rfl
  | len => exact ⟨l, by rw [run, ListVal.len_repr h]; rfl, h⟩

theorem runAll_repr {l : ListVal} {xs : List Bytes} (h : l.Repr xs) (ops : List ListOp) :
    ∃ l', runAll ops l = .ok (onSeqAll ops xs, l') := by
  induction ops generalizing l xs with
  | nil => exact ⟨l, rfl⟩
  | cons op ops ih =>
    obtain ⟨l₁, hrun, hr⟩ := run_repr h op
    obtain ⟨l', hrest⟩ := ih hr
    refine ⟨l', ?_⟩
    rw [runAll, hrun]
    show (runAll ops l₁ >>= _) = _
    rw [hrest]
    rfl

end ListOp

/-- **A list behaves as a sequence whatever its encoding.** Under any thresholds, and so whenever it
is promoted, calls on a new list return what they return on the plain sequence; two lists with
different thresholds cannot be told apart. -/
theorem list_eq_sequence (max : Thresholds) (ops : List ListOp) :
    (ListOp.runAll ops (ListVal.new max)).map Prod.fst = .ok (ListOp.onSeqAll ops []) ∧
      ∀ max', (ListOp.runAll ops (ListVal.new max')).map Prod.fst
        = (ListOp.runAll ops (ListVal.new max)).map Prod.fst := by
  have hrun (max : Thresholds) : (ListOp.runAll ops (ListVal.new max)).map Prod.fst
      = .ok (ListOp.onSeqAll ops []) := by
    obtain ⟨l, hl⟩ := ListOp.runAll_repr (ListVal.new_repr max) ops
    rw [hl]
    rfl
  exact ⟨hrun max, fun max' => (hrun max').trans (hrun max).symm⟩

end Memcore
