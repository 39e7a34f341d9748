import Memcore.Command.Effect

/-!
# How fast collections grow

A request adds at most one element to a collection for each of its arguments. So the sizes that the
server counts and announces are bounded by what clients have sent it (`effect_size`).
-/

namespace Memcore

open Go

/-! ## Operations -/

/-- How many elements an operation may add. -/
def ValueOp.adds : ValueOp → Nat
  | .push _ xs | .hset xs | .sadd xs => xs.length
  | .zadd pairs => pairs.length
  | .incr _ | .pop _ _ | .hdel _ | .srem _ => 0

/-- A loop that grows what it builds by at most one in each round. -/
theorem foldl_growth {α β : Type} {f : α → β → α} {size : α → Nat}
    (hf : ∀ a b, size (f a b) ≤ size a + 1) :
    ∀ (bs : List β) (a : α), size (bs.foldl f a) ≤ size a + bs.length
  | [], a => le_rfl
  | b :: bs, a => by
      have hstep := hf a b
      have hrest := foldl_growth hf bs (f a b)
      rw [List.foldl_cons, List.length_cons]
      omega

/-- A loop that never grows what it takes from. -/
theorem foldl_shrink {α β : Type} {f : α → β → α} {size : α → Nat}
    (hf : ∀ a b, size (f a b) ≤ size a) :
    ∀ (bs : List β) (a : α), size (bs.foldl f a) ≤ size a
  | [], _ => le_rfl
  | b :: bs, a => (foldl_shrink hf bs (f a b)).trans (hf a b)

theorem popped_length (front : Bool) (count : Nat) (l : List Bytes) :
    (popped front count l).length ≤ l.length := by
  unfold popped
  split <;> simp

theorem insert_keys_card (m : GoMap Bytes) (f v : Bytes) :
    (m.insert f v).keys.card ≤ m.keys.card + 1 := by
  have hkeys : (m.insert f v).keys = insert f m.keys := by
    ext k
    rw [mem_insert_keys, Finset.mem_insert]
  rw [hkeys]
  exact Finset.card_insert_le f m.keys

theorem fieldsSet_card : ∀ (pairs : List Bytes) (m : GoMap Bytes),
    (fieldsSet pairs m).keys.card ≤ m.keys.card + pairs.length
  | [], m | [_], m => by simp [fieldsSet]
  | f :: v :: rest, m => by
      have hstep := insert_keys_card m f v
      have hrest := fieldsSet_card rest (m.insert f v)
      rw [fieldsSet, List.length_cons, List.length_cons]
      omega

theorem zput_length (max : Thresholds) (es : List ZMember) (e : ZMember) :
    (zput max e es).length ≤ es.length + 1 := by
  have hput (fs : List ZMember) (hfs : fs.length ≤ es.length) :
      (zinsert e fs).length ≤ es.length + 1 := by
    rw [(zinsert_perm e fs).length_eq, List.length_cons]
    omega
  have herase : (zerase e.member es).length ≤ es.length := List.length_filter_le _ _
  unfold zput zputFull
  split
  · split
    · exact hput es le_rfl
    · split
      · omega
      · exact hput _ herase
  · exact hput _ herase

theorem nonEmpty_size {v v' : AVal} {k : Nat} (hk : v.size ≤ k) (h : v.nonEmpty = some v') :
    v'.size ≤ k := by
  unfold AVal.nonEmpty at h
  split at h <;> cases h
  exact hk

theorem create_size {lim : Limits} {op : ValueOp} {v : AVal} (h : op.create lim = some v) :
    v.size ≤ op.adds := by
  cases op with
  | incr delta =>
    obtain ⟨k, -, rfl⟩ := Option.map_eq_some_iff.mp h
    exact le_rfl
  | push front xs =>
    cases h
    exact (pushed_length front xs []).le.trans (by simp [ValueOp.adds])
  | hset pairs =>
    cases h
    exact (fieldsSet_card pairs ∅).trans (by simp [ValueOp.adds])
  | sadd xs =>
    cases h
    exact (foldl_growth (fun m x => Finset.card_insert_le x m) xs ∅).trans (by simp [ValueOp.adds])
  | zadd pairs =>
    cases h
    exact (foldl_growth (zput_length lim.zset) pairs []).trans (by simp [ValueOp.adds])
  | pop _ _ | hdel _ | srem _ => cases h

theorem update_size {lim : Limits} {op : ValueOp} {v v' : AVal} (h : op.update lim v = some v') :
    v'.size ≤ v.size + op.adds := by
  let card (m : GoMap Bytes) : Nat := m.keys.card
  have herase (m : GoMap Bytes) (f : Bytes) : card (m.erase f) ≤ card m := by
    change (m.erase f).keys.card ≤ m.keys.card
    rw [Finmap.keys_erase]
    exact Finset.card_erase_le
  unfold ValueOp.update at h
  split at h
  next =>
    cases h
    exact Nat.zero_le _
  next front xs l =>
    cases h
    exact (pushed_length front xs l).le
  next front count l =>
    exact nonEmpty_size (v := .list (popped front count l)) (popped_length front count l) h
  next pairs m =>
    cases h
    exact fieldsSet_card pairs m
  next fields m =>
    have hdel : card (fields.foldl (fun m f => m.erase f) m) ≤ card m := foldl_shrink herase fields m
    exact nonEmpty_size (v := .hash _) hdel h
  next xs m =>
    cases h
    exact foldl_growth (fun m x => Finset.card_insert_le x m) xs m
  next xs m =>
    exact nonEmpty_size (v := .set _) (foldl_shrink (fun _ _ => Finset.card_erase_le) xs m) h
  next pairs es =>
    cases h
    exact foldl_growth (zput_length lim.zset) pairs es
  next =>
    cases h
    exact Nat.le_add_right _ _

/-- How many elements an operation on a key may add. -/
def KeyOp.adds : KeyOp → Nat
  | .modify op => op.adds
  | .put _ | .remove | .expireAt _ | .expireIn _ | .persist => 0

theorem apply_size {now : Time} {lim : Limits} {op : KeyOp} {o : Option AEntry} {k : Nat}
    (ho : ∀ e, o = some e → e.value.size ≤ k) {e : AEntry} (h : op.apply now lim o = some e) :
    e.value.size ≤ k + op.adds := by
  have hlive (e : AEntry) (he : liveAt now o = some e) : e.value.size ≤ k :=
    ho e (liveAt_eq_some he).1
  unfold KeyOp.apply at h
  split at h
  next =>
    cases h
    exact Nat.zero_le _
  next => cases h
  iterate 3
    next e' he =>
      cases h
      exact (hlive e' he).trans (Nat.le_add_right _ _)
  next op e' he =>
    obtain ⟨v, hv, rfl⟩ := Option.map_eq_some_iff.mp h
    exact (update_size hv).trans (Nat.add_le_add_right (hlive e' he) _)
  next op he =>
    cases hv : op.create lim with
    | none =>
      rw [hv] at h
      exact (ho e h).trans (Nat.le_add_right _ _)
    | some v =>
      rw [hv] at h
      cases h
      exact (create_size hv).trans (Nat.le_add_left _ _)
  next => exact (ho e h).trans (Nat.le_add_right _ _)

/-! ## Requests -/

theorem parsePairs_length {host : Host} : ∀ (rest : List Bytes) {acc pairs : List ZMember},
    parsePairs host rest acc = some pairs → pairs.length ≤ acc.length + rest.length
  | [], _, _, h | [_], _, _, h => by
      cases h
      simp
  | score :: member :: rest, acc, pairs, h => by
      rw [parsePairs] at h
      split at h
      next => cases h
      next s _ =>
        split at h
        next => cases h
        next =>
          have hrest := parsePairs_length rest h
          simp only [List.length_append, List.length_cons, List.length_nil] at hrest ⊢
          omega

theorem parse_adds {host : Host} {name : Bytes} {rest : List Bytes} :
    ∀ op ∈ KeyOp.parse host name rest, op.adds ≤ rest.length := by
  intro op h
  cases KeyOp.parse_parsed h with
  | push | hset | sadd => exact le_rfl
  | zadd _ hps => exact (parsePairs_length rest hps).trans (by simp)
  | set | count | expire | pexpireat | persist | pop | hdel | srem => exact Nat.zero_le _

theorem opAt_adds {n m : Nat} {host : Host} {cmd : Command n m} {args : List Bytes} {key : Bytes} :
    ∀ op ∈ cmd.opAt host args key, op.adds ≤ args.length := by
  intro op h
  unfold Command.opAt at h
  split at h
  next =>
    cases h
    exact Nat.zero_le _
  next =>
    split at h
    next =>
      split at h <;> cases h
      exact Nat.zero_le _
    next =>
      split at h
      next name key' rest =>
        split at h
        next =>
          have hparse := parse_adds op h
          simp only [List.length_cons]
          omega
        next => cases h
      next => cases h

/-- No stored collection has more than `k` elements. -/
def ADB.Sized (k : Nat) (a : ADB) : Prop := ∀ key e, a key = some e → e.value.size ≤ k

/-- **A request adds at most an element for each argument.** -/
theorem effect_size {n m : Nat} {now : Time} {lim : Limits} {host : Host} {cmd : Command n m}
    {args : List Bytes} {a : ADB} {k : Nat} (ha : a.Sized k) :
    (cmd.effect now lim host args a).Sized (k + args.length) := by
  intro key e he
  unfold Command.effect at he
  split at he
  next => exact (ha key e he).trans (Nat.le_add_right _ _)
  next op hop =>
    have hgrow := apply_size (ha key) he
    have hadds := opAt_adds op hop
    omega

end Memcore
