import Memcore.Keyspace
import Memcore.Lib.Index

/-!
# The index of volatile keys

A keyspace keeps the keys that carry a deadline in `withTTL`, so that active expiry does not have to
look at every entry. The two maps are updated separately by every operation. In whatever order the
operations come, the index names every entry with a deadline and never a key without an entry
(`Keyspace.Indexed`); from that follows what a sweep of the whole index does.
-/

namespace Memcore

open Go

namespace Keyspace

/-- The operations that write to a keyspace, each with the clock reading it is called at. -/
inductive Op where
  | set (key : Bytes) (v : Value)
  | setEntry (key : Bytes) (e : Entry)
  | setExpire (now : Time) (key : Bytes) (at' : Time)
  | persist (now : Time) (key : Bytes)
  | delete (now : Time) (key : Bytes)
  | take (now : Time) (key : Bytes)
  | sampleExpired (ord : MapOrder) (now : Time) (limit : Int)
  | flush

/-- The keyspace after the operation. -/
def Op.apply (k : Keyspace) : Op → Keyspace
  | .set key v => k.set key v
  | .setEntry key e => k.setEntry key e
  | .setExpire now key at' => (k.setExpire now key at').2
  | .persist now key => (k.persist now key).2
  | .delete now key => (k.delete now key).2
  | .take now key => (k.take now key).2
  | .sampleExpired ord now limit => (k.sampleExpired ord now limit).2
  | .flush => k.flush

/-- The keyspace after a sequence of operations on a new one. -/
def after (ops : List Op) : Keyspace := ops.foldl Op.apply new

/-- The index names every entry with a deadline, and no key without an entry. -/
def Indexed (k : Keyspace) : Prop := Indexes Entry.hasExpiry k.withTTL k.entries

/-! ## One key of a sweep -/

/-- Is there an entry under `key` whose deadline has passed? -/
def due (k : Keyspace) (now : Time) (key : Bytes) : Bool :=
  (k.entries.lookup key).any fun e => e.expired now

/-- What the sweep does to the keyspace at `key`. -/
def visit (now : Time) (k : Keyspace) (key : Bytes) : Keyspace :=
  match k.entries.lookup key with
  | none => { k with withTTL := k.withTTL.erase key }
  | some e =>
    if !e.hasExpiry then { k with withTTL := k.withTTL.erase key }
    else if e.expired now then ⟨k.entries.erase key, k.withTTL.erase key⟩
    else k

theorem hasExpiry_of_expired {e : Entry} {now : Time} (h : e.expired now = true) :
    e.hasExpiry = true :=
  (Bool.and_eq_true_iff.mp h).1

/-- One turn of the loop. -/
theorem sampleLoop_cons (now : Time) (limit : Int) (key : Bytes) (keys : List Bytes)
    (examined evicted : Nat) (k : Keyspace) :
    sampleLoop now limit (key :: keys) (examined, evicted) k =
      if limit ≤ examined then ((examined, evicted), k)
      else sampleLoop now limit keys (examined + 1, evicted + (k.due now key).toNat)
        (k.visit now key) := by
  rw [sampleLoop]
  split
  next => rfl
  next =>
    unfold due visit
    cases k.entries.lookup key with
    | none => rfl
    | some e =>
      cases hexp : e.hasExpiry with
      | false => simp [hexp, Entry.expired]
      | true => cases hdue : e.expired now <;> simp [hexp, hdue]

theorem visit_lookup (k : Keyspace) (now : Time) (key key' : Bytes) :
    (k.visit now key).entries.lookup key' =
      if key' = key ∧ k.due now key = true then none else k.entries.lookup key' := by
  unfold visit due
  cases hl : k.entries.lookup key with
  | none => simp
  | some e =>
    cases hexp : e.hasExpiry with
    | false => simp [hexp, Entry.expired]
    | true => cases hdue : e.expired now <;> simp [hexp, hdue, lookup_erase_eq]

theorem Indexed.visit {k : Keyspace} (h : k.Indexed) (now : Time) (key : Bytes) :
    (k.visit now key).Indexed := by
  unfold Keyspace.visit
  split
  next hl => exact h.erase_key fun v hv => absurd (hl.symm.trans hv) (by simp)
  next e hl =>
    split
    next hexp =>
      refine h.erase_key fun v hv => ?_
      obtain rfl : e = v := Option.some.inj (hl.symm.trans hv)
      simpa using hexp
    next =>
      split
      next => exact h.erase key
      next => exact h

/-! ## The sweep -/

/-- The loop keeps the index, whatever the keys are that it is given. -/
theorem Indexed.sampleLoop (now : Time) (limit : Int) {keys : List Bytes} {acc : Nat × Nat}
    {k : Keyspace} (h : k.Indexed) : (Keyspace.sampleLoop now limit keys acc k).2.Indexed := by
  induction keys generalizing acc k with
  | nil => exact h
  | cons key keys ih =>
    obtain ⟨examined, evicted⟩ := acc
    rw [sampleLoop_cons]
    split
    next => exact h
    next => exact ih (h.visit now key)

/-- The loop stops at its limit. -/
theorem sampleLoop_examined (now : Time) {limit : Int} {keys : List Bytes} {examined evicted : Nat}
    {k : Keyspace} (h : (examined : Int) ≤ limit) :
    ((Keyspace.sampleLoop now limit keys (examined, evicted) k).1.1 : Int) ≤ limit := by
  induction keys generalizing examined evicted k with
  | nil => exact h
  | cons key keys ih =>
    rw [sampleLoop_cons]
    split
    next => exact h
    next hmore => exact ih (by omega)

/-- A loop whose limit is not reached takes out the due entries among its keys. -/
theorem sampleLoop_lookup (now : Time) {limit : Int} {keys : List Bytes} {examined evicted : Nat}
    {k : Keyspace} (h : (examined : Int) + keys.length ≤ limit) (key' : Bytes) :
    (Keyspace.sampleLoop now limit keys (examined, evicted) k).2.entries.lookup key' =
      if key' ∈ keys ∧ k.due now key' = true then none else k.entries.lookup key' := by
  induction keys generalizing examined evicted k with
  | nil => simp [Keyspace.sampleLoop]
  | cons key keys ih =>
    have hlen : (examined : Int) + (keys.length + 1) ≤ limit := by simpa using h
    rw [sampleLoop_cons, if_neg (by omega), ih (by push_cast; omega), visit_lookup]
    by_cases hkey : key' = key
    · -- taken out now if it is due; a second visit would find nothing
      subst hkey
      cases hdue : k.due now key' with
      | true => simp
      | false =>
        have hsame : (k.visit now key').due now key' = false := by
          rw [due, visit_lookup, if_neg (by simp [hdue])]
          exact hdue
        simp [hsame]
    · have hsame : (k.visit now key).due now key' = k.due now key' := by
        rw [due, visit_lookup, if_neg fun hc => hkey hc.1, ← due]
      simp [hkey, hsame]

/-- It counts them, when no key comes twice. -/
theorem sampleLoop_evicted (now : Time) {limit : Int} {keys : List Bytes} {examined evicted : Nat}
    {k : Keyspace} (h : (examined : Int) + keys.length ≤ limit) (hkeys : keys.Nodup) :
    (Keyspace.sampleLoop now limit keys (examined, evicted) k).1.2 =
      evicted + keys.countP (k.due now) := by
  induction keys generalizing examined evicted k with
  | nil => simp [Keyspace.sampleLoop]
  | cons key keys ih =>
    obtain ⟨hnot, hkeys⟩ := List.nodup_cons.mp hkeys
    have hlen : (examined : Int) + (keys.length + 1) ≤ limit := by simpa using h
    have hsame : keys.countP ((k.visit now key).due now) = keys.countP (k.due now) := by
      refine List.countP_congr fun key' hmem => ?_
      have hne : key' ≠ key := fun heq => hnot (heq ▸ hmem)
      rw [due, visit_lookup, if_neg fun hc => hne hc.1, ← due]
    rw [sampleLoop_cons, if_neg (by omega), ih (by push_cast; omega) hkeys, hsame,
      List.countP_cons]
    cases k.due now key with
    | false => simp
    | true => simp only [Bool.toNat_true, if_true]; omega

/-! ## Every operation keeps the index -/

theorem not_hasExpiry_zeroTime (v : Value) : Entry.hasExpiry ⟨v, zeroTime⟩ = false := rfl

theorem Indexed.setEntry {k : Keyspace} (h : k.Indexed) (key : Bytes) (e : Entry) :
    (k.setEntry key e).Indexed := by
  show Indexes _ (if e.hasExpiry then _ else _) _
  split
  next => exact h.insert_key key e
  next hexp => exact h.insert_erase_key key (Bool.eq_false_iff.mpr hexp)

/-- A deadline is attached to a live entry; the key is recorded even for the zero time, which is
no deadline. -/
theorem Indexed.setExpire {k : Keyspace} (h : k.Indexed) (now : Time) (key : Bytes) (at' : Time) :
    (k.setExpire now key at').2.Indexed := by
  unfold Keyspace.setExpire
  split
  next => exact h
  next e _ => exact h.insert_key key { e with expireAt := at' }

theorem Indexed.persist {k : Keyspace} (h : k.Indexed) (now : Time) (key : Bytes) :
    (k.persist now key).2.Indexed := by
  unfold Keyspace.persist
  split
  next => exact h
  next e _ =>
    split
    next => exact h
    next => exact h.insert_erase_key key (not_hasExpiry_zeroTime e.value)

theorem Indexed.delete {k : Keyspace} (h : k.Indexed) (now : Time) (key : Bytes) :
    (k.delete now key).2.Indexed := by
  unfold Keyspace.delete
  split
  next => exact h
  next => exact h.erase key

/-- **The step lemma**: one case for each operation. -/
theorem Indexed.apply {k : Keyspace} (h : k.Indexed) (op : Op) : (op.apply k).Indexed := by
  cases op with
  | set key v => exact h.insert_erase_key key (not_hasExpiry_zeroTime v)
  | setEntry key e => exact h.setEntry key e
  | setExpire now key at' => exact h.setExpire now key at'
  | persist now key => exact h.persist now key
  | delete now key => exact h.delete now key
  | take now key =>
    have htake : (k.take now key).2 = (k.delete now key).2 :=
      congrArg Prod.snd (k.take_eq_delete now key)
    show (k.take now key).2.Indexed
    rw [htake]
    exact h.delete now key
  | sampleExpired ord now limit => exact h.sampleLoop now limit
  | flush => exact Indexes.empty

/-- The run lemma. -/
theorem after_indexed (ops : List Op) : (after ops).Indexed := by
  suffices hrun : ∀ k : Keyspace, k.Indexed → (ops.foldl Op.apply k).Indexed from
    hrun new Indexes.empty
  induction ops with
  | nil => exact fun k hk => hk
  | cons op ops ih => exact fun k hk => ih (op.apply k) (hk.apply op)

/-! ## A sweep of the whole index -/

section Sweep

variable {k : Keyspace} (h : k.Indexed) (ord : MapOrder) (now : Time)
include h

theorem Indexed.mem_of_due {key : Bytes} (hdue : k.due now key = true) : key ∈ k.withTTL := by
  obtain ⟨e, hl, hexp⟩ := (Option.any_eq_true _ _).mp hdue
  exact h.complete key e hl (hasExpiry_of_expired hexp)

theorem Indexed.sampleExpired_lookup {limit : Int} (hlimit : (k.withTTL.card : Int) ≤ limit)
    (key : Bytes) : (k.sampleExpired ord now limit).2.entries.lookup key =
      if k.due now key = true then none else k.entries.lookup key := by
  have hlen : (ord.keys k.withTTL).length = k.withTTL.card := ord.length_keys _
  unfold sampleExpired
  rw [sampleLoop_lookup now (by rw [hlen]; simpa using hlimit)]
  by_cases hdue : k.due now key = true
  · have hmem : key ∈ ord.keys k.withTTL := (ord.mem _ _).mpr (h.mem_of_due now hdue)
    rw [if_pos ⟨hmem, hdue⟩, if_pos hdue]
  · rw [if_neg fun hc => hdue hc.2, if_neg hdue]

theorem Indexed.sampleExpired_evicted {limit : Int} (hlimit : (k.withTTL.card : Int) ≤ limit) :
    (k.sampleExpired ord now limit).1.2 = (k.entries.keys.filter fun key => k.due now key).card := by
  have hlen : (ord.keys k.withTTL).length = k.withTTL.card := ord.length_keys _
  unfold sampleExpired
  rw [sampleLoop_evicted now (by rw [hlen]; simpa using hlimit) (ord.nodup _), Nat.zero_add,
    List.countP_eq_length_filter, ← List.toFinset_card_of_nodup ((ord.nodup _).filter _)]
  congr 1
  ext key
  rw [List.mem_toFinset, List.mem_filter, ord.mem, Finset.mem_filter, Finmap.mem_keys]
  constructor
  · rintro ⟨hmem, hdue⟩
    obtain ⟨e, hl⟩ := h.present key hmem
    exact ⟨Finmap.mem_of_lookup_eq_some hl, hdue⟩
  · rintro ⟨-, hdue⟩
    exact ⟨h.mem_of_due now hdue, hdue⟩

end Sweep

/-- **The index of volatile keys is complete and never dangles**, in every keyspace the operations
can lead to. So a sweep that may examine the whole index takes out exactly the entries that are due,
leaves every other one as it is and reports how many it took out; and no sweep examines more keys
than it may. -/
theorem after_sampleExpired_exact (ops : List Op) :
    (∀ key ∈ (after ops).withTTL, ∃ e, (after ops).entries.lookup key = some e) ∧
    (∀ key e, (after ops).entries.lookup key = some e → e.hasExpiry = true →
      key ∈ (after ops).withTTL) ∧
    ∀ (ord : MapOrder) (now : Time) (limit : Int),
      (((after ops).withTTL.card : Int) ≤ limit →
        (∀ key, ((after ops).sampleExpired ord now limit).2.entries.lookup key =
          if (after ops).due now key = true then none else (after ops).entries.lookup key) ∧
        ((after ops).sampleExpired ord now limit).1.2 =
          ((after ops).entries.keys.filter fun key => (after ops).due now key).card) ∧
      (0 ≤ limit → (((after ops).sampleExpired ord now limit).1.1 : Int) ≤ limit) := by
  have h := after_indexed ops
  refine ⟨h.present, h.complete, fun ord now limit => ⟨fun hlimit => ⟨?_, ?_⟩, ?_⟩⟩
  · exact h.sampleExpired_lookup ord now hlimit
  · exact h.sampleExpired_evicted ord now hlimit
  · intro hlimit
    exact sampleLoop_examined now hlimit

/-- Two keys with deadlines, one of them past: a sweep of both takes out that one. -/
theorem after_sampleExpired_exact_two :
    ((after [.setEntry (ascii "a") ⟨.str (ascii "x"), 5⟩,
        .setEntry (ascii "b") ⟨.str (ascii "y"), 9⟩]).sampleExpired default 7 2).1.2 = 1 := by
  rw [(((after_sampleExpired_exact [.setEntry (ascii "a") ⟨.str (ascii "x"), 5⟩,
    .setEntry (ascii "b") ⟨.str (ascii "y"), 9⟩]).2.2 default 7 2).1 (by decide +kernel)).2]
  decide +kernel

end Keyspace

end Memcore
