import Memcore.Command.Replies

/-!
# SINTER and the order of its keys

SINTER looks its keys up from left to right and ends at the first that holds no set: with an empty
array when the key is absent, with an error when it holds another type. So an absent key hides a
wrong type behind it, and the reply can depend on the order of the keys. It is the intersection,
whatever the order, whenever the keys are not of both sorts.
-/

namespace Memcore

open Go Prog Cmd

/-! ## What the keys hold -/

section Keys

variable (now : Time) (a : ADB)

/-- Nothing is live under the key. -/
def Absent (key : Bytes) : Prop := liveAt now (a key) = none

/-- The key is live and holds no set. -/
def Mistyped (key : Bytes) : Prop := ∃ e, liveAt now (a key) = some e ∧ e.value.set? = none

/-- The key is live and holds the set `s`. -/
def HoldsSet (key : Bytes) (s : Finset Bytes) : Prop :=
  ∃ e, liveAt now (a key) = some e ∧ e.value.set? = some s

/-- The reply is the intersection: an error when a key holds another type, and otherwise the members
that belong to every set, each once. Nothing belongs to an absent set. -/
def Intersects (keys : List Bytes) (r : Reply) : Prop :=
  ((∃ key ∈ keys, Mistyped now a key) → r = .error msgWrongType) ∧
  ((∀ key ∈ keys, ¬ Mistyped now a key) → ∃ xs : List Bytes, xs.Nodup ∧
    r = .array (xs.map .bulk) ∧ ∀ x, x ∈ xs ↔ ∀ key ∈ keys, ∃ s, HoldsSet now a key s ∧ x ∈ s)

/-- The first key that holds no set is absent, and one behind it holds another type. -/
def Hidden (keys : List Bytes) : Prop :=
  ∃ front key back, keys = front ++ key :: back ∧ (∀ k ∈ front, ∃ s, HoldsSet now a k s) ∧
    Absent now a key ∧ ∃ k ∈ back, Mistyped now a k

end Keys

variable {now : Time} {a : ADB} {key : Bytes} {keys keys' : List Bytes}

theorem HoldsSet.not_mistyped {s : Finset Bytes} (h : HoldsSet now a key s) :
    ¬ Mistyped now a key := by
  rintro ⟨e', hlive', hset'⟩
  obtain ⟨e, hlive, hset⟩ := h
  obtain rfl : e = e' := Option.some.inj (hlive.symm.trans hlive')
  cases hset.symm.trans hset'

theorem HoldsSet.not_absent {s : Finset Bytes} (h : HoldsSet now a key s) : ¬ Absent now a key := by
  intro habsent
  obtain ⟨e, hlive, -⟩ := h
  cases habsent.symm.trans hlive

theorem Mistyped.not_absent (h : Mistyped now a key) : ¬ Absent now a key := by
  intro habsent
  obtain ⟨e, hlive, -⟩ := h
  cases habsent.symm.trans hlive

theorem HoldsSet.unique {s t : Finset Bytes} (h : HoldsSet now a key s)
    (h' : HoldsSet now a key t) : s = t := by
  obtain ⟨e, hlive, hset⟩ := h
  obtain ⟨e', hlive', hset'⟩ := h'
  obtain rfl : e = e' := Option.some.inj (hlive.symm.trans hlive')
  exact Option.some.inj (hset.symm.trans hset')

/-- Which keys are listed is all that counts. -/
theorem Intersects.congr {r : Reply} (h : Intersects now a keys r)
    (hkeys : ∀ k, k ∈ keys' ↔ k ∈ keys) : Intersects now a keys' r := by
  unfold Intersects at *
  simp only [hkeys]
  exact h

/-! ## The first loop -/

/-- The loop over the keys finds a set under each, or ends at the first that holds none. -/
theorem sets_cases (now : Time) (a : ADB) (keys : List Bytes) :
    (∃ ss, Answer.sets now a keys = .ok ss ∧ List.Forall₂ (HoldsSet now a) keys ss) ∨
    ∃ front key back, keys = front ++ key :: back ∧ (∀ k ∈ front, ∃ s, HoldsSet now a k s) ∧
      (Absent now a key ∧ Answer.sets now a keys = .error (.exact (.array [])) ∨
        Mistyped now a key ∧ Answer.sets now a keys = .error .wrongType) := by
  induction keys with
  | nil => exact .inl ⟨[], rfl, .nil⟩
  | cons key keys ih =>
    rw [Answer.sets]
    cases hlive : liveAt now (a key) with
    | none => exact .inr ⟨[], key, keys, rfl, List.forall_mem_nil _, .inl ⟨hlive, rfl⟩⟩
    | some e =>
      cases hset : e.value.set? with
      | none =>
        refine .inr ⟨[], key, keys, rfl, List.forall_mem_nil _, .inr ⟨⟨e, hlive, hset⟩, ?_⟩⟩
        simp only [hset]
      | some s =>
        have hkey : HoldsSet now a key s := ⟨e, hlive, hset⟩
        simp only [hset]
        rcases ih with ⟨ss, hss, hall⟩ | ⟨front, key', back, rfl, hfront, hend⟩
        · exact .inl ⟨s :: ss, by rw [hss]; rfl, .cons hkey hall⟩
        · refine .inr ⟨key :: front, key', back, rfl, ?_, ?_⟩
          · exact List.forall_mem_cons.mpr ⟨⟨s, hkey⟩, hfront⟩
          · rcases hend with ⟨habsent, hsets⟩ | ⟨hbad, hsets⟩
            · exact .inl ⟨habsent, by rw [hsets]; rfl⟩
            · exact .inr ⟨hbad, by rw [hsets]; rfl⟩

theorem holdsSet_of_forall₂ {ss : List (Finset Bytes)}
    (hall : List.Forall₂ (HoldsSet now a) keys ss) : ∀ k ∈ keys, ∃ s, HoldsSet now a k s := by
  induction hall with
  | nil => exact List.forall_mem_nil _
  | cons hk _ ih => exact List.forall_mem_cons.mpr ⟨⟨_, hk⟩, ih⟩

/-- What the sets of the keys have in common. -/
theorem mem_inter_iff {ss : List (Finset Bytes)} (hall : List.Forall₂ (HoldsSet now a) keys ss)
    (hne : keys ≠ []) (x : Bytes) :
    x ∈ Answer.inter ss ↔ ∀ key ∈ keys, ∃ s, HoldsSet now a key s ∧ x ∈ s := by
  have hevery : (∀ s ∈ ss, x ∈ s) ↔ ∀ key ∈ keys, ∃ s, HoldsSet now a key s ∧ x ∈ s := by
    clear hne
    induction hall with
    | nil => simp
    | @cons key s keys ss hkey _ ih =>
      rw [List.forall_mem_cons, List.forall_mem_cons, ih]
      refine and_congr_left fun _ => ⟨fun hx => ⟨s, hkey, hx⟩, ?_⟩
      rintro ⟨t, ht, hx⟩
      exact hkey.unique ht ▸ hx
  cases hall with
  | nil => exact absurd rfl hne
  | cons hkey hrest => rw [mem_inter_cons, hevery]

/-! ## The reply -/

/-- A split of the keys at the first that is absent makes it the hidden case when a wrong type is
listed at all. -/
theorem hidden_of_absent {front back : List Bytes} (hfront : ∀ k ∈ front, ∃ s, HoldsSet now a k s)
    (hkey : Absent now a key) (hbad : ∃ k ∈ front ++ key :: back, Mistyped now a k) :
    Hidden now a (front ++ key :: back) := by
  obtain ⟨k, hk, hmis⟩ := hbad
  refine ⟨front, key, back, rfl, hfront, hkey, k, ?_, hmis⟩
  rcases List.mem_append.mp hk with hf | hr
  · obtain ⟨s, hs⟩ := hfront k hf
    exact absurd hmis hs.not_mistyped
  · rcases List.mem_cons.mp hr with rfl | hb
    · exact absurd hkey hmis.not_absent
    · exact hb

/-- The split at the first key that holds no set is unique, so a wrong type there is not hidden. -/
theorem not_hidden_of_mistyped {front back : List Bytes}
    (hfront : ∀ k ∈ front, ∃ s, HoldsSet now a k s) (hkey : Mistyped now a key) :
    ¬ Hidden now a (front ++ key :: back) := by
  rintro ⟨front', key', back', heq, hfront', habsent, -⟩
  -- the keys before each split hold sets, so the two splits are at one place
  induction front generalizing front' with
  | nil =>
    cases front' with
    | nil =>
      rw [List.nil_append, List.nil_append, List.cons.injEq] at heq
      exact hkey.not_absent (heq.1 ▸ habsent)
    | cons k front' =>
      rw [List.nil_append, List.cons_append, List.cons.injEq] at heq
      obtain ⟨s, hs⟩ := hfront' k List.mem_cons_self
      exact hs.not_mistyped (heq.1 ▸ hkey)
  | cons k front ih =>
    obtain ⟨⟨s, hs⟩, hfront⟩ := List.forall_mem_cons.mp hfront
    cases front' with
    | nil =>
      rw [List.nil_append, List.cons_append, List.cons.injEq] at heq
      exact hs.not_absent (heq.1 ▸ habsent)
    | cons k' front' =>
      rw [List.cons_append, List.cons_append, List.cons.injEq] at heq
      exact ih hfront front' heq.2 (List.forall_mem_cons.mp hfront').2

/-- Two replies that differ at most in the order of an array. -/
def Reply.SameUpToOrder (r r' : Reply) : Prop :=
  r = r' ∨ ∃ xs ys, r = .array xs ∧ r' = .array ys ∧ xs.Perm ys

/-- The intersection of the keys is one reply up to its order. -/
theorem Intersects.sameUpToOrder {r r' : Reply} (h : Intersects now a keys r)
    (h' : Intersects now a keys r') : r.SameUpToOrder r' := by
  by_cases hbad : ∃ key ∈ keys, Mistyped now a key
  · exact .inl ((h.1 hbad).trans (h'.1 hbad).symm)
  · have hnone : ∀ key ∈ keys, ¬ Mistyped now a key := fun key hk hm => hbad ⟨key, hk, hm⟩
    obtain ⟨xs, hxs, rfl, hmem⟩ := h.2 hnone
    obtain ⟨ys, hys, rfl, hmem'⟩ := h'.2 hnone
    have hperm : xs.Perm ys :=
      (List.perm_ext_iff_of_nodup hxs hys).mpr fun x => (hmem x).trans (hmem' x).symm
    exact .inr ⟨_, _, rfl, rfl, hperm.map Reply.bulk⟩

section Run

variable {n m : Nat} {env : Env m} {c : Context n m}

/-- The reply is the intersection exactly when no absent key hides a wrong type. -/
theorem cmdSInter_intersects (h : c.Shows env a) (name : Bytes) (hne : keys ≠ []) :
    ∃ r, (cmdSInter env (name :: keys) c).1 = .ok r ∧
      (Intersects env.now a keys r ↔ ¬ Hidden env.now a keys) := by
  obtain ⟨key, rest, rfl⟩ := List.exists_cons_of_ne_nil hne
  obtain ⟨r, hrun, hshows⟩ : Answers (cmdSInter env (name :: key :: rest)) c _ :=
    cmdSInter_answers h key rest
  refine ⟨r, hrun, ?_⟩
  -- the keys are read in order, up to the first that holds no set
  rcases sets_cases env.now a (key :: rest) with ⟨ss, hss, hall⟩ | ⟨front, k, back, heq, hfront, hend⟩
  · -- every key holds a set
    rw [hss] at hshows
    obtain ⟨xs, hnodup, hset, rfl⟩ := hshows
    have hholds := holdsSet_of_forall₂ hall
    refine iff_of_true ⟨?_, fun _ => ⟨xs, hnodup, rfl, fun x => ?_⟩⟩ ?_
    · rintro ⟨k, hk, hmis⟩
      obtain ⟨s, hs⟩ := hholds k hk
      exact absurd hmis hs.not_mistyped
    · rw [← mem_inter_iff hall hne, ← hset, List.mem_toFinset]
    · rintro ⟨front, k, back, heq, -, habsent, -⟩
      obtain ⟨s, hs⟩ := hholds k (by rw [heq]; simp)
      exact hs.not_absent habsent
  · rw [heq]
    rcases hend with ⟨habsent, hsets⟩ | ⟨hmis, hsets⟩
    · -- the first key without a set is absent: right unless it hides a wrong type
      rw [hsets] at hshows
      obtain rfl : r = .array [] := hshows
      constructor
      · rintro hint ⟨front', k', back', heq', -, -, w, hw, hmis⟩
        have hmem : w ∈ front ++ k :: back := by rw [heq']; simp [hw]
        cases hint.1 ⟨w, hmem, hmis⟩
      · intro hnot
        refine ⟨fun hbad => absurd (hidden_of_absent hfront habsent hbad) hnot, fun _ => ?_⟩
        refine ⟨[], List.nodup_nil, rfl, fun x => iff_of_false (List.not_mem_nil) ?_⟩
        intro hall
        obtain ⟨s, hs, -⟩ := hall k (by simp)
        exact hs.not_absent habsent
    · rw [hsets] at hshows
      obtain rfl : r = .error msgWrongType := hshows
      refine iff_of_true ⟨fun _ => rfl, fun hall => ?_⟩ (not_hidden_of_mistyped hfront hmis)
      exact absurd hmis (hall k (by simp))

/-- **When SINTER is the intersection.** For keys as they are listed: exactly when no absent key
hides a wrong type. And when the keys are not of both sorts, any other list of the same keys, in
another order or with repetitions, gets the same reply up to the order of its array. -/
theorem cmdSInter_intersects_iff (h : c.Shows env a) (name : Bytes) (hne : keys ≠ []) :
    ∃ r, (cmdSInter env (name :: keys) c).1 = .ok r ∧
      (Intersects env.now a keys r ↔ ¬ Hidden env.now a keys) ∧
      ((¬ ∃ key ∈ keys, Absent env.now a key) ∨ (¬ ∃ key ∈ keys, Mistyped env.now a key) →
        ∀ keys' : List Bytes, (∀ k, k ∈ keys' ↔ k ∈ keys) →
          ∃ r', (cmdSInter env (name :: keys') c).1 = .ok r' ∧ Intersects env.now a keys r' ∧
            r.SameUpToOrder r') := by
  obtain ⟨r, hrun, hiff⟩ := cmdSInter_intersects h name hne
  refine ⟨r, hrun, hiff, fun hsort keys' hkeys => ?_⟩
  have hplain (ks : List Bytes) (hks : ∀ k, k ∈ ks ↔ k ∈ keys) : ¬ Hidden env.now a ks := by
    rintro ⟨front, k, back, rfl, -, habsent, w, hw, hmis⟩
    rcases hsort with hno | hno
    · exact hno ⟨k, (hks k).mp (by simp), habsent⟩
    · exact hno ⟨w, (hks w).mp (by simp [hw]), hmis⟩
  have hne' : keys' ≠ [] := by
    rintro rfl
    obtain ⟨k, rest, rfl⟩ := List.exists_cons_of_ne_nil hne
    exact absurd ((hkeys k).mpr List.mem_cons_self) List.not_mem_nil
  obtain ⟨r', hrun', hiff'⟩ := cmdSInter_intersects h name hne'
  have hint' := (hiff'.mpr (hplain keys' hkeys)).congr fun k => (hkeys k).symm
  exact ⟨r', hrun', hint', (hiff.mpr (hplain keys fun _ => Iff.rfl)).sameUpToOrder hint'⟩

end Run

/-- A session with a string under one key and a set under another. -/
def twoSorts : Context 1 1 :=
  ⟨fun _ _ => (Keyspace.new.set (ascii "k") (.str (ascii "v"))).set (ascii "s")
    (.set ⟨[], 0, some {ascii "x"}, ⟨0, 0⟩⟩), none, 0, fun _ => 0⟩

/-- An absent key before a string: the array is empty. The other way round: an error. -/
theorem cmdSInter_order :
    (cmdSInter (Env.single 0) [ascii "SINTER", ascii "none", ascii "k"] twoSorts).1
      = .ok (.array []) ∧
    (cmdSInter (Env.single 0) [ascii "SINTER", ascii "k", ascii "none"] twoSorts).1
      = .ok (.error msgWrongType) :=
  ⟨rfl, rfl⟩

/-- What it stands for. -/
def twoSortsDB : ADB :=
  Function.update (Function.update (fun _ => none) (ascii "k") (some ⟨.str (ascii "v"), zeroTime⟩))
    (ascii "s") (some ⟨.set {ascii "x"}, zeroTime⟩)

theorem twoSorts_shows : twoSorts.Shows (Env.single 0) twoSortsDB := by
  intro i
  have hpart : shardPart (Env.single 0).route twoSortsDB i = twoSortsDB := by
    funext key
    exact if_pos (Subsingleton.elim _ _)
  have hstr : (Value.str (ascii "v")).Repr (.str (ascii "v")) := rfl
  have hset : (Value.set ⟨[], 0, some {ascii "x"}, ⟨0, 0⟩⟩).Repr (.set {ascii "x"}) :=
    ⟨rfl, rfl, rfl⟩
  rw [hpart]
  exact (Keyspace.new_repr.set (ascii "k") hstr trivial).set (ascii "s") hset trivial

/-- A set and an absent key, in either order. -/
theorem cmdSInter_intersects_iff_absent : ∃ r r',
    (cmdSInter (Env.single 0) [ascii "SINTER", ascii "s", ascii "none"] twoSorts).1 = .ok r ∧
    (cmdSInter (Env.single 0) [ascii "SINTER", ascii "none", ascii "s"] twoSorts).1 = .ok r' ∧
    r.SameUpToOrder r' := by
  obtain ⟨r, hrun, -, hsame⟩ := cmdSInter_intersects_iff twoSorts_shows (ascii "SINTER")
    (List.cons_ne_nil (ascii "s") [ascii "none"])
  have hnone : ¬ ∃ key ∈ [ascii "s", ascii "none"], Mistyped 0 twoSortsDB key := by
    rintro ⟨key, hkey, e, hlive, hset⟩
    rcases List.mem_cons.mp hkey with rfl | hkey
    · cases hlive
      cases hset
    · obtain rfl := List.mem_singleton.mp hkey
      cases hlive
  obtain ⟨r', hrun', -, hboth⟩ := hsame (.inr hnone) [ascii "none", ascii "s"] (by simp [or_comm])
  exact ⟨r, r', hrun, hrun', hboth⟩

end Memcore
