import Memcore.Command.Growth

/-!
# What a request leaves stored

Three facts about the effect of a request, whatever is stored before it:

* no collection is stored without an element (`effect_filled`): a command that creates one brings an
  element, and one that drains one takes the key out;
* a deadline is set by EXPIRE and PEXPIREAT, and cleared by PERSIST and SET; a live key that stays
  live keeps its deadline otherwise, and a key that comes alive has none (`effect_deadline`);
* entries that are hidden from a reader are hidden from the request as well (`effect_sameFrom`).
-/

namespace Memcore

open Go

/-! ## Collections have elements -/

/-- A value that may be stored: a string, or a collection with an element. -/
def AVal.Filled (v : AVal) : Prop := v.kind = .string ∨ 0 < v.size

/-- No collection is stored without an element. -/
def ADB.Filled (a : ADB) : Prop := ∀ key e, a key = some e → e.value.Filled

/-- An operation that can create a collection brings an element to it. -/
def ValueOp.Brings : ValueOp → Prop
  | .push _ xs | .sadd xs => xs ≠ []
  | .hset pairs => 2 ≤ pairs.length
  | .zadd pairs => pairs ≠ []
  | .incr _ | .pop _ _ | .hdel _ | .srem _ => True

/-- The operation on a key brings an element where it can create a collection. -/
def KeyOp.Brings : KeyOp → Prop
  | .modify op => op.Brings
  | .put _ | .remove | .expireAt _ | .expireIn _ | .persist => True

/-- A loop whose every round leaves something. -/
theorem foldl_pos {α β : Type} {f : α → β → α} {size : α → Nat} (hf : ∀ a b, 0 < size (f a b)) :
    ∀ (bs : List β) (a : α), bs ≠ [] ∨ 0 < size a → 0 < size (bs.foldl f a)
  | [], _, h => h.resolve_left fun hne => hne rfl
  | b :: bs, a, _ => foldl_pos hf bs (f a b) (.inr (hf a b))

theorem insert_keys_pos (m : GoMap Bytes) (f v : Bytes) : 0 < (m.insert f v).keys.card := by
  apply Finset.card_pos.mpr
  exact ⟨f, (mem_insert_keys m f f v).mpr (.inl rfl)⟩

theorem fieldsSet_pos : ∀ (pairs : List Bytes) (m : GoMap Bytes),
    2 ≤ pairs.length ∨ 0 < m.keys.card → 0 < (fieldsSet pairs m).keys.card
  | [], m, h | [_], m, h => by simpa [fieldsSet] using h
  | f :: v :: rest, m, _ => fieldsSet_pos rest (m.insert f v) (.inr (insert_keys_pos m f v))

/-- A sorted set that has been given a score is not empty: where it stays as it is, it has the
member already. -/
theorem zput_pos (max : Thresholds) (es : List ZMember) (e : ZMember) :
    0 < (zput max e es).length := by
  have hput (fs : List ZMember) : 0 < (zinsert e fs).length := by
    rw [(zinsert_perm e fs).length_eq]
    exact Nat.succ_pos _
  unfold zput zputFull
  split
  · split
    next => exact hput es
    next old hold =>
      split
      · apply List.length_pos_iff.mpr
        intro hnil
        rw [hnil] at hold
        cases hold
      · exact hput _
  · exact hput _

theorem nonEmpty_filled {v v' : AVal} (h : v.nonEmpty = some v') : v'.Filled := by
  unfold AVal.nonEmpty at h
  split at h
  next => cases h
  next hne =>
    cases h
    exact .inr (Nat.pos_of_ne_zero hne)

theorem create_filled {lim : Limits} {op : ValueOp} (hop : op.Brings) {v : AVal}
    (h : op.create lim = some v) : v.Filled := by
  cases op with
  | incr delta =>
    obtain ⟨k, -, rfl⟩ := Option.map_eq_some_iff.mp h
    exact .inl rfl
  | push front xs =>
    cases h
    refine .inr ?_
    rw [AVal.size, pushed_length]
    exact Nat.add_pos_right _ (List.length_pos_iff.mpr hop)
  | hset pairs =>
    cases h
    exact .inr (fieldsSet_pos pairs ∅ (.inl hop))
  | sadd xs =>
    cases h
    exact .inr (foldl_pos (fun m x => Finset.card_pos.mpr ⟨x, Finset.mem_insert_self x m⟩) xs ∅
      (.inl hop))
  | zadd pairs =>
    cases h
    exact .inr (foldl_pos (zput_pos lim.zset) pairs [] (.inl hop))
  | pop | hdel | srem => cases h

theorem update_filled {lim : Limits} {op : ValueOp} {v v' : AVal} (hv : v.Filled)
    (h : op.update lim v = some v') : v'.Filled := by
  have hsize (hne : v.kind ≠ .string) : 0 < v.size := hv.resolve_left hne
  unfold ValueOp.update at h
  split at h
  next =>
    cases h
    exact .inl rfl
  next front xs l =>
    cases h
    refine .inr ?_
    rw [AVal.size, pushed_length]
    exact Nat.add_pos_left (hsize fun hkind => (by cases hkind)) _
  next => exact nonEmpty_filled h
  next pairs m =>
    cases h
    exact .inr (fieldsSet_pos pairs m (.inr (hsize fun hkind => (by cases hkind))))
  next => exact nonEmpty_filled h
  next xs m =>
    cases h
    exact .inr (foldl_pos (fun m x => Finset.card_pos.mpr ⟨x, Finset.mem_insert_self x m⟩) xs m
      (.inr (hsize fun hkind => (by cases hkind))))
  next => exact nonEmpty_filled h
  next pairs es =>
    cases h
    exact .inr (foldl_pos (zput_pos lim.zset) pairs es (.inr (hsize fun hkind => (by cases hkind))))
  next =>
    cases h
    exact hv

theorem apply_filled {now : Time} {lim : Limits} {op : KeyOp} (hop : op.Brings) {o : Option AEntry}
    (ho : ∀ e, o = some e → e.value.Filled) {e : AEntry} (h : op.apply now lim o = some e) :
    e.value.Filled := by
  have hlive (e : AEntry) (he : liveAt now o = some e) : e.value.Filled :=
    ho e (liveAt_eq_some he).1
  unfold KeyOp.apply at h
  split at h
  next =>
    cases h
    exact .inl rfl
  next => cases h
  iterate 3
    next e' he =>
      cases h
      exact hlive e' he
  next op e' he =>
    obtain ⟨v, hv, rfl⟩ := Option.map_eq_some_iff.mp h
    exact update_filled (hlive e' he) hv
  next op he =>
    cases hv : op.create lim with
    | none =>
      rw [hv] at h
      exact ho e h
    | some v =>
      rw [hv] at h
      cases h
      exact create_filled hop hv
  next => exact ho e h

/-! ### The arguments bring the elements -/

theorem parsePairs_ne_nil {host : Host} : ∀ (rest : List Bytes) {acc pairs : List ZMember},
    parsePairs host rest acc = some pairs → 2 ≤ rest.length ∨ acc ≠ [] → pairs ≠ []
  | [], _, _, h, hne | [_], _, _, h, hne => by
      cases h
      simpa using hne
  | score :: member :: rest, acc, pairs, h, _ => by
      rw [parsePairs] at h
      split at h
      next => cases h
      next =>
        split at h
        next => cases h
        next => exact parsePairs_ne_nil rest h (.inr (List.append_ne_nil_of_right_ne_nil _
          (List.cons_ne_nil _ _)))

variable {n m : Nat}

/-- The commands that create collections ask for the elements. -/
theorem creates_arity {cmd : Command n m} (hcmd : cmd ∈ registry) {count : Nat}
    (hacc : cmd.accepts count = true) :
    (cmd.name = ascii "lpush" ∨ cmd.name = ascii "rpush" ∨ cmd.name = ascii "sadd" → 3 ≤ count) ∧
      (cmd.name = ascii "hset" ∨ cmd.name = ascii "zadd" → 4 ≤ count) := by
  have hall : ∀ r ∈ rows,
      (r.name = ascii "lpush" ∨ r.name = ascii "rpush" ∨ r.name = ascii "sadd" → r.arity = -3) ∧
        (r.name = ascii "hset" ∨ r.name = ascii "zadd" → r.arity = -4) := by
    decide
  have hrow := hall _ (row_mem hcmd)
  refine ⟨fun hname => ?_, fun hname => ?_⟩
  · have harity : cmd.arity = -3 := hrow.1 hname
    simp only [Command.accepts, harity] at hacc
    simpa using hacc
  · have harity : cmd.arity = -4 := hrow.2 hname
    simp only [Command.accepts, harity] at hacc
    simpa using hacc

theorem opAt_brings {host : Host} {cmd : Command n m} (hcmd : cmd ∈ registry) {args : List Bytes}
    (hacc : cmd.accepts args.length = true) {key : Bytes} {op : KeyOp}
    (h : cmd.opAt host args key = some op) : op.Brings := by
  obtain ⟨hthree, hfour⟩ := creates_arity hcmd hacc
  unfold Command.opAt at h
  split at h
  next =>
    cases h
    trivial
  next =>
    split at h
    next =>
      split at h <;> cases h
      trivial
    next =>
      split at h
      next name key' rest =>
        split at h
        next =>
          have hlen : (name :: key' :: rest).length = rest.length + 2 := rfl
          rw [hlen] at hthree hfour
          have hne (h : 3 ≤ rest.length + 2) : rest ≠ [] :=
            List.length_pos_iff.mp (by omega)
          -- the arity of the command sees to it that there is something to store
          cases KeyOp.parse_parsed h with
          | push hname =>
            exact hne (hthree (hname.imp_right .inl))
          | sadd hname => exact hne (hthree (.inr (.inr hname)))
          | hset hname =>
            show 2 ≤ rest.length
            have := hfour (.inl hname)
            omega
          | zadd hname hps =>
            refine parsePairs_ne_nil rest hps (.inl ?_)
            have := hfour (.inr hname)
            omega
          | set | count | expire | pexpireat | persist | pop | hdel | srem => trivial
        next => cases h
      next => cases h

/-- **No request leaves an empty collection**, if none was stored before it. -/
theorem effect_filled {now : Time} {lim : Limits} {host : Host} {cmd : Command n m}
    (hcmd : cmd ∈ registry) {args : List Bytes} (hacc : cmd.accepts args.length = true) {a : ADB}
    (ha : a.Filled) : (cmd.effect now lim host args a).Filled := by
  intro key e he
  unfold Command.effect at he
  split at he
  next => exact ha key e he
  next op hop => exact apply_filled (opAt_brings hcmd hacc hop) (ha key) he

/-! ## Deadlines -/

/-- A key that is not live and comes alive has no deadline, whatever expired entry was stored. -/
theorem apply_deadline_new {now : Time} {lim : Limits} {op : KeyOp} {o : Option AEntry}
    (ho : liveAt now o = none) {e : AEntry} (h : liveAt now (op.apply now lim o) = some e) :
    e.expireAt = zeroTime := by
  -- an entry that is still there is still hidden
  have hidden (h : liveAt now o = some e) : e.expireAt = zeroTime := by
    rw [ho] at h
    cases h
  cases op with
  | put v =>
    cases (liveAt_eq_some h).1
    rfl
  | remove => cases h
  | expireAt | expireIn | persist =>
    simp only [KeyOp.apply, ho] at h
    cases h
  | modify op =>
    rw [apply_modify_absent op ho] at h
    cases hv : op.create lim with
    | none =>
      rw [hv] at h
      exact hidden h
    | some v =>
      rw [hv] at h
      cases (liveAt_eq_some h).1
      rfl

/-- The commands that touch deadlines, on their key. -/
structure SetsDeadline (cmd : Command n m) (args : List Bytes) (key : Bytes) (expireAt : Time) :
    Prop where
  onKey : ∃ name rest, args = name :: key :: rest
  how : cmd.name = ascii "set" ∧ expireAt = zeroTime ∨ cmd.name = ascii "expire" ∨
    cmd.name = ascii "pexpireat" ∨ cmd.name = ascii "persist"

/-- **Only the commands for deadlines touch a deadline.** A live key that is still stored afterwards
keeps its deadline, unless the request is one of them on that key. -/
theorem effect_deadline {now : Time} {lim : Limits} {host : Host} {cmd : Command n m}
    {args : List Bytes} {a : ADB} {key : Bytes} {e e' : AEntry}
    (he : liveAt now (a key) = some e)
    (h : cmd.effect now lim host args a key = some e') :
    e'.expireAt = e.expireAt ∨ SetsDeadline cmd args key e'.expireAt := by
  unfold Command.effect at h
  split at h
  next =>
    rw [(liveAt_eq_some he).1] at h
    cases h
    exact .inl rfl
  next op hop =>
    unfold Command.opAt at hop
    split_ifs at hop
    · cases hop
      cases h
    · cases hop
      cases h
    · match args, hop with
      | name :: key' :: rest, hop =>
        simp only at hop
        split_ifs at hop with hkey
        subst hkey
        unfold KeyOp.apply at h
        rw [he] at h
        -- four commands set the deadline, the others update the value in place
        cases KeyOp.parse_parsed hop with
        | set hname v =>
          cases h
          exact .inr ⟨⟨name, rest, rfl⟩, .inl ⟨hname, rfl⟩⟩
        | expire hname => exact .inr ⟨⟨name, rest, rfl⟩, .inr (.inl hname)⟩
        | pexpireat hname => exact .inr ⟨⟨name, rest, rfl⟩, .inr (.inr (.inl hname))⟩
        | persist hname => exact .inr ⟨⟨name, rest, rfl⟩, .inr (.inr (.inr hname))⟩
        | count | push | pop | hset | hdel | sadd | srem | zadd =>
          obtain ⟨v, -, rfl⟩ := Option.map_eq_some_iff.mp h
          exact .inl rfl

/-- A key that comes alive has no deadline. -/
theorem effect_deadline_new {now : Time} {lim : Limits} {host : Host} {cmd : Command n m}
    {args : List Bytes} {a : ADB} {key : Bytes} (ha : liveAt now (a key) = none) {e : AEntry}
    (h : liveAt now (cmd.effect now lim host args a key) = some e) : e.expireAt = zeroTime := by
  unfold Command.effect at h
  split at h
  next =>
    rw [ha] at h
    cases h
  next op hop => exact apply_deadline_new ha h

/-! ## Hidden entries -/

/-- From `t` on no reader tells the two apart. -/
def SameFrom (t : Time) (o o' : Option AEntry) : Prop := ∀ t', t ≤ t' → liveAt t' o = liveAt t' o'

namespace SameFrom

variable {t : Time} {o o' : Option AEntry}

theorem refl (t : Time) (o : Option AEntry) : SameFrom t o o := fun _ _ => rfl

/-- An operation at `t` finds the same, and what it leaves alone stays hidden. -/
theorem apply (h : SameFrom t o o') (lim : Limits) (op : KeyOp) :
    SameFrom t (op.apply t lim o) (op.apply t lim o') := by
  have hnow : liveAt t o = liveAt t o' := h t le_rfl
  cases op with
  | put | remove => exact refl t _
  | expireAt | expireIn | persist =>
    unfold KeyOp.apply
    rw [hnow]
    cases liveAt t o' with
    | none => exact h
    | some e => exact refl t _
  | modify op =>
    cases hlive : liveAt t o' with
    | some e =>
      rw [apply_modify_live op (hnow.trans hlive), apply_modify_live op hlive]
      exact refl t _
    | none =>
      rw [apply_modify_absent op (hnow.trans hlive), apply_modify_absent op hlive]
      cases op.create lim with
      | none => exact h
      | some v => exact refl t _

end SameFrom

/-- **What is hidden from a reader is hidden from a request.** Databases that no reader tells apart
from `now` on are not told apart after a request at `now`. -/
theorem effect_sameFrom {now : Time} {a b : ADB} (h : ∀ key, SameFrom now (a key) (b key))
    (lim : Limits) (host : Host) (cmd : Command n m) (args : List Bytes) (key : Bytes) :
    SameFrom now (cmd.effect now lim host args a key) (cmd.effect now lim host args b key) := by
  unfold Command.effect
  cases cmd.opAt host args key with
  | none => exact h key
  | some op => exact (h key).apply lim op

end Memcore
