import Memcore.Command.Growth
import Memcore.Command.Replies
import Memcore.Resp.Writer

/-!
# What handlers put into frames

A simple string and an error are written as lines, so the server depends on no handler putting a line
feed into one. Two texts repeat what the client sent without looking at it: the name of an unknown
command, and an unknown subcommand of CONFIG (`configEchoes`). Every other reply can be framed: its texts
are constants or quoted, its numbers count what is in memory, and its arrays hold bulk strings
(`run_framed`).
-/

namespace Memcore

open Go Prog Cmd

/-! ## Texts -/

theorem ofList_oneLine {l : List UInt8} (h : lf ∉ l) : (Bytes.ofList l).OneLine :=
  fun hmem => h (List.mem_of_mem_take hmem)

theorem concat_oneLine {parts : List Bytes} (h : ∀ p ∈ parts, p.OneLine) :
    (concat parts).OneLine := by
  refine ofList_oneLine fun hmem => ?_
  obtain ⟨p, hp, hlf⟩ := List.mem_flatMap.mp hmem
  exact h p hp hlf

/-- A text between two constants. -/
theorem quoted_oneLine {a b s : Bytes} (ha : a.OneLine) (hs : s.OneLine) (hb : b.OneLine) :
    (concat [a, s, b]).OneLine := by
  refine concat_oneLine ?_
  simp only [List.forall_mem_cons]
  exact ⟨ha, hs, hb, nofun⟩

/-- The names in the table are lines. -/
theorem name_oneLine {n m : Nat} {cmd : Command n m} (hcmd : cmd ∈ registry) :
    cmd.name.OneLine := by
  have hall : ∀ r ∈ rows, r.name.OneLine := by decide
  exact hall _ (row_mem hcmd)

/-- A name that folds to a line is a line: a line feed has no other case. -/
theorem oneLine_of_foldName {name : Bytes} (h : (foldName name).OneLine) : name.OneLine := by
  intro hmem
  refine h ?_
  have hlow : lowerByte lf ∈ name.data.map lowerByte := List.mem_map_of_mem hmem
  have hsame : lowerByte lf = lf := by decide
  rw [hsame] at hlow
  have hlen : (name.data.map lowerByte).length ≤ maxAlloc := by
    rw [List.length_map]
    exact name.inMem
  rwa [foldName, Bytes.ofList_data hlen]

/-- And so are the kinds TYPE answers with. -/
theorem kind_oneLine (k : Kind) : k.toBytes.OneLine := by
  cases k <;> decide

/-! ## Counts

What the loops of the writing commands count is at most the number of arguments they walk. -/

/-- A loop that adds at most one to a count for each element. -/
theorem count_bounds {α σ : Type} {f : List α → σ → Int → Int} (hnil : ∀ s k, f [] s k = k)
    (hcons : ∀ x xs s k, ∃ s', f (x :: xs) s k = f xs s' k ∨ f (x :: xs) s k = f xs s' (k + 1)) :
    ∀ xs s k, k ≤ f xs s k ∧ f xs s k ≤ k + xs.length
  | [], s, k => by
      rw [hnil]
      simp
  | x :: xs, s, k => by
      obtain ⟨s', h | h⟩ := hcons x xs s k
      · obtain ⟨hlo, hhi⟩ := count_bounds hnil hcons xs s' k
        rw [h, List.length_cons]
        omega
      · obtain ⟨hlo, hhi⟩ := count_bounds hnil hcons xs s' (k + 1)
        rw [h, List.length_cons]
        omega

/-- Counting on, or not. -/
theorem step_cases {p : Prop} [Decidable p] (f : Int → Int) (k : Int) :
    f (if p then k + 1 else k) = f k ∨ f (if p then k + 1 else k) = f (k + 1) := by
  split
  · exact .inr rfl
  · exact .inl rfl

/-- HDEL. -/
theorem fieldsRemoved_bounds (fs : List Bytes) (m : GoMap Bytes) :
    0 ≤ fieldsRemoved fs m 0 ∧ fieldsRemoved fs m 0 ≤ fs.length := by
  have h := count_bounds (f := fieldsRemoved) (fun _ _ => rfl)
    (fun f fs m k => ⟨m.erase f, step_cases (fieldsRemoved fs (m.erase f)) k⟩) fs m 0
  omega

/-- SADD. -/
theorem membersAdded_bounds (xs : List Bytes) (m : Finset Bytes) :
    0 ≤ membersAdded xs m 0 ∧ membersAdded xs m 0 ≤ xs.length := by
  have h := count_bounds (f := membersAdded) (fun _ _ => rfl)
    (fun x xs m k => ⟨insert x m, step_cases (membersAdded xs (insert x m)) k⟩) xs m 0
  omega

/-- SREM. -/
theorem membersRemoved_bounds (xs : List Bytes) (m : Finset Bytes) :
    0 ≤ membersRemoved xs m 0 ∧ membersRemoved xs m 0 ≤ xs.length := by
  have h := count_bounds (f := membersRemoved) (fun _ _ => rfl)
    (fun x xs m k => ⟨m.erase x, step_cases (membersRemoved xs (m.erase x)) k⟩) xs m 0
  omega

/-- ZADD: a member that is there already is not counted. -/
theorem scoresAdded_bounds (max : Thresholds) (pairs es : List ZMember) :
    0 ≤ scoresAdded max pairs es 0 ∧ scoresAdded max pairs es 0 ≤ pairs.length := by
  have h := count_bounds (f := scoresAdded max) (fun _ _ => rfl)
    (fun e rest es k => ⟨zput max e es, step_cases (scoresAdded max rest (zput max e es)) k⟩)
    pairs es 0
  omega

/-- DEL and UNLINK: a key named twice is removed once. -/
theorem removed_bounds (now : Time) (keys : List Bytes) (a : ADB) :
    0 ≤ Answer.removed now keys a 0 ∧ Answer.removed now keys a 0 ≤ keys.length := by
  have h := count_bounds (f := Answer.removed now) (fun _ _ => rfl)
    (fun key keys a k => ⟨Function.update a key none,
      step_cases (Answer.removed now keys (Function.update a key none)) k⟩) keys a 0
  omega

/-- EXISTS: a key named twice counts twice. -/
theorem existing_bounds (now : Time) (a : ADB) (keys : List Bytes) :
    0 ≤ Answer.existing now a keys 0 ∧ Answer.existing now a keys 0 ≤ keys.length := by
  have h := count_bounds (f := fun keys (_ : Unit) k => Answer.existing now a keys k)
    (fun _ _ => rfl) (fun key keys _ k => ⟨(), step_cases (Answer.existing now a keys) k⟩) keys () 0
  omega

/-- HSET walks its arguments in pairs, so the loop above does not fit it. -/
theorem fieldsAdded_bounds : ∀ (pairs : List Bytes) (m : GoMap Bytes) (k : Int),
    k ≤ fieldsAdded pairs m k ∧ fieldsAdded pairs m k ≤ k + pairs.length
  | [], _, k | [_], _, k => by simp [fieldsAdded]
  | f :: v :: rest, m, k => by
      obtain ⟨hlo, hhi⟩ := fieldsAdded_bounds rest (m.insert f v)
        (if (!(m.lookup f).isSome) = true then k + 1 else k)
      have hstep : k ≤ (if (!(m.lookup f).isSome) = true then k + 1 else k) ∧
          (if (!(m.lookup f).isSome) = true then k + 1 else k) ≤ k + 1 := by
        split <;> omega
      rw [fieldsAdded, List.length_cons, List.length_cons]
      omega

/-- INCR refuses to leave the range of `int64`. -/
theorem incremented_int64 {cur delta k : Int} (hcur : IsInt64 cur) (hdelta : IsInt64 delta)
    (h : incremented cur delta = some k) : IsInt64 k := by
  unfold incremented at h
  split at h
  next => cases h
  next hrange =>
    cases h
    simp only [IsInt64, minInt64, maxInt64] at *
    omega

/-! ## Answers that can be framed -/

/-- Every reply the command may give can be framed. -/
def AReply.framed : AReply → Prop
  | .exact r => r.framed = true
  | .members s => IsInt64 s.card
  | .fields m => IsInt64 (2 * m.keys.card)

theorem allFramed_bulks : ∀ xs : List Bytes, Reply.allFramed (xs.map .bulk) = true
  | [] => rfl
  | _ :: xs => allFramed_bulks xs

/-- An array of bulk strings needs only a length that can be written. -/
theorem framed_bulks {xs : List Bytes} (h : IsInt64 xs.length) :
    (Reply.array (xs.map .bulk)).framed = true := by
  rw [Reply.framed, List.length_map, decide_eq_true h, allFramed_bulks]
  rfl

/-- What a handler lists in an order of its own is as long as what it has to list. -/
theorem framed_of_shows {spec : AReply} {r : Reply} (h : spec.framed) (hr : spec.Shows r) :
    r.framed = true := by
  cases spec with
  | exact r₀ => exact hr ▸ h
  | members s =>
    obtain ⟨xs, hnodup, rfl, rfl⟩ := hr
    refine framed_bulks ?_
    rwa [← List.toFinset_card_of_nodup hnodup]
  | fields m =>
    obtain ⟨ps, hps, rfl⟩ := hr
    refine framed_bulks ?_
    rw [flatPairs_length, hps.length_eq, Nat.mul_comm]
    exact_mod_cast h

/-- There is room to count what is in memory: `size` elements and the `args` of a request. -/
def RoomFor (size args : Nat) : Prop := (2 * (size + args) : Int) ≤ maxInt64

/-- Twice, for the fields with their values and the members with their scores. -/
theorem RoomFor.int64 {size args : Nat} (h : RoomFor size args) {k : Int} (hlo : 0 ≤ k)
    (hhi : k ≤ 2 * (size + args)) : IsInt64 k := by
  unfold RoomFor at h
  simp only [IsInt64, minInt64]
  omega

theorem RoomFor.mono {size size' args args' : Nat} (h : RoomFor size args) (hsize : size' ≤ size)
    (hargs : args' ≤ args) : RoomFor size' args' := by
  unfold RoomFor at h ⊢
  omega

theorem framed_int {k : Int} (h : IsInt64 k) : (AReply.exact (.int k)).framed := decide_eq_true h

theorem framed_error {s : Bytes} (h : s.OneLine) : (AReply.exact (.error s)).framed :=
  decide_eq_true h

theorem framed_simple {s : Bytes} (h : s.OneLine) : (AReply.exact (.simple s)).framed :=
  decide_eq_true h

theorem framed_ok : (AReply.exact .ok).framed := framed_simple (by decide)

theorem notInteger_framed : AReply.notInteger.framed := framed_error (by decide)

section Single

variable {now : Time} {lim : Limits} {host : Host} {rest : List Bytes} {o : Option AEntry}

/-- WRONGTYPE is a line; the rest is asked for what is there and what is not. -/
theorem onKind_framed {β : Type} {project : AVal → Option β} {absent : AReply}
    {present : β → AReply} (habsent : absent.framed)
    (hpresent : ∀ e x, o = some e → project e.value = some x → (present x).framed) :
    (AReply.onKind project absent present o).framed := by
  unfold AReply.onKind
  cases o with
  | none => exact habsent
  | some e =>
    simp only
    cases hx : project e.value with
    | none => exact framed_error (by decide)
    | some x => exact hpresent e x rfl hx

theorem ite_framed {p : Prop} [Decidable p] {x y : AReply} (hx : x.framed) (hy : y.framed) :
    (if p then x else y).framed := by
  split
  · exact hx
  · exact hy

theorem maybe_framed (b : Option Bytes) : (Answer.maybe b).framed := by
  cases b <;> rfl

theorem counted_framed {cur delta : Int} (hcur : IsInt64 cur) (hdelta : IsInt64 delta) :
    (Answer.counted cur delta).framed := by
  unfold Answer.counted
  split
  · exact framed_error (by decide)
  · next k hk => exact framed_int (incremented_int64 hcur hdelta hk)

/-- The reply is the new number, which was checked before it was stored. -/
theorem incr_framed {delta : Int} (hdelta : IsInt64 delta) : (Answer.incr delta o).framed := by
  refine onKind_framed (counted_framed (by decide) hdelta) fun e b _ _ => ?_
  split
  · exact notInteger_framed
  · next cur hcur => exact counted_framed (parseInt_int64 hcur) hdelta

theorem expire_framed : (Answer.expire rest o).framed := by
  unfold Answer.expire
  split
  · exact notInteger_framed
  · refine framed_int ?_
    split <;> decide

/-- TTL divides a difference that saturates at the bounds of `int64`. -/
theorem ttl_framed : (Answer.ttl now o).framed := by
  unfold Answer.ttl
  split
  · exact framed_int (by decide)
  · next e =>
    refine ite_framed (framed_int (by decide)) (framed_int ?_)
    -- the milliseconds left are a quotient of an `int64`, and not negative
    have hsub : (Time.sub e.expireAt now).natAbs ≤ 2 ^ 63 := by
      simp only [Time.sub, minInt64, maxInt64]
      omega
    have hquot : (Int.tdiv (Time.sub e.expireAt now) (10 ^ 6)).natAbs ≤ 2 ^ 62 := by
      rw [Int.natAbs_tdiv]
      change (Time.sub e.expireAt now).natAbs / 1000000 ≤ 2 ^ 62
      omega
    generalize Int.tdiv (Time.sub e.expireAt now) (10 ^ 6) = ms at hquot
    have hms : 0 ≤ (if ms < 0 then 0 else ms) ∧ (if ms < 0 then 0 else ms) ≤ 2 ^ 62 := by
      split <;> omega
    generalize (if ms < 0 then 0 else ms) = ms' at hms
    rw [Int.tdiv_eq_ediv_of_nonneg (by omega)]
    simp only [IsInt64, minInt64, maxInt64]
    omega

/-- No more is popped than there is. -/
theorem popsOf_length (front : Bool) (count : Nat) (xs : List Bytes) :
    (popsOf front count xs).length ≤ xs.length := by
  unfold popsOf
  split
  · rw [List.length_take]
    exact Nat.min_le_right _ _
  · rw [List.length_take, List.length_reverse]
    exact Nat.min_le_right _ _

/-- A range is no longer than what it is cut from. -/
theorem rangeOf_length {α : Type} (start stop : Int) (xs : List α) :
    (rangeOf start stop xs).length ≤ xs.length := by
  unfold rangeOf
  split
  · exact Nat.zero_le _
  · rw [List.length_drop, List.length_take]
    omega

theorem AVal.size_of_list? {v : AVal} {xs : List Bytes} (h : v.list? = some xs) :
    v.size = xs.length := by
  cases v <;> cases h
  rfl

theorem AVal.size_of_hash? {v : AVal} {x : GoMap Bytes} (h : v.hash? = some x) :
    v.size = x.keys.card := by
  cases v <;> cases h
  rfl

theorem AVal.size_of_set? {v : AVal} {x : Finset Bytes} (h : v.set? = some x) :
    v.size = x.card := by
  cases v <;> cases h
  rfl

theorem AVal.size_of_zset? {v : AVal} {x : List ZMember} (h : v.zset? = some x) :
    v.size = x.length := by
  cases v <;> cases h
  rfl

/-- A range of a sorted set is bulk strings, at most two for each member. -/
theorem scored_eq (host : Host) (withScores : Bool) (es : List ZMember) :
    ∃ xs : List Bytes, Answer.scored host withScores es = xs.map .bulk ∧
      xs.length ≤ 2 * es.length := by
  cases withScores with
  | true =>
    refine ⟨es.flatMap fun x => [x.member, formatScore host x.score], ?_, ?_⟩
    · simp [Answer.scored, List.map_flatMap]
    · rw [List.length_flatMap]
      simp [Nat.mul_comm]
  | false =>
    refine ⟨es.map ZMember.member, ?_, ?_⟩
    · simp [Answer.scored]
    · rw [List.length_map]
      omega

/-- HSET and ZADD answer with a count of their arguments. -/
theorem hset_framed (hrest : RoomFor 0 rest.length) : (Answer.hset rest o).framed := by
  have hcount (x : GoMap Bytes) : (AReply.exact (.int (fieldsAdded rest x 0))).framed := by
    have := fieldsAdded_bounds rest x 0
    exact framed_int (hrest.int64 (by omega) (by omega))
  unfold Answer.hset
  exact ite_framed (onKind_framed (hcount ∅) fun _ x _ _ => hcount x) (framed_error (by decide))

theorem zadd_framed (hrest : RoomFor 0 rest.length) : (Answer.zadd host lim rest o).framed := by
  unfold Answer.zadd
  refine ite_framed ?_ (framed_error (by decide))
  split
  · exact framed_error (by decide)
  · next pairs hpairs =>
    have hlen := parsePairs_length rest hpairs
    have hcount (es : List ZMember) :
        (AReply.exact (.int (scoresAdded lim.zset pairs es 0))).framed := by
      have := scoresAdded_bounds lim.zset pairs es
      exact framed_int (hrest.int64 (by omega) (by simp at hlen; omega))
    exact onKind_framed (hcount []) fun _ es _ _ => hcount es

variable (hroom : ∀ e, o = some e → RoomFor e.value.size rest.length)

include hroom

/-- The arity error of LPOP and RPOP repeats the name the client has used. -/
theorem pop_framed (front : Bool) {name : Bytes} (hname : name.OneLine) :
    (Answer.pop front name rest o).framed := by
  unfold Answer.pop
  split
  · exact onKind_framed rfl fun _ _ _ _ => rfl
  · split
    · exact notInteger_framed
    · refine ite_framed (framed_error (by decide)) (onKind_framed rfl fun e xs he hx => ?_)
      refine framed_bulks ((hroom e he).int64 (by omega) ?_)
      have := popsOf_length front (Int.toNat ‹Int›) xs
      rw [AVal.size_of_list? hx]
      omega
  · exact framed_error (quoted_oneLine (by decide) hname (by decide))

/-- LRANGE lists at most the whole list. -/
theorem lrange_framed : (Answer.lrange rest o).framed := by
  unfold Answer.lrange
  split
  · split
    · next start stop _ _ =>
      refine onKind_framed rfl fun e xs he hx => framed_bulks ((hroom e he).int64 (by omega) ?_)
      have := rangeOf_length start stop xs
      rw [AVal.size_of_list? hx]
      omega
    · exact notInteger_framed
  · exact notInteger_framed

/-- ZRANGE lists at most the whole set, with its scores. -/
theorem zrangeOf_framed (arg2 arg3 : Bytes) (withScores : Bool) :
    (Answer.zrangeOf host arg2 arg3 withScores o).framed := by
  unfold Answer.zrangeOf
  split
  · next start stop _ _ =>
    refine onKind_framed rfl fun e es he hx => ?_
    obtain ⟨xs, hxs, hlen⟩ := scored_eq host withScores (rangeOf start stop es)
    rw [hxs]
    refine framed_bulks ((hroom e he).int64 (by omega) ?_)
    have := rangeOf_length start stop es
    rw [AVal.size_of_zset? hx]
    omega
  · exact notInteger_framed

theorem zrange_framed : (Answer.zrange host rest o).framed := by
  unfold Answer.zrange
  split
  · exact zrangeOf_framed hroom _ _ _
  · exact ite_framed (zrangeOf_framed hroom _ _ _) (framed_error (by decide))
  · exact framed_error (by decide)

/-- **The answers of the commands on one key**, in the order of the table. -/
theorem single_framed (hrest : RoomFor 0 rest.length) {cmd name : Bytes} (hname : name.OneLine) :
    (Answer.single now lim host cmd name rest o).framed := by
  -- the counts are bounded by the arguments and by what the key has, so they fit into an `int64`
  have hpush : (AReply.onKind AVal.list? (.exact (.int rest.length))
      (fun xs => .exact (.int (xs.length + rest.length))) o).framed := by
    refine onKind_framed (framed_int (hrest.int64 (by omega) (by omega))) fun e xs he hx => ?_
    have hsize := AVal.size_of_list? hx
    exact framed_int ((hroom e he).int64 (by omega) (by omega))
  have hllen : (AReply.onKind AVal.list? (.exact (.int 0)) (fun xs => .exact (.int xs.length))
      o).framed := by
    refine onKind_framed (framed_int (by decide)) fun e xs he hx => ?_
    have hsize := AVal.size_of_list? hx
    exact framed_int ((hroom e he).int64 (by omega) (by omega))
  have hhdel : (AReply.onKind AVal.hash? (.exact (.int 0))
      (fun x => .exact (.int (fieldsRemoved rest x 0))) o).framed := by
    refine onKind_framed (framed_int (by decide)) fun e x _ _ => ?_
    have := fieldsRemoved_bounds rest x
    exact framed_int (hrest.int64 (by omega) (by omega))
  have hhgetall : (AReply.onKind AVal.hash? (.exact (.array [])) .fields o).framed := by
    refine onKind_framed rfl fun e x he hx => ?_
    have hsize := AVal.size_of_hash? hx
    exact (hroom e he).int64 (by omega) (by omega)
  have hadded (x : Finset Bytes) : (AReply.exact (.int (membersAdded rest x 0))).framed := by
    have := membersAdded_bounds rest x
    exact framed_int (hrest.int64 (by omega) (by omega))
  have hsrem : (AReply.onKind AVal.set? (.exact (.int 0))
      (fun x => .exact (.int (membersRemoved rest x 0))) o).framed := by
    refine onKind_framed (framed_int (by decide)) fun e x _ _ => ?_
    have := membersRemoved_bounds rest x
    exact framed_int (hrest.int64 (by omega) (by omega))
  have hsmembers : (AReply.onKind AVal.set? (.exact (.array [])) .members o).framed := by
    refine onKind_framed rfl fun e x he hx => ?_
    have hsize := AVal.size_of_set? hx
    exact (hroom e he).int64 (by omega) (by omega)
  have hpersist : (AReply.exact (.int (if o.any AEntry.hasExpiry then 1 else 0))).framed := by
    refine framed_int ?_
    split <;> decide
  have htype : (AReply.exact (.simple (o.elim (ascii "none") fun e => e.value.kind.toBytes))).framed
      := by
    refine framed_simple ?_
    cases o with
    | none => decide
    | some e => exact kind_oneLine _
  -- one branch for each command, in the order of the registry
  unfold Answer.single
  refine ite_framed (onKind_framed rfl fun _ _ _ _ => rfl) (ite_framed framed_ok ?_)
  refine ite_framed (incr_framed (by decide)) (ite_framed (incr_framed (by decide)) ?_)
  refine ite_framed expire_framed (ite_framed expire_framed ?_)
  refine ite_framed ttl_framed (ite_framed hpersist (ite_framed htype ?_))
  refine ite_framed hpush (ite_framed hpush ?_)
  refine ite_framed (pop_framed hroom true hname) (ite_framed (pop_framed hroom false hname) ?_)
  refine ite_framed (lrange_framed hroom) (ite_framed hllen (ite_framed (hset_framed hrest) ?_))
  refine ite_framed (onKind_framed rfl fun _ _ _ _ => maybe_framed _) ?_
  refine ite_framed hhdel (ite_framed hhgetall ?_)
  refine ite_framed (onKind_framed (hadded ∅) fun _ x _ _ => hadded x) (ite_framed hsrem ?_)
  refine ite_framed hsmembers (ite_framed (zadd_framed hrest) (ite_framed (zrange_framed hroom) ?_))
  exact onKind_framed rfl fun _ _ _ _ => maybe_framed _

end Single

/-- An intersection is no larger than the first of its sets. -/
theorem inter_card_le {s : Finset Bytes} : ∀ ss : List (Finset Bytes),
    (Answer.inter (s :: ss)).card ≤ s.card := by
  intro ss
  refine Finset.card_le_card fun x hx => ?_
  exact mem_inter_cons.mp hx s List.mem_cons_self

/-- **The answers of the commands on several keys.** SINTER is bounded by the set of its first key.
-/
theorem multi_framed {now : Time} {cmd key : Bytes} {keys : List Bytes} {a : ADB}
    (hrest : RoomFor 0 (key :: keys).length)
    (hroom : ∀ e, liveAt now (a key) = some e → RoomFor e.value.size 0) :
    (Answer.multi now cmd (key :: keys) a).framed := by
  have hremoved := removed_bounds now (key :: keys) a
  have hexisting := existing_bounds now a (key :: keys)
  unfold Answer.multi
  refine ite_framed (framed_int (hrest.int64 (by omega) (by omega)))
    (ite_framed (framed_int (hrest.int64 (by omega) (by omega))) ?_)
  -- SINTER: the first key decides whether there is anything to list
  rw [Answer.sets]
  cases hlive : liveAt now (a key) with
  | none => rfl
  | some e =>
    simp only
    cases hset : e.value.set? with
    | none => exact framed_error (by decide)
    | some s =>
      simp only
      cases hsets : Answer.sets now a keys with
      | error reply =>
        rcases sets_error hsets with rfl | rfl
        · rfl
        · exact framed_error (by decide)
      | ok ss =>
        have hcard := inter_card_le (s := s) ss
        have hsize := AVal.size_of_set? hset
        change IsInt64 (Answer.inter (s :: ss)).card
        exact (hroom e hlive).int64 (by omega) (by omega)

/-! ## Every command -/

section Commands

variable {n m : Nat} {env : Env m} {c : Context n m} {args : List Bytes}

/-- The reply of a handler can be framed, if it ends with one. -/
def Frames (x : Result Reply) : Prop := ∀ r, x = .ok r → r.framed = true

theorem cmdPing_framed (args : List Bytes) : Frames ((cmdPing args : Cmd n m Reply) c).1 := by
  intro r hr
  unfold cmdPing at hr
  split at hr <;> cases hr <;> rfl

theorem cmdSelect_framed (name arg1 : Bytes) (rest : List Bytes) :
    Frames ((cmdSelect (name :: arg1 :: rest) : Cmd n m Reply) c).1 := by
  intro r hr
  unfold cmdSelect at hr
  rw [arg_one_bind] at hr
  cases hp : parseInt arg1 with
  | none =>
    rw [hp] at hr
    cases hr
    rfl
  | some index =>
    rw [hp] at hr
    by_cases h : 0 ≤ index ∧ index.toNat < n
    · simp only [bind_apply_ok (select_of_lt h c)] at hr
      cases hr
      rfl
    · simp only [bind_apply_ok (select_of_not_lt h c)] at hr
      cases hr
      rfl

/-- The error of an update is a line, if quoting makes one. -/
theorem set_oneLine {host : Host} (hquote : ∀ b, (host.quote b).OneLine) (r : Reloadable)
    (name val : Bytes) {text : Bytes} (h : r.set host name val = .error text) : text.OneLine := by
  have hcount {param : Bytes} (hparam : param.OneLine) : (concat [Reloadable.errInvalid, ascii ": ",
      param, ascii " must be a non-negative integer"]).OneLine := by
    refine concat_oneLine ?_
    simp only [List.forall_mem_cons]
    exact ⟨by decide, by decide, hparam, by decide, nofun⟩
  have hbool {param : Bytes} (hparam : param.OneLine) : (concat [Reloadable.errInvalid, ascii ": ",
      param, ascii " must be yes or no"]).OneLine := by
    refine concat_oneLine ?_
    simp only [List.forall_mem_cons]
    exact ⟨by decide, by decide, hparam, by decide, nofun⟩
  unfold Reloadable.set at h
  simp only at h
  split at h
  next hname =>
    split at h <;> cases h
    exact hcount (hname ▸ by decide)
  next =>
    split at h
    next hname =>
      split at h <;> cases h
      exact hcount (hname ▸ by decide)
    next =>
      split at h
      next hname =>
        split at h <;> cases h
        exact hbool (hname ▸ by decide)
      next =>
        cases h
        refine concat_oneLine ?_
        simp only [List.forall_mem_cons]
        exact ⟨by decide, by decide, hquote name, nofun⟩

/-- CONFIG GET lists the three settings, one of them, or none. -/
theorem configGet_framed (env : Env m) (r : Reloadable) (pattern : Bytes) :
    (configGet env r pattern).framed = true := by
  unfold configGet
  split
  · have hbulks : (r.all.flatMap fun kv => [Reply.bulk kv.1, .bulk kv.2])
        = (r.all.flatMap fun kv => [kv.1, kv.2]).map .bulk := by
      simp [List.map_flatMap]
    rw [hbulks]
    exact framed_bulks (show IsInt64 6 by decide)
  · split
    · next v _ =>
      have hpair : (Reply.array ([env.host.toLower pattern, v].map .bulk)).framed = true :=
        framed_bulks (show IsInt64 2 by decide)
      exact hpair
    · rfl

/-- CONFIG repeats a subcommand it does not know. -/
theorem cmdConfig_framed (hquote : ∀ b, (env.host.quote b).OneLine) {name arg1 : Bytes}
    {rest : List Bytes} (hline : c.settings.isSome = true → env.host.toUpper arg1 ≠ ascii "GET" →
      env.host.toUpper arg1 ≠ ascii "SET" → arg1.OneLine) :
    Frames (cmdConfig env (name :: arg1 :: rest) c).1 := by
  intro reply hreply
  unfold cmdConfig at hreply
  rw [bind_apply_ok (show getSettings c = (.ok c.settings, c) from rfl)] at hreply
  cases hc : c.settings with
  | none =>
    rw [hc] at hreply
    cases hreply
    rfl
  | some r =>
    simp only [hc, arg_one_bind] at hreply
    by_cases hget : env.host.toUpper arg1 = ascii "GET"
    · -- GET with a number of arguments other than one is refused with a constant text
      rw [if_pos hget] at hreply
      match rest with
      | [] | _ :: _ :: _ =>
        cases hreply
        rfl
      | [pattern] =>
        cases hreply
        exact configGet_framed env r pattern
    · rw [if_neg hget] at hreply
      by_cases hset : env.host.toUpper arg1 = ascii "SET"
      · rw [if_pos hset] at hreply
        match rest with
        | [] | [_] | _ :: _ :: _ :: _ =>
          cases hreply
          rfl
        | [param, val] =>
          rw [if_neg (by simp), args_two_three_bind] at hreply
          cases hr : r.set env.host (env.host.toLower param) val with
          | error text =>
            -- the parameter is quoted in the text, so it may hold line feeds
            rw [hr] at hreply
            cases hreply
            refine decide_eq_true (concat_oneLine ?_)
            simp only [List.forall_mem_cons]
            exact ⟨by decide, set_oneLine hquote r _ _ hr, nofun⟩
          | ok r' =>
            rw [hr] at hreply
            cases hreply
            rfl
      · -- the subcommand is repeated as it came
        rw [if_neg hset] at hreply
        cases hreply
        exact decide_eq_true (quoted_oneLine (by decide) (hline (by rw [hc]; rfl) hget hset) (by decide))

/-- A data command's answer can be framed if there is room to count what is stored. -/
theorem answer_framed {a : ADB} {cmd : Command n m} (hcmd : cmd ∈ registry)
    (hdata : cmd.onData = true) (hacc : cmd.accepts args.length = true)
    (hname : ∀ name ∈ args.head?, name.OneLine) {k : Nat} (hsize : a.Sized k)
    (hroom : RoomFor k args.length) :
    (cmd.answer env.now env.limits env.host args a).framed := by
  have hargs : RoomFor 0 args.length := hroom.mono (Nat.zero_le _) le_rfl
  have hlive (key : Bytes) (e : AEntry) (he : liveAt env.now (a key) = some e) :
      RoomFor e.value.size args.length :=
    hroom.mono (hsize key e (liveAt_eq_some he).1) le_rfl
  cases takes_of_accepts hcmd hacc with
  | @single name key rest hkey =>
    rw [Command.answer, if_pos hkey]
    refine single_framed (fun e he => ?_) (hargs.mono le_rfl ?_) (hname name rfl)
    · exact (hlive key e he).mono le_rfl (by simp; omega)
    · simp
      omega
  | @multi name key keys _ hlast _ hpart =>
    rw [Command.answer, if_neg (by simp [Command.singleKey, hlast]), hpart,
      if_neg Bool.false_ne_true]
    refine multi_framed (hargs.mono le_rfl (by simp)) fun e he => ?_
    exact (hlive key e he).mono le_rfl (Nat.zero_le _)
  | whole his =>
    subst his
    rw [answer_whole]
    exact framed_ok
  | ping his | select his | config his =>
    subst his
    cases hdata

/-- Does the request name a subcommand of CONFIG that is not known and not a line? -/
def configEchoes (host : Host) : List Bytes → Bool
  | _ :: sub :: _ => decide (host.toUpper sub ≠ ascii "GET") &&
      decide (host.toUpper sub ≠ ascii "SET") && !decide sub.OneLine
  | _ => false

/-- **A handler's reply can be framed**, but for CONFIG with a subcommand that is no line. -/
theorem run_framed {a : ADB} {cmd : Command n m} (hcmd : cmd ∈ registry)
    (hacc : cmd.accepts args.length = true) (hs : c.Shows env a)
    (hquote : ∀ b, (env.host.quote b).OneLine) (hname : ∀ name ∈ args.head?, name.OneLine)
    {k : Nat} (hsize : a.Sized k) (hroom : RoomFor k args.length)
    (hecho : cmd.name = ascii "config" → c.settings.isSome = true →
      configEchoes env.host args = false) :
    Frames (cmd.run env args c).1 := by
  cases hdata : cmd.onData with
  | true =>
    intro r hr
    have hno := (run_completes_iff hcmd hacc hs).mp ⟨r, hr⟩
    obtain ⟨r', hr', hshow⟩ := run_answers hcmd hdata hacc hs hno
    rw [hr] at hr'
    cases hr'
    exact framed_of_shows (answer_framed hcmd hdata hacc hname hsize hroom) hshow
  | false =>
    cases takesPlain_of_accepts hcmd hdata hacc with
    | ping his =>
      subst his
      exact cmdPing_framed args
    | select his =>
      subst his
      exact cmdSelect_framed _ _ _
    | config his =>
      subst his
      refine cmdConfig_framed hquote fun hsome hget hset => ?_
      have hline := hecho rfl hsome
      simpa [configEchoes, hget, hset] using hline

end Commands

end Memcore
