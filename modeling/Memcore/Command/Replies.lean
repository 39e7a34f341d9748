import Memcore.Command.Refine

/-!
# Every handler does what its command is for

The handlers that read, and then the whole table: run on shards that stand for a database, a command
replies what `Command.answer` says for that database (`run_answers`), whatever the order in which maps
are visited and whatever levels are drawn, and leaves databases that stand for those after its effect
(`run_refines`). This is all a client can see of a command.
-/

namespace Memcore

open Go Prog Cmd

/-! ## One key -/

section Reads

variable {n m : Nat} {env : Env m} {c : Context n m} {a : ADB} {name key : Bytes}

/-- GET. -/
theorem cmdGet_answers (h : c.Shows env a) (rest : List Bytes) :
    Answers (cmdGet env (name :: key :: rest)) c
      (AReply.onKind AVal.str? (.exact .nil) (fun b => .exact (.bulk b))
        (liveAt env.now (a key))) := by
  unfold cmdGet
  rw [arg_one_bind]
  -- GET reads the value through `getBytes`, which sees what a lookup sees
  have hget : getBytes env key c
      = (.ok (((c.db (env.route key)).peek env.now key).map Entry.value), c) := by
    rw [← Keyspace.getBytes_eq]
    rfl
  refine Answers.bind_ok hget ?_
  have hrel := DB.Repr.peek h env.now key
  generalize (c.db (env.route key)).peek env.now key = p at hrel
  generalize liveAt env.now (a key) = l at hrel
  cases hrel with
  | none => exact Answers.pure _ _
  | @some e ae he =>
    simp only [Option.map_some, AReply.onKind, he.1.kind_eq]
    rcases project_cases AVal.str?_isSome ae.value with ⟨hp, hne⟩ | ⟨b, hp, heq⟩
    · rw [if_pos hne, hp]
      exact Answers.pure _ _
    · rw [if_neg (not_not.mpr heq), he.str? hp, hp]
      exact Answers.pure _ _

theorem cmdTTL_answers (h : c.Shows env a) (rest : List Bytes) :
    Answers (cmdTTL env (name :: key :: rest)) c
      (Answer.ttl env.now (liveAt env.now (a key))) := by
  unfold cmdTTL
  rw [arg_one_bind]
  rcases lookup_cases h key with ⟨hlook, hlive⟩ | ⟨e, ae, hlook, hlive, he, -⟩
  · rw [hlive]
    exact Answers.bind_ok hlook (Answers.pure _ _)
  · rw [hlive]
    refine Answers.bind_ok hlook ?_
    simp only [Answer.ttl, he.hasExpiry_eq, he.2.2]
    split <;> exact Answers.pure _ _

theorem cmdType_answers (h : c.Shows env a) (rest : List Bytes) :
    Answers (cmdType env (name :: key :: rest)) c
      (.exact (.simple ((liveAt env.now (a key)).elim (ascii "none")
        fun e => e.value.kind.toBytes))) := by
  unfold cmdType
  rw [arg_one_bind]
  rcases lookup_cases h key with ⟨hlook, hlive⟩ | ⟨e, ae, hlook, hlive, he, -⟩
  · rw [hlive]
    exact Answers.bind_ok hlook (Answers.pure _ _)
  · rw [hlive]
    refine Answers.bind_ok hlook ?_
    simp only [he.1.kind_eq, Option.elim_some]
    exact Answers.pure _ _

theorem cmdLRange_answers (h : c.Shows env a) (arg2 arg3 : Bytes) (rest : List Bytes) :
    Answers (cmdLRange env (name :: key :: arg2 :: arg3 :: rest)) c
      (Answer.lrange (arg2 :: arg3 :: rest) (liveAt env.now (a key))) := by
  unfold cmdLRange Answer.lrange
  rw [args_two_three_bind]
  dsimp only
  cases parseInt arg2 with
  | none => exact Answers.pure _ _
  | some start =>
    cases parseInt arg3 with
    | none => exact Answers.pure _ _
    | some stop =>
      simp only [arg_one_bind]
      refine withKind_answers h AVal.list?_isSome (Answers.pure _ _) fun e ae xs he hx => ?_
      obtain ⟨l, hv, hr⟩ := he.list? hx
      simp only [hv, Value.getList, lift_ok_bind, ListVal.range_repr hr start stop]
      exact Answers.pure _ _

theorem cmdLLen_answers (h : c.Shows env a) (rest : List Bytes) :
    Answers (cmdLLen env (name :: key :: rest)) c
      (AReply.onKind AVal.list? (.exact (.int 0)) (fun xs => .exact (.int xs.length))
        (liveAt env.now (a key))) := by
  unfold cmdLLen
  rw [arg_one_bind]
  refine withKind_answers h AVal.list?_isSome (Answers.pure _ _) fun e ae xs he hx => ?_
  obtain ⟨l, hv, hr⟩ := he.list? hx
  simp only [hv, Value.getList, lift_ok_bind, ListVal.len_repr hr]
  exact Answers.pure _ _

theorem cmdHGet_answers (h : c.Shows env a) (field : Bytes) (rest : List Bytes) :
    Answers (cmdHGet env (name :: key :: field :: rest)) c
      (AReply.onKind AVal.hash? (.exact .nil)
        (fun x => Answer.maybe ((field :: rest).head?.bind x.lookup)) (liveAt env.now (a key))) := by
  unfold cmdHGet
  rw [arg_one_bind]
  refine withKind_answers h AVal.hash?_isSome (Answers.pure _ _) fun e ae x he hx => ?_
  obtain ⟨l, hv, hr⟩ := he.hash? hx
  simp only [hv, Value.getHash, lift_ok_bind, arg_two_bind, HashVal.get_repr hr, List.head?_cons,
    Option.bind_some]
  cases x.lookup field <;> exact Answers.pure _ _

/-- HGETALL: every field with its value, in an order that is the map's. -/
theorem cmdHGetAll_answers (h : c.Shows env a) (rest : List Bytes) :
    Answers (cmdHGetAll env (name :: key :: rest)) c
      (AReply.onKind AVal.hash? (.exact (.array [])) .fields (liveAt env.now (a key))) := by
  unfold cmdHGetAll
  rw [arg_one_bind]
  refine withKind_answers h AVal.hash?_isSome (Answers.pure _ _) fun e ae x he hx => ?_
  obtain ⟨l, hv, hr⟩ := he.hash? hx
  obtain ⟨ps, hpairs, hlists⟩ := HashVal.pairs_repr hr env.ord
  simp only [hv, Value.getHash, lift_ok_bind, hpairs]
  exact ⟨_, rfl, ps, hlists, rfl⟩

/-- SMEMBERS: every member once, in an order that is the map's. -/
theorem cmdSMembers_answers (h : c.Shows env a) (rest : List Bytes) :
    Answers (cmdSMembers env (name :: key :: rest)) c
      (AReply.onKind AVal.set? (.exact (.array [])) .members (liveAt env.now (a key))) := by
  unfold cmdSMembers
  rw [arg_one_bind]
  refine withKind_answers h AVal.set?_isSome (Answers.pure _ _) fun e ae x he hx => ?_
  obtain ⟨l, hv, hr⟩ := he.set? hx
  obtain ⟨xs, hmem, hnodup, hset⟩ := SetVal.members_repr hr env.ord
  simp only [hv, Value.getSet, lift_ok_bind, hmem]
  exact ⟨_, rfl, xs, hnodup, hset, rfl⟩

/-- ZRANGE, with scores or without. -/
theorem zrangeReply_answers (h : c.Shows env a) (arg2 arg3 : Bytes) (rest : List Bytes)
    (withScores : Bool) :
    Answers (zrangeReply env (name :: key :: arg2 :: arg3 :: rest) withScores) c
      (Answer.zrangeOf env.host arg2 arg3 withScores (liveAt env.now (a key))) := by
  unfold zrangeReply Answer.zrangeOf
  rw [args_two_three_bind]
  cases parseInt arg2 with
  | none => exact Answers.pure _ _
  | some start =>
    cases parseInt arg3 with
    | none => exact Answers.pure _ _
    | some stop =>
      simp only [arg_one_bind]
      refine withKind_answers h AVal.zset?_isSome (Answers.pure _ _) fun e ae x he hx => ?_
      obtain ⟨z, hv, hr, -⟩ := he.zset? hx
      simp only [hv, Value.getZSet, lift_ok_bind, ZSetVal.range_repr hr start stop]
      cases withScores <;> exact Answers.pure _ _

theorem cmdZRange_answers (h : c.Shows env a) (arg2 arg3 : Bytes) (rest : List Bytes) :
    Answers (cmdZRange env (name :: key :: arg2 :: arg3 :: rest)) c
      (Answer.zrange env.host (arg2 :: arg3 :: rest) (liveAt env.now (a key))) := by
  match rest with
  | [] => exact zrangeReply_answers h arg2 arg3 [] false
  | _ :: _ :: _ => exact Answers.pure _ _
  | [option] =>
    have harg : ∀ f : Bytes → Cmd n m Reply,
        (arg [name, key, arg2, arg3, option] 4 >>= f) = f option := fun _ => rfl
    unfold cmdZRange Answer.zrange
    rw [if_neg (by simp), if_pos (by rfl), harg]
    dsimp only
    split
    · exact zrangeReply_answers h arg2 arg3 [option] true
    · exact Answers.pure _ _

/-- ZSCORE. -/
theorem cmdZScore_answers (h : c.Shows env a) (member : Bytes) (rest : List Bytes) :
    Answers (cmdZScore env (name :: key :: member :: rest)) c
      (AReply.onKind AVal.zset? (.exact .nil)
        (fun es => Answer.maybe (((member :: rest).head?.bind fun x => zscore x es).map
          (formatScore env.host))) (liveAt env.now (a key))) := by
  unfold cmdZScore
  rw [arg_one_bind]
  refine withKind_answers h AVal.zset?_isSome (Answers.pure _ _) fun e ae x he hx => ?_
  obtain ⟨z, hv, hr, -⟩ := he.zset? hx
  simp only [hv, Value.getZSet, lift_ok_bind, arg_two_bind, ZSetVal.score_repr hr, List.head?_cons,
    Option.bind_some]
  cases zscore member x <;> exact Answers.pure _ _

end Reads

/-! ## Several keys -/

section Several

variable {n m : Nat} {env : Env m} {c : Context n m} {a : ADB} {name : Bytes}

/-- The loop of EXISTS leaves the context as it is. -/
theorem countKeys_exists (h : c.Shows env a) : ∀ (keys : List Bytes) (count : Int),
    countKeys (existsBytes env) keys count c
      = (.ok (Answer.existing env.now a keys count), c)
  | [], _ => rfl
  | key :: keys, count => by
      have hop : existsBytes env key c = (.ok (liveAt env.now (a key)).isSome, c) := by
        rw [← isSome_eq_of_rel (DB.Repr.peek h env.now key), ← Keyspace.existsBytes_eq]
        rfl
      rw [countKeys, bind_apply_ok hop, Answer.existing]
      cases (liveAt env.now (a key)).isSome with
      | true => exact countKeys_exists h keys (count + 1)
      | false => exact countKeys_exists h keys count

theorem cmdExists_answers (h : c.Shows env a) (keys : List Bytes) :
    Answers (cmdExists env (name :: keys)) c
      (.exact (.int (Answer.existing env.now a keys 0))) := by
  unfold cmdExists
  rw [argsFrom_one_bind]
  exact Answers.bind_ok (countKeys_exists h keys 0) (Answers.pure _ _)

/-- The first loop of SINTER ends at the first key that holds no set, or has them all. -/
theorem collectSets_eq (h : c.Shows env a) : ∀ (keys : List Bytes) (acc : List SetVal),
    match Answer.sets env.now a keys with
    | .error reply => ∃ r, collectSets env keys acc c = (.ok (.error r), c) ∧ reply.Shows r
    | .ok ss => ∃ xs, collectSets env keys acc c = (.ok (.ok (acc ++ xs)), c) ∧
        List.Forall₂ SetVal.Repr xs ss
  | [], acc => ⟨[], by rw [List.append_nil]; rfl, .nil⟩
  | key :: keys, acc => by
      rw [Answer.sets]
      rcases lookup_cases h key with ⟨hlook, hlive⟩ | ⟨e, ae, hlook, hlive, he, -⟩
      · rw [hlive, collectSets, bind_apply_ok hlook]
        exact ⟨_, rfl, rfl⟩
      · rw [hlive, collectSets, bind_apply_ok hlook]
        simp only [he.1.kind_eq]
        rcases project_cases AVal.set?_isSome ae.value with ⟨hp, hne⟩ | ⟨x, hp, heq⟩
        · rw [if_pos hne, hp]
          exact ⟨_, rfl, rfl⟩
        · obtain ⟨s, hv, hr⟩ := he.set? hp
          have hrest := collectSets_eq h keys (acc ++ [s])
          rw [if_neg (not_not.mpr heq), hv, hp]
          simp only [Value.getSet, lift_ok_bind]
          cases hsets : Answer.sets env.now a keys with
          | error reply =>
            rw [hsets] at hrest
            exact hrest
          | ok ss =>
            rw [hsets] at hrest
            obtain ⟨xs, hc, hall⟩ := hrest
            refine ⟨s :: xs, ?_, .cons hr hall⟩
            rw [hc, List.append_assoc, List.singleton_append]

/-- The index of the smallest set is in range. -/
theorem smallestFrom_lt : ∀ (rest : List SetVal) (i best bestLen total : Nat),
    best < total → i + rest.length = total → smallestFrom rest i best bestLen < total
  | [], _, _, _, _, hbest, _ => hbest
  | s :: rest, i, best, bestLen, total, hbest, hlen => by
      have hnext : i + 1 + rest.length = total := by
        rw [List.length_cons] at hlen
        omega
      rw [smallestFrom]
      split
      · exact smallestFrom_lt rest (i + 1) i s.len total (by omega) hnext
      · exact smallestFrom_lt rest (i + 1) best bestLen total hbest hnext

/-- The innermost loop of SINTER looks the member up in every set but the `skip`th. -/
theorem inAllSets_eq (x : Bytes) (skip : Nat) : ∀ {sets : List SetVal} {ss : List (Finset Bytes)}
    (_ : List.Forall₂ SetVal.Repr sets ss) (i : Nat), ∃ b, inAllSets x skip sets i = .ok b ∧
      (b = true ↔ ∀ j s, ss[j]? = some s → i + j ≠ skip → x ∈ s)
  | [], [], .nil, _ => ⟨true, rfl, by simp⟩
  | s :: sets, t :: ss, .cons hr hall, i => by
      obtain ⟨b, hb, hiff⟩ := inAllSets_eq x skip hall (i + 1)
      have hsplit : (∀ j u, (t :: ss)[j]? = some u → i + j ≠ skip → x ∈ u) ↔
          (i ≠ skip → x ∈ t) ∧ b = true := by
        rw [hiff]
        constructor
        · intro hmem
          refine ⟨fun hi => hmem 0 t rfl (by simpa using hi), fun j u hu hj => ?_⟩
          exact hmem (j + 1) u (by simpa using hu) (by omega)
        · rintro ⟨hfirst, hrest⟩ j u hu hj
          cases j with
          | zero =>
            obtain rfl : t = u := by simpa using hu
            exact hfirst (by simpa using hj)
          | succ j => exact hrest j u (by simpa using hu) (by omega)
      rw [inAllSets]
      by_cases hi : i = skip
      · rw [if_pos hi]
        exact ⟨b, hb, by rw [hsplit]; simp [hi]⟩
      · rw [if_neg hi, SetVal.contains_repr hr]
        by_cases hx : x ∈ t
        · rw [decide_eq_true hx]
          exact ⟨b, hb, by rw [hsplit]; simp [hx]⟩
        · rw [decide_eq_false hx]
          exact ⟨false, rfl, by rw [hsplit]; simp [hi, hx]⟩

/-- The loop over the members of the smallest set keeps those that are in all others. -/
theorem interFrom_eq {sets : List SetVal} {ss : List (Finset Bytes)}
    (h : List.Forall₂ SetVal.Repr sets ss) (smallest : Nat) : ∀ xs : List Bytes,
    ∃ out, interFrom sets smallest xs = .ok out ∧ out.Sublist xs ∧
      ∀ x, x ∈ out ↔ x ∈ xs ∧ ∀ j s, ss[j]? = some s → j ≠ smallest → x ∈ s
  | [] => ⟨[], rfl, .slnil, by simp⟩
  | x :: xs => by
      obtain ⟨keep, hkeep, hiff⟩ := inAllSets_eq x smallest h 0
      obtain ⟨out, hout, hsub, hmem⟩ := interFrom_eq h smallest xs
      simp only [Nat.zero_add] at hiff
      refine ⟨if keep then x :: out else out, ?_, ?_, fun y => ?_⟩
      · rw [interFrom, hkeep]
        simp only [bind, Except.bind, hout]
      · cases keep with
        | true => exact hsub.cons_cons x
        | false => exact hsub.cons x
      · cases keep with
        | true =>
          have hall := hiff.mp rfl
          simp only [if_true, List.mem_cons, hmem]
          grind
        | false =>
          have hnot : ¬ ∀ j s, ss[j]? = some s → j ≠ smallest → x ∈ s :=
            fun hall => Bool.false_ne_true (hiff.mpr hall)
          simp only [Bool.false_eq_true, if_false, hmem, List.mem_cons]
          grind

/-- In the intersection, in all the sets. -/
theorem mem_inter_cons {x : Bytes} : ∀ {ss : List (Finset Bytes)} {s : Finset Bytes},
    x ∈ Answer.inter (s :: ss) ↔ ∀ t ∈ s :: ss, x ∈ t
  | [], s => by simp [Answer.inter]
  | t :: ss, s => by
      have hrest : x ∈ Answer.inter ((s ∩ t) :: ss) ↔ ∀ u ∈ (s ∩ t) :: ss, x ∈ u := mem_inter_cons
      have hstep : Answer.inter (s :: t :: ss) = Answer.inter ((s ∩ t) :: ss) := rfl
      rw [hstep, hrest]
      simp only [List.forall_mem_cons, Finset.mem_inter, and_assoc]

theorem sets_cons_ne_nil (key : Bytes) (keys : List Bytes) :
    Answer.sets env.now a (key :: keys) ≠ .ok [] := by
  intro h
  rw [Answer.sets] at h
  cases hlive : liveAt env.now (a key) with
  | none =>
    rw [hlive] at h
    cases h
  | some e =>
    simp only [hlive] at h
    cases hset : e.value.set? with
    | none =>
      rw [hset] at h
      cases h
    | some s =>
      rw [hset] at h
      cases hsets : Answer.sets env.now a keys with
      | error r =>
        rw [hsets] at h
        cases h
      | ok ss =>
        rw [hsets] at h
        cases h

/-- The loops of SINTER over the sets it has collected: what they have in common. -/
theorem interFrom_smallest {sets : List SetVal} {s : Finset Bytes} {ss : List (Finset Bytes)}
    (h : List.Forall₂ SetVal.Repr sets (s :: ss)) {smallest : Nat} (hlt : smallest < sets.length)
    (ord : MapOrder) :
    ∃ small xs out, Go.index sets smallest = .ok small ∧ small.members ord = .ok xs ∧
      interFrom sets smallest xs = .ok out ∧ out.Nodup ∧
        out.toFinset = Answer.inter (s :: ss) := by
  have hlt' : smallest < (s :: ss).length := by rwa [← h.length_eq]
  obtain ⟨xs, hmembers, hnodup, hset⟩ := SetVal.members_repr (h.get hlt hlt') ord
  obtain ⟨out, hout, hsub, hmem⟩ := interFrom_eq h smallest xs
  refine ⟨_, xs, out, ?_, hmembers, hout, hnodup.sublist hsub, ?_⟩
  · rw [Go.index, List.getElem?_eq_getElem hlt]
    rfl
  · ext x
    have hx : x ∈ xs ↔ x ∈ (s :: ss).get ⟨smallest, hlt'⟩ := by rw [← hset, List.mem_toFinset]
    rw [List.mem_toFinset, hmem, hx, mem_inter_cons]
    constructor
    · rintro ⟨hsmall, hothers⟩ t ht
      obtain ⟨j, hj⟩ := List.mem_iff_getElem?.mp ht
      by_cases hjs : j = smallest
      · subst hjs
        rw [List.getElem?_eq_getElem hlt'] at hj
        exact Option.some.inj hj ▸ hsmall
      · exact hothers j t hj hjs
    · intro hall
      exact ⟨hall _ (List.get_mem _ _), fun j t hj _ => hall t (List.mem_of_getElem? hj)⟩

/-- SINTER: an error, or the members all sets have, whichever set is walked. -/
theorem cmdSInter_answers (h : c.Shows env a) (key : Bytes) (keys : List Bytes) :
    Answers (cmdSInter env (name :: key :: keys)) c
      (match Answer.sets env.now a (key :: keys) with
        | .error reply => reply
        | .ok ss => .members (Answer.inter ss)) := by
  have hcollect := collectSets_eq h (key :: keys) []
  unfold cmdSInter
  rw [argsFrom_one_bind]
  cases hsets : Answer.sets env.now a (key :: keys) with
  | error reply =>
    rw [hsets] at hcollect
    obtain ⟨r, hc, hr⟩ := hcollect
    exact Answers.bind_ok hc ⟨r, rfl, hr⟩
  | ok ss =>
    rw [hsets] at hcollect
    obtain ⟨sets, hc, hall⟩ := hcollect
    refine Answers.bind_ok hc ?_
    cases hall with
    | nil => exact absurd hsets (sets_cons_ne_nil key keys)
    | @cons first s rest ss hr hall =>
      have hlt : smallestFrom (first :: rest) 0 0 first.len < (first :: rest).length :=
        smallestFrom_lt _ 0 0 _ _ (Nat.succ_pos _) (Nat.zero_add _)
      obtain ⟨small, xs, out, hsmall, hmembers, hout, hnodup, hinter⟩ :=
        interFrom_smallest (.cons hr hall) hlt env.ord
      have hfirst : Go.index (first :: rest) 0 = .ok first := rfl
      simp only [List.nil_append, hfirst, hsmall, hmembers, hout, lift_ok_bind]
      exact ⟨_, rfl, out, hnodup, hinter, rfl⟩

end Several

/-! ## Every command -/

section Commands

variable {n m : Nat} {env : Env m} {c : Context n m} {a : ADB} {args : List Bytes}

/-- A command on one key does what its arguments parse to. -/
theorem effect_singleKey {cmd : Command n m} {name key : Bytes} {rest : List Bytes}
    (hwhole : cmd.wholeDB = false)
    (hdel : ¬ (cmd.name = ascii "del" ∨ cmd.name = ascii "unlink")) :
    cmd.effect env.now env.limits env.host (name :: key :: rest) a
      = afterOp env (KeyOp.parse env.host cmd.name rest) key a := by
  funext key'
  unfold Command.effect Command.opAt afterOp
  simp only [hwhole, Bool.false_eq_true, if_false, if_neg hdel]
  by_cases hk : key' = key
  · subst hk
    cases KeyOp.parse env.host cmd.name rest <;> simp
  · cases KeyOp.parse env.host cmd.name rest <;> simp [hk]

/-- DEL and UNLINK take all their keys away. -/
theorem effect_remove {cmd : Command n m} {name : Bytes} {keys : List Bytes}
    (hwhole : cmd.wholeDB = false)
    (hdel : cmd.name = ascii "del" ∨ cmd.name = ascii "unlink") :
    cmd.effect env.now env.limits env.host (name :: keys) a
      = fun key => if key ∈ keys then none else a key := by
  funext key
  unfold Command.effect Command.opAt
  simp only [hwhole, Bool.false_eq_true, if_false, if_pos hdel, List.tail_cons]
  by_cases hk : key ∈ keys
  · simp [hk, KeyOp.apply]
  · simp [hk]

/-- A command whose name is not that of a write does nothing to any key. -/
theorem opAt_none {host : Host} {cmd : Command n m} (hwhole : cmd.wholeDB = false)
    (hdel : ¬ (cmd.name = ascii "del" ∨ cmd.name = ascii "unlink"))
    (hparse : ∀ rest, KeyOp.parse host cmd.name rest = none) (args : List Bytes) (key : Bytes) :
    cmd.opAt host args key = none := by
  unfold Command.opAt
  rw [hwhole, if_neg Bool.false_ne_true, if_neg hdel]
  match args with
  | [] | [_] => rfl
  | _ :: key' :: rest =>
    simp only [hparse]
    exact ite_self none

theorem effect_none {cmd : Command n m} (hwhole : cmd.wholeDB = false)
    (hdel : ¬ (cmd.name = ascii "del" ∨ cmd.name = ascii "unlink"))
    (hparse : ∀ rest, KeyOp.parse env.host cmd.name rest = none) :
    cmd.effect env.now env.limits env.host args a = a := by
  funext key
  rw [Command.effect, opAt_none hwhole hdel hparse]

/-- A request that only looks leaves the database standing for the same. -/
theorem Looks.shows {p : Cmd n m Reply} (h : Looks p) (hs : c.Shows env a) :
    (p c).2.Shows env a := by
  have hu := h c
  unfold Context.Shows Context.db
  rw [hu.databases, hu.index]
  exact hs

/-- **The commands of one key**, from their arguments after the key. -/
theorem singleKey_does (hs : c.Shows env a) {name key : Bytes} {rest : List Bytes} :
    ∀ cmd ∈ (registry : List (Command n m)), cmd.singleKey = true →
    cmd.accepts (name :: key :: rest).length = true →
    ¬ cmd.Crashes env.now (name :: key :: rest) a →
    Does env (cmd.run env (name :: key :: rest)) c
      (Answer.single env.now env.limits env.host cmd.name name rest (liveAt env.now (a key)))
      (afterOp env (KeyOp.parse env.host cmd.name rest) key a) := by
  -- a read keeps to the footprint that lets nothing be changed
  have hF : Framed (n := n) (m := m) Eq Unchanged := Looks.framed
  have hr : ReadAccess (n := n) Eq Unchanged env key := Looks.reads env key
  have hread {p : Cmd n m Reply} {spec : AReply} (hp : Within Eq Unchanged p)
      (h : Answers p c spec) : Does env p c spec a := ⟨h, Looks.shows hp.frame hs⟩
  refine forall_singleKey ?_ ?_ ?_ ?_ ?_ ?_
  · simp only [stringCommands, List.forall_mem_cons]
    refine ⟨fun _ _ => hread (cmdGet_within env hF hr rest) (cmdGet_answers hs rest),
      fun hacc _ => ?_, fun _ _ => incrBy_does hs 1, fun _ _ => incrBy_does hs (-1),
      List.forall_mem_nil _⟩
    cases rest with
    | nil => cases hacc
    | cons v rest => exact cmdSet_does hs v rest
  · simp only [keyCommands, List.drop_succ_cons, List.drop_zero, List.forall_mem_cons]
    refine ⟨fun hacc _ => ?_, fun hacc _ => ?_,
      fun _ _ => hread (cmdTTL_within env hF hr rest) (cmdTTL_answers hs rest),
      fun _ _ => cmdPersist_does hs rest,
      fun _ _ => hread (cmdType_within env hF hr rest) (cmdType_answers hs rest),
      List.forall_mem_nil _⟩
    · cases rest with
      | nil => cases hacc
      | cons arg2 rest => exact cmdExpire_does hs arg2 rest
    · cases rest with
      | nil => cases hacc
      | cons arg2 rest => exact cmdPExpireAt_does hs arg2 rest
  · simp only [listCommands, List.forall_mem_cons]
    refine ⟨fun _ _ => listPush_does hs true rest, fun _ _ => listPush_does hs false rest,
      fun _ hno => listPop_does hs true fun hbig => hno ⟨.inl rfl, hbig⟩,
      fun _ hno => listPop_does hs false fun hbig => hno ⟨.inr rfl, hbig⟩, fun hacc _ => ?_,
      fun _ _ => hread (cmdLLen_within env hF hr rest) (cmdLLen_answers hs rest),
      List.forall_mem_nil _⟩
    rcases rest with _ | ⟨arg2, _ | ⟨arg3, rest⟩⟩
    · cases hacc
    · cases hacc
    · exact hread (cmdLRange_within env hF hr _) (cmdLRange_answers hs arg2 arg3 rest)
  · simp only [hashCommands, List.forall_mem_cons]
    refine ⟨fun _ _ => cmdHSet_does hs rest, fun hacc _ => ?_, fun _ _ => cmdHDel_does hs rest,
      fun _ _ => hread (cmdHGetAll_within env hF hr rest) (cmdHGetAll_answers hs rest),
      List.forall_mem_nil _⟩
    cases rest with
    | nil => cases hacc
    | cons field rest => exact hread (cmdHGet_within env hF hr _) (cmdHGet_answers hs field rest)
  · simp only [setCommands, List.take_succ_cons, List.take_zero, List.forall_mem_cons]
    exact ⟨fun _ _ => cmdSAdd_does hs rest, fun _ _ => cmdSRem_does hs rest,
      fun _ _ => hread (cmdSMembers_within env hF hr rest) (cmdSMembers_answers hs rest),
      List.forall_mem_nil _⟩
  · simp only [zsetCommands, List.forall_mem_cons]
    refine ⟨fun _ _ => cmdZAdd_does hs rest, fun hacc _ => ?_, fun hacc _ => ?_,
      List.forall_mem_nil _⟩
    · rcases rest with _ | ⟨arg2, _ | ⟨arg3, rest⟩⟩
      · cases hacc
      · cases hacc
      · exact hread (cmdZRange_within env hF hr _) (cmdZRange_answers hs arg2 arg3 rest)
    · cases rest with
      | nil => cases hacc
      | cons member rest =>
        exact hread (cmdZScore_within env hF hr _) (cmdZScore_answers hs member rest)

/-- **The commands of several keys.** -/
theorem multiKey_does (hs : c.Shows env a) {name key : Bytes} {keys : List Bytes} :
    ∀ cmd ∈ (registry : List (Command n m)), cmd.firstKey = 1 → cmd.lastKey = -1 →
    Does env (cmd.run env (name :: key :: keys)) c (Answer.multi env.now cmd.name (key :: keys) a)
      (cmd.effect env.now env.limits env.host (name :: key :: keys) a) := by
  have hr : ∀ k ∈ key :: keys, ReadAccess (n := n) Eq Unchanged env k := fun k _ => Looks.reads env k
  refine forall_multiKey ?_ ?_ ⟨cmdExists_answers hs (key :: keys), ?_⟩
    ⟨cmdSInter_answers hs key keys, ?_⟩
  · rw [effect_remove rfl (.inl rfl)]
    exact cmdDel_does hs (key :: keys)
  · rw [effect_remove rfl (.inr rfl)]
    show Does env (cmdUnlink env (name :: key :: keys)) c _ _
    rw [cmdUnlink_eq]
    exact cmdDel_does hs (key :: keys)
  · rw [effect_none rfl (show ¬ (ascii "exists" = _ ∨ ascii "exists" = _) by decide) fun _ => rfl]
    exact Looks.shows (cmdExists_within env Looks.framed hr).frame hs
  · rw [effect_none rfl (show ¬ (ascii "sinter" = _ ∨ ascii "sinter" = _) by decide) fun _ => rfl]
    exact Looks.shows (cmdSInter_within env Looks.framed hr).frame hs

theorem not_crashes {now : Time} {cmd : Command n m}
    (h : ¬ (cmd.name = ascii "lpop" ∨ cmd.name = ascii "rpop")) : ¬ cmd.Crashes now args a :=
  fun hc => h hc.1

/-- A command that panics leaves everything as it is. -/
theorem run_panics {cmd : Command n m} (hcmd : cmd ∈ registry) (hs : c.Shows env a)
    (h : cmd.Crashes env.now args a) : cmd.run env args c = (.error .makeslice, c) := by
  obtain ⟨hname, hargs⟩ := h
  match args, hargs with
  | _ :: key :: rest, ⟨hsize, hlist⟩ =>
    -- names are unique, so the command is LPOP or RPOP
    rcases hname with hname | hname
    · obtain rfl := List.inj_on_of_nodup_map registry_names_nodup hcmd
        (show Command.writeKey "lpop" (-2) cmdLPop ∈ registry by simp [registry, listCommands]) hname
      exact listPop_panics hs true hsize hlist
    · obtain rfl := List.inj_on_of_nodup_map registry_names_nodup hcmd
        (show Command.writeKey "rpop" (-2) cmdRPop ∈ registry by simp [registry, listCommands]) hname
      exact listPop_panics hs false hsize hlist

/-- DEL and UNLINK take several keys. -/
theorem singleKey_name {cmd : Command n m} (hcmd : cmd ∈ registry) (hs : cmd.singleKey = true) :
    ¬ (cmd.name = ascii "del" ∨ cmd.name = ascii "unlink") := by
  have hall : ∀ r ∈ rows, r.singleKey = true →
      ¬ (r.name = ascii "del" ∨ r.name = ascii "unlink") := by
    decide
  exact hall _ (row_mem hcmd) hs

/-- FLUSHDB answers OK to any arguments. -/
theorem answer_whole {now : Time} {lim : Limits} {host : Host} :
    (Command.whole "flushdb" (-1) fun _ => cmdFlushDB : Command n m).answer now lim host args a
      = .exact .ok := by
  match args with
  | [] | [_] | _ :: _ :: _ => rfl

/-- **The handlers do what their commands are for**: unless it panics, a command on data replies what its
answer is for the database, and leaves the database after its effect. -/
theorem run_does {cmd : Command n m} (hcmd : cmd ∈ registry) (hdata : cmd.onData = true)
    (hacc : cmd.accepts args.length = true) (hs : c.Shows env a)
    (hno : ¬ cmd.Crashes env.now args a) :
    Does env (cmd.run env args) c (cmd.answer env.now env.limits env.host args a)
      (cmd.effect env.now env.limits env.host args a) := by
  cases takes_of_accepts hcmd hacc with
  | single hkey =>
    have hpart : cmd.wholeDB = false := by
      simp only [Command.singleKey, Bool.and_eq_true, Bool.not_eq_true'] at hkey
      exact hkey.2
    rw [Command.answer, if_pos hkey, effect_singleKey hpart (singleKey_name hcmd hkey)]
    exact singleKey_does hs cmd hcmd hkey hacc hno
  | multi hfirst hlast _ hpart =>
    rw [Command.answer, if_neg (by simp [Command.singleKey, hlast]), hpart,
      if_neg Bool.false_ne_true]
    exact multiKey_does hs cmd hcmd hfirst hlast
  | whole his =>
    subst his
    rw [answer_whole]
    exact cmdFlushDB_does args
  | ping his | select his | config his =>
    subst his
    cases hdata

theorem run_answers {cmd : Command n m} (hcmd : cmd ∈ registry) (hdata : cmd.onData = true)
    (hacc : cmd.accepts args.length = true) (hs : c.Shows env a)
    (hno : ¬ cmd.Crashes env.now args a) :
    Answers (cmd.run env args) c (cmd.answer env.now env.limits env.host args a) :=
  (run_does hcmd hdata hacc hs hno).answers

/-- A command on data leaves the selection, the settings and the other databases alone. -/
theorem run_frame {cmd : Command n m} (hcmd : cmd ∈ registry) (hdata : cmd.onData = true)
    (env : Env m) {args : List Bytes} (hacc : cmd.accepts args.length = true) (c : Context n m) :
    Frame Finset.univ c (cmd.run env args c).2 := by
  cases takes_of_accepts hcmd hacc with
  | @single name key rest hkey =>
    have htouch : Touches Finset.univ (cmd.run env (name :: key :: rest)) :=
      singleKey_touches env (Finset.mem_univ _) rest cmd hcmd hkey
    exact htouch.frame c
  | @multi name key keys hfirst hlast _ _ =>
    have htouch : Touches Finset.univ (cmd.run env (name :: key :: keys)) :=
      multiKey_touches env (fun _ _ => Finset.mem_univ _) cmd hcmd hfirst hlast
    exact htouch.frame c
  | whole his =>
    subst his
    exact (cmdFlushDB_touches args).frame c
  | ping his | select his | config his =>
    subst his
    cases hdata

/-- A pop that panics has not touched anything. -/
theorem effect_of_crashes {cmd : Command n m} {now : Time} {lim : Limits} {host : Host}
    {args : List Bytes} {a : ADB} (hcmd : cmd ∈ registry) (h : cmd.Crashes now args a) :
    cmd.effect now lim host args a = a := by
  obtain ⟨hname, hargs⟩ := h
  have hmeta : cmd.wholeDB = false ∧ ¬ (cmd.name = ascii "del" ∨ cmd.name = ascii "unlink") := by
    have hall : ∀ r ∈ rows, (r.name = ascii "lpop" ∨ r.name = ascii "rpop") →
        r.wholeDB = false ∧ ¬ (r.name = ascii "del" ∨ r.name = ascii "unlink") := by
      decide
    exact hall _ (row_mem hcmd) hname
  match args, hargs with
  | _ :: key :: rest, ⟨hsize, _⟩ =>
    have hcount : KeyOp.popCount rest = none := by
      match rest, hsize with
      | [count], hsize =>
        unfold KeyOp.popCount
        simp only [hsize, or_true, if_true]
        split <;> rfl
    have hlpop : KeyOp.parse host (ascii "lpop") rest
        = (KeyOp.popCount rest).map fun count => .modify (.pop true count) := rfl
    have hrpop : KeyOp.parse host (ascii "rpop") rest
        = (KeyOp.popCount rest).map fun count => .modify (.pop false count) := rfl
    have hparse : KeyOp.parse host cmd.name rest = none := by
      rcases hname with hname | hname
      · rw [hname, hlpop, hcount, Option.map_none]
      · rw [hname, hrpop, hcount, Option.map_none]
    funext key'
    unfold Command.effect Command.opAt
    simp only [hmeta.1, Bool.false_eq_true, if_false, if_neg hmeta.2, hparse, ite_self]

/-- **The databases after a command** stand for those before it, with its effect on the selected one. -/
theorem run_refines {cmd : Command n m} (hcmd : cmd ∈ registry)
    (hacc : cmd.accepts args.length = true) {A : Fin n → ADB}
    (h : Databases.Repr env c.databases A) :
    Databases.Repr env (cmd.run env args c).2.databases
      (Function.update A c.index
        (cmd.effect env.now env.limits env.host args (A c.index))) := by
  have hs : c.Shows env (A c.index) := h c.index
  cases hdata : cmd.onData with
  | true =>
    by_cases hcrash : cmd.Crashes env.now args (A c.index)
    · rw [run_panics hcmd hs hcrash, effect_of_crashes hcmd hcrash, Function.update_eq_self]
      exact h
    · exact h.of_frame (run_frame hcmd hdata env hacc c) (run_does hcmd hdata hacc hs hcrash).shows
  | false =>
    -- PING, SELECT and CONFIG have no effect on data
    cases takesPlain_of_accepts hcmd hdata hacc with
    | ping his =>
      subst his
      rw [effect_none rfl (show ¬ (ascii "ping" = _ ∨ ascii "ping" = _) by decide) fun _ => rfl,
        Function.update_eq_self]
      exact (cmdPing_looks args c).databases ▸ h
    | select his =>
      subst his
      rw [effect_none rfl (show ¬ (ascii "select" = _ ∨ ascii "select" = _) by decide)
        fun _ => rfl, Function.update_eq_self]
      exact cmdSelect_databases _ c ▸ h
    | config his =>
      subst his
      rw [effect_none rfl (show ¬ (ascii "config" = _ ∨ ascii "config" = _) by decide)
        fun _ => rfl, Function.update_eq_self]
      exact (cmdConfig_looks env _ c).databases ▸ h

/-! ## Panics

`make([]Reply, 0, n)` panics when `n` replies do not fit the address space, and a client chooses `n`. -/

theorem cmdSelect_ok {name arg1 : Bytes} {rest : List Bytes} :
    ∃ r, ((cmdSelect (name :: arg1 :: rest) : Cmd n m Reply) c).1 = .ok r := by
  unfold cmdSelect
  rw [arg_one_bind]
  cases parseInt arg1 with
  | none => exact ⟨_, rfl⟩
  | some index =>
    by_cases h : 0 ≤ index ∧ index.toNat < n
    · simp only [bind_apply_ok (select_of_lt h c)]
      exact ⟨_, rfl⟩
    · simp only [bind_apply_ok (select_of_not_lt h c)]
      exact ⟨_, rfl⟩

/-- CONFIG checks the number of its arguments before it indexes them. -/
theorem cmdConfig_ok {name arg1 : Bytes} {rest : List Bytes} :
    ∃ r, (cmdConfig env (name :: arg1 :: rest) c).1 = .ok r := by
  unfold cmdConfig
  rw [bind_apply_ok (show getSettings c = (.ok c.settings, c) from rfl)]
  cases c.settings with
  | none => exact ⟨_, rfl⟩
  | some r =>
    simp only [arg_one_bind]
    split
    next =>
      match rest with
      | [] | _ :: _ :: _ => exact ⟨_, rfl⟩
      | [_] => exact ⟨_, rfl⟩
    next =>
      split
      next =>
        match rest with
        | [] | [_] | _ :: _ :: _ :: _ => exact ⟨_, rfl⟩
        | [param, val] =>
          rw [if_neg (by simp), args_two_three_bind]
          cases r.set env.host (env.host.toLower param) val <;> exact ⟨_, rfl⟩
      next => exact ⟨_, rfl⟩

/-- **A command panics in one case only**: a pop from a live list whose count is too big to make
room for the reply. -/
theorem run_completes_iff {cmd : Command n m} (hcmd : cmd ∈ registry)
    (hacc : cmd.accepts args.length = true) (hs : c.Shows env a) :
    (∃ r, (cmd.run env args c).1 = .ok r) ↔ ¬ cmd.Crashes env.now args a := by
  cases hdata : cmd.onData with
  | true =>
    constructor
    · rintro ⟨r, hr⟩ hcrash
      rw [run_panics hcmd hs hcrash] at hr
      cases hr
    · intro hno
      obtain ⟨r, hr, -⟩ := run_answers hcmd hdata hacc hs hno
      exact ⟨r, hr⟩
  | false =>
    have hname : ¬ (cmd.name = ascii "lpop" ∨ cmd.name = ascii "rpop") := by
      have hall : ∀ r ∈ rows, r.onData = false → ¬ (r.name = ascii "lpop" ∨ r.name = ascii "rpop") := by
        decide
      exact hall _ (row_mem hcmd) hdata
    refine iff_of_true ?_ (not_crashes hname)
    cases takesPlain_of_accepts hcmd hdata hacc with
    | ping his =>
      subst his
      match args with
      | [] | [_] | [_, _] | _ :: _ :: _ :: _ => exact ⟨_, rfl⟩
    | select his =>
      subst his
      exact cmdSelect_ok
    | config his =>
      subst his
      exact cmdConfig_ok

end Commands

end Memcore
