import Memcore.Server.ActiveExpiry
import Memcore.Server.Spec
import Memcore.Value.Ranking

/-!
# What of its configuration a server shows

The abstract server knows of no shards, hashes, iteration orders and random levels, so what they are
cannot show in a reply, except in the order of what SMEMBERS, SINTER and HGETALL list. It knows the
thresholds in one place: a sorted set that is packed takes the bits of a new score, and a promoted one
keeps the bits it has when the new score is equal to them. Only the two zeros are equal and differ, so
the thresholds cannot show either as long as no client sends the negative one.
-/

namespace Memcore

open Go

variable {κ : Type} {n m : Nat}

/-! ## Scores without a negative zero -/

/-- The zero with a sign. -/
def Score.negZero : Score := ⟨0x8000000000000000⟩

/-- Without the negative zero, equal numbers have equal bits. -/
theorem Score.eq_of_eq {a b : Score} (ha : a ≠ negZero) (hb : b ≠ negZero) (h : a.eq b = true) :
    a = b := by
  have hbits {s : Score} (hs : s ≠ negZero) : s.bits.toNat ≠ 2 ^ 63 := by
    intro heq
    exact hs (Score.ext (UInt64.toNat_inj.mp heq))
  simp only [Score.eq, Bool.and_eq_true, decide_eq_true_eq] at h
  have hplace := h.2
  have hna := hbits ha
  have hnb := hbits hb
  have hlta := a.bits.toNat_lt
  have hltb := b.bits.toNat_lt
  unfold Score.place Score.magnitude at hplace
  refine Score.ext (UInt64.toNat_inj.mp ?_)
  split at hplace <;> split at hplace <;> omega

/-- A sorted set whose zeros have no sign. -/
structure PlainScores (es : List ZMember) : Prop where
  ordered : ZOrdered es
  unsigned : ∀ e ∈ es, e.score ≠ .negZero

/-- A score a client may send. -/
def ZMember.Plain (e : ZMember) : Prop := e.score.isNaN = false ∧ e.score ≠ .negZero

section Put

variable {es : List ZMember} {e : ZMember}

/-- Such a score is set alike in a pack and in a promoted set. -/
theorem PlainScores.zput_eq (h : PlainScores es) (he : e.Plain) (max : Thresholds) :
    zput max e es = zinsert e (zerase e.member es) := by
  obtain ⟨m, hm⟩ : ∃ m, Lists (es.map fun e => (e.member, e.score)) m :=
    Lists.exists_of_nodup (by simpa [Function.comp_def] using h.ordered.nodup)
  have hbits : HoldsBits es m := ⟨h.ordered, hm⟩
  refine zput_of_keepsBits hbits fun old hold heq => ?_
  rw [← hbits.zscore_eq] at hold
  exact Score.eq_of_eq (h.unsigned _ (h.ordered.zscore_eq_some.mp hold)) he.2 heq

theorem PlainScores.zput (h : PlainScores es) (he : e.Plain) (max : Thresholds) :
    PlainScores (zput max e es) := by
  refine ⟨h.ordered.zput max he.1, fun x hx => ?_⟩
  rw [h.zput_eq he] at hx
  rcases mem_zinsert_zerase hx with rfl | ⟨-, hmem⟩
  · exact he.2
  · exact h.unsigned x hmem

variable (max max' : Thresholds)

theorem PlainScores.foldl : ∀ {es : List ZMember} (ps : List ZMember), PlainScores es →
    (∀ e ∈ ps, e.Plain) →
    ps.foldl (fun es e => Memcore.zput max e es) es
        = ps.foldl (fun es e => Memcore.zput max' e es) es ∧
      PlainScores (ps.foldl (fun es e => Memcore.zput max e es) es)
  | _, [], h, _ => ⟨rfl, h⟩
  | es, e :: ps, h, hps => by
      obtain ⟨he, hps⟩ := List.forall_mem_cons.mp hps
      have hsame : Memcore.zput max e es = Memcore.zput max' e es := by
        rw [h.zput_eq he, h.zput_eq he]
      rw [List.foldl_cons, List.foldl_cons, ← hsame]
      exact PlainScores.foldl ps (h.zput he max) hps

theorem PlainScores.scoresAdded : ∀ {es : List ZMember} (ps : List ZMember) (k : Int),
    PlainScores es → (∀ e ∈ ps, e.Plain) →
    Memcore.scoresAdded max ps es k = Memcore.scoresAdded max' ps es k
  | _, [], _, _, _ => rfl
  | es, e :: ps, k, h, hps => by
      obtain ⟨he, hps⟩ := List.forall_mem_cons.mp hps
      have hsame : Memcore.zput max e es = Memcore.zput max' e es := by
        rw [h.zput_eq he, h.zput_eq he]
      rw [Memcore.scoresAdded, Memcore.scoresAdded, ← hsame]
      exact PlainScores.scoresAdded ps _ (h.zput he max) hps

end Put

/-! ## Entries and databases -/

/-- A sorted set of the database has no negative zero. -/
def AVal.Plain : AVal → Prop
  | .zset es => PlainScores es
  | _ => True

/-- No sorted set of the database has a negative zero. -/
def ADB.Plain (a : ADB) : Prop := ∀ key e, a key = some e → e.value.Plain

/-- No score of the operation is a negative zero. -/
def KeyOp.Plain : KeyOp → Prop
  | .modify (.zadd ps) => ∀ e ∈ ps, e.Plain
  | _ => True

section Operations

variable (lim lim' : Limits) {now : Time}

theorem ValueOp.create_plain {op : ValueOp} (hop : (KeyOp.modify op).Plain) :
    op.create lim = op.create lim' ∧ ∀ v, op.create lim = some v → v.Plain := by
  cases op with
  | zadd ps =>
    obtain ⟨hsame, hplain⟩ := PlainScores.foldl lim.zset lim'.zset ps ⟨.empty, nofun⟩ hop
    refine ⟨congrArg (fun es => some (AVal.zset es)) hsame, fun v hv => ?_⟩
    cases hv
    exact hplain
  | incr delta =>
    refine ⟨rfl, fun v hv => ?_⟩
    obtain ⟨k, -, rfl⟩ := Option.map_eq_some_iff.mp hv
    trivial
  | push | hset | sadd =>
    refine ⟨rfl, fun v hv => ?_⟩
    cases hv
    trivial
  | pop | hdel | srem => exact ⟨rfl, fun v hv => by cases hv⟩

/-- An update never changes the kind of a value. -/
theorem ValueOp.update_kind {lim : Limits} {op : ValueOp} {v w : AVal}
    (h : op.update lim v = some w) : w.kind = v.kind := by
  have hstored {x y : AVal} {k : Kind} (h : some x = some y) (hk : x.kind = k) : y.kind = k := by
    cases h
    exact hk
  have hshrunk {x y : AVal} {k : Kind} (h : x.nonEmpty = some y) (hk : x.kind = k) :
      y.kind = k := by
    unfold AVal.nonEmpty at h
    split at h
    · cases h
    · exact hstored h hk
  cases op <;> cases v <;> first | exact hstored h rfl | exact hshrunk h rfl

theorem AVal.plain_of_kind {v : AVal} (h : v.kind ≠ .zset) : v.Plain := by
  cases v with
  | zset => exact absurd rfl h
  | str | list | hash | set => trivial

theorem ValueOp.update_plain {op : ValueOp} (hop : (KeyOp.modify op).Plain) {v : AVal}
    (hv : v.Plain) :
    op.update lim v = op.update lim' v ∧ ∀ w, op.update lim v = some w → w.Plain := by
  by_cases hz : (∃ ps, op = .zadd ps) ∧ v.kind = .zset
  · obtain ⟨⟨ps, rfl⟩, hkind⟩ := hz
    cases v with
    | zset es =>
      obtain ⟨hput, hplain⟩ := PlainScores.foldl lim.zset lim'.zset ps hv hop
      refine ⟨congrArg (fun es => some (AVal.zset es)) hput, fun w hw => ?_⟩
      cases hw
      exact hplain
    | str | list | hash | set => cases hkind
  · -- the thresholds are not looked at, and a sorted set stays what it is
    refine ⟨?_, fun w hw => ?_⟩
    · cases op <;> cases v <;> first | rfl | exact absurd ⟨⟨_, rfl⟩, rfl⟩ hz
    · by_cases hkind : v.kind = .zset
      · have hsame : op.update lim v = some v := by
          cases v with
          | zset es => cases op <;> first | rfl | exact absurd ⟨⟨_, rfl⟩, rfl⟩ hz
          | str | list | hash | set => cases hkind
        rw [hsame] at hw
        exact Option.some.inj hw ▸ hv
      · exact AVal.plain_of_kind (ValueOp.update_kind hw ▸ hkind)

theorem KeyOp.apply_plain {op : KeyOp} (hop : op.Plain) {o : Option AEntry}
    (ho : ∀ e, o = some e → e.value.Plain) :
    op.apply now lim o = op.apply now lim' o ∧
      ∀ e, op.apply now lim o = some e → e.value.Plain := by
  have hlive {e : AEntry} (h : liveAt now o = some e) : e.value.Plain := ho e (liveAt_eq_some h).1
  unfold KeyOp.apply
  cases hl : liveAt now o with
  | none =>
    cases op with
    | put v =>
      refine ⟨rfl, fun e he => ?_⟩
      cases he
      trivial
    | remove => exact ⟨rfl, fun e he => by cases he⟩
    | expireAt | expireIn | persist => exact ⟨rfl, ho⟩
    | modify op =>
      -- the limits come in where a value is made or grows
      obtain ⟨hsame, hplain⟩ := ValueOp.create_plain lim lim' hop
      simp only [← hsame, true_and]
      cases hc : op.create lim with
      | none => exact ho
      | some v =>
        intro e he
        cases he
        exact hplain v hc
  | some e =>
    have he := hlive hl
    cases op with
    | put v =>
      refine ⟨rfl, fun e he => ?_⟩
      cases he
      trivial
    | remove => exact ⟨rfl, fun e he => by cases he⟩
    | expireAt | expireIn | persist =>
      refine ⟨rfl, fun e' he' => ?_⟩
      cases he'
      exact he
    | modify op =>
      obtain ⟨hsame, hplain⟩ := ValueOp.update_plain lim lim' hop he
      simp only [← hsame, true_and]
      intro e' he'
      obtain ⟨w, hw, rfl⟩ := Option.map_eq_some_iff.mp he'
      exact hplain w hw

end Operations

/-! ## Requests -/

/-- If the request is a ZADD, none of its scores is a negative zero. -/
def Call.NoNegZero (host : Host) (q : Call κ) : Prop :=
  ∀ cmd, resolveRow q.args = .ok cmd → cmd.name = ascii "zadd" →
    ∀ ps, parsePairs host (q.args.drop 2) [] = some ps → ∀ e ∈ ps, e.score ≠ .negZero

section Requests

variable {host : Host} {q : Call κ} {cmd : Command 0 0} {a : ADB} (lim lim' : Limits)

theorem Call.NoNegZero.pairs (h : q.NoNegZero host) (hres : resolveRow q.args = .ok cmd)
    (hname : cmd.name = ascii "zadd") {name key : Bytes} {rest : List Bytes}
    (hargs : q.args = name :: key :: rest) {ps : List ZMember}
    (hps : parsePairs host rest [] = some ps) : ∀ e ∈ ps, e.Plain := by
  intro e he
  refine ⟨parsePairs_number rest hps nofun e he, h cmd hres hname ps ?_ e he⟩
  rw [hargs]
  exact hps

/-- The operation of a request on a key. -/
theorem Call.NoNegZero.opAt (h : q.NoNegZero host) (hres : resolveRow q.args = .ok cmd) {key : Bytes}
    {op : KeyOp} (hop : cmd.opAt host q.args key = some op) : op.Plain := by
  unfold Command.opAt at hop
  split_ifs at hop with hwhole hdel hmem
  · cases hop
    trivial
  · cases hop
    trivial
  · cases hargs : q.args with
    | nil =>
      rw [hargs] at hop
      cases hop
    | cons name tail =>
      cases tail with
      | nil =>
        rw [hargs] at hop
        cases hop
      | cons key' rest =>
        simp only [hargs] at hop
        split_ifs at hop
        cases KeyOp.parse_parsed hop with
        | zadd hname hps => exact h.pairs hres hname hargs hps
        | set | count | expire | pexpireat | persist | push | pop | hset | hdel | sadd | srem =>
          trivial

theorem effect_plain (h : q.NoNegZero host) (hres : resolveRow q.args = .ok cmd) (ha : a.Plain) :
    cmd.effect q.now lim host q.args a = cmd.effect q.now lim' host q.args a ∧
      ADB.Plain (cmd.effect q.now lim host q.args a) := by
  have hkey (key : Bytes) : cmd.effect q.now lim host q.args a key
      = cmd.effect q.now lim' host q.args a key ∧
      ∀ e, cmd.effect q.now lim host q.args a key = some e → e.value.Plain := by
    unfold Command.effect
    cases hop : cmd.opAt host q.args key with
    | none => exact ⟨rfl, ha key⟩
    | some op => exact KeyOp.apply_plain lim lim' (h.opAt hres hop) (ha key)
  exact ⟨funext fun key => (hkey key).1, fun key => (hkey key).2⟩

/-- What ZADD answers. -/
theorem zadd_plain {rest : List Bytes} {o : Option AEntry}
    (hrest : ∀ ps, parsePairs host rest [] = some ps → ∀ e ∈ ps, e.Plain)
    (ho : ∀ e, o = some e → e.value.Plain) :
    Answer.zadd host lim rest o = Answer.zadd host lim' rest o := by
  unfold Answer.zadd
  split
  · cases hps : parsePairs host rest [] with
    | none => rfl
    | some ps =>
      have hsame {es : List ZMember} (hes : PlainScores es) :=
        PlainScores.scoresAdded lim.zset lim'.zset ps 0 hes (hrest ps hps)
      simp only [hsame ⟨.empty, nofun⟩]
      cases o with
      | none => rfl
      | some e =>
        obtain ⟨v, at'⟩ := e
        have hv := ho _ rfl
        cases v with
        | zset es =>
          show AReply.exact (.int (scoresAdded lim.zset ps es 0)) = _
          rw [hsame hv]
          rfl
        | str | list | hash | set => rfl
  · rfl

theorem answer_plain (h : q.NoNegZero host) (hres : resolveRow q.args = .ok cmd) (ha : a.Plain) :
    cmd.answer q.now lim host q.args a = cmd.answer q.now lim' host q.args a := by
  unfold Command.answer
  cases hargs : q.args with
  | nil => rfl
  | cons name tail =>
    cases tail with
    | nil => rfl
    | cons key rest =>
      simp only
      congr 1
      unfold Answer.single
      by_cases hname : cmd.name = ascii "zadd"
      · rw [zadd_plain lim lim' (fun ps => h.pairs hres hname hargs)
          fun e he => ha key e (liveAt_eq_some he).1]
      · simp only [if_neg hname]

end Requests

/-! ## The abstract server -/

/-- No database of the server has a negative zero. -/
def AServer.Plain (A : AServer κ n) : Prop := ∀ d, ADB.Plain (A.databases d)

theorem AServer.empty_plain (settings : Option Reloadable) (sessions : κ → Fin n) :
    (AServer.empty settings sessions).Plain :=
  fun _ _ _ he => by cases he

variable [DecidableEq κ] {host : Host}

/-- **One request**, under any thresholds. -/
theorem AServer.Plain.serve {A : AServer κ n} (hA : A.Plain) {q : Call κ} (hq : q.NoNegZero host)
    (lim lim' : Limits) :
    A.serve lim host q = A.serve lim' host q ∧ (A.serve lim host q).2.Plain := by
  unfold AServer.serve
  cases hres : resolveRow q.args with
  | error reply => exact ⟨rfl, hA⟩
  | ok cmd =>
    cases hdata : cmd.onData with
    | false =>
      simp only [hdata, Bool.false_eq_true, if_false, true_and]
      have hsame : (A.servePlain host cmd q).2.databases = A.databases := by
        unfold AServer.servePlain
        split
        · split_ifs <;> rfl
        · rfl
      intro d
      rw [hsame]
      exact hA d
    | true =>
      simp only [hdata, if_true]
      by_cases hcrash : cmd.Crashes q.now q.args (A.databases (A.sessions q.conn))
      · rw [serveData_of_crashes hcrash, serveData_of_crashes hcrash]
        exact ⟨rfl, hA⟩
      · obtain ⟨heffect, hplain⟩ := effect_plain lim lim' hq hres (hA (A.sessions q.conn))
        rw [serveData_of_not_crashes hcrash, serveData_of_not_crashes hcrash, ← heffect,
          answer_plain lim lim' hq hres (hA _)]
        refine ⟨rfl, fun d => ?_⟩
        by_cases hd : d = A.sessions q.conn
        · subst hd
          simpa only [Function.update_self] using hplain
        · simpa only [Function.update_of_ne hd] using hA d

/-! ## The server -/

omit [DecidableEq κ] in
/-- Of the replies to one request that an abstract server allows, each is as good as another: they are
equal, or the request lists a set or a hash and they list the same in another order. -/
theorem AServer.serveData_sameReply {A : AServer κ n} {q : Call κ} {lim : Limits}
    {cmd : Command n m} (hres : resolve q.args = .ok cmd) (hdata : cmd.onData = true) {r r' : Reply}
    (h : (A.serveData lim host cmd.row q).1.Shows r)
    (h' : (A.serveData lim host cmd.row q).1.Shows r') : SameReply n m q.args r r' := by
  obtain ⟨hcmd, hacc, -⟩ := resolve_ok hres
  by_cases hcrash : cmd.row.Crashes q.now q.args (A.databases (A.sessions q.conn))
  · rw [serveData_of_crashes hcrash] at h h'
    exact .inl (Eq.trans h (Eq.symm h'))
  · rw [serveData_of_not_crashes hcrash] at h h'
    exact sameReply_of_sameOutcome hres (sameOutcome_of_shows (answer_order hcmd hdata hacc) h h')

theorem AServer.serve_sameReply (m : Nat) {A : AServer κ n} {q : Call κ} {lim : Limits}
    {r r' : Reply} (h : (A.serve lim host q).1.Shows r) (h' : (A.serve lim host q).1.Shows r') :
    SameReply n m q.args r r' := by
  unfold AServer.serve at h h'
  cases hres : (resolve q.args : Except Reply (Command n m)) with
  | error reply =>
    rw [resolveRow_error hres] at h h'
    exact .inl (Eq.trans h (Eq.symm h'))
  | ok cmd =>
    rw [resolveRow_ok hres] at h h'
    simp only at h h'
    have hrow : cmd.row.onData = cmd.onData := rfl
    cases hdata : cmd.onData with
    | false =>
      rw [hrow, hdata] at h h'
      exact .inl (Eq.trans h (Eq.symm h'))
    | true =>
      rw [hrow, hdata] at h h'
      exact AServer.serveData_sameReply hres hdata h h'

/-- Two servers that show one abstract server, request by request. -/
theorem AServer.Plain.sameReplies {m m' : Nat} {env : Env m} {env' : Env m'}
    (hhost : env'.host = env.host) : ∀ {A : AServer κ n} {s : Server κ n m} {s' : Server κ n m'}
      (rs rs' : List (Request κ)), A.Plain → s.Shows env A → s'.Shows env' A →
      rs'.map Request.call = rs.map Request.call → (∀ r ∈ rs, r.call.NoNegZero env.host) →
      List.Forall₂ (fun x y => y.1.call = x.1.call ∧ SameReply n m x.1.args x.2 y.2)
        (s.answers env rs) (s'.answers env' rs')
  | _, _, _, [], [], _, _, _, _, _ => .nil
  | _, _, _, [], _ :: _, _, _, _, hcalls, _ => by cases hcalls
  | _, _, _, _ :: _, [], _, _, _, hcalls, _ => by cases hcalls
  | A, s, s', r :: rs, r' :: rs', hA, hs, hs', hcalls, hzero => by
      obtain ⟨hcall, hcalls⟩ := List.cons.inj hcalls
      obtain ⟨hr, hrs⟩ := List.forall_mem_cons.mp hzero
      obtain ⟨hreply, hnext⟩ := hs.serve r
      obtain ⟨hreply', hnext'⟩ := hs'.serve r'
      -- the second server is under other thresholds, and shows the same abstract one still
      obtain ⟨hsame, hplain⟩ := hA.serve hr env.limits env'.limits
      rw [hhost, hcall, ← hsame] at hreply' hnext'
      exact .cons ⟨hcall, AServer.serve_sameReply m hreply hreply'⟩
        (AServer.Plain.sameReplies hhost rs rs' hplain hnext hnext' hcalls hrs)

/-- **Of its configuration a server shows the number of its databases, and no more.** Two servers
with the same boot settings, each with its own number of shards, hash of the keys and thresholds, get
the same requests at the same times, and whatever the runtime chooses for each of them; no ZADD has a
negative zero among its scores. Then they give the same replies, up to the order of what SMEMBERS,
SINTER and HGETALL list. -/
theorem configuration_invisible {m m' : Nat} (env : Env m) (env' : Env m')
    (hhost : env'.host = env.host) (settings : Option Reloadable) (sessions : κ → Fin n)
    (rs rs' : List (Request κ)) (hcalls : rs'.map Request.call = rs.map Request.call)
    (hzero : ∀ r ∈ rs, r.call.NoNegZero env.host) :
    List.Forall₂ (fun x y => y.1.call = x.1.call ∧ SameReply n m x.1.args x.2 y.2)
      ((Server.empty settings sessions : Server κ n m).answers env rs)
      ((Server.empty settings sessions : Server κ n m').answers env' rs') :=
  AServer.Plain.sameReplies hhost rs rs' (AServer.empty_plain settings sessions)
    (Server.empty_shows env settings sessions) (Server.empty_shows env' settings sessions) hcalls hzero

/-- Text functions for which every score is a one. -/
def Host.ones : Host := { Host.verbatim with parseFloat := fun _ => some ⟨0x3FF0000000000000⟩ }

/-- A sorted set with two members of one score. -/
def scoreRun : List (Request Unit) :=
  [sole 0 ["ZADD", "z", "1", "b", "1", "a"], sole 0 ["ZADD", "z", "1", "b"],
    sole 0 ["ZADD", "z", "1", "c"]]

/-- One shard and no packs, against two shards and packs of up to 128 elements. -/
theorem configuration_invisible_scores :
    List.Forall₂ (fun x y => y.1.call = x.1.call ∧ SameReply 1 1 x.1.args x.2 y.2)
      ((Server.empty none fun _ => 0 : Server Unit 1 1).answers
        { Env.single 0 with host := .ones } scoreRun)
      ((Server.empty none fun _ => 0 : Server Unit 1 2).answers
        ⟨0, ⟨⟨128, 64⟩, ⟨128, 64⟩, ⟨128, 64⟩, ⟨128, 64⟩⟩, .ones, fun key => Fin.ofNat 2 key.len,
          MapOrder.default⟩ scoreRun) := by
  refine configuration_invisible _ _ rfl none (fun _ => 0) scoreRun scoreRun rfl fun r hr => ?_
  have hall : ∀ r ∈ scoreRun, ∀ e ∈ (parsePairs .ones (r.args.drop 2) []).getD [],
      e.score ≠ Score.negZero := by decide
  intro cmd _ _ ps hps e he
  refine hall r hr e ?_
  have hps' : parsePairs .ones (r.args.drop 2) [] = some ps := hps
  rw [hps']
  exact he

end Memcore
