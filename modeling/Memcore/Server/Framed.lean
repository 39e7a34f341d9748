import Memcore.Server.Aligned
import Memcore.Server.Linearizable

/-!
# What the running server replies

Every reply of the running server can be framed, as long as no request repeats a text that is not a
line and the collections can be counted. For a command on data this is so of the reply of the abstract
server, and then of every reply it allows. The replies of CONFIG GET depend on settings that nothing
protects, but whatever these are they can be framed.
-/

namespace Memcore

open Go Prog

variable {κ : Type} {n m : Nat}

/-! ## The abstract server -/

/-- Whether a reply can be framed does not depend on an order that the abstract reply leaves open. -/
theorem framed_of_shown {spec : AReply} {r : Reply} (h : spec.Shows r) (hr : r.framed = true) :
    spec.framed := by
  cases spec with
  | exact r₀ =>
    obtain rfl : r = r₀ := h
    exact hr
  | members s =>
    obtain ⟨xs, hnodup, rfl, rfl⟩ := h
    rw [Reply.framed, Bool.and_eq_true, decide_eq_true_eq, List.length_map] at hr
    rw [AReply.framed, List.toFinset_card_of_nodup hnodup]
    exact hr.1
  | fields x =>
    obtain ⟨ps, hlists, rfl⟩ := h
    rw [Reply.framed, Bool.and_eq_true, decide_eq_true_eq, List.length_map, flatPairs_length,
      hlists.length_eq, Nat.mul_comm] at hr
    exact_mod_cast hr.1

theorem echoes_configured {host : Host} {args : List Bytes} (h : echoes n m host true args = false)
    (configured : Bool) : echoes n m host configured args = false := by
  cases args with
  | nil => rfl
  | cons name rest =>
    unfold echoes at h ⊢
    cases hl : (lookupFold name : Option (Command n m)) with
    | none =>
      simp only [hl] at h ⊢
      exact h
    | some cmd =>
      simp only [hl, Bool.and_true] at h ⊢
      cases configured with
      | true => simpa using h
      | false => simp

variable [DecidableEq κ]

/-- **What the abstract server answers can be framed.** -/
theorem AServer.answers_framed {env : Env m} (hquote : ∀ b, (env.host.quote b).OneLine)
    (order : List (Request κ)) : ∀ {S : Server κ n m} {A : AServer κ n} {k : Nat}, S.Shows env A →
      (∀ d, (A.databases d).Sized k) → RoomFor k (order.map fun r => r.args.length).sum →
      (∀ r ∈ order, echoes n m env.host true r.args = false) →
      ∀ a ∈ A.answers env.limits env.host (order.map Request.call), a.framed := by
  induction order with
  | nil =>
    intro S A k _ _ _ _ a ha
    cases ha
  | cons r order ih =>
    intro S A k h hsized hroom hecho
    obtain ⟨hecho₁, hecho⟩ := List.forall_mem_cons.mp hecho
    rw [List.map_cons, List.sum_cons] at hroom
    obtain ⟨hshows, hnext⟩ := h.serve r
    have hreply : (S.serve env r).1.framed = true := by
      have hs : (S.context r).Shows (env.at r.now r.ord) (A.databases (S.sessions r.conn)) :=
        h.databases _
      have hr : RoomFor k r.args.length := hroom.mono le_rfl (Nat.le_add_right _ _)
      exact request_framed hs hquote (hsized _) r.logNow hr (echoes_configured hecho₁ _)
    refine List.forall_mem_cons.mpr ⟨framed_of_shown hshows hreply,
      ih hnext (h.serve_sized hsized r) ?_ hecho⟩
    unfold RoomFor at hroom ⊢
    omega

/-! ## What connections see -/

/-- **The replies of one step.** A step shows one connection one reply more, of `Resolve` or of a
handler, or nothing. -/
inductive LiveStep.Shows (env : Env m) (l l' : Live κ n m) : Prop where
  | nothing (hseen : ∀ k, l'.seenBy k = l.seenBy k)
  | reply (r : Request κ) (reply : Reply) (hseen : l'.seenBy r.conn = l.seenBy r.conn ++ [(r, reply)])
      (hothers : ∀ k ≠ r.conn, l'.seenBy k = l.seenBy k)
      (hreply : (resolve r.args : Except Reply (Command n m)) = .error reply ∨
        ∃ (cmd : Command n m) (c : Context n m), resolve r.args = .ok cmd ∧
          reply = replyOf (cmd.run (env.at r.now r.ord) r.args c).1)

theorem LiveStep.shows {env : Env m} {l l' : Live κ n m} {who : Actor κ} (hvalid : l.Valid env)
    (hstep : LiveStep env l who l') : LiveStep.Shows env l l' := by
  cases hstep with
  | @reject r reply hidle hres =>
    refine .reply r reply ?_ (fun k hk => ?_) (.inl hres)
    · simp [Live.seenBy, hidle, Worker.reply]
    · simp [Live.seenBy, hk.symm]
  | start hidle =>
    exact .nothing (Live.seenBy_of_work rfl rfl (by rw [hidle]; rfl))
  | acquire hw | enter hw | look hw | write hw | append hw | release hw =>
    exact .nothing (Live.seenBy_of_work rfl rfl (by rw [hw]; rfl))
  | wrote hw =>
    refine .nothing (Live.seenBy_of_work rfl rfl ?_)
    rw [hw]
    split <;> rfl
  | @run k job copy settings hw hnow =>
    have hfits := hvalid.fits k
    rw [hw] at hfits
    obtain ⟨hk, hres, -⟩ := hfits
    -- a reply shows when the handler has run, before the locks are given back
    refine .reply job.req (replyOf (job.cmd.run (env.at job.req.now job.req.ord) job.req.args
      ⟨fun _ => copy, settings, l.sessions k, job.req.rng⟩).1) ?_ (fun k' hk' => ?_)
      (.inr ⟨job.cmd, _, hres, rfl⟩)
    · rw [hk]
      unfold Live.seenBy Live.runHandler
      simp only [Function.update_self, hw]
      split <;> simp [Worker.reply]
    · rw [hk] at hk'
      exact Live.seenBy_congr (Function.update_of_ne hk' _ _) rfl
  | @finish k job reply hw hheld =>
    have hfits := hvalid.fits k
    rw [hw] at hfits
    have hk : job.req.conn = k := hfits
    -- only where the reply is kept changes
    refine .nothing fun k' => ?_
    show List.filter _ (l.answered ++ [(job.req, reply)])
        ++ (Function.update l.workers k _ k').reply = _ ++ (l.workers k').reply
    by_cases hk' : k' = k
    · rw [hk', Function.update_self, hw]
      simp [Worker.reply, hk]
    · rw [Function.update_of_ne hk']
      simp [hk, Ne.symm hk']
  | nextGen | lock | serialize | rotate | unlock | done | wake | sweepLock | sample | sweepUnlock
  | rest | tick => exact .nothing fun k => Live.seenBy_congr rfl rfl

/-- The replies of CONFIG GET can be framed, whatever settings it finds. -/
theorem config_framed {env : Env m} (hquote : ∀ b, (env.host.quote b).OneLine) {args : List Bytes}
    {cmd : Command n m} (hres : resolve args = .ok cmd) (hget : isConfigGet env.host args = true)
    (hecho : echoes n m env.host true args = false) (c : Context n m) :
    (replyOf (cmd.run env args c).1).framed = true := by
  obtain ⟨hcmd, hacc, name, rest, rfl, hname⟩ := resolve_ok hres
  have hfold : foldName name = ascii "config" :=
    of_decide_eq_true (Bool.and_eq_true_iff.mp hget).1
  have hl : (lookupFold name : Option (Command n m)) = some (.plain "config" (-2) cmdConfig) :=
    lookupFold_config hfold
  obtain rfl : cmd = .plain "config" (-2) cmdConfig := registry_config hcmd (hname.trans hfold)
  cases rest with
  | nil => cases hacc
  | cons sub rest =>
    have hframes : Frames (cmdConfig env (name :: sub :: rest) c).1 := by
      refine cmdConfig_framed hquote fun _ hget hset => ?_
      unfold echoes at hecho
      simp only [hl] at hecho
      simpa [configEchoes, hget, hset, Command.plain] using hecho
    change (replyOf (cmdConfig env (name :: sub :: rest) c).1).framed = true
    cases hout : (cmdConfig env (name :: sub :: rest) c).1 with
    | ok r => exact hframes r hout
    | error p => exact framed_error (by decide)

theorem rejected_framed {host : Host} {args : List Bytes} {reply : Reply}
    (hres : (resolve args : Except Reply (Command n m)) = .error reply)
    (hecho : echoes n m host true args = false) : reply.framed = true := by
  cases args with
  | nil =>
    cases hres
    exact framed_error (by decide)
  | cons name rest =>
    unfold resolve at hres
    unfold echoes at hecho
    cases hl : (lookupFold name : Option (Command n m)) with
    | none =>
      simp only [hl, Bool.not_eq_eq_eq_not, Bool.not_false, decide_eq_true_eq] at hecho hres
      cases hres
      exact framed_error (quoted_oneLine (by decide) hecho (by decide))
    | some cmd =>
      have hline := name_oneLine (lookupFold_some hl).1
      simp only [hl] at hres
      split at hres
      · cases hres
        exact framed_error (quoted_oneLine (by decide) hline (by decide))
      · cases hres

namespace Live

/-- The replies of CONFIG GET that a connection has seen can be framed. -/
def ConfigFramed (env : Env m) (l : Live κ n m) : Prop :=
  ∀ k, ∀ p ∈ l.seenBy k, isConfigGet env.host p.1.args = true → echoes n m env.host true p.1.args = false →
    p.2.framed = true

theorem ConfigFramed.step {env : Env m} (hquote : ∀ b, (env.host.quote b).OneLine)
    {l l' : Live κ n m} {who : Actor κ} (h : l.ConfigFramed env) (hvalid : l.Valid env)
    (hstep : LiveStep env l who l') : l'.ConfigFramed env := by
  intro k p hp hconfig hecho
  cases hstep.shows hvalid with
  | nothing hseen =>
    rw [hseen] at hp
    exact h k p hp hconfig hecho
  | reply r reply hseen hothers hreply =>
    by_cases hk : k = r.conn
    · subst hk
      rw [hseen, List.mem_append, List.mem_singleton] at hp
      rcases hp with hp | rfl
      · exact h _ p hp hconfig hecho
      · rcases hreply with hres | ⟨cmd, c, hres, rfl⟩
        · exact rejected_framed hres hecho
        · have henv : ∀ b, ((env.at r.now r.ord).host.quote b).OneLine := hquote
          exact config_framed henv hres hconfig hecho c
    · rw [hothers k hk] at hp
      exact h k p hp hconfig hecho

/-- **Every reply of the running server can be framed**, if the requests that count repeat no text that
is not a line and the collections can be counted. -/
theorem Explained.framed {env : Env m} (hquote : ∀ b, (env.host.quote b).OneLine)
    {settings : Option Reloadable} {sessions : κ → Fin n} {l : Live κ n m} {order : List (Request κ)}
    (h : Explained env (AServer.empty settings sessions) l order) (hconfig : l.ConfigFramed env)
    (hroom : RoomFor 0 (order.map fun r => r.args.length).sum)
    (hecho : ∀ r ∈ order, echoes n m env.host true r.args = false) (k : κ) :
    ∀ p ∈ l.seenBy k, p.2.framed = true := by
  intro p hp
  obtain ⟨q, hq, hargs, hshows⟩ := exists_of_forall₂_right (h.replies k) p hp
  obtain ⟨horder, hanswer⟩ := List.of_mem_zip (List.mem_of_mem_filter hq)
  cases hc : isConfigGet env.host p.1.args with
  | true => exact hconfig k p hp hc (hargs ▸ hecho _ horder)
  | false =>
    have hempty : (Server.empty settings sessions : Server κ n m).Shows env
        (AServer.empty settings sessions) := Server.empty_shows env settings sessions
    exact framed_of_shows (AServer.answers_framed hquote order hempty
      (fun _ _ _ he => by cases he) hroom hecho _ hanswer) (hshows hc)

end Live

end Memcore
