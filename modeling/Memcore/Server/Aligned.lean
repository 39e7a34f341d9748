import Memcore.Client.Client
import Memcore.Command.Framing
import Memcore.Resp.Reader
import Memcore.Server.Outcome

/-!
# Replies and requests

The replies of a connection are written one after the other, and the client takes the bytes apart
again by their frames alone. Two errors repeat bytes of the client in a frame that ends with its
first line feed: the name of an unknown command, and an unknown subcommand of CONFIG (`echoes`). A
line feed in them ends the reply early, and the client takes what follows for replies to later
requests (`replyInjected`). Requests of any other kind are answered one for one, and these are the
only ones that are not (`replies_aligned_iff`).
-/

namespace Memcore

open Go Prog Cmd

variable {n m : Nat}

/-! ## One request -/

/-- Is the request answered with an error that repeats a text that is not a line? -/
def echoes (n m : Nat) (host : Host) (configured : Bool) : List Bytes → Bool
  | [] => false
  | name :: rest =>
    match (lookupFold name : Option (Command n m)) with
    | none => !decide name.OneLine
    | some cmd => decide (cmd.name = ascii "config") && configured &&
        configEchoes host (name :: rest)

theorem request_framed {env : Env m} {c : Context n m} {a : ADB} (hs : c.Shows env a)
    (hquote : ∀ b, (env.host.quote b).OneLine) {k : Nat} (hsize : a.Sized k) (logNow : Time)
    {args : List Bytes} (hroom : RoomFor k args.length)
    (hecho : echoes n m env.host c.settings.isSome args = false) :
    (request env logNow args c).1.framed = true := by
  cases args with
  | nil => exact framed_error (by decide)
  | cons name rest =>
    unfold request resolve
    unfold echoes at hecho
    cases hl : (lookupFold name : Option (Command n m)) with
    | none =>
      simp only [hl, Bool.not_eq_eq_eq_not, Bool.not_false, decide_eq_true_eq] at hecho ⊢
      exact framed_error (quoted_oneLine (by decide) hecho (by decide))
    | some cmd =>
      obtain ⟨hcmd, hname⟩ := lookupFold_some hl
      have hline := name_oneLine hcmd
      simp only [hl] at hecho ⊢
      cases hacc : cmd.accepts (name :: rest).length with
      | false => exact framed_error (quoted_oneLine (by decide) hline (by decide))
      | true =>
        have hrun := run_framed hcmd hacc hs hquote
          (fun x hx => by cases hx; exact oneLine_of_foldName (hname ▸ hline)) hsize hroom
          fun hconfig hsome => by simpa [hconfig, hsome] using hecho
        change (replyOf (cmd.run env (name :: rest) c).1).framed = true
        cases hout : (cmd.run env (name :: rest) c).1 with
        | ok r => exact hrun r hout
        | error p => exact framed_error (by decide)

/-- A text that is not a line, between two constants: it is all there, being in memory. -/
theorem not_quoted_oneLine {a b s : Bytes} (hs : ¬ s.OneLine)
    (hlen : a.data.length + s.data.length + b.data.length ≤ maxAlloc) :
    ¬ (concat [a, s, b]).OneLine := by
  have hall : (a.data ++ (s.data ++ (b.data ++ []))).length ≤ maxAlloc := by
    simp only [List.length_append, List.length_nil]
    omega
  intro h
  refine hs fun hmem => h ?_
  change lf ∈ (Bytes.ofList (a.data ++ (s.data ++ (b.data ++ [])))).data
  rw [Bytes.ofList_data hall]
  exact List.mem_append_right _ (List.mem_append_left _ hmem)

theorem registry_config {cmd : Command n m} (hcmd : cmd ∈ registry)
    (hname : cmd.name = ascii "config") : cmd = .plain "config" (-2) cmdConfig := by
  have hkeys : ∀ r ∈ rows, r.name = ascii "config" → r.firstKey = 0 := by decide
  have hfirst : cmd.firstKey = 0 := hkeys _ (row_mem hcmd) hname
  cases registry_shape cmd hcmd with
  | single hkey _ => simp [Command.singleKey, hfirst] at hkey
  | multi hone _ _ _ _ => cases hone.symm.trans hfirst
  | whole his =>
    subst his
    exact absurd (show ascii "flushdb" = ascii "config" from hname) (by decide)
  | plain his =>
    rcases his with rfl | rfl | rfl
    · exact absurd (show ascii "ping" = ascii "config" from hname) (by decide)
    · exact absurd (show ascii "select" = ascii "config" from hname) (by decide)
    · rfl

theorem request_echoed (env : Env m) (c : Context n m) (logNow : Time) {args : List Bytes}
    (hmem : ∀ arg ∈ args, arg.data.length ≤ maxBulkLen)
    (hecho : echoes n m env.host c.settings.isSome args = true) :
    ∃ text, (request env logNow args c).1 = .error text ∧ ¬ text.OneLine := by
  cases args with
  | nil => cases hecho
  | cons name rest =>
    unfold request resolve
    unfold echoes at hecho
    cases hl : (lookupFold name : Option (Command n m)) with
    | none =>
      simp only [hl, Bool.not_eq_eq_eq_not, Bool.not_true, decide_eq_false_iff_not] at hecho ⊢
      -- an unknown command is quoted in the error as it came
      refine ⟨_, rfl, not_quoted_oneLine hecho ?_⟩
      have hname := hmem name List.mem_cons_self
      have hpre : (ascii "ERR unknown command '").data.length = 21 := by decide
      have hpost : (ascii "'").data.length = 1 := by decide
      simp only [maxBulkLen, maxAlloc] at hname ⊢
      omega
    | some cmd =>
      simp only [hl, Bool.and_eq_true, decide_eq_true_eq] at hecho ⊢
      obtain ⟨⟨hconfig, hsome⟩, hsub⟩ := hecho
      obtain rfl := registry_config (lookupFold_some hl).1 hconfig
      cases rest with
      | nil => cases hsub
      | cons sub rest =>
        simp only [configEchoes, Bool.and_eq_true, decide_eq_true_eq, Bool.not_eq_eq_eq_not,
          Bool.not_true, decide_eq_false_iff_not] at hsub
        -- and so is an unknown subcommand of `CONFIG`
        obtain ⟨⟨hget, hset⟩, hline⟩ := hsub
        obtain ⟨settings, hc⟩ := Option.isSome_iff_exists.mp hsome
        have hrun : (cmdConfig env (name :: sub :: rest) c).1
            = .ok (.error (concat [ascii "ERR unknown CONFIG subcommand '", sub, ascii "'"])) := by
          unfold cmdConfig
          rw [bind_apply_ok (show getSettings c = (.ok c.settings, c) from rfl), hc]
          simp only [arg_one_bind, if_neg hget, if_neg hset]
          rfl
        have hacc : (Command.plain "config" (-2) cmdConfig : Command n m).accepts
            (name :: sub :: rest).length = true := by
          refine decide_eq_true ?_
          change (2 : Int) ≤ (rest.length + 1 + 1 : Nat)
          omega
        rw [hacc]
        refine ⟨_, congrArg replyOf hrun, not_quoted_oneLine hline ?_⟩
        have hlen := hmem sub (by simp)
        have hpre : (ascii "ERR unknown CONFIG subcommand '").data.length = 31 := by decide
        have hpost : (ascii "'").data.length = 1 := by decide
        simp only [maxBulkLen, maxAlloc] at hlen ⊢
        omega

/-! ## A connection -/

section Connection

variable {κ : Type} [DecidableEq κ]

/-- The replies a connection gets while the server answers requests of all connections. -/
def Server.repliesTo (env : Env m) (k : κ) : Server κ n m → List (Request κ) → List Reply
  | _, [] => []
  | s, r :: rs =>
    let (reply, s) := s.serve env r
    if r.conn = k then reply :: repliesTo env k s rs else repliesTo env k s rs

/-- A request adds to a collection at most what it brings. -/
theorem serve_sized {env : Env m} {s : Server κ n m} {A : Fin n → ADB}
    (hA : Databases.Repr env s.databases A) {k : Nat} (hsize : ∀ d, (A d).Sized k)
    (r : Request κ) :
    ∃ B, Databases.Repr env (s.serve env r).2.databases B ∧
      ∀ d, (B d).Sized (k + r.args.length) := by
  have hgrow (d : Fin n) : (A d).Sized (k + r.args.length) := fun key e he =>
    (hsize d key e he).trans (Nat.le_add_right _ _)
  have hA' : Databases.Repr (env.at r.now r.ord) (s.context r).databases A := hA
  rcases request_refines hA' r.logNow r.args with ⟨-, hsame⟩ | ⟨cmd, hres, -, -, -, hrepr⟩
  · refine ⟨A, ?_, hgrow⟩
    unfold Server.serve
    simp only [hsame]
    exact hA
  · refine ⟨_, hrepr, fun d => ?_⟩
    unfold effectOf
    simp only [hres]
    by_cases hd : d = (request (env.at r.now r.ord) r.logNow r.args (s.context r)).2.2.index
    · subst hd
      rw [Function.update_self]
      exact effect_size (hsize _)
    · rw [Function.update_of_ne hd]
      exact hgrow d

theorem serve_configured (env : Env m) (s : Server κ n m) (r : Request κ) :
    (s.serve env r).2.settings.isSome = s.settings.isSome := by
  change (request (env.at r.now r.ord) r.logNow r.args (s.context r)).2.2.settings.isSome = _
  unfold request
  cases hres : (resolve r.args : Except Reply (Command n m)) with
  | error reply => rfl
  | ok cmd =>
    obtain ⟨hcmd, hacc, -⟩ := resolve_ok hres
    rcases run_settings hcmd (env.at r.now r.ord) hacc (s.context r) with hsame | ⟨-, h, h'⟩
    · exact congrArg Option.isSome hsame
    · exact h'.trans h.symm

/-- What the replies of a connection are like. -/
theorem repliesTo_framed {env : Env m} (hquote : ∀ b, (env.host.quote b).OneLine) (k : κ) :
    ∀ (rs : List (Request κ)) {s : Server κ n m} {A : Fin n → ADB} {size : Nat},
      Databases.Repr env s.databases A → (∀ d, (A d).Sized size) →
      RoomFor size (rs.map fun r => r.args.length).sum →
      (∀ r ∈ rs, ∀ arg ∈ r.args, arg.data.length ≤ maxBulkLen) →
      (∀ reply ∈ s.repliesTo env k rs, reply.framed = true ∨ reply.isError = true) ∧
        ((∀ reply ∈ s.repliesTo env k rs, reply.framed = true) ↔
          ∀ r ∈ rs, r.conn = k → echoes n m env.host s.settings.isSome r.args = false)
  | [], _, _, _, _, _, _, _ => ⟨nofun, iff_of_true nofun nofun⟩
  | r :: rs, s, A, size, hA, hsize, hroom, hmem => by
      obtain ⟨hmem₁, hmem⟩ := List.forall_mem_cons.mp hmem
      rw [List.map_cons, List.sum_cons] at hroom
      -- one request makes the values grow by its arguments at most, which leaves room for the rest
      obtain ⟨B, hB, hsizeB⟩ := serve_sized hA hsize r
      have hroomB : RoomFor (size + r.args.length) (rs.map fun r => r.args.length).sum := by
        unfold RoomFor at hroom ⊢
        omega
      obtain ⟨herror, hframed⟩ := repliesTo_framed hquote k rs hB hsizeB hroomB hmem
      rw [serve_configured] at hframed
      -- a reply goes wrong exactly when the request is echoed, and then it is an error
      have hone : ((s.serve env r).1.framed = true ∧
            echoes n m env.host s.settings.isSome r.args = false) ∨
          (s.serve env r).1.framed = false ∧ (s.serve env r).1.isError = true ∧
            echoes n m env.host s.settings.isSome r.args = true := by
        cases hecho : echoes n m env.host s.settings.isSome r.args with
        | false =>
          have hs : (s.context r).Shows (env.at r.now r.ord) (A (s.sessions r.conn)) := hA _
          have hr : RoomFor size r.args.length := hroom.mono le_rfl (Nat.le_add_right _ _)
          exact .inl ⟨request_framed hs hquote (hsize _) r.logNow hr hecho, rfl⟩
        | true =>
          obtain ⟨text, htext, hline⟩ :=
            request_echoed (env.at r.now r.ord) (s.context r) r.logNow hmem₁ hecho
          have hreply : (s.serve env r).1 = .error text := htext
          rw [hreply]
          exact .inr ⟨decide_eq_false hline, rfl, rfl⟩
      unfold Server.repliesTo
      by_cases hk : r.conn = k
      · simp only [if_pos hk, List.forall_mem_cons]
        rcases hone with ⟨h, he⟩ | ⟨h, herr, he⟩
        · refine ⟨⟨.inl h, herror⟩, ?_⟩
          rw [hframed]
          simp [h, he]
        · exact ⟨⟨.inr herr, herror⟩, by simp [h, he, hk]⟩
      · simp only [if_neg hk, List.forall_mem_cons]
        refine ⟨herror, ?_⟩
        rw [hframed]
        simp [hk]

theorem repliesTo_length (env : Env m) (k : κ) : ∀ (rs : List (Request κ)) (s : Server κ n m),
    (s.repliesTo env k rs).length = (rs.filter fun r => r.conn = k).length
  | [], _ => rfl
  | r :: rs, s => by
      have hrest := repliesTo_length env k rs (s.serve env r).2
      unfold Server.repliesTo
      by_cases hk : r.conn = k
      · simp [hk, hrest]
      · simp [hk, hrest]

/-- **Replies stay aligned with requests exactly as long as none repeats a text that is not a line.**
A server that starts empty answers requests of any connections, whose arguments are no longer than
the reader lets through and together no more than can be counted. A connection gets one reply for each
of its requests. The client reads the bytes of these replies back one for one, each as what it is and
with no bytes left, if and only if none of the requests of the connection names an unknown command, or
an unknown subcommand of CONFIG, with a line feed in it. -/
theorem replies_aligned_iff (env : Env m) (hquote : ∀ b, (env.host.quote b).OneLine)
    (settings : Option Reloadable) (sessions : κ → Fin n) (k : κ) (rs : List (Request κ))
    (hmem : ∀ r ∈ rs, ∀ arg ∈ r.args, arg.data.length ≤ maxBulkLen)
    (hroom : (2 * (rs.map fun r => r.args.length).sum : Int) ≤ maxInt64) :
    let replies := (Server.empty settings sessions : Server κ n m).repliesTo env k rs
    replies.length = (rs.filter fun r => r.conn = k).length ∧
      (Client.readReplies replies.length (replies.flatMap writeReply)
          = (replies.map Client.decoded, []) ↔
        ∀ r ∈ rs, r.conn = k → echoes n m env.host settings.isSome r.args = false) := by
  have hempty : Databases.Repr env (Server.empty settings sessions : Server κ n m).databases
      fun _ _ => none := fun d => empty_repr env settings d (fun _ => 0) d
  obtain ⟨herror, hframed⟩ := repliesTo_framed hquote k rs hempty (fun _ _ _ h => nomatch h)
    (show RoomFor 0 _ by unfold RoomFor; omega) hmem
  refine ⟨repliesTo_length env k rs _, ?_⟩
  rw [Client.readReplies_write_iff _ herror]
  exact hframed

end Connection

/-- An unknown command with a reply in its name, and PING. -/
def injection : List (Request Unit) := [sole 0 ["a\r\n+OK"], sole 0 ["PING"]]

/-- The client is told that the command is unknown, takes the rest of the name for the reply to PING,
and has the reply to PING left. -/
theorem replyInjected :
    (Server.empty none fun _ => 0 : Server Unit 1 1).repliesTo (Env.single 0) () injection
        = [.error (ascii "ERR unknown command 'a\r\n+OK'"), .simple (ascii "PONG")] ∧
      Client.readReplies 2 (((Server.empty none fun _ => 0 : Server Unit 1 1).repliesTo
          (Env.single 0) () injection).flatMap writeReply)
        = ([.error (.reply (ascii "ERR unknown command 'a")), .ok (.str (ascii "OK'"))],
          (ascii "+PONG\r\n").data) :=
  ⟨rfl, rfl⟩

/-- Requests with line feeds in other places than the two. -/
theorem replies_aligned_iff_lines :
    let replies := (Server.empty none fun _ => 0 : Server Unit 1 1).repliesTo
      { Env.single 0 with host := { Host.verbatim with quote := fun _ => ascii "?" } } ()
      [sole 0 ["SET", "a\r\n", "+OK\r\n"], sole 0 ["GET", "a\r\n"], sole 0 ["NOPE"]]
    Client.readReplies replies.length (replies.flatMap writeReply)
      = (replies.map Client.decoded, []) := by
  have hquote : (ascii "?").OneLine := by decide
  refine (replies_aligned_iff _ (fun _ => hquote) none (fun _ => 0) () _ ?_ ?_).2.mpr ?_
  · decide
  · decide
  · decide

end Memcore
