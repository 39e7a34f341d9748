import Mathlib.Algebra.Order.BigOperators.Group.List
import Memcore.Lib.Count
import Memcore.Server.Conn
import Memcore.Server.Framed

/-!
# Clients on the network

Any number of Go clients, each on its own connection, the bytes between them and the server, the loop
of every connection and the running server behind it. A client calls `Do` and waits: it has one command
under way at a time. Its bytes arrive in pieces of any size, and the loop takes a request off them when
it is all there. The reply goes the other way, and `Do` returns when it can read it.

At every moment a client that waits can be told where its command is (`Whereabouts`): on the way there, with
the server, or on the way back. It is never in the buffer of a writer, so the loop does not hold a reply
back from a client of this kind, and a reply is never taken for that of another command. What `Do`
returns is then what the abstract server answers (`calls_linearizable`).
-/

namespace Memcore

open Go Prog Bufio

variable {κ : Type} {n m : Nat}

/-! ## Connections -/

/-- A connection with both its ends. -/
structure Link where
  /-- the command `Do` has sent and waits for -/
  call : Option (List Bytes)
  /-- sent by the client, not arrived yet -/
  upstream : List UInt8
  reader : RequestReader
  writer : ReplyWriter
  /-- how much of what the writer has sent has arrived -/
  delivered : Nat
  /-- arrived, and not read by the client yet -/
  input : List UInt8
  /-- what `Do` has returned so far -/
  returned : List (List Bytes × Except Client.Error Client.Value)
  closed : Bool

namespace Link

def new : Link := ⟨none, [], .new [] .open, .new, 0, [], [], false⟩

/-- What the server is still to read. -/
def unread (c : Link) : List UInt8 := c.reader.pending ++ c.upstream

/-- What the client is still to read. -/
def replying (c : Link) : List UInt8 := c.input ++ c.writer.sent.drop c.delivered

/-- A packet reaches the server. -/
def receive (c : Link) (p : Packet) (upstream : List UInt8) : Link :=
  { c with upstream, reader := { c.reader with packets := c.reader.packets ++ [p] } }

/-- The end of an iteration of `serve`: the reply is held back while there are bytes in the buffer. -/
def answer (c : Link) (reader : RequestReader) (reply : Reply) : Link :=
  let writer := ReplyWriter.writeReply c.writer reply
  { c with reader, writer := if reader.buf.length = 0 then writer.flush else writer }

end Link

/-- The server, the connections, and the commands sent so far. -/
structure Network (κ : Type) (n m : Nat) where
  live : Live κ n m
  links : κ → Link
  calls : List (κ × List Bytes)

/-- Who makes a step. -/
inductive NetActor (κ : Type) where
  | client (k : κ)
  | network (k : κ)
  | server (who : Actor κ)

namespace Network

/-- Nobody has sent anything. -/
def start (settings : Option Reloadable) (sessions : κ → Fin n) (gen : Nat) (clock : Time) :
    Network κ n m :=
  ⟨Live.start settings sessions gen clock, fun _ => .new, []⟩

variable [DecidableEq κ]

/-- A connection has become `c`. -/
def setLink (s : Network κ n m) (k : κ) (c : Link) : Network κ n m :=
  { s with links := Function.update s.links k c }

end Network

/-! ## Steps -/

variable [DecidableEq κ]

/-- One step of a client, of the network or of the server. -/
inductive NetStep (env : Env m) : Network κ n m → NetActor κ → Network κ n m → Prop where
  | call {s : Network κ n m} {k : κ} {args : List Bytes} {bytes : List UInt8}
      (hidle : (s.links k).call = none) (hbytes : Client.writeCommand args = some bytes) :
      NetStep env s (.client k)
        { s.setLink k { s.links k with
            call := some args, upstream := (s.links k).upstream ++ bytes } with
          calls := s.calls ++ [(k, args)] }
  | deliver {s : Network κ n m} {k : κ} {p : Packet} {rest : List UInt8}
      (hsent : (s.links k).upstream = p.1 ++ rest) :
      NetStep env s (.network k) (s.setLink k ((s.links k).receive p rest))
  | arrive {s : Network κ n m} {k : κ} {bs rest : List UInt8} (hne : bs ≠ [])
      (hsent : (s.links k).writer.sent.drop (s.links k).delivered = bs ++ rest) :
      NetStep env s (.network k)
        (s.setLink k { s.links k with
          input := (s.links k).input ++ bs, delivered := (s.links k).delivered + bs.length })
  | read {s : Network κ n m} {k : κ} {args : List Bytes} {x : Except Client.Error Client.Value}
      {rest : List UInt8} (hcall : (s.links k).call = some args)
      (hread : Client.readReply (s.links k).input = (x, rest)) (hwhole : x ≠ .error .eof) :
      NetStep env s (.client k)
        (s.setLink k { s.links k with
          call := none, input := rest, returned := (s.links k).returned ++ [(args, x)] })
  | emptyRequest {s : Network κ n m} {k : κ} {reader : RequestReader}
      (hopen : (s.links k).closed = false) (hidle : s.live.serving k = none)
      (hread : (s.links k).reader.readRequest = (.ok [], reader)) :
      NetStep env s (.server (.conn k)) (s.setLink k { s.links k with reader })
  | protocolError {s : Network κ n m} {k : κ} {reader : RequestReader} {v : Violation}
      (hopen : (s.links k).closed = false) (hidle : s.live.serving k = none)
      (hread : (s.links k).reader.readRequest = (.error (.protocol v), reader)) :
      NetStep env s (.server (.conn k))
        (s.setLink k { s.links k with
          reader, closed := true,
          writer := (ReplyWriter.writeReply (s.links k).writer
            (.error (ascii "ERR Protocol error"))).flush })
  | reject {s : Network κ n m} {k : κ} {reader : RequestReader} {r : Request κ} {reply : Reply}
      {live : Live κ n m} (hopen : (s.links k).closed = false) (hidle : s.live.serving k = none)
      (hread : (s.links k).reader.readRequest = (.ok r.args, reader)) (hargs : r.args ≠ [])
      (hstep : LiveStep env s.live (.conn k) live)
      (hanswered : live.answered = s.live.answered ++ [(r, reply)]) :
      NetStep env s (.server (.conn k))
        { s.setLink k ((s.links k).answer reader reply) with live }
  | begin {s : Network κ n m} {k : κ} {reader : RequestReader} {r : Request κ} {live : Live κ n m}
      (hopen : (s.links k).closed = false) (hidle : s.live.serving k = none)
      (hread : (s.links k).reader.readRequest = (.ok r.args, reader)) (hargs : r.args ≠ [])
      (hstep : LiveStep env s.live (.conn k) live) (hbusy : live.serving k = some r) :
      NetStep env s (.server (.conn k)) { s.setLink k { s.links k with reader } with live }
  | finish {s : Network κ n m} {k : κ} {r : Request κ} {reply : Reply} {live : Live κ n m}
      (hopen : (s.links k).closed = false) (hbusy : s.live.serving k = some r)
      (hstep : LiveStep env s.live (.conn k) live)
      (hanswered : live.answered = s.live.answered ++ [(r, reply)]) :
      NetStep env s (.server (.conn k))
        { s.setLink k ((s.links k).answer (s.links k).reader reply) with live }
  | work {s : Network κ n m} {who : Actor κ} {live : Live κ n m}
      (hstep : LiveStep env s.live who live) (hanswered : live.answered = s.live.answered)
      (hserving : ∀ k, live.serving k = s.live.serving k) :
      NetStep env s (.server who) { s with live }

/-! ## A request that is read while it arrives -/

/-- **A part of a command is no request, and no violation**: the loop waits for the rest, and then reads
the command and nothing behind it. -/
theorem readRequest_part {b : RequestReader} {args : List Bytes} {bytes rest : List UInt8}
    (hbytes : Client.writeCommand args = some bytes) (hmax : args.length ≤ maxMultiBulkLen)
    (hargs : ∀ a ∈ args, a.data.length ≤ maxBulkLen) (hfin : b.fin = .open)
    (hall : b.pending ++ rest = bytes) :
    b.readRequest.1 = .error (.input (.source .open)) ∨
      rest = [] ∧ b.readRequest.1 = .ok args ∧ b.readRequest.2.pending = [] ∧
        b.readRequest.2.fin = .open := by
  obtain ⟨w, rfl, hw⟩ := writeCommand_multiBulk hbytes hmax hargs
  let t : Stream := ⟨byte '*' :: w, b.last, .open⟩
  have hwhole : readStream t = (.ok args, t.drop (byte '*' :: w) []) :=
    (readStream_recognises t args _).mpr ⟨_, [], (List.append_nil _).symm, .multiBulk hw, rfl⟩
  have hfits : Fits (Stream.Grows rest) (· = .source .open) (Stream.io readBufferSize)
      (Stream.io readBufferSize) := ⟨Stream.io_grows readBufferSize rest, fun _ he => he⟩
  have hgrows : Stream.Grows rest b.view t := ⟨hall.symm, rfl, hfin⟩
  have hview := readRequest_view b
  rcases readRequest_matches hfits b.view t hgrows with ⟨e, he, hwait⟩ | ⟨hsame, hleft⟩
  · cases e with
    | input e =>
      obtain rfl : e = .source .open := hwait
      rw [show readRequest (Stream.io readBufferSize) b.view = _ from hview] at he
      exact .inl he
    | protocol v => exact hwait.elim
  · rw [show readRequest (Stream.io readBufferSize) t = _ from hwhole,
      show readRequest (Stream.io readBufferSize) b.view = _ from hview] at hsame hleft
    obtain ⟨hpending, hrest⟩ := List.append_eq_nil_iff.mp hleft.rest.symm
    exact .inr ⟨hrest, hsame, hpending, hleft.waits⟩

theorem readRequest_whole {b : RequestReader} {args : List Bytes} {bytes : List UInt8}
    (hbytes : Client.writeCommand args = some bytes) (hmax : args.length ≤ maxMultiBulkLen)
    (hargs : ∀ a ∈ args, a.data.length ≤ maxBulkLen) (hall : b.pending = bytes) :
    ∃ b', b.readRequest = (.ok args, b') := by
  obtain ⟨w, rfl, hw⟩ := writeCommand_multiBulk hbytes hmax hargs
  have hne : args ≠ [] := by
    rintro rfl
    cases hbytes
  obtain ⟨b', hread, -⟩ := (readRequest_star b hne hall []).mpr ⟨w, (List.append_nil w).symm, hw⟩
  exact ⟨b', hread⟩

/-! ## What a step does to the requests under way -/

namespace LiveStep

variable {env : Env m} {l l' : Live κ n m} {k : κ} {r : Request κ} {reply : Reply}

/-- A connection that gets a reply without having been busy has read a request that `Resolve` refuses. -/
theorem rejected (hstep : LiveStep env l (.conn k) l') (hidle : l.serving k = none)
    (hanswered : l'.answered = l.answered ++ [(r, reply)]) :
    r.conn = k ∧ l'.serving = l.serving := by
  have hself : l.answered ≠ l.answered ++ [(r, reply)] := by simp
  cases hstep with
  | @reject r' reply' =>
    cases List.append_cancel_left hanswered
    exact ⟨rfl, rfl⟩
  | start | acquire | enter | look | run | write | wrote | append | release =>
    exact absurd hanswered hself
  | finish hw =>
    unfold Live.serving at hidle
    rw [hw] at hidle
    cases hidle

/-- A connection that gets busy. -/
theorem began (hstep : LiveStep env l (.conn k) l') (hidle : l.serving k = none)
    (hbusy : l'.serving k = some r) :
    r.conn = k ∧ l'.answered = l.answered ∧ ∀ k' ≠ k, l'.serving k' = l.serving k' := by
  unfold Live.serving at hidle
  cases hstep with
  | reject =>
    unfold Live.serving at hbusy
    rw [hidle] at hbusy
    cases hbusy
  | start =>
    unfold Live.serving Live.setWorker at hbusy
    simp only [Function.update_self, Worker.job, Option.map_some, Option.some.injEq] at hbusy
    subst hbusy
    refine ⟨rfl, rfl, fun k' hk' => ?_⟩
    unfold Live.serving Live.setWorker
    simp only [Function.update_of_ne hk']
  | acquire hw | enter hw | look hw | run hw | write hw | wrote hw | append hw | release hw
  | finish hw =>
    rw [hw] at hidle
    cases hidle

/-- A busy connection that gets its reply. -/
theorem finished (hstep : LiveStep env l (.conn k) l') (hbusy : l.serving k = some r)
    (hanswered : l'.answered = l.answered ++ [(r, reply)]) :
    l'.serving k = none ∧ ∀ k' ≠ k, l'.serving k' = l.serving k' := by
  have hself : l.answered ≠ l.answered ++ [(r, reply)] := by simp
  cases hstep with
  | reject hidle =>
    unfold Live.serving at hbusy
    rw [hidle] at hbusy
    cases hbusy
  | start | acquire | enter | look | run | write | wrote | append | release =>
    exact absurd hanswered hself
  | finish =>
    refine ⟨?_, fun k' hk' => ?_⟩
    · unfold Live.serving Live.setWorker
      simp only [Function.update_self]
      rfl
    · unfold Live.serving Live.setWorker
      simp only [Function.update_of_ne hk']

end LiveStep

/-! ## Where a command is -/

/-- A call of `Do`, from the request it was and the reply it got. -/
def returns (a : Request κ × Reply) : List Bytes × Except Client.Error Client.Value :=
  (a.1.args, Client.decoded a.2)

/-- The replies a connection has got. -/
def Live.answeredTo (l : Live κ n m) (k : κ) : List (Request κ × Reply) :=
  l.answered.filter fun a => decide (a.1.conn = k)

/-- Where the command of a client is; `returned` has the replies before it. -/
inductive Whereabouts (l : Live κ n m) (k : κ) (c : Link) : Prop where
  | quiet (hcall : c.call = none) (hidle : l.serving k = none) (hunread : c.unread = [])
      (hreplying : c.replying = []) (hreturned : c.returned = (l.answeredTo k).map returns)
  | asking (args : List Bytes) (bytes : List UInt8) (hcall : c.call = some args)
      (hidle : l.serving k = none) (hbytes : Client.writeCommand args = some bytes)
      (hunread : c.unread = bytes) (hreplying : c.replying = [])
      (hreturned : c.returned = (l.answeredTo k).map returns)
  | working (r : Request κ) (hcall : c.call = some r.args) (hbusy : l.serving k = some r)
      (hunread : c.unread = []) (hreplying : c.replying = [])
      (hreturned : c.returned = (l.answeredTo k).map returns)
  | replied (before : List (Request κ × Reply)) (r : Request κ) (reply : Reply)
      (hcall : c.call = some r.args) (hidle : l.serving k = none) (hunread : c.unread = [])
      (hreplying : c.replying = writeReply reply)
      (hanswered : l.answeredTo k = before ++ [(r, reply)])
      (hreturned : c.returned = before.map returns)

/-- Nothing is held back or lost, and the connection is open. -/
structure Link.Sound (c : Link) : Prop where
  flushed : c.writer.buf = []
  delivered : c.delivered ≤ c.writer.sent.length
  waits : c.reader.fin = .open
  opened : c.closed = false

/-- The commands are within the limits of the reader, repeat no text that is not a line, and what they
bring can be counted. -/
structure WithinLimits (n m : Nat) (host : Host) (calls : List (κ × List Bytes)) : Prop where
  sizes : ∀ c ∈ calls, c.2.length ≤ maxMultiBulkLen ∧ ∀ a ∈ c.2, a.data.length ≤ maxBulkLen
  lines : ∀ c ∈ calls, echoes n m host true c.2 = false
  room : (2 * (calls.map fun c => c.2.length).sum : Int) ≤ maxInt64

/-- What carries the induction. -/
structure Talks (env : Env m) (A : AServer κ n) (s : Network κ n m) (order : List (Request κ)) :
    Prop where
  explained : Live.Explained env A s.live order
  config : s.live.ConfigFramed env
  sound : ∀ k, (s.links k).Sound
  whereabouts : ∀ k, Whereabouts s.live k (s.links k)
  calls : ∀ k, (s.calls.filter fun c => decide (c.1 = k)).map Prod.snd
    = (s.links k).returned.map Prod.fst ++ (s.links k).call.toList

theorem Whereabouts.congr {l l' : Live κ n m} {k : κ} {c : Link} (h : Whereabouts l k c)
    (hserving : l'.serving k = l.serving k) (hanswered : l'.answeredTo k = l.answeredTo k) :
    Whereabouts l' k c := by
  cases h with
  | quiet hcall hidle hunread hreplying hreturned =>
    exact .quiet hcall (hserving.trans hidle) hunread hreplying (hanswered ▸ hreturned)
  | asking args bytes hcall hidle hbytes hunread hreplying hreturned =>
    exact .asking args bytes hcall (hserving.trans hidle) hbytes hunread hreplying
      (hanswered ▸ hreturned)
  | working r hcall hbusy hunread hreplying hreturned =>
    exact .working r hcall (hserving.trans hbusy) hunread hreplying (hanswered ▸ hreturned)
  | replied before r reply hcall hidle hunread hreplying hbefore hreturned =>
    exact .replied before r reply hcall (hserving.trans hidle) hunread hreplying
      (hanswered.trans hbefore) hreturned

namespace Talks

variable {env : Env m} {A : AServer κ n} {s : Network κ n m} {order : List (Request κ)}

/-- The requests of a connection that count are commands its client has sent, from the first on. -/
theorem requests_sent (h : Talks env A s order) (k : κ) :
    (order.filter fun r => decide (r.conn = k)).map Request.args
      <+: (s.calls.filter fun c => decide (c.1 = k)).map Prod.snd := by
  have hreturns (as : List (Request κ × Reply)) :
      (as.map returns).map Prod.fst = as.map fun a => a.1.args := by
    rw [List.map_map]
    rfl
  have hseen : s.live.seenBy k = s.live.answeredTo k ++ (s.live.workers k).reply := rfl
  rw [← h.explained.requests k, List.map_map, hseen, List.map_append, h.calls k]
  have hnone (hidle : s.live.serving k = none) : (s.live.workers k).reply = [] := by
    rcases s.live.reply_serving k with hnil | ⟨r, reply, hbusy, -⟩
    · exact hnil
    · rw [hidle] at hbusy
      cases hbusy
  cases h.whereabouts k with
  | quiet hcall hidle _ _ hreturned | asking _ _ hcall hidle _ _ _ hreturned =>
    rw [hreturned, hreturns, hnone hidle, List.map_nil, List.append_nil]
    exact List.prefix_append _ _
  | working r hcall hbusy _ _ hreturned =>
    rw [hreturned, hreturns, hcall]
    refine (List.prefix_append_right_inj _).mpr ?_
    rcases s.live.reply_serving k with hnil | ⟨r', reply, hbusy', hreply⟩
    · rw [hnil]
      exact List.nil_prefix
    · obtain rfl : r' = r := Option.some.inj (hbusy'.symm.trans hbusy)
      rw [hreply]
      exact List.prefix_rfl
  | replied before r reply hcall hidle _ _ hanswered hreturned =>
    rw [hreturned, hreturns, hcall, hanswered, hnone hidle, List.map_append, List.map_nil,
      List.append_nil]
    exact List.prefix_rfl

end Talks

/-! ## What has been sent can be framed -/

namespace Talks

variable {env : Env m} {A : AServer κ n} {s : Network κ n m} {order : List (Request κ)}

/-- Every request that counts is a command that was sent, and no two are the same. -/
theorem subperm_calls (h : Talks env A s order) :
    List.Subperm (order.map fun r => (r.conn, r.args)) s.calls := by
  refine subperm_of_labelled fun k => ?_
  have hfilter : ((order.map fun r => (r.conn, r.args)).filter fun x => decide (x.1 = k)).map Prod.snd
      = (order.filter fun r => decide (r.conn = k)).map Request.args := by
    rw [List.filter_map, List.map_map]
    rfl
  rw [hfilter]
  exact h.requests_sent k

theorem framed (hquote : ∀ b, (env.host.quote b).OneLine) {settings : Option Reloadable}
    {sessions : κ → Fin n} (h : Talks env (AServer.empty settings sessions) s order)
    (hlimits : WithinLimits n m env.host s.calls) (k : κ) :
    ∀ p ∈ s.live.seenBy k, p.2.framed = true := by
  have hsub := h.subperm_calls
  refine h.explained.framed hquote h.config ?_ (fun r hr => ?_) k
  · have hsum := sum_le_of_subperm hsub fun c => c.2.length
    rw [List.map_map] at hsum
    replace hsum : (order.map fun r => r.args.length).sum ≤ (s.calls.map fun c => c.2.length).sum :=
      hsum
    have hroom := hlimits.room
    unfold RoomFor
    omega
  · exact hlimits.lines (r.conn, r.args) (hsub.subset (List.mem_map.mpr ⟨r, hr, rfl⟩))

/-- The reply a connection has got last. -/
theorem reply_framed (hquote : ∀ b, (env.host.quote b).OneLine) {settings : Option Reloadable}
    {sessions : κ → Fin n} (h : Talks env (AServer.empty settings sessions) s order)
    (hlimits : WithinLimits n m env.host s.calls) {k : κ} {before : List (Request κ × Reply)}
    {r : Request κ} {reply : Reply} (hanswered : s.live.answeredTo k = before ++ [(r, reply)]) :
    reply.framed = true := by
  refine h.framed hquote hlimits k (r, reply) (List.mem_append_left _ ?_)
  show (r, reply) ∈ s.live.answeredTo k
  rw [hanswered]
  simp

end Talks

/-! ## Steps -/

namespace Link

variable {c : Link}

/-- A whole reply leaves the server at once, when the buffers are empty. -/
theorem answer_flushed (hsound : c.Sound) (hreplying : c.replying = []) {reader : RequestReader}
    (hpending : reader.pending = []) (hfin : reader.fin = .open) (reply : Reply) :
    (c.answer reader reply).Sound ∧ (c.answer reader reply).replying = writeReply reply := by
  have hbuf : reader.buf = [] := (List.append_eq_nil_iff.mp hpending).1
  have hanswer : c.answer reader reply
      = { c with reader, writer := (ReplyWriter.writeReply c.writer reply).flush } := by
    unfold answer
    rw [hbuf]
    rfl
  have hsent : (ReplyWriter.writeReply c.writer reply).flush.sent
      = c.writer.sent ++ writeReply reply := by
    show (ReplyWriter.writeReply c.writer reply).all = _
    rw [ReplyWriter.all_writeReply, Writer.all, hsound.flushed, List.append_nil]
  obtain ⟨hinput, hdrop⟩ := List.append_eq_nil_iff.mp hreplying
  have hall : c.delivered = c.writer.sent.length :=
    le_antisymm hsound.delivered (List.drop_eq_nil_iff.mp hdrop)
  rw [hanswer]
  refine ⟨⟨rfl, ?_, hfin, hsound.opened⟩, ?_⟩
  · show c.delivered ≤ (ReplyWriter.writeReply c.writer reply).flush.sent.length
    rw [hsent, List.length_append]
    exact hsound.delivered.trans (Nat.le_add_right _ _)
  · show c.input ++ (ReplyWriter.writeReply c.writer reply).flush.sent.drop c.delivered = _
    rw [hsent, hinput, hall, List.drop_left]
    rfl

end Link

namespace Talks

variable {env : Env m} {A : AServer κ n} {s : Network κ n m} {order : List (Request κ)} {k : κ}

/-- A step at one connection that the server does not see. -/
theorem setLink (h : Talks env A s order) {c : Link} {calls : List (κ × List Bytes)}
    (hsound : c.Sound) (hwhere : Whereabouts s.live k c)
    (hcalls : (calls.filter fun c => decide (c.1 = k)).map Prod.snd
      = c.returned.map Prod.fst ++ c.call.toList)
    (hothers : ∀ k' ≠ k, (calls.filter fun c => decide (c.1 = k'))
      = s.calls.filter fun c => decide (c.1 = k')) :
    Talks env A { s.setLink k c with calls } order := by
  refine ⟨h.explained, h.config, ?_, ?_, ?_⟩
  · exact (Function.forall_update_iff s.links fun _ c => c.Sound).mpr
      ⟨hsound, fun k' _ => h.sound k'⟩
  · exact (Function.forall_update_iff s.links fun k' c => Whereabouts s.live k' c).mpr
      ⟨hwhere, fun k' _ => h.whereabouts k'⟩
  · refine (Function.forall_update_iff s.links fun k' c =>
      (calls.filter fun c => decide (c.1 = k')).map Prod.snd
        = c.returned.map Prod.fst ++ c.call.toList).mpr ⟨hcalls, fun k' hk => ?_⟩
    rw [hothers k' hk]
    exact h.calls k'

/-- A step of the server at one connection. -/
theorem setLive (hquote : ∀ b, (env.host.quote b).OneLine) (h : Talks env A s order)
    {live : Live κ n m} {who : Actor κ} (hstep : LiveStep env s.live who live) {c : Link}
    (hsound : c.Sound) (hwhere : Whereabouts live k c) (hcall : c.call = (s.links k).call)
    (hreturned : c.returned = (s.links k).returned)
    (hserving : ∀ k' ≠ k, live.serving k' = s.live.serving k')
    (hanswered : ∀ k' ≠ k, live.answeredTo k' = s.live.answeredTo k') :
    ∃ more, Talks env A { s.setLink k c with live } (order ++ more) := by
  obtain ⟨more, hmore⟩ := h.explained.step hstep
  refine ⟨more, hmore, h.config.step hquote h.explained.valid hstep, ?_, ?_, ?_⟩
  · exact (Function.forall_update_iff s.links fun _ c => c.Sound).mpr
      ⟨hsound, fun k' _ => h.sound k'⟩
  · exact (Function.forall_update_iff s.links fun k' c => Whereabouts live k' c).mpr
      ⟨hwhere, fun k' hk => (h.whereabouts k').congr (hserving k' hk) (hanswered k' hk)⟩
  · refine (Function.forall_update_iff s.links fun k' c =>
      (s.calls.filter fun c => decide (c.1 = k')).map Prod.snd
        = c.returned.map Prod.fst ++ c.call.toList).mpr ⟨?_, fun k' _ => h.calls k'⟩
    rw [hcall, hreturned]
    exact h.calls k

end Talks

theorem Whereabouts.of_link {l : Live κ n m} {k : κ} {c c' : Link} (h : Whereabouts l k c)
    (hcall : c'.call = c.call) (hunread : c'.unread = c.unread) (hreplying : c'.replying = c.replying)
    (hreturned : c'.returned = c.returned) : Whereabouts l k c' := by
  cases h with
  | quiet h₁ h₂ h₃ h₄ h₅ =>
    exact .quiet (hcall.trans h₁) h₂ (hunread.trans h₃) (hreplying.trans h₄) (hreturned.trans h₅)
  | asking args bytes h₁ h₂ h₃ h₄ h₅ h₆ =>
    exact .asking args bytes (hcall.trans h₁) h₂ h₃ (hunread.trans h₄) (hreplying.trans h₅)
      (hreturned.trans h₆)
  | working r h₁ h₂ h₃ h₄ h₅ =>
    exact .working r (hcall.trans h₁) h₂ (hunread.trans h₃) (hreplying.trans h₄)
      (hreturned.trans h₅)
  | replied before r reply h₁ h₂ h₃ h₄ h₅ h₆ =>
    exact .replied before r reply (hcall.trans h₁) h₂ (hunread.trans h₃) (hreplying.trans h₄) h₅
      (hreturned.trans h₆)

/-- One reply more, for one connection. -/
theorem Live.answeredTo_snoc {l l' : Live κ n m} {r : Request κ} {reply : Reply}
    (h : l'.answered = l.answered ++ [(r, reply)]) :
    l'.answeredTo r.conn = l.answeredTo r.conn ++ [(r, reply)] ∧
      ∀ k ≠ r.conn, l'.answeredTo k = l.answeredTo k := by
  unfold Live.answeredTo
  rw [h]
  refine ⟨by simp, fun k hk => ?_⟩
  simp [hk.symm]

namespace Talks

variable {env : Env m} {A : AServer κ n} {s t : Network κ n m} {order : List (Request κ)} {k : κ}

/-- A command that a client waits for has been sent. -/
theorem mem_calls (h : Talks env A s order) {args : List Bytes}
    (hcall : (s.links k).call = some args) : (k, args) ∈ s.calls := by
  have hcalls := h.calls k
  rw [hcall] at hcalls
  have hlast : args ∈ (s.calls.filter fun c => decide (c.1 = k)).map Prod.snd := by
    rw [hcalls]
    simp
  obtain ⟨c, hc, rfl⟩ := List.mem_map.mp hlast
  obtain ⟨hc, hk⟩ := List.mem_filter.mp hc
  rwa [show (k, c.2) = c from Prod.ext (of_decide_eq_true hk).symm rfl]

/-- **What the loop can read when it is not busy**: the command of the client, if it is all there. -/
theorem reads (h : Talks env A s order) (hlimits : WithinLimits n m env.host s.calls)
    (hidle : s.live.serving k = none) :
    (s.links k).reader.readRequest.1 = .error (.input (.source .open)) ∨
      ∃ args, args ≠ [] ∧ (s.links k).call = some args ∧ (s.links k).upstream = [] ∧
        (s.links k).replying = [] ∧ (s.links k).returned = (s.live.answeredTo k).map returns ∧
        (s.links k).reader.readRequest.1 = .ok args ∧
        (s.links k).reader.readRequest.2.pending = [] ∧
        (s.links k).reader.readRequest.2.fin = .open := by
  have hnothing (hunread : (s.links k).unread = []) :
      (s.links k).reader.readRequest.1 = .error (.input (.source .open)) := by
    rw [readRequest_nil (List.append_eq_nil_iff.mp hunread).1, (h.sound k).waits]
  cases h.whereabouts k with
  | quiet _ _ hunread _ _ => exact .inl (hnothing hunread)
  | asking args bytes hcall _ hbytes hunread hreplying hreturned =>
    obtain ⟨hmax, hargs⟩ := hlimits.sizes _ (h.mem_calls hcall)
    have hne : args ≠ [] := by
      rintro rfl
      cases hbytes
    rcases readRequest_part hbytes hmax hargs (h.sound k).waits hunread with hwait | ⟨hrest, hread⟩
    · exact .inl hwait
    · exact .inr ⟨args, hne, hcall, hrest, hreplying, hreturned, hread⟩
  | working r _ hbusy _ _ _ =>
    rw [hidle] at hbusy
    cases hbusy
  | replied _ _ _ _ _ hunread _ _ _ => exact .inl (hnothing hunread)

/-- The same, from a request that was read. -/
theorem of_read (h : Talks env A s order) (hlimits : WithinLimits n m env.host s.calls)
    (hidle : s.live.serving k = none) {args : List Bytes} {reader : RequestReader}
    (hread : (s.links k).reader.readRequest = (.ok args, reader)) :
    args ≠ [] ∧ (s.links k).call = some args ∧ (s.links k).upstream = [] ∧
      (s.links k).replying = [] ∧ (s.links k).returned = (s.live.answeredTo k).map returns ∧
      reader.pending = [] ∧ reader.fin = .open := by
  rcases h.reads hlimits hidle with hwait | ⟨args', hne, hcall, hup, hreplying, hreturned, hok, hrest⟩
  · rw [hread] at hwait
    cases hwait
  · rw [hread] at hok hrest
    cases hok
    exact ⟨hne, hcall, hup, hreplying, hreturned, hrest⟩

/-- A client that waits for nothing sends a command. -/
theorem call (h : Talks env A s order) {args : List Bytes} {bytes : List UInt8}
    (hidle : (s.links k).call = none) (hbytes : Client.writeCommand args = some bytes) :
    Talks env A
      { s.setLink k { s.links k with
          call := some args, upstream := (s.links k).upstream ++ bytes } with
        calls := s.calls ++ [(k, args)] } order := by
  obtain ⟨hflushed, hdelivered, hwaits, hopen⟩ := h.sound k
  cases h.whereabouts k with
  | quiet _ hserving hunread hreplying hreturned =>
    refine h.setLink ⟨hflushed, hdelivered, hwaits, hopen⟩
      (.asking args bytes rfl hserving hbytes ?_ hreplying hreturned) ?_ fun k' hk' => ?_
    · show (s.links k).reader.pending ++ ((s.links k).upstream ++ bytes) = bytes
      rw [← List.append_assoc, show (s.links k).reader.pending ++ (s.links k).upstream = [] from
        hunread, List.nil_append]
    · have hcalls := h.calls k
      rw [hidle] at hcalls
      simpa using hcalls
    · simp [hk'.symm]
  | asking _ _ hcall | working _ hcall | replied _ _ _ hcall =>
    rw [hidle] at hcall
    cases hcall

/-- `Do` returns: the whole reply has arrived, and it is read as it was written. -/
theorem read (hquote : ∀ b, (env.host.quote b).OneLine) {settings : Option Reloadable}
    {sessions : κ → Fin n} (h : Talks env (AServer.empty settings sessions) s order)
    (hlimits : WithinLimits n m env.host s.calls) {args : List Bytes}
    {x : Except Client.Error Client.Value} {rest : List UInt8} (hcall : (s.links k).call = some args)
    (hread : Client.readReply (s.links k).input = (x, rest)) (hwhole : x ≠ .error .eof) :
    Talks env (AServer.empty settings sessions)
      (s.setLink k { s.links k with
        call := none, input := rest, returned := (s.links k).returned ++ [(args, x)] }) order := by
  obtain ⟨hflushed, hdelivered, hwaits, hopen⟩ := h.sound k
  -- a reply that can be read has been written: the server is through with the call
  have hempty (hreplying : (s.links k).replying = []) : False := by
    rw [(List.append_eq_nil_iff.mp hreplying).1] at hread
    cases hread
    exact hwhole rfl
  cases h.whereabouts k with
  | quiet _ _ _ hreplying | asking _ _ _ _ _ _ hreplying | working _ _ _ _ hreplying =>
    exact (hempty hreplying).elim
  | replied before r reply hcall' hidle hunread hreplying hanswered hreturned =>
    have hframed := h.reply_framed hquote hlimits hanswered
    -- all of it has come, for a part of a reply makes the client wait
    have hinput : (s.links k).input = writeReply reply := by
      by_contra hne
      have hwait := Client.readReply_waits hframed ⟨_, hreplying⟩ hne
      rw [hread] at hwait
      exact hwhole hwait
    have hleft : (s.links k).writer.sent.drop (s.links k).delivered = [] := by
      have hall : (s.links k).input ++ (s.links k).writer.sent.drop (s.links k).delivered
          = writeReply reply := hreplying
      rw [hinput] at hall
      exact List.append_cancel_left (hall.trans (List.append_nil _).symm)
    have hdecoded := Client.readReply_frame reply hframed []
    rw [List.append_nil, ← hinput, hread] at hdecoded
    obtain ⟨rfl, rfl⟩ := Prod.ext_iff.mp hdecoded
    obtain rfl : r.args = args := Option.some.inj (hcall'.symm.trans hcall)
    refine h.setLink ⟨hflushed, hdelivered, hwaits, hopen⟩
      (.quiet rfl hidle hunread ?_ ?_) ?_ fun _ _ => rfl
    · exact hleft
    · show (s.links k).returned ++ [(r.args, Client.decoded reply)] = _
      rw [hanswered, hreturned, List.map_append]
      rfl
    · have hcalls := h.calls k
      rw [hcall] at hcalls
      simpa using hcalls

/-- Bytes arrive, at the server or at a client. -/
theorem network_step (h : Talks env A s order) (hstep : NetStep env s (.network k) t) :
    Talks env A t order := by
  obtain ⟨hflushed, hdelivered, hwaits, hopen⟩ := h.sound k
  cases hstep with
  | @deliver _ p rest hsent =>
    refine h.setLink ⟨hflushed, hdelivered, hwaits, hopen⟩
      ((h.whereabouts k).of_link rfl ?_ rfl rfl) (h.calls k) fun _ _ => rfl
    show ((s.links k).reader.buf ++ flat ((s.links k).reader.packets ++ [p])) ++ rest
      = ((s.links k).reader.buf ++ flat (s.links k).reader.packets) ++ (s.links k).upstream
    rw [hsent]
    simp [flat]
  | @arrive _ bs rest hne hsent =>
    have hlen := congrArg List.length hsent
    rw [List.length_drop, List.length_append] at hlen
    refine h.setLink ⟨hflushed, ?_, hwaits, hopen⟩
      ((h.whereabouts k).of_link rfl rfl ?_ rfl) (h.calls k) fun _ _ => rfl
    · show (s.links k).delivered + bs.length ≤ (s.links k).writer.sent.length
      omega
    · show ((s.links k).input ++ bs)
          ++ (s.links k).writer.sent.drop ((s.links k).delivered + bs.length)
        = (s.links k).input ++ (s.links k).writer.sent.drop (s.links k).delivered
      rw [← List.drop_drop, hsent, List.drop_left, List.append_assoc]

/-- A request that is answered without a command. -/
theorem reject (hquote : ∀ b, (env.host.quote b).OneLine) (h : Talks env A s order)
    (hlimits : WithinLimits n m env.host s.calls) {reader : RequestReader} {r : Request κ}
    {reply : Reply} {live : Live κ n m} (hidle : s.live.serving k = none)
    (hread : (s.links k).reader.readRequest = (.ok r.args, reader))
    (hlive : LiveStep env s.live (.conn k) live)
    (hanswered : live.answered = s.live.answered ++ [(r, reply)]) :
    ∃ more, Talks env A { s.setLink k ((s.links k).answer reader reply) with live }
      (order ++ more) := by
  obtain ⟨-, hcall, hup, hreplying, hreturned, hpending, hfin⟩ := h.of_read hlimits hidle hread
  obtain ⟨rfl, hserving⟩ := hlive.rejected hidle hanswered
  obtain ⟨hown, hothers⟩ := Live.answeredTo_snoc hanswered
  obtain ⟨hsound, hreplies⟩ := Link.answer_flushed (h.sound r.conn) hreplying hpending hfin reply
  refine h.setLive hquote hlive hsound
    (.replied (s.live.answeredTo r.conn) r reply hcall ?_ ?_ hreplies hown hreturned) rfl rfl
    (fun k' _ => congrFun hserving k') hothers
  · rw [hserving]
    exact hidle
  · show reader.pending ++ (s.links r.conn).upstream = []
    rw [hpending, hup]
    rfl

/-- A request is read and its execution begins. -/
theorem begin (hquote : ∀ b, (env.host.quote b).OneLine) (h : Talks env A s order)
    (hlimits : WithinLimits n m env.host s.calls) {reader : RequestReader} {r : Request κ}
    {live : Live κ n m} (hidle : s.live.serving k = none)
    (hread : (s.links k).reader.readRequest = (.ok r.args, reader))
    (hlive : LiveStep env s.live (.conn k) live) (hbusy : live.serving k = some r) :
    ∃ more, Talks env A { s.setLink k { s.links k with reader } with live } (order ++ more) := by
  obtain ⟨-, hcall, hup, hreplying, hreturned, hpending, hfin⟩ := h.of_read hlimits hidle hread
  obtain ⟨rfl, hanswered, hserving⟩ := hlive.began hidle hbusy
  have hsound := h.sound r.conn
  have hsame (k' : κ) : live.answeredTo k' = s.live.answeredTo k' := by
    unfold Live.answeredTo
    rw [hanswered]
  refine h.setLive hquote hlive ⟨hsound.flushed, hsound.delivered, hfin, hsound.opened⟩
    (.working r hcall hbusy ?_ hreplying (hsame r.conn ▸ hreturned)) rfl rfl hserving
    fun k' _ => hsame k'
  show reader.pending ++ (s.links r.conn).upstream = []
  rw [hpending, hup]
  rfl

/-- An execution is over, and the reply is sent. -/
theorem finish (hquote : ∀ b, (env.host.quote b).OneLine) (h : Talks env A s order) {r : Request κ}
    {reply : Reply} {live : Live κ n m} (hbusy : s.live.serving k = some r)
    (hlive : LiveStep env s.live (.conn k) live)
    (hanswered : live.answered = s.live.answered ++ [(r, reply)]) :
    ∃ more, Talks env A { s.setLink k ((s.links k).answer (s.links k).reader reply) with live }
      (order ++ more) := by
  have hconn := h.explained.valid.conn_of_serving hbusy
  obtain ⟨hdone, hserving⟩ := hlive.finished hbusy hanswered
  obtain ⟨hown, hothers⟩ := Live.answeredTo_snoc hanswered
  subst hconn
  cases h.whereabouts r.conn with
  | working r' hcall hbusy' hunread hreplying hreturned =>
    obtain rfl : r' = r := Option.some.inj (hbusy'.symm.trans hbusy)
    obtain ⟨hsound, hreplies⟩ := Link.answer_flushed (h.sound r'.conn) hreplying
      (List.append_eq_nil_iff.mp hunread).1 (h.sound r'.conn).waits reply
    exact h.setLive hquote hlive hsound
      (.replied (s.live.answeredTo r'.conn) r' reply hcall hdone hunread hreplies hown hreturned)
      rfl rfl hserving hothers
  | quiet _ hidle | asking _ _ _ hidle | replied _ _ _ _ hidle =>
    rw [hbusy] at hidle
    cases hidle

/-- A step of the server, at a connection or in the background. -/
theorem server_step (hquote : ∀ b, (env.host.quote b).OneLine) (h : Talks env A s order)
    (hlimits : WithinLimits n m env.host s.calls) {who : Actor κ}
    (hstep : NetStep env s (.server who) t) : ∃ more, Talks env A t (order ++ more) := by
  cases hstep with
  | emptyRequest _ hidle hread =>
    -- a client sends no empty line, and nothing that violates the protocol
    exact absurd rfl (h.of_read hlimits hidle hread).1
  | protocolError _ hidle hread =>
    rcases h.reads hlimits hidle with hwait | ⟨_, _, _, _, _, _, hok, _⟩
    · rw [hread] at hwait
      cases hwait
    · rw [hread] at hok
      cases hok
  | reject _ hidle hread _ hlive hanswered =>
    exact h.reject hquote hlimits hidle hread hlive hanswered
  | begin _ hidle hread _ hlive hbusy => exact h.begin hquote hlimits hidle hread hlive hbusy
  | finish _ hbusy hlive hanswered => exact h.finish hquote hbusy hlive hanswered
  | work hlive hanswered hserving =>
    obtain ⟨more, hmore⟩ := h.explained.step hlive
    refine ⟨more, hmore, h.config.step hquote h.explained.valid hlive, h.sound, fun k => ?_, h.calls⟩
    refine (h.whereabouts k).congr (hserving k) ?_
    unfold Live.answeredTo
    rw [hanswered]

/-- **One step**, of a client, of the network or of the server. -/
theorem step (hquote : ∀ b, (env.host.quote b).OneLine) {settings : Option Reloadable}
    {sessions : κ → Fin n} (h : Talks env (AServer.empty settings sessions) s order)
    (hlimits : WithinLimits n m env.host s.calls) {who : NetActor κ} (hstep : NetStep env s who t) :
    ∃ more, Talks env (AServer.empty settings sessions) t (order ++ more) := by
  have hsame {t : Network κ n m} (h' : Talks env (AServer.empty settings sessions) t order) :
      ∃ more, Talks env (AServer.empty settings sessions) t (order ++ more) :=
    ⟨[], by rwa [List.append_nil]⟩
  cases who with
  | client k =>
    cases hstep with
    | call hidle hbytes => exact hsame (h.call hidle hbytes)
    | read hcall hread hwhole => exact hsame (h.read hquote hlimits hcall hread hwhole)
  | network k => exact hsame (h.network_step hstep)
  | server who => exact h.server_step hquote hlimits hstep

end Talks

/-! ## Runs -/

/-- The connection a step is at. -/
def NetActor.at : NetActor κ → Option κ
  | .client k | .network k | .server (.conn k) => some k
  | .server _ => none

omit [DecidableEq κ] in
theorem WithinLimits.of_prefix {host : Host} {calls calls' : List (κ × List Bytes)}
    (h : WithinLimits n m host calls') (hpre : calls <+: calls') : WithinLimits n m host calls := by
  obtain ⟨more, rfl⟩ := hpre
  refine ⟨fun c hc => h.sizes c (List.mem_append_left _ hc),
    fun c hc => h.lines c (List.mem_append_left _ hc), ?_⟩
  have hroom := h.room
  rw [List.map_append, List.sum_append] at hroom
  omega

theorem NetStep.calls_grow {env : Env m} {s t : Network κ n m} {who : NetActor κ}
    (h : NetStep env s who t) : s.calls <+: t.calls := by
  cases h with
  | call => exact List.prefix_append _ _
  | deliver | arrive | read | emptyRequest | protocolError | reject | begin | finish | work =>
    exact List.prefix_rfl

theorem talks_start (env : Env m) (settings : Option Reloadable) (sessions : κ → Fin n) (gen : Nat)
    (clock : Time) :
    Talks env (AServer.empty settings sessions) (Network.start settings sessions gen clock) [] where
  explained := Live.explained_start env settings sessions gen clock
  config _ _ hp := by cases hp
  sound _ := ⟨rfl, le_rfl, rfl, rfl⟩
  whereabouts _ := .quiet rfl rfl rfl rfl rfl
  calls _ := rfl

namespace Talks

variable {env : Env m} {A : AServer κ n} {s : Network κ n m} {order : List (Request κ)} {k : κ}

/-- What `Do` has returned is what the connection has seen, up to the last reply. -/
theorem returned_seen (h : Talks env A s order) (k : κ) :
    ∃ before rest, s.live.seenBy k = before ++ rest ∧ (s.links k).returned = before.map returns := by
  cases h.whereabouts k with
  | quiet _ _ _ _ hreturned | asking _ _ _ _ _ _ _ hreturned | working _ _ _ _ _ hreturned =>
    exact ⟨_, _, rfl, hreturned⟩
  | replied before r reply _ _ _ _ hanswered hreturned =>
    refine ⟨before, (r, reply) :: (s.live.workers k).reply, ?_, hreturned⟩
    show s.live.answeredTo k ++ _ = _
    rw [hanswered, List.append_assoc]
    rfl

/-- **A client that waits does not wait in vain**: if the server is not busy with its command, a packet
or a byte can go on, the loop can read the command, or `Do` can return. -/
theorem goes_on (hquote : ∀ b, (env.host.quote b).OneLine) {settings : Option Reloadable}
    {sessions : κ → Fin n} (h : Talks env (AServer.empty settings sessions) s order)
    (hlimits : WithinLimits n m env.host s.calls) (hcall : (s.links k).call ≠ none)
    (hidle : s.live.serving k = none) : ∃ who t, who.at = some k ∧ NetStep env s who t := by
  have hopen := (h.sound k).opened
  cases h.whereabouts k with
  | quiet hnone => exact absurd hnone hcall
  | working r _ hbusy =>
    rw [hidle] at hbusy
    cases hbusy
  | asking args bytes hargs _ hbytes hunread hreplying hreturned =>
    by_cases hup : (s.links k).upstream = []
    · -- the whole command is there
      have hpending : (s.links k).reader.pending = bytes := by
        rw [← hunread, Link.unread, hup, List.append_nil]
      obtain ⟨hmax, hsizes⟩ := hlimits.sizes _ (h.mem_calls hargs)
      obtain ⟨reader, hread⟩ := readRequest_whole hbytes hmax hsizes hpending
      have hne := (h.of_read hlimits hidle hread).1
      have hworker := s.live.idle_of_serving hidle
      let r : Request κ := ⟨k, args, 0, 0, MapOrder.default, fun _ => 0⟩
      cases hres : (resolve args : Except Reply (Command n m)) with
      | error reply =>
        exact ⟨.server (.conn k), _, rfl,
          .reject (r := r) hopen hidle hread hne (.reject (r := r) hworker hres) rfl⟩
      | ok cmd =>
        obtain ⟨hcmd, hacc, -⟩ := resolve_ok hres
        obtain ⟨shards, hshards, -⟩ := run_confined env hcmd hacc
        refine ⟨.server (.conn k), _, rfl, .begin (r := r) hopen hidle hread hne
          (.start (r := r) hworker hres hshards) ?_⟩
        show (Function.update s.live.workers k _ k).job.map Job.req = some r
        rw [Function.update_self]
        rfl
    -- some of the bytes are still under way
    · exact ⟨.network k, _, rfl,
        .deliver (p := ⟨(s.links k).upstream, hup⟩) (List.append_nil _).symm⟩
  | replied before r reply hargs _ hunread hreplying hanswered hreturned =>
    -- the reply is written; the client reads it once all of it has come
    have hframed := h.reply_framed hquote hlimits hanswered
    have hall : (s.links k).input ++ (s.links k).writer.sent.drop (s.links k).delivered
        = writeReply reply := hreplying
    by_cases hleft : (s.links k).writer.sent.drop (s.links k).delivered = []
    · rw [hleft, List.append_nil] at hall
      have hread := Client.readReply_frame reply hframed []
      rw [List.append_nil, ← hall] at hread
      exact ⟨.client k, _, rfl, .read hargs hread (Client.decoded_ne_eof hframed)⟩
    · exact ⟨.network k, _, rfl, .arrive hleft (List.append_nil _).symm⟩

end Talks

/-- A call of `Do` returned what the abstract server answers, if it was not a CONFIG GET. -/
def ReturnsAs (host : Host) (p : Request κ × AReply)
    (r : List Bytes × Except Client.Error Client.Value) : Prop :=
  r.1 = p.1.args ∧
    (isConfigGet host p.1.args = false → ∃ reply, p.2.Shows reply ∧ r.2 = Client.decoded reply)

/-- **What the clients see is linearizable.** Any number of Go clients, each with one command under way
at a time; any way the network cuts and delays their bytes and those of the replies; any interleaving of
the connections, of compactions, of active expiry and of the clock on the server, which a handler reads
once. The commands are within the limits of the reader, none is answered with an error that repeats a
text of more than a line (`WithinLimits`), and quoting makes a line of every text (`hquote`). There is a
sequence of orders, one for every moment, each an initial part of the later ones. At every moment, the
calls of `Do` that have returned on a connection, those of CONFIG GET apart, have returned what the
abstract server answers to the commands of this connection in the order, one for one. The connection is
open, and the command that a client waits for is on the way, with the server, or answered, in which case
its reply is on the way back and nothing of it is held back; if the server is not busy with it,
something can go on. -/
theorem calls_linearizable (env : Env m) (hquote : ∀ b, (env.host.quote b).OneLine)
    (settings : Option Reloadable) (sessions : κ → Fin n) (gen : Nat) (clock : Time)
    {st : ℕ → Network κ n m} (hstart : st 0 = Network.start settings sessions gen clock)
    (hrun : RunsOn (NetStep env) st) :
    ∃ order : ℕ → List (Request κ), (∀ i j, i ≤ j → order i <+: order j) ∧
      ∀ i, WithinLimits n m env.host (st i).calls → ∀ k,
        List.Forall₂ (ReturnsAs env.host)
          ((((AServer.empty settings sessions).transcript env.limits env.host (order i)).filter
            fun p => decide (p.1.conn = k)).take ((st i).links k).returned.length)
          ((st i).links k).returned ∧
        ((st i).links k).Sound ∧ Whereabouts (st i).live k ((st i).links k) ∧
        (((st i).links k).call ≠ none → (st i).live.serving k = none →
          ∃ who t, who.at = some k ∧ NetStep env (st i) who t) := by
  have hfirst : WithinLimits n m env.host (st 0).calls →
      Talks env (AServer.empty settings sessions) (st 0) [] := fun _ => by
    rw [hstart]
    exact talks_start env settings sessions gen clock
  -- the histories grow along the run, as long as the calls stay within the limits
  obtain ⟨order, hgrows, horder⟩ := hrun.exists_history (F := fun s order =>
    WithinLimits n m env.host s.calls → Talks env (AServer.empty settings sessions) s order) hfirst
    fun {s who t l} h hstep => by
      by_cases hlimits : WithinLimits n m env.host t.calls
      · have hbefore := hlimits.of_prefix hstep.calls_grow
        obtain ⟨more, hmore⟩ := (h hbefore).step hquote hbefore hstep
        exact ⟨more, fun _ => hmore⟩
      · exact ⟨[], fun hno => absurd hno hlimits⟩
  refine ⟨order, hgrows, fun i hlimits k => ?_⟩
  have h := horder i hlimits
  refine ⟨?_, h.sound k, h.whereabouts k, h.goes_on hquote hlimits⟩
  -- a client has returned from the first of the calls that its connection has answered
  obtain ⟨before, rest, hseen, hreturned⟩ := h.returned_seen k
  have hreplies := List.forall₂_take before.length (h.explained.replies k)
  rw [hseen, List.take_left] at hreplies
  rw [hreturned, List.length_map, List.forall₂_map_right_iff]
  refine hreplies.imp fun p a hp => ⟨congrArg Request.args hp.1, fun hconfig => ?_⟩
  exact ⟨a.2, hp.2 (hp.1 ▸ hconfig), rfl⟩

/-- One shard, on a host that quotes everything alike. -/
def quotingEnv : Env 1 :=
  { Env.single 0 with host := { Host.verbatim with quote := fun _ => ascii "?" } }

/-- The two packets `SET a 1` arrives in. -/
def sent : Packet × Packet :=
  (⟨(ascii "*3\r\n$3\r\nS").data, by decide⟩, ⟨(ascii "ET\r\n$1\r\na\r\n$1\r\n1\r\n").data, by decide⟩)

/-- A client sets a key. The command arrives in two packets and its reply in one. -/
theorem calls_linearizable_set : ∃ (st : ℕ → Network Unit 1 1) (order : ℕ → List (Request Unit))
    (i : ℕ), RunsOn (NetStep quotingEnv) st ∧
      ((st i).links ()).returned = [((sole 0 ["SET", "a", "1"]).args, .ok (.str (ascii "OK")))] ∧
      WithinLimits 1 1 quotingEnv.host (st i).calls ∧
      List.Forall₂ (ReturnsAs quotingEnv.host)
        ((((AServer.empty none fun _ => 0 : AServer Unit 1).transcript quotingEnv.limits
          quotingEnv.host (order i)).filter fun p => decide (p.1.conn = ())).take 1)
        ((st i).links ()).returned := by
  have hquote (b : Bytes) : (quotingEnv.host.quote b).OneLine :=
    show (ascii "?").OneLine by decide
  have hwrite : Client.writeCommand (sole 0 ["SET", "a", "1"]).args
      = some (ascii "*3\r\n$3\r\nSET\r\n$1\r\na\r\n$1\r\n1\r\n").data := by decide +kernel
  have h₀ : Run (NetStep quotingEnv) _ _ _ :=
    .nil (Network.start none (fun _ => 0) 0 0 : Network Unit 1 1)
  -- the request goes out in two packets
  have h₁ := h₀.snoc (.call (k := ()) rfl hwrite)
  have h₂ := h₁.snoc (.deliver (k := ()) (p := sent.1) (show _ = _ ++ sent.2.1 by decide +kernel))
  have h₃ := h₂.snoc (.deliver (k := ()) (p := sent.2) (List.append_nil _).symm)
  obtain ⟨reader, hread, hpending, hfin⟩ : ∃ reader : RequestReader,
      RequestReader.readRequest (.new [sent.1, sent.2] .open)
        = (.ok (sole 0 ["SET", "a", "1"]).args, reader) ∧
      reader.pending = [] ∧ reader.fin = .open :=
    ⟨(RequestReader.readRequest (.new [sent.1, sent.2] .open)).2, Prod.ext (by decide +kernel) rfl,
      by decide +kernel, by decide +kernel⟩
  have h₄ := h₃.snoc (.begin (k := ()) (r := sole 0 ["SET", "a", "1"]) rfl rfl hread
    (List.cons_ne_nil _ _) (.start rfl rfl rfl) rfl)
  -- the server works on it: lock, look, run, write, append, unlock
  have h₅ := h₄.snoc (.work (.acquire (k := ()) rfl
    (Live.free_of_unlocked (fun _ => rfl) rfl rfl)) rfl fun _ => rfl)
  have h₆ := h₅.snoc (.work (.enter (k := ()) rfl fun _ => Keyspace.new) rfl fun _ => rfl)
  have h₇ := h₆.snoc (.work (.look (k := ()) (i := 0) rfl (by decide)) rfl fun _ => rfl)
  have h₈ := h₇.snoc (.work (.run (k := ()) rfl rfl) rfl fun _ => rfl)
  have h₉ := h₈.snoc (.work (.write (k := ()) (i := 0) rfl (by decide)) rfl fun _ => rfl)
  have h₁₀ := h₉.snoc (.work (.wrote (k := ()) rfl) rfl fun _ => rfl)
  have h₁₁ := h₁₀.snoc (.work (.append (k := ()) rfl) rfl fun _ => rfl)
  have h₁₂ := h₁₁.snoc (.work (.release (k := ()) rfl (show [0] = [] ++ [0] from rfl)) rfl
    fun _ => rfl)
  have h₁₃ := h₁₂.snoc (.finish (k := ()) rfl rfl (.finish rfl rfl)
    (show _ = _ ++ [(_, .simple (ascii "OK"))] from rfl))
  -- the reply is flushed and comes back in one piece
  have hreplying := (Link.answer_flushed (c := { Link.new with reader }) ⟨rfl, le_rfl, hfin, rfl⟩ rfl
    hpending hfin (.simple (ascii "OK"))).2
  have h₁₄ := h₁₃.snoc (.arrive (k := ()) (show writeReply (.simple (ascii "OK")) ++ [] ≠ [] by decide)
    (hreplying.trans (show _ = _ ++ [] by simp)))
  have hreturn := Client.readReply_frame (.simple (ascii "OK")) (by decide) []
  have h₁₅ := h₁₄.snoc (.read (k := ()) rfl hreturn nofun)
  obtain ⟨st, hstart, hend, hsteps⟩ := h₁₅.exists_runsOn
  obtain ⟨order, -, horder⟩ := calls_linearizable quotingEnv hquote none (fun _ => 0) 0 0 hstart hsteps
  have hcalls : (st 15).calls = [((), (sole 0 ["SET", "a", "1"]).args)] := congrArg Network.calls hend
  have hreturned : ((st 15).links ()).returned
      = [((sole 0 ["SET", "a", "1"]).args, .ok (.str (ascii "OK")))] :=
    congrArg (fun s => (s.links ()).returned) hend
  have hlimits : WithinLimits 1 1 quotingEnv.host (st 15).calls := by
    rw [hcalls]
    exact ⟨by decide, by decide, by decide⟩
  have hanswers := (horder 15 hlimits ()).1
  rw [show ((st 15).links ()).returned.length = 1 by rw [hreturned]; rfl] at hanswers
  exact ⟨st, order, 15, hsteps, hreturned, hlimits, hanswers⟩

end Memcore
