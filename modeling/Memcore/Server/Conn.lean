import Memcore.Lib.Run
import Memcore.Resp.Output
import Memcore.Resp.Rounds
import Memcore.Server.Serve

/-!
# The loop of a connection

`Server.serve` of `conn.go`, one iteration at a time, over the packets the client sends, the buffer of
the reader and the buffer of the writer. Replies are flushed when no byte is left in the reader's
buffer. That is not when the loop has to wait: a packet may end inside a request, or with an empty
line, and then the replies to the requests before it stay in the writer's buffer (`reply_held_back`).
They never do if the client sends in rounds, that is, if no packet that ends a request goes on with part
of another one or ends with an empty one (`serve_flushes_rounds`).
-/

namespace Memcore

open Go Prog Bufio

variable {κ : Type} {n m : Nat}

/-- A connection between two iterations of `serve`, with the server it shares. -/
structure ConnLoop (κ : Type) (n m : Nat) where
  server : Server κ n m
  reader : RequestReader
  writer : ReplyWriter
  /-- The replies that have been written. -/
  replies : List Reply
  returned : Bool

/-- What can happen to it. -/
inductive ConnEvent (κ : Type) where
  /-- Something else happens on the server. -/
  | elsewhere
  | emptyRequest
  | request (r : Request κ)
  | protocolError
  | readError

namespace ConnLoop

/-- A connection as `serve` gets it. -/
def start (server : Server κ n m) (packets : List Packet) (fin : End) : ConnLoop κ n m :=
  ⟨server, .new packets fin, .new, [], false⟩

/-- `WriteReply`. -/
def writeReply (c : ConnLoop κ n m) (r : Reply) : ConnLoop κ n m :=
  { c with writer := ReplyWriter.writeReply c.writer r, replies := c.replies ++ [r] }

/-- `Flush`. -/
def flush (c : ConnLoop κ n m) : ConnLoop κ n m := { c with writer := c.writer.flush }

variable [DecidableEq κ]

/-- The connection after a request: replies are held back while there are bytes in the buffer. -/
def answer (env : Env m) (c : ConnLoop κ n m) (reader : RequestReader) (r : Request κ) : ConnLoop κ n m :=
  let (reply, server) := c.server.serve env r
  let c := { c with server, reader }.writeReply reply
  if reader.buf.length = 0 then c.flush else c

/-- An iteration of `serve` for the connection `k`. An input that would have to wait makes none. -/
inductive Step (env : Env m) (k : κ) : ConnLoop κ n m → ConnEvent κ → ConnLoop κ n m → Prop where
  | elsewhere {c : ConnLoop κ n m} {server : Server κ n m} : Step env k c .elsewhere { c with server }
  | emptyRequest {c : ConnLoop κ n m} {reader : RequestReader} (live : c.returned = false)
      (read : c.reader.readRequest = (.ok [], reader)) : Step env k c .emptyRequest { c with reader }
  | request {c : ConnLoop κ n m} {reader : RequestReader} {r : Request κ} (live : c.returned = false)
      (conn : r.conn = k) (nonEmpty : r.args ≠ [])
      (read : c.reader.readRequest = (.ok r.args, reader)) :
      Step env k c (.request r) (c.answer env reader r)
  | protocolError {c : ConnLoop κ n m} {reader : RequestReader} {v : Violation}
      (live : c.returned = false) (read : c.reader.readRequest = (.error (.protocol v), reader)) :
      Step env k c .protocolError
        ({ c with reader, returned := true }.writeReply (.error (ascii "ERR Protocol error"))).flush
  | readError {c : ConnLoop κ n m} {reader : RequestReader} {e : Bufio.Error}
      (live : c.returned = false) (read : c.reader.readRequest = (.error (.input e), reader))
      (ended : e ≠ .source .open) :
      Step env k c .readError { c with reader, returned := true }

/-- The bytes in the reader's buffer, with nothing behind them yet. -/
def held (c : ConnLoop κ n m) : Stream := ⟨c.reader.buf, c.reader.last, .open⟩

/-- The loop is about to wait for the network: the bytes in the buffer are no request yet. -/
def Waits (c : ConnLoop κ n m) : Prop :=
  c.returned = false ∧ ∃ s, readStream c.held = (.error (.input (.source .open)), s)

/-- Every reply has been given to the connection. -/
def Flushed (c : ConnLoop κ n m) : Prop := c.writer.sent = c.replies.flatMap Memcore.writeReply

end ConnLoop

/-! ## Runs -/

section Runs

variable [DecidableEq κ] {env : Env m} {k : κ} {server : Server κ n m} {packets : List Packet}
  {fin : End}

theorem all_step {c d : ConnLoop κ n m} {a : ConnEvent κ} (h : ConnLoop.Step env k c a d)
    (hc : c.writer.all = c.replies.flatMap writeReply) :
    d.writer.all = d.replies.flatMap writeReply := by
  have hwrite (c : ConnLoop κ n m) (hc : c.writer.all = c.replies.flatMap writeReply) (r : Reply) :
      (c.writeReply r).writer.all = (c.writeReply r).replies.flatMap writeReply := by
    change (ReplyWriter.writeReply c.writer r).all = (c.replies ++ [r]).flatMap writeReply
    rw [ReplyWriter.all_writeReply, hc, List.flatMap_append, List.flatMap_singleton]
  cases h with
  | elsewhere | emptyRequest _ _ | readError _ _ _ => exact hc
  | @request reader r _ _ _ _ =>
    unfold ConnLoop.answer
    simp only
    split
    · exact (Bufio.Writer.all_flush _).trans (hwrite { c with server := _, reader } hc _)
    · exact hwrite { c with server := _, reader } hc _
  | @protocolError reader _ _ _ =>
    exact (Bufio.Writer.all_flush _).trans (hwrite { c with reader, returned := true } hc _)

theorem flushed_iff {c : ConnLoop κ n m} {as : List (ConnEvent κ)}
    (h : Run (ConnLoop.Step env k) (.start server packets fin) as c) :
    c.Flushed ↔ c.writer.buf = [] := by
  have hall : c.writer.all = c.replies.flatMap writeReply :=
    h.invariant (fun c => c.writer.all = c.replies.flatMap writeReply) rfl fun hc hs =>
      all_step hs hc
  unfold ConnLoop.Flushed
  rw [← hall, Bufio.Writer.all]
  exact List.self_eq_append_right

theorem answer_replies (c : ConnLoop κ n m) (reader : RequestReader) (r : Request κ) :
    (c.answer env reader r).replies = c.replies ++ [(c.server.serve env r).1] := by
  unfold ConnLoop.answer
  simp only
  split <;> rfl

theorem answer_returned (c : ConnLoop κ n m) (reader : RequestReader) (r : Request κ) :
    (c.answer env reader r).returned = c.returned := by
  unfold ConnLoop.answer
  simp only
  split <;> rfl

theorem answer_reader (c : ConnLoop κ n m) (reader : RequestReader) (r : Request κ) :
    (c.answer env reader r).reader = reader := by
  unfold ConnLoop.answer
  simp only
  split <;> rfl

/-! ## Rounds -/

/-- Where the loop is in the rounds of its client: between two of them with nothing held back, inside
one, or through. -/
inductive InRounds : ConnLoop κ n m → Prop where
  | between {c : ConnLoop κ n m} (read : c.reader.buf = []) (flushed : c.writer.buf = [])
      (rounds : Rounds c.reader.packets) : InRounds c
  | inside {c : ConnLoop κ n m} (live : c.returned = false) (batch : Batch c.reader.buf)
      (rounds : Rounds c.reader.packets) : InRounds c
  | through {c : ConnLoop κ n m} (returned : c.returned = true) (flushed : c.writer.buf = []) :
      InRounds c

omit [DecidableEq κ] in
/-- Inside a round there is a request to read. -/
theorem InRounds.flushed {c : ConnLoop κ n m} (h : InRounds c)
    (hstop : c.Waits ∨ c.returned = true) : c.writer.buf = [] := by
  cases h with
  | between _ hflushed _ => exact hflushed
  | through _ hflushed => exact hflushed
  | inside hlive hbatch _ =>
    rcases hstop with ⟨-, s, hwait⟩ | hreturned
    · exact absurd hwait (hbatch.not_waits _ s)
    · cases hlive.symm.trans hreturned

/-- A request has been read and answered. -/
theorem InRounds.answer {c : ConnLoop κ n m} (hlive : c.returned = false) {reader : RequestReader}
    (hrounds : Rounds reader.packets) (hbuf : reader.buf = [] ∨ Batch reader.buf) (r : Request κ) :
    InRounds (c.answer env reader r) := by
  unfold ConnLoop.answer
  simp only
  rcases hbuf with hnil | hbatch
  · rw [if_pos (by rw [hnil]; rfl)]
    exact .between hnil rfl hrounds
  · split
    · exact .inside hlive hbatch hrounds
    · exact .inside hlive hbatch hrounds

/-- Between two rounds: the next round has a first request, which leaves its batch; or there is no
round any more, and nothing to answer. -/
theorem InRounds.between_step {c d : ConnLoop κ n m} {a : ConnEvent κ} (hread : c.reader.buf = [])
    (hflushed : c.writer.buf = []) (hrounds : Rounds c.reader.packets)
    (h : ConnLoop.Step env k c a d) : InRounds d := by
  have hround {reader : RequestReader} {args : List Bytes}
      (hok : c.reader.readRequest = (.ok args, reader)) :
      Rounds reader.packets ∧ (reader.buf = [] ∨ Batch reader.buf) := by
    generalize hps : c.reader.packets = ps at hrounds
    cases hrounds with
    | unfinished hnone =>
      have hview := readRequest_view c.reader
      rw [hok] at hview
      obtain ⟨w, rest, hrest, hreq, -⟩ := (readStream_recognises _ _ _).mp hview
      have hpending : c.reader.view.rest = flat ps := by
        change c.reader.buf ++ flat c.reader.packets = flat ps
        rw [hread, hps, List.nil_append]
      exact absurd ⟨rest, (hpending.symm.trans hrest).symm⟩ (hnone args w hreq)
    | round hreq hbytes hinside hafter hrest =>
      obtain ⟨b, hb, hbuf, hpackets⟩ := readRequest_round hread hps hreq hbytes hinside
        (hafter.imp_right And.right)
      cases hok.symm.trans hb
      rw [hbuf, hpackets]
      exact ⟨hrest, hafter.imp_right And.left⟩
  cases h with
  | elsewhere => exact .between hread hflushed hrounds
  | @emptyRequest reader hlive hok =>
    obtain ⟨hrest, hnil | hbatch⟩ := hround hok
    · exact .between hnil hflushed hrest
    · exact .inside hlive hbatch hrest
  | request hlive _ _ hok =>
    obtain ⟨hrest, hbuf⟩ := hround hok
    exact .answer hlive hrest hbuf _
  | protocolError _ _ => exact .through rfl rfl
  | readError _ _ _ => exact .through rfl hflushed

/-- Inside a round: the next request is in the buffer, and the last one is not empty. -/
theorem InRounds.inside_step {c d : ConnLoop κ n m} {a : ConnEvent κ} (hlive : c.returned = false)
    (hbatch : Batch c.reader.buf) (hrounds : Rounds c.reader.packets)
    (h : ConnLoop.Step env k c a d) : InRounds d := by
  cases h with
  | elsewhere => exact .inside hlive hbatch hrounds
  | @emptyRequest reader _ hok =>
    rcases hbatch.read with ⟨v, b, hb⟩ | ⟨req, b, hb, hpackets, hlast⟩
    · cases hok.symm.trans hb
    · cases hok.symm.trans hb
      rcases hlast with ⟨-, hne⟩ | hmore
      · exact absurd rfl hne
      · exact .inside hlive hmore (show Rounds reader.packets by rwa [hpackets])
  | @request reader r _ _ _ hok =>
    rcases hbatch.read with ⟨v, b, hb⟩ | ⟨req, b, hb, hpackets, hlast⟩
    · cases hok.symm.trans hb
    · cases hok.symm.trans hb
      exact .answer hlive (by rwa [hpackets]) (hlast.imp_left And.left) r
  | protocolError _ _ => exact .through rfl rfl
  | @readError reader e _ hok _ =>
    rcases hbatch.read with ⟨v, b, hb⟩ | ⟨req, b, hb, -⟩
    · cases hok.symm.trans hb
    · cases hok.symm.trans hb

theorem InRounds.step {c d : ConnLoop κ n m} {a : ConnEvent κ} (h : InRounds c)
    (hstep : ConnLoop.Step env k c a d) : InRounds d := by
  cases h with
  | between hread hflushed hrounds => exact between_step hread hflushed hrounds hstep
  | inside hlive hbatch hrounds => exact inside_step hlive hbatch hrounds hstep
  | through hreturned hflushed =>
    cases hstep with
    | elsewhere => exact .through hreturned hflushed
    | emptyRequest hlive _ | request hlive _ _ _ | protocolError hlive _ | readError hlive _ _ =>
      cases hlive.symm.trans hreturned

/-- **Nothing is held back from a client that sends in rounds.** For a connection on any server, and
any end of the client's bytes, if the packets come in rounds: in every state the loop can get to, when
it is about to wait for the network or has returned, every reply has been given to the connection. -/
theorem serve_flushes_rounds (env : Env m) (k : κ) (server : Server κ n m) {packets : List Packet}
    (hrounds : Rounds packets) (fin : End) {as : List (ConnEvent κ)} {c : ConnLoop κ n m}
    (hrun : Run (ConnLoop.Step env k) (.start server packets fin) as c)
    (hstop : c.Waits ∨ c.returned = true) : c.Flushed := by
  have hin : InRounds c :=
    hrun.invariant InRounds (.between rfl rfl hrounds) fun h hstep => h.step hstep
  exact (flushed_iff hrun).mpr (hin.flushed hstop)

end Runs

/-- PING in two packets, the second with another PING, and then the first two bytes of a third. -/
def tidyPackets : List Packet :=
  [⟨(ascii "PI").data, by decide⟩, ⟨(ascii "NG\r\nPING\r\n").data, by decide⟩,
    ⟨(ascii "PI").data, by decide⟩]

theorem ping_requestBytes : RequestBytes [ascii "PING"] (ascii "PING\r\n").data :=
  @RequestBytes.inline (ascii "PING").data (by decide) (by decide) (by decide)

theorem tidyPackets_rounds : Rounds tidyPackets := by
  refine @Rounds.round [⟨(ascii "PI").data, by decide⟩] [⟨(ascii "PI").data, by decide⟩]
    ⟨(ascii "NG\r\nPING\r\n").data, by decide⟩ _ _ (ascii "PING\r\n").data ping_requestBytes
    (by decide) (by decide) (.inr ⟨.last ping_requestBytes (List.cons_ne_nil _ _), by decide⟩)
    (.unfinished ?_)
  rintro req w hreq ⟨rest, hrest⟩
  have hread := (readStream_recognises ⟨(ascii "PI").data, none, .open⟩ req _).mpr
    ⟨w, rest, hrest.symm, hreq, rfl⟩
  have hwait : (readStream ⟨(ascii "PI").data, none, .open⟩).1 = .error (.input (.source .open)) := by
    decide +kernel
  rw [hread] at hwait
  cases hwait

/-- Both replies have been sent when the loop waits for the rest of the third request. -/
theorem serve_flushes_rounds_pings : ∃ as c, Run (ConnLoop.Step (Env.single 0) ())
      (.start (.empty none fun _ => 0 : Server Unit 1 1) tidyPackets .open) as c ∧
    c.Waits ∧ c.replies = [.simple (ascii "PONG"), .simple (ascii "PONG")] ∧ c.Flushed := by
  obtain ⟨b₁, b₂, hfirst, hsecond, hwait⟩ : ∃ b₁ b₂ : RequestReader,
      RequestReader.readRequest (.new tidyPackets .open) = (.ok [ascii "PING"], b₁) ∧
      b₁.readRequest = (.ok [ascii "PING"], b₂) ∧
      (readStream ⟨b₂.buf, b₂.last, .open⟩).1 = .error (.input (.source .open)) := by
    refine ⟨_, _, Prod.ext ?_ rfl, Prod.ext ?_ rfl, ?_⟩ <;> decide +kernel
  have h₀ : Run (ConnLoop.Step (Env.single 0) ()) _ _ _ :=
    .nil (.start (.empty none fun _ => 0 : Server Unit 1 1) tidyPackets .open)
  have h₁ := h₀.snoc (.request (r := sole 0 ["PING"]) rfl rfl (List.cons_ne_nil _ _) hfirst)
  have h₂ := h₁.snoc (.request (r := sole 0 ["PING"]) (answer_returned _ _ _) rfl
    (List.cons_ne_nil _ _) (by rw [answer_reader]; exact hsecond))
  have hwaits (c : ConnLoop Unit 1 1) (hlive : c.returned = false) :
      (c.answer (Env.single 0) b₂ (sole 0 ["PING"])).Waits := by
    refine ⟨(answer_returned _ _ _).trans hlive, (readStream ⟨b₂.buf, b₂.last, .open⟩).2, ?_⟩
    rw [ConnLoop.held, answer_reader]
    exact Prod.ext hwait rfl
  have hlive : (ConnLoop.answer (Env.single 0)
      (.start (.empty none fun _ => 0 : Server Unit 1 1) tidyPackets .open) b₁
      (sole 0 ["PING"])).returned = false := answer_returned _ _ _
  have hstop := hwaits _ hlive
  refine ⟨_, _, h₂, hstop, ?_, serve_flushes_rounds _ _ _ tidyPackets_rounds _ h₂ (.inl hstop)⟩
  rw [answer_replies, answer_replies]
  rfl

/-- A packet with a request and the first two bytes of the next. -/
def brokenPacket : Packet := ⟨(ascii "PING\r\nPI").data, by decide⟩

/-- The connection after PING. -/
def afterPing (fin : End) : ConnLoop Unit 1 1 :=
  let c : ConnLoop Unit 1 1 := .start (.empty none fun _ => 0) [brokenPacket] fin
  c.answer (Env.single 0) c.reader.readRequest.2 (sole 0 ["PING"])

theorem run_afterPing (fin : End)
    (hread : (RequestReader.readRequest (.new [brokenPacket] fin)).1 = .ok [ascii "PING"]) :
    Run (ConnLoop.Step (Env.single 0) ()) (.start (.empty none fun _ => 0) [brokenPacket] fin)
      [.request (sole 0 ["PING"])] (afterPing fin) :=
  (Run.nil _).snoc (.request rfl rfl (List.cons_ne_nil _ _) (Prod.ext hread rfl))

/-- The client has sent PING and two bytes more. The loop waits for the rest of the second request
with the reply to the first one in its buffer; and if the client hangs up instead, the loop returns
and the reply is never sent. -/
theorem reply_held_back :
    (∃ as c, Run (ConnLoop.Step (Env.single 0) ())
        (.start (.empty none fun _ => 0 : Server Unit 1 1) [brokenPacket] .open) as c ∧
      c.Waits ∧ c.replies = [.simple (ascii "PONG")] ∧ c.writer.sent = []) ∧
    (∃ as c, Run (ConnLoop.Step (Env.single 0) ())
        (.start (.empty none fun _ => 0 : Server Unit 1 1) [brokenPacket] .eof) as c ∧
      c.returned = true ∧ c.replies = [.simple (ascii "PONG")] ∧ c.writer.sent = []) := by
  have hpong (fin : End) : (afterPing fin).replies = [.simple (ascii "PONG")] :=
    answer_replies _ _ _
  constructor
  · refine ⟨_, _, run_afterPing .open (by decide +kernel), ⟨by decide +kernel, ?_⟩, hpong _, ?_⟩
    · exact ⟨_, Prod.ext (by decide +kernel) rfl⟩
    · decide +kernel
  · have hread : (afterPing .eof).reader.readRequest.1 = .error (.input .unexpectedEOF) := by
      decide +kernel
    refine ⟨_, _, (run_afterPing .eof (by decide +kernel)).snoc
      (.readError (by decide +kernel) (Prod.ext hread rfl) nofun), rfl, hpong _, ?_⟩
    decide +kernel

end Memcore
