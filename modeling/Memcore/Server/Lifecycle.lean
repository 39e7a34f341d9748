import Mathlib.Data.Fintype.Defs
import Memcore.Lib.Count
import Memcore.Server.Conn

/-!
# From the first connection to the last

`Serve` of `server.go` with the goroutines it starts: the four background loops, one goroutine for each
connection, and the one that waits for the context and calls `shutdown`. They share the registry of
connections and the flag `closing`, both under a mutex, and a wait group. `startConn`, `closeConn` and
`isClosing` hold the mutex for one step; `shutdown` holds it while it closes the listener and trips the
read deadline of one registered connection after the other, and the other goroutines go on meanwhile.

A tripped deadline leaves a connection the bytes in its buffer: it serves the requests that are complete
in there, and then ends. The wait group counts every goroutine that has not ended
(`Lifecycle.Inv.counted`), so when `Serve` goes on to `finalizePersistence` it is alone
(`serve_drains`).

There is a deadline for reading and none for writing. Nobody waits for what a client sends any more, so
`Serve` gets to its end if the clients read their replies (`serve_returns`). One that does not holds
`Serve` up for as long as it likes (`serve_waits_for_stalled`).
-/

namespace Memcore

open Go Prog Bufio

variable {κ : Type}

/-! ## States -/

/-- The loops `Serve` starts. -/
inductive Background where
  | reaper
  | expiry
  | flush
  | compaction
deriving DecidableEq

instance Background.instFintype : Fintype Background where
  elems := {.reaper, .expiry, .flush, .compaction}
  complete b := by cases b <;> decide

/-- Where such a loop is. -/
inductive LoopPhase where
  | unborn
  /-- in its `select` -/
  | waiting
  | working
  | returned

/-- Where `Serve` is. -/
inductive ServePhase (κ : Type) where
  /-- the loops `todo` are still to be started -/
  | spawning (todo : List Background)
  | accepting
  /-- in `startConn`, before the mutex -/
  | starting (k : κ)
  /-- the connection is registered and its goroutine not started -/
  | launching (k : κ)
  /-- the connection is refused and not closed yet -/
  | dropping (k : κ)
  /-- `Accept` has failed -/
  | checking
  /-- in `wg.Wait` -/
  | draining
  /-- in `finalizePersistence` -/
  | finalizing
  | stopped

/-- Where the goroutine that calls `shutdown` is. -/
inductive Watcher (κ : Type) where
  /-- for the context -/
  | waiting
  /-- `closing` is set, the listener is still open -/
  | locked
  /-- the deadlines of `todo` are still to be tripped -/
  | tripping (todo : Finset κ)
  | returned

/-- `shutdown` has the mutex. -/
def Watcher.locksMutex : Watcher κ → Bool
  | .locked | .tripping _ => true
  | .waiting | .returned => false

/-- Where a connection is. -/
inductive ConnPhase where
  | fresh
  /-- returned by `Accept` -/
  | accepted
  /-- registered, and its goroutine not started -/
  | registered
  /-- in `ReadRequest` -/
  | reading
  /-- in `dispatch` -/
  | serving (args : List Bytes)
  /-- the loop is over -/
  | ended
  /-- not in the registry any more -/
  | removed
  /-- and its socket closed -/
  | closed
  /-- `wg.Done` was called, or the connection refused -/
  | gone

namespace ConnPhase

/-- In the registry. -/
def inRegistry : ConnPhase → Bool
  | .registered | .reading | .serving _ | .ended => true
  | .fresh | .accepted | .removed | .closed | .gone => false

/-- What a connection contributes to the wait group. -/
def count : ConnPhase → Nat
  | .registered | .reading | .serving _ | .ended | .removed | .closed => 1
  | .fresh | .accepted | .gone => 0

end ConnPhase

/-- What a loop contributes to the wait group. -/
def LoopPhase.count : LoopPhase → Nat
  | .waiting | .working => 1
  | .unborn | .returned => 0

/-- A loop, with the ticks or values it has not received yet. -/
structure Loop where
  phase : LoopPhase
  signals : Nat

/-- What becomes of a `Write` to the socket of a client. -/
inductive Peer where
  /-- it returns -/
  | reads
  /-- the buffers on the way are full, and it does not return -/
  | stalls
  /-- it fails -/
  | gone
deriving DecidableEq

/-- `conn`, with the client at the other end. -/
structure Connection where
  phase : ConnPhase
  reader : RequestReader
  writer : ReplyWriter
  peer : Peer

namespace Connection

def new (phase : ConnPhase) : Connection := ⟨phase, .new [] .open, .new, .reads⟩

/-- The client sends. -/
def receive (c : Connection) (p : Packet) : Connection :=
  { c with reader := { c.reader with packets := c.reader.packets ++ [p] } }

/-- The client is gone after what it has sent. -/
def hangUp (c : Connection) : Connection := { c with reader := { c.reader with fin := .eof } }

/-- `SetReadDeadline` to a time that has passed: what is not in the buffer is not read any more. -/
def trip (c : Connection) : Connection :=
  { c with reader := { c.reader with packets := [], fin := .failure } }

/-- The end of an iteration of `serve`. -/
def answer (c : Connection) (reply : Reply) : Connection :=
  let writer := ReplyWriter.writeReply c.writer reply
  { c with phase := .reading, writer := if c.reader.buf.length = 0 then writer.flush else writer }

/-- The end of an iteration writes to the socket. -/
def Sends (c : Connection) (reply : Reply) : Prop := (c.answer reply).writer.sent ≠ c.writer.sent

/-- `handleReadError` for a violation of the protocol. -/
def protocolError (c : Connection) (reader : RequestReader) : Connection :=
  { c with
    phase := .ended
    reader
    writer := (ReplyWriter.writeReply c.writer (.error (ascii "ERR Protocol error"))).flush }

end Connection

/-- What `Serve` depends on: the loops it starts, and those that have a ticker or a channel besides the
context. -/
structure ServeConfig where
  persist : Bool
  ticks : Background → Bool

/-- In the order in which they are started. -/
def ServeConfig.loops (cfg : ServeConfig) : List Background :=
  [.reaper, .expiry] ++ if cfg.persist then [.flush, .compaction] else []

@[ext]
structure Lifecycle (κ : Type) where
  /-- the context -/
  cancelled : Bool
  closing : Bool
  listening : Bool
  /-- the registry -/
  conns : Finset κ
  wg : Nat
  serve : ServePhase κ
  watcher : Watcher κ
  loops : Background → Loop
  conn : κ → Connection

/-- The listener is open, and the goroutine that waits for the context is started. -/
def Lifecycle.start (κ : Type) (cfg : ServeConfig) : Lifecycle κ where
  cancelled := false
  closing := false
  listening := true
  conns := ∅
  wg := 0
  serve := .spawning cfg.loops
  watcher := .waiting
  loops := fun _ => ⟨.unborn, 0⟩
  conn := fun _ => .new .fresh

/-! ## Steps -/

/-- Who makes a step. -/
inductive LifeActor (κ : Type) where
  /-- the clients, and who cancels the context -/
  | world
  /-- a ticker, or a value for the reaper -/
  | signal
  | serve
  | watcher
  | loop (b : Background)
  | conn (k : κ)

/-- The server makes the step. -/
def LifeActor.own : LifeActor κ → Bool
  | .world | .signal => false
  | .serve | .watcher | .loop _ | .conn _ => true

/-- What an event adds to the work of the server: a signal keeps a loop busy for two steps. -/
def LifeActor.brings : LifeActor κ → Nat
  | .signal => 2
  | .world | .serve | .watcher | .loop _ | .conn _ => 0

variable [DecidableEq κ]

namespace Lifecycle

def setConn (s : Lifecycle κ) (k : κ) (c : Connection) : Lifecycle κ :=
  { s with conn := Function.update s.conn k c }

def setLoop (s : Lifecycle κ) (b : Background) (l : Loop) : Lifecycle κ :=
  { s with loops := Function.update s.loops b l }

end Lifecycle

inductive LifeStep (cfg : ServeConfig) : Lifecycle κ → LifeActor κ → Lifecycle κ → Prop where
  | cancel {s : Lifecycle κ} : LifeStep cfg s .world { s with cancelled := true }
  | send {s : Lifecycle κ} {k : κ} {p : Packet} (hphase : (s.conn k).phase ≠ .fresh)
      (hopen : (s.conn k).reader.fin = .open) :
      LifeStep cfg s .world (s.setConn k ((s.conn k).receive p))
  | hangUp {s : Lifecycle κ} {k : κ} (hphase : (s.conn k).phase ≠ .fresh)
      (hopen : (s.conn k).reader.fin = .open) :
      LifeStep cfg s .world (s.setConn k (s.conn k).hangUp)
  /-- The client starts or stops reading, or is gone for good. -/
  | turn {s : Lifecycle κ} {k : κ} {peer : Peer} (hphase : (s.conn k).phase ≠ .fresh)
      (hpeer : (s.conn k).peer ≠ .gone) :
      LifeStep cfg s .world (s.setConn k { s.conn k with peer })
  | signal {s : Lifecycle κ} {b : Background} (hticks : cfg.ticks b = true) :
      LifeStep cfg s .signal
        (s.setLoop b { s.loops b with signals := (s.loops b).signals + 1 })
  | spawn {s : Lifecycle κ} {b : Background} {todo : List Background}
      (hserve : s.serve = .spawning (b :: todo)) :
      LifeStep cfg s .serve
        { s.setLoop b { s.loops b with phase := .waiting } with
          wg := s.wg + 1, serve := .spawning todo }
  | spawned {s : Lifecycle κ} (hserve : s.serve = .spawning []) :
      LifeStep cfg s .serve { s with serve := .accepting }
  | accept {s : Lifecycle κ} {k : κ} (hserve : s.serve = .accepting) (hlistening : s.listening = true)
      (hfresh : (s.conn k).phase = .fresh) :
      LifeStep cfg s .serve { s.setConn k (.new .accepted) with serve := .starting k }
  | acceptFails {s : Lifecycle κ} (hserve : s.serve = .accepting) :
      LifeStep cfg s .serve { s with serve := .checking }
  | register {s : Lifecycle κ} {k : κ} (hserve : s.serve = .starting k)
      (hmutex : s.watcher.locksMutex = false) (hclosing : s.closing = false) :
      LifeStep cfg s .serve
        { s.setConn k { s.conn k with phase := .registered } with
          conns := insert k s.conns, wg := s.wg + 1, serve := .launching k }
  | refuse {s : Lifecycle κ} {k : κ} (hserve : s.serve = .starting k)
      (hmutex : s.watcher.locksMutex = false) (hclosing : s.closing = true) :
      LifeStep cfg s .serve { s with serve := .dropping k }
  | launch {s : Lifecycle κ} {k : κ} (hserve : s.serve = .launching k) :
      LifeStep cfg s .serve
        { s.setConn k { s.conn k with phase := .reading } with serve := .accepting }
  | drop {s : Lifecycle κ} {k : κ} (hserve : s.serve = .dropping k) :
      LifeStep cfg s .serve
        { s.setConn k { s.conn k with phase := .gone } with serve := .accepting }
  | retry {s : Lifecycle κ} (hserve : s.serve = .checking) (hmutex : s.watcher.locksMutex = false)
      (hclosing : s.closing = false) : LifeStep cfg s .serve { s with serve := .accepting }
  | breaks {s : Lifecycle κ} (hserve : s.serve = .checking) (hmutex : s.watcher.locksMutex = false)
      (hclosing : s.closing = true) : LifeStep cfg s .serve { s with serve := .draining }
  | drained {s : Lifecycle κ} (hserve : s.serve = .draining) (hwg : s.wg = 0) :
      LifeStep cfg s .serve { s with serve := .finalizing }
  | stop {s : Lifecycle κ} (hserve : s.serve = .finalizing) :
      LifeStep cfg s .serve { s with serve := .stopped }
  | shutdown {s : Lifecycle κ} (hwatcher : s.watcher = .waiting) (hcancelled : s.cancelled = true)
      (hclosing : s.closing = false) :
      LifeStep cfg s .watcher { s with closing := true, watcher := .locked }
  | shutdownAgain {s : Lifecycle κ} (hwatcher : s.watcher = .waiting)
      (hcancelled : s.cancelled = true) (hclosing : s.closing = true) :
      LifeStep cfg s .watcher { s with watcher := .returned }
  | closeListener {s : Lifecycle κ} (hwatcher : s.watcher = .locked) :
      LifeStep cfg s .watcher { s with listening := false, watcher := .tripping s.conns }
  | trip {s : Lifecycle κ} {k : κ} {todo : Finset κ} (hwatcher : s.watcher = .tripping todo)
      (hk : k ∈ todo) :
      LifeStep cfg s .watcher
        { s.setConn k (s.conn k).trip with watcher := .tripping (todo.erase k) }
  | unlock {s : Lifecycle κ} (hwatcher : s.watcher = .tripping ∅) :
      LifeStep cfg s .watcher { s with watcher := .returned }
  | wake {s : Lifecycle κ} {b : Background} {left : Nat} (hloop : (s.loops b).phase = .waiting)
      (hticks : cfg.ticks b = true) (hsignals : (s.loops b).signals = left + 1) :
      LifeStep cfg s (.loop b) (s.setLoop b ⟨.working, left⟩)
  | rest {s : Lifecycle κ} {b : Background} (hloop : (s.loops b).phase = .working) :
      LifeStep cfg s (.loop b) (s.setLoop b { s.loops b with phase := .waiting })
  | quit {s : Lifecycle κ} {b : Background} (hloop : (s.loops b).phase = .waiting)
      (hcancelled : s.cancelled = true) :
      LifeStep cfg s (.loop b)
        { s.setLoop b { s.loops b with phase := .returned } with wg := s.wg - 1 }
  | emptyRequest {s : Lifecycle κ} {k : κ} {reader : RequestReader}
      (hphase : (s.conn k).phase = .reading)
      (hread : (s.conn k).reader.readRequest = (.ok [], reader)) :
      LifeStep cfg s (.conn k) (s.setConn k { s.conn k with reader })
  | request {s : Lifecycle κ} {k : κ} {args : List Bytes} {reader : RequestReader}
      (hphase : (s.conn k).phase = .reading)
      (hread : (s.conn k).reader.readRequest = (.ok args, reader)) (hargs : args ≠ []) :
      LifeStep cfg s (.conn k) (s.setConn k { s.conn k with phase := .serving args, reader })
  | answer {s : Lifecycle κ} {k : κ} {args : List Bytes} (reply : Reply)
      (hphase : (s.conn k).phase = .serving args)
      (hpeer : (s.conn k).Sends reply → (s.conn k).peer = .reads) :
      LifeStep cfg s (.conn k) (s.setConn k ((s.conn k).answer reply))
  | writeFails {s : Lifecycle κ} {k : κ} {args : List Bytes} (reply : Reply)
      (hphase : (s.conn k).phase = .serving args) (hsends : (s.conn k).Sends reply)
      (hpeer : (s.conn k).peer = .gone) :
      LifeStep cfg s (.conn k) (s.setConn k { s.conn k with phase := .ended })
  | protocolError {s : Lifecycle κ} {k : κ} {v : Violation} {reader : RequestReader}
      (hphase : (s.conn k).phase = .reading)
      (hread : (s.conn k).reader.readRequest = (.error (.protocol v), reader))
      (hpeer : (s.conn k).peer = .reads) :
      LifeStep cfg s (.conn k) (s.setConn k ((s.conn k).protocolError reader))
  /-- The errors of these writes are ignored. -/
  | protocolErrorLost {s : Lifecycle κ} {k : κ} {v : Violation} {reader : RequestReader}
      (hphase : (s.conn k).phase = .reading)
      (hread : (s.conn k).reader.readRequest = (.error (.protocol v), reader))
      (hpeer : (s.conn k).peer = .gone) :
      LifeStep cfg s (.conn k) (s.setConn k { s.conn k with phase := .ended, reader })
  | readError {s : Lifecycle κ} {k : κ} {e : Bufio.Error} {reader : RequestReader}
      (hphase : (s.conn k).phase = .reading)
      (hread : (s.conn k).reader.readRequest = (.error (.input e), reader))
      (hended : e ≠ .source .open) :
      LifeStep cfg s (.conn k) (s.setConn k { s.conn k with phase := .ended, reader })
  | closeConn {s : Lifecycle κ} {k : κ} (hphase : (s.conn k).phase = .ended)
      (hmutex : s.watcher.locksMutex = false) :
      LifeStep cfg s (.conn k)
        { s.setConn k { s.conn k with phase := .removed } with conns := s.conns.erase k }
  | closeSocket {s : Lifecycle κ} {k : κ} (hphase : (s.conn k).phase = .removed) :
      LifeStep cfg s (.conn k) (s.setConn k { s.conn k with phase := .closed })
  | done {s : Lifecycle κ} {k : κ} (hphase : (s.conn k).phase = .closed) :
      LifeStep cfg s (.conn k)
        { s.setConn k { s.conn k with phase := .gone } with wg := s.wg - 1 }

/-! ## What holds all the time -/

omit [DecidableEq κ]

/-- `Serve` has the connection in its hands. -/
def ConnPhase.withServe : ConnPhase → Bool
  | .accepted | .registered => true
  | _ => false

theorem ConnPhase.ne_of_withServe {p q : ConnPhase} (hp : p.withServe = false)
    (hq : q.withServe = true) : p ≠ q := by
  rintro rfl
  cases hp.symm.trans hq

namespace ServePhase

/-- The connection `Serve` has in its hands, and where that is. -/
def has : ServePhase κ → Option (κ × ConnPhase)
  | .starting k | .dropping k => some (k, .accepted)
  | .launching k => some (k, .registered)
  | .spawning _ | .accepting | .checking | .draining | .finalizing | .stopped => none

/-- Before and after, it is at most the connection `k`. -/
theorem has_other {p p' : ServePhase κ} {k k' : κ} {q : ConnPhase} (hp : ∀ x ∈ p.has, x.1 = k)
    (hp' : ∀ x ∈ p'.has, x.1 = k) (hk : k' ≠ k) : p.has = some (k', q) ↔ p'.has = some (k', q) :=
  iff_of_false (fun h => hk (hp _ h)) fun h => hk (hp' _ h)

/-- The loop over `Accept` is not over. -/
def accepts : ServePhase κ → Bool
  | .draining | .finalizing | .stopped => false
  | _ => true

end ServePhase

/-- `shutdown` has been at the connection. -/
def Watcher.passed : Watcher κ → κ → Prop
  | .tripping todo, k => k ∉ todo
  | .returned, _ => True
  | .waiting, _ | .locked, _ => False

namespace Lifecycle

/-- The wait group counts the goroutines that have not ended. -/
def Counted (s : Lifecycle κ) : Prop :=
  ∃ K : Finset κ, (∀ k ∉ K, (s.conn k).phase = .fresh) ∧
    s.wg = (∑ b, (s.loops b).phase.count) + ∑ k ∈ K, (s.conn k).phase.count

structure Inv (s : Lifecycle κ) : Prop where
  owner : ∀ k q, q.withServe = true → (s.serve.has = some (k, q) ↔ (s.conn k).phase = q)
  registry : ∀ k, k ∈ s.conns ↔ (s.conn k).phase.inRegistry = true
  reached : ∀ k ∈ s.conns, s.watcher.passed k → (s.conn k).reader.fin = .failure
  closing : s.closing = true ↔ s.watcher ≠ .waiting
  listening : s.listening = true → s.watcher = .waiting ∨ s.watcher = .locked
  cancelled : s.watcher ≠ .waiting → s.cancelled = true
  watched : s.serve.accepts = false → s.watcher = .returned
  spawning : ∀ todo, s.serve = .spawning todo → todo.Nodup ∧ ∀ b ∈ todo, (s.loops b).phase = .unborn
  counted : s.Counted
  drained : s.serve = .finalizing ∨ s.serve = .stopped → s.wg = 0

variable {s t : Lifecycle κ} {cfg : ServeConfig}

namespace Counted

theorem conn_le (h : s.Counted) (k : κ) : (s.conn k).phase.count ≤ s.wg := by
  obtain ⟨K, hK, hwg⟩ := h
  by_cases hk : k ∈ K
  · have hle := Finset.single_le_sum (f := fun k => (s.conn k).phase.count)
      (fun _ _ => Nat.zero_le _) hk
    omega
  · rw [hK k hk]
    exact Nat.zero_le _

theorem loop_le (h : s.Counted) (b : Background) : (s.loops b).phase.count ≤ s.wg := by
  obtain ⟨K, hK, hwg⟩ := h
  have hle := Finset.single_le_sum (f := fun b => (s.loops b).phase.count)
    (fun _ _ => Nat.zero_le _) (Finset.mem_univ b)
  omega

/-- A goroutine that the wait group still waits for. -/
theorem exists_running (h : s.Counted) (hwg : s.wg ≠ 0) :
    (∃ b, (s.loops b).phase.count ≠ 0) ∨ ∃ k, (s.conn k).phase.count ≠ 0 := by
  obtain ⟨K, hK, hsum⟩ := h
  by_contra hnone
  rw [not_or, not_exists, not_exists] at hnone
  refine hwg ?_
  rw [hsum, Finset.sum_eq_zero fun b _ => not_not.mp (hnone.1 b),
    Finset.sum_eq_zero fun k _ => not_not.mp (hnone.2 k), add_zero]

/-- A loop moves. -/
theorem loop (h : s.Counted) {b : Background} {l : Loop}
    (hloops : t.loops = Function.update s.loops b l) (hconn : t.conn = s.conn)
    (hwg : t.wg + (s.loops b).phase.count = s.wg + l.phase.count) : t.Counted := by
  obtain ⟨K, hK, hsum⟩ := h
  refine ⟨K, fun k hk => hconn ▸ hK k hk, ?_⟩
  have hmove := sum_update_add (Finset.mem_univ b) (fun l => l.phase.count) s.loops l
  rw [hloops, hconn]
  omega

/-- A connection moves. -/
theorem conn [DecidableEq κ] (h : s.Counted) {k : κ} {c : Connection}
    (hconn : t.conn = Function.update s.conn k c) (hloops : t.loops = s.loops)
    (hwg : t.wg + (s.conn k).phase.count = s.wg + c.phase.count) : t.Counted := by
  obtain ⟨K, hK, hsum⟩ := h
  have hinsert : ∑ k ∈ insert k K, (s.conn k).phase.count = ∑ k ∈ K, (s.conn k).phase.count := by
    refine Finset.sum_insert_of_eq_zero_if_notMem fun hk => ?_
    rw [hK k hk]
    rfl
  refine ⟨insert k K, fun k' hk' => ?_, ?_⟩
  · rw [Finset.mem_insert, not_or] at hk'
    rw [hconn, Function.update_of_ne hk'.1]
    exact hK k' hk'.2
  · have hmove := sum_update_add (Finset.mem_insert_self k K) (fun c => c.phase.count) s.conn c
    rw [hloops, hconn]
    omega

end Counted

theorem inv_start (κ : Type) (cfg : ServeConfig) : (start κ cfg).Inv where
  owner k q hq := by
    constructor
    · nofun
    · rintro rfl
      cases hq
  registry k := ⟨nofun, nofun⟩
  reached k hk := absurd hk (Finset.notMem_empty k)
  closing := ⟨nofun, fun h => absurd rfl h⟩
  listening _ := .inl rfl
  cancelled h := absurd rfl h
  watched := nofun
  spawning todo htodo := by
    cases htodo
    refine ⟨?_, fun _ _ => rfl⟩
    unfold ServeConfig.loops
    cases cfg.persist <;> decide
  counted := ⟨∅, fun _ _ => rfl, rfl⟩
  drained := nofun

namespace Inv

/-- `Serve` goes on, with the connection it has. -/
theorem serve (h : s.Inv) {p : ServePhase κ} (hhas : p.has = s.serve.has)
    (hwatched : p.accepts = false → s.watcher = .returned) (hspawning : ∀ todo, p ≠ .spawning todo)
    (hdrained : p = .finalizing ∨ p = .stopped → s.wg = 0) : { s with serve := p }.Inv where
  owner k q hq := by
    show p.has = _ ↔ _
    rw [hhas]
    exact h.owner k q hq
  registry := h.registry
  reached := h.reached
  closing := h.closing
  listening := h.listening
  cancelled := h.cancelled
  watched := hwatched
  spawning todo htodo := absurd htodo (hspawning todo)
  counted := h.counted
  drained := hdrained

/-- `shutdown` goes on. -/
theorem watch (h : s.Inv) {w : Watcher κ} {listening : Bool} (hbefore : s.watcher ≠ .waiting)
    (hafter : w ≠ .waiting) (hlistening : listening = true → w = .locked)
    (hmutex : s.watcher.locksMutex = true)
    (hreached : ∀ k ∈ s.conns, w.passed k → (s.conn k).reader.fin = .failure) :
    { s with listening, watcher := w }.Inv where
  owner := h.owner
  registry := h.registry
  reached := hreached
  closing := ⟨fun _ => hafter, fun _ => h.closing.mpr hbefore⟩
  listening hopen := .inr (hlistening hopen)
  cancelled _ := h.cancelled hbefore
  watched hserve := by
    rw [h.watched hserve] at hmutex
    cases hmutex
  spawning := h.spawning
  counted := h.counted
  drained := h.drained

/-- A loop moves. -/
theorem loop (h : s.Inv) {b : Background} {l : Loop} {wg : Nat}
    (hborn : (s.loops b).phase = .unborn → l.phase = .unborn)
    (hwg : wg + (s.loops b).phase.count = s.wg + l.phase.count) (hzero : s.wg = 0 → wg = 0) :
    { s.setLoop b l with wg }.Inv where
  owner := h.owner
  registry := h.registry
  reached := h.reached
  closing := h.closing
  listening := h.listening
  cancelled := h.cancelled
  watched := h.watched
  spawning todo htodo := by
    obtain ⟨hnodup, hunborn⟩ := h.spawning todo htodo
    refine ⟨hnodup, fun b' hb' => ?_⟩
    show (Function.update s.loops b l b').phase = .unborn
    by_cases hb : b' = b
    · subst hb
      rw [Function.update_self]
      exact hborn (hunborn b' hb')
    · rw [Function.update_of_ne hb]
      exact hunborn b' hb'
  counted := h.counted.loop rfl rfl hwg
  drained hwatched := hzero (h.drained hwatched)

/-- `Serve` starts a loop. -/
theorem spawn (h : s.Inv) {b : Background} {todo : List Background}
    (hserve : s.serve = .spawning (b :: todo)) :
    { s.setLoop b { s.loops b with phase := .waiting } with
      wg := s.wg + 1, serve := .spawning todo }.Inv := by
  obtain ⟨hnodup, hunborn⟩ := h.spawning _ hserve
  have hb := hunborn b List.mem_cons_self
  refine ⟨fun k q hq => ?_, h.registry, h.reached, h.closing, h.listening, h.cancelled, nofun,
    fun todo' htodo => ?_, h.counted.loop rfl rfl ?_, nofun⟩
  · have howner := h.owner k q hq
    rwa [hserve] at howner
  · cases htodo
    refine ⟨(List.nodup_cons.mp hnodup).2, fun b' hb' => ?_⟩
    have hne : b' ≠ b := by
      rintro rfl
      exact (List.nodup_cons.mp hnodup).1 hb'
    show (Function.update s.loops b _ b').phase = .unborn
    rw [Function.update_of_ne hne]
    exact hunborn b' (List.mem_cons_of_mem _ hb')
  · rw [hb]
    rfl

variable [DecidableEq κ]

/-- A connection moves, and with it what `Serve` has in its hands and the registry. -/
theorem conn (h : s.Inv) {k : κ} {c : Connection} {p : ServePhase κ} {conns : Finset κ} {wg : Nat}
    (hserve : p = s.serve ∧ (s.wg = 0 → wg = 0) ∨ p.accepts = true ∧ ∀ todo, p ≠ .spawning todo)
    (hothers : ∀ k' q, k' ≠ k → (p.has = some (k', q) ↔ s.serve.has = some (k', q)))
    (howner : ∀ q, q.withServe = true → (p.has = some (k, q) ↔ c.phase = q))
    (hconns : ∀ k', k' ≠ k → (k' ∈ conns ↔ k' ∈ s.conns))
    (hregistry : k ∈ conns ↔ c.phase.inRegistry = true)
    (hreached : k ∈ conns → s.watcher.passed k → c.reader.fin = .failure)
    (hwg : wg + (s.conn k).phase.count = s.wg + c.phase.count) :
    { s.setConn k c with serve := p, conns, wg }.Inv where
  owner k' q hq := by
    -- the connection that moved, and the others, which did not
    show p.has = _ ↔ (Function.update s.conn k c k').phase = q
    by_cases hk : k' = k
    · subst hk
      rw [Function.update_self]
      exact howner q hq
    · rw [Function.update_of_ne hk, hothers k' q hk]
      exact h.owner k' q hq
  registry k' := by
    show k' ∈ conns ↔ (Function.update s.conn k c k').phase.inRegistry = true
    by_cases hk : k' = k
    · subst hk
      rw [Function.update_self]
      exact hregistry
    · rw [Function.update_of_ne hk, hconns k' hk]
      exact h.registry k'
  reached k' hk' hpassed := by
    show (Function.update s.conn k c k').reader.fin = .failure
    by_cases hk : k' = k
    · subst hk
      rw [Function.update_self]
      exact hreached hk' hpassed
    · rw [Function.update_of_ne hk]
      exact h.reached k' ((hconns k' hk).mp hk') hpassed
  closing := h.closing
  listening := h.listening
  cancelled := h.cancelled
  watched hwatched := by
    rcases hserve with ⟨rfl, -⟩ | ⟨haccepts, -⟩
    · exact h.watched hwatched
    · cases haccepts.symm.trans hwatched
  spawning todo htodo := by
    rcases hserve with ⟨rfl, -⟩ | ⟨-, hspawning⟩
    · exact h.spawning todo htodo
    · exact absurd htodo (hspawning todo)
  counted := h.counted.conn rfl rfl hwg
  drained hwatched := by
    rcases hserve with ⟨rfl, hzero⟩ | ⟨haccepts, -⟩
    · exact hzero (h.drained hwatched)
    · rcases hwatched with hwatched | hwatched <;>
      · rw [show p = _ from hwatched] at haccepts
        cases haccepts

/-- A connection moves within the registry, or outside of it. -/
theorem setConn (h : s.Inv) {k : κ} {c : Connection}
    (howner : ∀ q, q.withServe = true → ((s.conn k).phase = q ↔ c.phase = q))
    (hregistry : (s.conn k).phase.inRegistry = c.phase.inRegistry)
    (hcount : (s.conn k).phase.count = c.phase.count)
    (hfin : (s.conn k).reader.fin = .failure → c.reader.fin = .failure) : (s.setConn k c).Inv :=
  h.conn (.inl ⟨rfl, id⟩) (fun _ _ _ => Iff.rfl) (fun q hq => (h.owner k q hq).trans (howner q hq))
    (fun _ _ => Iff.rfl) (hregistry ▸ h.registry k)
    (fun hk hpassed => hfin (h.reached k hk hpassed)) (congrArg (s.wg + ·) hcount)

/-- A connection in its own loop moves on. -/
theorem ownConn (h : s.Inv) {k : κ} {c : Connection} (hold : (s.conn k).phase.withServe = false)
    (hnew : c.phase.withServe = false)
    (hregistry : (s.conn k).phase.inRegistry = c.phase.inRegistry)
    (hcount : (s.conn k).phase.count = c.phase.count)
    (hfin : (s.conn k).reader.fin = .failure → c.reader.fin = .failure) : (s.setConn k c).Inv := by
  refine h.setConn (fun q hq => ?_) hregistry hcount hfin
  exact iff_of_false (ConnPhase.ne_of_withServe hold hq) (ConnPhase.ne_of_withServe hnew hq)

/-- `ReadRequest` has returned. -/
theorem read (h : s.Inv) {k : κ} {c : Connection} {x : Except ReadError (List Bytes)}
    {reader : RequestReader} (hphase : (s.conn k).phase = .reading)
    (hread : (s.conn k).reader.readRequest = (x, reader)) (hreader : c.reader = reader)
    (hnew : c.phase.withServe = false) (hregistry : c.phase.inRegistry = true)
    (hcount : c.phase.count = 1) : (s.setConn k c).Inv := by
  refine h.ownConn (by rw [hphase]; rfl) hnew (by rw [hphase, hregistry]; rfl)
    (by rw [hphase, hcount]; rfl) fun hfin => ?_
  have hkept := (readRequest_decided (by rw [hfin]; nofun)).1
  rw [hread] at hkept
  rw [hreader, hkept]
  exact hfin

/-- The clients, and who cancels the context. -/
theorem world_step (h : s.Inv) (hstep : LifeStep cfg s .world t) : t.Inv := by
  cases hstep with
  | cancel =>
    exact ⟨h.owner, h.registry, h.reached, h.closing, h.listening, fun _ => rfl, h.watched, h.spawning,
      h.counted, h.drained⟩
  | send _ hopen => exact h.setConn (fun _ _ => Iff.rfl) rfl rfl id
  | hangUp _ hopen =>
    exact h.setConn (fun _ _ => Iff.rfl) rfl rfl fun hfin => nomatch hopen.symm.trans hfin
  | turn _ _ => exact h.setConn (fun _ _ => Iff.rfl) rfl rfl id

theorem accept (h : s.Inv) {k : κ} (hserve : s.serve = .accepting)
    (hfresh : (s.conn k).phase = .fresh) :
    { s.setConn k (.new .accepted) with serve := .starting k }.Inv := by
  have hout : k ∉ s.conns := by
    rw [h.registry k, hfresh]
    nofun
  refine h.conn (.inr ⟨rfl, nofun⟩) (fun _ _ => ServePhase.has_other ?_ ?_) (fun q _ => ?_)
    (fun _ _ => Iff.rfl) (iff_of_false hout nofun) (fun hk => absurd hk hout) (by rw [hfresh]; rfl)
  · simp [ServePhase.has]
  · simp [hserve, ServePhase.has]
  · simp [ServePhase.has, Connection.new]

/-- `startConn` does not come between `shutdown` and the deadlines: it has seen `closing` unset. -/
theorem register (h : s.Inv) {k : κ} (hserve : s.serve = .starting k) (hclosing : s.closing = false) :
    { s.setConn k { s.conn k with phase := .registered } with
      conns := insert k s.conns, wg := s.wg + 1, serve := .launching k }.Inv := by
  have hphase := (h.owner k .accepted rfl).mp (by rw [hserve]; rfl)
  have hwaiting : s.watcher = .waiting := by
    by_contra hne
    cases hclosing.symm.trans (h.closing.mpr hne)
  refine h.conn (.inr ⟨rfl, nofun⟩) (fun _ _ => ServePhase.has_other ?_ ?_) (fun q _ => ?_)
    (fun k' hk => by simp [hk]) (by simp [ConnPhase.inRegistry]) (fun _ hpassed => ?_)
    (by rw [hphase]; rfl)
  · simp [ServePhase.has]
  · simp [hserve, ServePhase.has]
  · simp [ServePhase.has]
  · rw [hwaiting] at hpassed
    exact hpassed.elim

/-- The goroutine of a connection starts, whose deadline `shutdown` may have tripped already. -/
theorem launch (h : s.Inv) {k : κ} (hserve : s.serve = .launching k) :
    { s.setConn k { s.conn k with phase := .reading } with serve := .accepting }.Inv := by
  have hphase := (h.owner k .registered rfl).mp (by rw [hserve]; rfl)
  have hin : k ∈ s.conns := (h.registry k).mpr (by rw [hphase]; rfl)
  refine h.conn (.inr ⟨rfl, nofun⟩) (fun _ _ => ServePhase.has_other ?_ ?_) (fun q hq => ?_)
    (fun _ _ => Iff.rfl) (iff_of_true hin rfl) (h.reached k) (by rw [hphase]; rfl)
  · simp [ServePhase.has]
  · simp [hserve, ServePhase.has]
  · exact iff_of_false nofun (ConnPhase.ne_of_withServe rfl hq)

theorem drop (h : s.Inv) {k : κ} (hserve : s.serve = .dropping k) :
    { s.setConn k { s.conn k with phase := .gone } with serve := .accepting }.Inv := by
  have hphase := (h.owner k .accepted rfl).mp (by rw [hserve]; rfl)
  have hout : k ∉ s.conns := by
    rw [h.registry k, hphase]
    nofun
  refine h.conn (.inr ⟨rfl, nofun⟩) (fun _ _ => ServePhase.has_other ?_ ?_) (fun q hq => ?_)
    (fun _ _ => Iff.rfl) (iff_of_false hout nofun) (fun hk => absurd hk hout) (by rw [hphase]; rfl)
  · simp [ServePhase.has]
  · simp [hserve, ServePhase.has]
  · exact iff_of_false nofun (ConnPhase.ne_of_withServe rfl hq)

theorem serve_step (h : s.Inv) (hstep : LifeStep cfg s .serve t) : t.Inv := by
  cases hstep with
  | spawn hserve => exact h.spawn hserve
  | accept hserve _ hfresh => exact h.accept hserve hfresh
  | register hserve _ hclosing => exact h.register hserve hclosing
  | launch hserve => exact h.launch hserve
  | drop hserve => exact h.drop hserve
  | spawned hserve | acceptFails hserve | refuse hserve _ _ | retry hserve _ _ =>
    exact h.serve (by rw [hserve]; rfl) nofun nofun nofun
  | breaks hserve hmutex hclosing =>
    refine h.serve (by rw [hserve]; rfl) (fun _ => ?_) nofun nofun
    -- `isClosing` has waited for `shutdown`
    have hne := h.closing.mp hclosing
    cases hw : s.watcher with
    | waiting => exact absurd hw hne
    | returned => rfl
    | locked | tripping _ =>
      rw [hw] at hmutex
      cases hmutex
  | drained hserve hwg =>
    exact h.serve (by rw [hserve]; rfl) (fun _ => h.watched (by rw [hserve]; rfl)) nofun fun _ => hwg
  | stop hserve =>
    exact h.serve (by rw [hserve]; rfl) (fun _ => h.watched (by rw [hserve]; rfl)) nofun
      fun _ => h.drained (.inl hserve)

/-- `shutdown` trips a deadline. -/
theorem trip (h : s.Inv) {k : κ} {todo : Finset κ} (hwatcher : s.watcher = .tripping todo) :
    { s.setConn k (s.conn k).trip with watcher := .tripping (todo.erase k) }.Inv := by
  have htripped : (s.setConn k (s.conn k).trip).Inv :=
    h.setConn (fun _ _ => Iff.rfl) rfl rfl fun _ => rfl
  refine htripped.watch (by show s.watcher ≠ _; rw [hwatcher]; nofun) nofun ?_
    (by show s.watcher.locksMutex = _; rw [hwatcher]; rfl) fun k' hk' hpassed => ?_
  · intro hopen
    rcases h.listening hopen with hw | hw <;> cases hwatcher.symm.trans hw
  · by_cases heq : k' = k
    · subst heq
      show (Function.update s.conn k' _ k').reader.fin = .failure
      rw [Function.update_self]
      rfl
    · refine htripped.reached k' hk' ?_
      show s.watcher.passed k'
      rw [hwatcher]
      exact fun hmem => hpassed (Finset.mem_erase.mpr ⟨heq, hmem⟩)

theorem watcher_step (h : s.Inv) (hstep : LifeStep cfg s .watcher t) : t.Inv := by
  cases hstep with
  | shutdown hwatcher hcancelled _ =>
    refine ⟨h.owner, h.registry, nofun, ⟨fun _ => nofun, fun _ => rfl⟩, fun _ => .inr rfl,
      fun _ => hcancelled, fun hwatched => ?_, h.spawning, h.counted, h.drained⟩
    cases hwatcher.symm.trans (h.watched hwatched)
  | shutdownAgain hwatcher _ hclosing => exact absurd hwatcher (h.closing.mp hclosing)
  | closeListener hwatcher =>
    refine h.watch (by rw [hwatcher]; nofun) nofun nofun (by rw [hwatcher]; rfl) fun k hk hpassed => ?_
    exact absurd hk hpassed
  | trip hwatcher _ => exact h.trip hwatcher
  | unlock hwatcher =>
    refine h.watch (by rw [hwatcher]; nofun) nofun ?_ (by rw [hwatcher]; rfl) fun k hk _ => ?_
    · intro hopen
      rcases h.listening hopen with hw | hw <;> cases hwatcher.symm.trans hw
    · refine h.reached k hk ?_
      rw [hwatcher]
      exact Finset.notMem_empty k

theorem loop_step {b : Background} (h : s.Inv) (hstep : LifeStep cfg s (.loop b) t) : t.Inv := by
  cases hstep with
  | wake hloop _ _ | rest hloop => exact h.loop (by rw [hloop]; nofun) (by rw [hloop]; rfl) id
  | quit hloop _ =>
    have hle : 1 ≤ s.wg := by
      have hle := h.counted.loop_le b
      rwa [hloop] at hle
    refine h.loop (by rw [hloop]; nofun) ?_ fun hzero => by omega
    rw [hloop]
    exact Nat.sub_add_cancel hle

/-- A connection that `Serve` has nothing to do with leaves the registry, or the wait group. -/
theorem leave (h : s.Inv) {k : κ} {c : Connection} {conns : Finset κ} {wg : Nat}
    (hold : (s.conn k).phase.withServe = false) (hnew : c.phase.withServe = false)
    (hzero : s.wg = 0 → wg = 0) (hconns : ∀ k', k' ≠ k → (k' ∈ conns ↔ k' ∈ s.conns))
    (hout : k ∉ conns) (hregistry : c.phase.inRegistry = false)
    (hwg : wg + (s.conn k).phase.count = s.wg + c.phase.count) :
    { s.setConn k c with conns, wg }.Inv := by
  refine h.conn (.inl ⟨rfl, hzero⟩) (fun _ _ _ => Iff.rfl) (fun q hq => ?_) hconns
    (iff_of_false hout ?_) (fun hk => absurd hk hout) hwg
  · refine iff_of_false ?_ (ConnPhase.ne_of_withServe hnew hq)
    show ¬ s.serve.has = some (k, q)
    rw [h.owner k q hq]
    exact ConnPhase.ne_of_withServe hold hq
  · rw [hregistry]
    nofun

theorem conn_step {k : κ} (h : s.Inv) (hstep : LifeStep cfg s (.conn k) t) : t.Inv := by
  cases hstep with
  | emptyRequest hphase hread =>
    exact h.read hphase hread rfl (by rw [hphase]; rfl) (by rw [hphase]; rfl) (by rw [hphase]; rfl)
  | request hphase hread _ | readError hphase hread _ | protocolError hphase hread _
  | protocolErrorLost hphase hread _ => exact h.read hphase hread rfl rfl rfl rfl
  | answer _ hphase _ | writeFails _ hphase _ _ | closeSocket hphase =>
    exact h.ownConn (by rw [hphase]; rfl) rfl (by rw [hphase]; rfl) (by rw [hphase]; rfl) id
  | closeConn hphase _ =>
    exact h.leave (by rw [hphase]; rfl) rfl id (fun k' hk => by simp [hk])
      (Finset.notMem_erase k s.conns) rfl (by rw [hphase]; rfl)
  | done hphase =>
    have hout : k ∉ s.conns := by
      rw [h.registry k, hphase]
      nofun
    have hle : 1 ≤ s.wg := by
      have hle := h.counted.conn_le k
      rwa [hphase] at hle
    refine h.leave (by rw [hphase]; rfl) rfl (fun hzero => by omega) (fun _ _ => Iff.rfl) hout rfl ?_
    rw [hphase]
    exact Nat.sub_add_cancel hle

/-- **A step, whoever makes it.** -/
theorem step {a : LifeActor κ} (h : s.Inv) (hstep : LifeStep cfg s a t) : t.Inv := by
  cases a with
  | world => exact h.world_step hstep
  | signal =>
    cases hstep with
    | signal _ => exact h.loop id rfl id
  | serve => exact h.serve_step hstep
  | watcher => exact h.watcher_step hstep
  | loop b => exact h.loop_step hstep
  | conn k => exact h.conn_step hstep

/-! ## Progress -/

/-- Nobody waits for what a client sends once `shutdown` has returned: `ReadRequest` returns. -/
theorem read_progress (h : s.Inv) (hwatcher : s.watcher = .returned) {k : κ}
    (hphase : (s.conn k).phase = .reading) (hpeer : (s.conn k).peer ≠ .stalls) :
    ∃ t, LifeStep cfg s (.conn k) t := by
  have hin : k ∈ s.conns := (h.registry k).mpr (by rw [hphase]; rfl)
  have hfin := h.reached k hin (by rw [hwatcher]; trivial)
  have hdecided := (readRequest_decided (b := (s.conn k).reader) (by rw [hfin]; nofun)).2
  cases hread : (s.conn k).reader.readRequest with
  | mk x reader =>
    rw [hread] at hdecided
    cases x with
    | ok args =>
      by_cases hargs : args = []
      · subst hargs
        exact ⟨_, .emptyRequest hphase hread⟩
      · exact ⟨_, .request hphase hread hargs⟩
    | error e =>
      cases e with
      | protocol v =>
        cases hp : (s.conn k).peer with
        | reads => exact ⟨_, .protocolError hphase hread hp⟩
        | stalls => exact absurd hp hpeer
        | gone => exact ⟨_, .protocolErrorLost hphase hread hp⟩
      | input e => exact ⟨_, .readError hphase hread fun he => hdecided (by rw [he])⟩

/-- A reply is sent, or the client is gone. -/
theorem answer_progress {k : κ} {args : List Bytes}
    (hphase : (s.conn k).phase = .serving args) (hpeer : (s.conn k).peer ≠ .stalls) :
    ∃ t, LifeStep cfg s (.conn k) t := by
  by_cases hsends : (s.conn k).Sends .nil
  · cases hp : (s.conn k).peer with
    | reads => exact ⟨_, .answer .nil hphase fun _ => hp⟩
    | stalls => exact absurd hp hpeer
    | gone => exact ⟨_, .writeFails .nil hphase hsends hp⟩
  · exact ⟨_, .answer .nil hphase fun h => absurd h hsends⟩

/-- A goroutine the wait group waits for can go on, if the clients read. -/
theorem running_progress (h : s.Inv) (hwatcher : s.watcher = .returned) (hserve : s.serve.has = none)
    (hpeers : ∀ k ∈ s.conns, (s.conn k).peer ≠ .stalls) (hwg : s.wg ≠ 0) :
    ∃ a t, a.own = true ∧ LifeStep cfg s a t := by
  have hmutex : s.watcher.locksMutex = false := by rw [hwatcher]; rfl
  rcases h.counted.exists_running hwg with ⟨b, hb⟩ | ⟨k, hk⟩
  · cases hloop : (s.loops b).phase with
    | waiting => exact ⟨_, _, rfl, .quit hloop (h.cancelled (by rw [hwatcher]; nofun))⟩
    | working => exact ⟨_, _, rfl, .rest hloop⟩
    | unborn | returned =>
      rw [hloop] at hb
      exact absurd rfl hb
  · cases hphase : (s.conn k).phase with
    | fresh | accepted | gone =>
      rw [hphase] at hk
      exact absurd rfl hk
    | registered =>
      have hhas := (h.owner k .registered rfl).mpr hphase
      rw [hserve] at hhas
      cases hhas
    | reading =>
      have hpeer := hpeers k ((h.registry k).mpr (by rw [hphase]; rfl))
      obtain ⟨t, hstep⟩ := h.read_progress hwatcher hphase hpeer
      exact ⟨_, t, rfl, hstep⟩
    | serving args =>
      have hpeer := hpeers k ((h.registry k).mpr (by rw [hphase]; rfl))
      obtain ⟨t, hstep⟩ := answer_progress hphase hpeer
      exact ⟨_, t, rfl, hstep⟩
    | ended => exact ⟨_, _, rfl, .closeConn hphase hmutex⟩
    | removed => exact ⟨_, _, rfl, .closeSocket hphase⟩
    | closed => exact ⟨_, _, rfl, .done hphase⟩

theorem progress (h : s.Inv) (hcancelled : s.cancelled = true)
    (hpeers : ∀ k ∈ s.conns, (s.conn k).peer ≠ .stalls) (hserve : s.serve ≠ .stopped) :
    ∃ a t, a.own = true ∧ LifeStep cfg s a t := by
  cases hwatcher : s.watcher with
  | waiting =>
    cases hclosing : s.closing with
    | false => exact ⟨_, _, rfl, .shutdown hwatcher hcancelled hclosing⟩
    | true => exact ⟨_, _, rfl, .shutdownAgain hwatcher hcancelled hclosing⟩
  | locked => exact ⟨_, _, rfl, .closeListener hwatcher⟩
  | tripping todo =>
    rcases todo.eq_empty_or_nonempty with rfl | ⟨k, hk⟩
    · exact ⟨_, _, rfl, .unlock hwatcher⟩
    · exact ⟨_, _, rfl, .trip hwatcher hk⟩
  | returned =>
    have hmutex : s.watcher.locksMutex = false := by rw [hwatcher]; rfl
    have hclosing : s.closing = true := h.closing.mpr (by rw [hwatcher]; nofun)
    cases hphase : s.serve with
    | spawning todo =>
      cases todo with
      | nil => exact ⟨_, _, rfl, .spawned hphase⟩
      | cons b todo => exact ⟨_, _, rfl, .spawn hphase⟩
    | accepting => exact ⟨_, _, rfl, .acceptFails hphase⟩
    | starting k => exact ⟨_, _, rfl, .refuse hphase hmutex hclosing⟩
    | launching k => exact ⟨_, _, rfl, .launch hphase⟩
    | dropping k => exact ⟨_, _, rfl, .drop hphase⟩
    | checking => exact ⟨_, _, rfl, .breaks hphase hmutex hclosing⟩
    | draining =>
      by_cases hwg : s.wg = 0
      · exact ⟨_, _, rfl, .drained hphase hwg⟩
      · exact h.running_progress hwatcher (by rw [hphase]; rfl) hpeers hwg
    | finalizing => exact ⟨_, _, rfl, .stop hphase⟩
    | stopped => exact absurd hphase hserve

end Inv

end Lifecycle

/-! ## How much is left to do -/

/-- A request takes a byte. -/
theorem readRequest_shorter {b b' : RequestReader} {args : List Bytes}
    (h : b.readRequest = (.ok args, b')) : b'.pending.length < b.pending.length := by
  have hview := readRequest_view b
  rw [h] at hview
  exact readStream_shorter hview

omit [DecidableEq κ]

/-- What `Serve` has before it once the listener is closed. -/
def ServePhase.rank : ServePhase κ → Nat
  | .spawning todo => todo.length + 5
  | .starting _ => 6
  | .launching _ | .dropping _ => 5
  | .accepting => 4
  | .checking => 3
  | .draining => 2
  | .finalizing => 1
  | .stopped => 0

/-- What a loop has before it: two steps for every signal it may still receive, and its end. -/
def Loop.rank (l : Loop) : Nat :=
  match l.phase with
  | .unborn | .waiting => 2 * l.signals + 1
  | .working => 2 * l.signals + 2
  | .returned => 0

/-- What a connection has before it: two steps for every request, which takes at least a byte, and its
end. -/
def Connection.rank (c : Connection) : Nat :=
  match c.phase with
  | .registered | .reading => 2 * c.reader.pending.length + 5
  | .serving _ => 2 * c.reader.pending.length + 6
  | .ended => 4
  | .removed => 3
  | .closed => 2
  | .accepted => 1
  | .fresh | .gone => 0

namespace Lifecycle

/-- What everybody has before them, the connections being among `K`. -/
def potential (K : Finset κ) (s : Lifecycle κ) : Nat :=
  s.serve.rank + (∑ b, (s.loops b).rank) + ∑ k ∈ K, (s.conn k).rank

/-- `shutdown` is over, and all connections are among `K`. -/
structure Closed (K : Finset κ) (s : Lifecycle κ) : Prop where
  inv : s.Inv
  watcher : s.watcher = .returned
  known : ∀ k ∉ K, (s.conn k).phase = .fresh

variable {K : Finset κ} {s t : Lifecycle κ} {cfg : ServeConfig}

theorem potential_serve (hloops : t.loops = s.loops) (hconn : t.conn = s.conn) :
    potential K t + s.serve.rank = potential K s + t.serve.rank := by
  unfold potential
  rw [hloops, hconn]
  omega

theorem potential_loop {b : Background} {l : Loop} (hloops : t.loops = Function.update s.loops b l)
    (hconn : t.conn = s.conn) : potential K t + (s.loops b).rank + s.serve.rank
      = potential K s + l.rank + t.serve.rank := by
  have hmove := sum_update_add (Finset.mem_univ b) Loop.rank s.loops l
  unfold potential
  rw [hloops, hconn]
  omega

theorem potential_conn [DecidableEq κ] {k : κ} {c : Connection} (hk : k ∈ K)
    (hconn : t.conn = Function.update s.conn k c) (hloops : t.loops = s.loops) :
    potential K t + (s.conn k).rank + s.serve.rank = potential K s + c.rank + t.serve.rank := by
  have hmove := sum_update_add hk Connection.rank s.conn c
  unfold potential
  rw [hloops, hconn]
  omega

namespace Closed

theorem mem (h : s.Closed K) {k : κ} (hphase : (s.conn k).phase ≠ .fresh) : k ∈ K := by
  by_contra hk
  exact hphase (h.known k hk)

/-- `Serve` makes a step, with nobody else. -/
theorem serve_step (hloops : t.loops = s.loops) (hconn : t.conn = s.conn)
    (hrank : t.serve.rank < s.serve.rank) : potential K t + 1 ≤ potential K s := by
  have hmove := potential_serve (K := K) hloops hconn
  omega

/-- A step with a loop. -/
theorem loop_step {b : Background} {l : Loop} (hloops : t.loops = Function.update s.loops b l)
    (hconn : t.conn = s.conn) (hrank : l.rank + t.serve.rank < (s.loops b).rank + s.serve.rank) :
    potential K t + 1 ≤ potential K s := by
  have hmove := potential_loop (K := K) hloops hconn
  omega

/-- What comes from a client now, on a socket that is open, is not for anybody to read. -/
theorem offline (h : s.Closed K) {k : κ} {c : Connection}
    (hopen : (s.conn k).reader.fin = .open) (hsame : c.phase = (s.conn k).phase) :
    c.rank = (s.conn k).rank := by
  have hout : (s.conn k).phase.inRegistry ≠ true := fun hin =>
    nomatch hopen.symm.trans
      (h.inv.reached k ((h.inv.registry k).mpr hin) (by rw [h.watcher]; trivial))
  unfold Connection.rank
  rw [hsame]
  cases hp : (s.conn k).phase <;> rw [hp] at hout <;> first | rfl | exact absurd rfl hout

variable [DecidableEq κ]

/-- A step with a connection. -/
theorem conn_step (h : s.Closed K) {k : κ} {c : Connection} (hphase : (s.conn k).phase ≠ .fresh)
    (hconn : t.conn = Function.update s.conn k c) (hloops : t.loops = s.loops)
    (hrank : c.rank + t.serve.rank < (s.conn k).rank + s.serve.rank) :
    potential K t + 1 ≤ potential K s := by
  have hmove := potential_conn (h.mem hphase) hconn hloops
  omega

/-- What a client does leaves the server as much to do as before. -/
theorem client_step (h : s.Closed K) {k : κ} {c : Connection} (hphase : (s.conn k).phase ≠ .fresh)
    (hrank : c.rank = (s.conn k).rank) : potential K (s.setConn k c) ≤ potential K s := by
  have hmove := potential_conn (t := s.setConn k c) (h.mem hphase) rfl rfl
  have hserve : (s.setConn k c).serve = s.serve := rfl
  rw [hserve] at hmove
  omega

omit [DecidableEq κ] in
/-- A signal is two steps more for a loop. -/
theorem signal_potential (b : Background) :
    potential K (s.setLoop b { s.loops b with signals := (s.loops b).signals + 1 })
      ≤ potential K s + 2 := by
  have hmove := potential_loop (K := K)
    (t := s.setLoop b { s.loops b with signals := (s.loops b).signals + 1 }) rfl rfl
  have hserve (l : Loop) : (s.setLoop b l).serve = s.serve := rfl
  have hrank : ({ s.loops b with signals := (s.loops b).signals + 1 } : Loop).rank
      ≤ (s.loops b).rank + 2 := by
    unfold Loop.rank
    cases (s.loops b).phase <;> simp only <;> omega
  rw [hserve] at hmove
  omega

/-- `Serve` gets closer to its end: it can accept nobody any more. -/
theorem serve_potential (h : s.Closed K) (hstep : LifeStep cfg s .serve t) :
    potential K t + 1 ≤ potential K s := by
  have hwatcher := h.watcher
  have hclosing : s.closing = true := h.inv.closing.mpr (by rw [hwatcher]; nofun)
  cases hstep with
  | @spawn b todo hserve =>
    have hunborn := (h.inv.spawning _ hserve).2 b List.mem_cons_self
    refine loop_step (b := b) rfl rfl ?_
    rw [hserve]
    simp only [Loop.rank, hunborn, ServePhase.rank, List.length_cons]
    omega
  | spawned hserve | acceptFails hserve | refuse hserve _ _ | breaks hserve _ _ | drained hserve _
  | stop hserve =>
    refine serve_step rfl rfl ?_
    rw [hserve]
    exact Nat.lt_succ_self _
  | accept hserve hlistening hfresh =>
    rcases h.inv.listening hlistening with hw | hw <;> cases hwatcher.symm.trans hw
  | register _ _ hopen | retry _ _ hopen => cases hclosing.symm.trans hopen
  | @launch k hserve =>
    have hphase := (h.inv.owner k .registered rfl).mp (by rw [hserve]; rfl)
    refine h.conn_step (k := k) (by rw [hphase]; nofun) rfl rfl ?_
    rw [hserve]
    simp only [Connection.rank, hphase, ServePhase.rank]
    omega
  | @drop k hserve =>
    have hphase := (h.inv.owner k .accepted rfl).mp (by rw [hserve]; rfl)
    refine h.conn_step (k := k) (by rw [hphase]; nofun) rfl rfl ?_
    rw [hserve]
    simp only [Connection.rank, hphase, ServePhase.rank]
    omega

theorem loop_potential {b : Background} (hstep : LifeStep cfg s (.loop b) t) :
    potential K t + 1 ≤ potential K s := by
  cases hstep with
  | wake hloop _ hsignals =>
    refine loop_step rfl rfl (Nat.add_lt_add_right ?_ s.serve.rank)
    simp only [Loop.rank, hloop, hsignals]
    omega
  | rest hloop | quit hloop _ =>
    refine loop_step rfl rfl (Nat.add_lt_add_right ?_ s.serve.rank)
    simp only [Loop.rank, hloop]
    omega

/-- A connection gets closer to its end: there is less in its buffer, or it is past its loop. -/
theorem conn_potential {k : κ} (h : s.Closed K) (hstep : LifeStep cfg s (.conn k) t) :
    potential K t + 1 ≤ potential K s := by
  cases hstep with
  | emptyRequest hphase hread | request hphase hread _ =>
    have hshort := readRequest_shorter hread
    refine h.conn_step (by rw [hphase]; nofun) rfl rfl (Nat.add_lt_add_right ?_ s.serve.rank)
    simp only [Connection.rank, hphase]
    omega
  | answer reply hphase _ =>
    refine h.conn_step (by rw [hphase]; nofun) rfl rfl (Nat.add_lt_add_right ?_ s.serve.rank)
    simp only [Connection.rank, Connection.answer, hphase]
    omega
  | protocolError hphase _ _ =>
    refine h.conn_step (by rw [hphase]; nofun) rfl rfl (Nat.add_lt_add_right ?_ s.serve.rank)
    simp only [Connection.rank, Connection.protocolError, hphase]
    omega
  | writeFails _ hphase _ _ | protocolErrorLost hphase _ _ | readError hphase _ _
  | closeConn hphase _ | closeSocket hphase | done hphase =>
    refine h.conn_step (by rw [hphase]; nofun) rfl rfl (Nat.add_lt_add_right ?_ s.serve.rank)
    simp only [Connection.rank, hphase]
    omega

/-- **Every step of the server is one less to make**, after `shutdown`. -/
theorem step_potential {a : LifeActor κ} (h : s.Closed K) (hstep : LifeStep cfg s a t) :
    potential K t + (if a.own then 1 else 0) ≤ potential K s + a.brings := by
  cases a with
  | world =>
    cases hstep with
    | cancel => exact le_rfl
    | send hphase hopen | hangUp hphase hopen => exact h.client_step hphase (h.offline hopen rfl)
    | turn hphase _ => exact h.client_step hphase rfl
  | signal =>
    cases hstep with
    | signal _ => exact signal_potential _
  | serve => exact h.serve_potential hstep
  | watcher =>
    have hwatcher := h.watcher
    cases hstep with
    | shutdown hw _ _ | shutdownAgain hw _ _ | closeListener hw | trip hw _ | unlock hw =>
      cases hwatcher.symm.trans hw
  | loop b => exact loop_potential hstep
  | conn k => exact h.conn_potential hstep

/-- Nobody comes in any more. -/
theorem step {a : LifeActor κ} (h : s.Closed K) (hstep : LifeStep cfg s a t) : t.Closed K := by
  have hwatcher := h.watcher
  -- a connection that moves was known
  have hmoved {k : κ} (hphase : (s.conn k).phase ≠ .fresh) (c : Connection) :
      ∀ k' ∉ K, (Function.update s.conn k c k').phase = .fresh := by
    intro k' hk'
    have hne : k' ≠ k := by
      rintro rfl
      exact hk' (h.mem hphase)
    rw [Function.update_of_ne hne]
    exact h.known k' hk'
  refine ⟨h.inv.step hstep, ?_, ?_⟩
  -- the watcher is through, and takes no step any more
  · cases hstep with
    | shutdown hw _ _ | shutdownAgain hw _ _ | closeListener hw | trip hw _ | unlock hw =>
      cases hwatcher.symm.trans hw
    | cancel | send | hangUp | turn | signal | spawn | spawned | accept | acceptFails | register
    | refuse | launch | drop | retry | breaks | drained | stop | wake | rest | quit | emptyRequest
    | request | answer | writeFails | protocolError | protocolErrorLost | readError | closeConn
    | closeSocket | done => exact hwatcher
  · cases hstep with
    | cancel | signal | spawn | spawned | acceptFails | refuse | retry | breaks | drained | stop
    | shutdown | shutdownAgain | closeListener | unlock | wake | rest | quit => exact h.known
    | send hphase _ | hangUp hphase _ | turn hphase _ => exact hmoved hphase _
    | accept hserve hlistening hfresh =>
      -- the listener is closed, so no connection is new
      rcases h.inv.listening hlistening with hw | hw <;> cases hwatcher.symm.trans hw
    | @register k hserve _ _ | @drop k hserve =>
      have hphase := (h.inv.owner k .accepted rfl).mp (by rw [hserve]; rfl)
      exact hmoved (by rw [hphase]; nofun) _
    | @launch k hserve =>
      have hphase := (h.inv.owner k .registered rfl).mp (by rw [hserve]; rfl)
      exact hmoved (by rw [hphase]; nofun) _
    | trip hw _ => cases hwatcher.symm.trans hw
    | emptyRequest hphase _ | request hphase _ _ | answer _ hphase _ | writeFails _ hphase _ _
    | protocolError hphase _ _ | protocolErrorLost hphase _ _ | readError hphase _ _
    | closeConn hphase _ | closeSocket hphase | done hphase => exact hmoved (by rw [hphase]; nofun) _

end Closed

/-! ## The end -/

/-- Of all that was started nothing is left but `Serve`. -/
structure Alone (s : Lifecycle κ) : Prop where
  loops : ∀ b, (s.loops b).phase = .unborn ∨ (s.loops b).phase = .returned
  conns : ∀ k, (s.conn k).phase = .fresh ∨ (s.conn k).phase = .gone
  registry : s.conns = ∅
  listener : s.listening = false

theorem Inv.alone (h : s.Inv) (hserve : s.serve = .finalizing ∨ s.serve = .stopped) : s.Alone := by
  have hwg := h.drained hserve
  have hhas : s.serve.has = none ∧ s.serve.accepts = false := by
    rcases hserve with hserve | hserve <;> rw [hserve] <;> exact ⟨rfl, rfl⟩
  have hconns (k : κ) : (s.conn k).phase = .fresh ∨ (s.conn k).phase = .gone := by
    have hle := hwg ▸ h.counted.conn_le k
    cases hphase : (s.conn k).phase with
    | fresh => exact .inl rfl
    | gone => exact .inr rfl
    | accepted =>
      have howner := (h.owner k .accepted rfl).mpr hphase
      rw [hhas.1] at howner
      cases howner
    | registered | reading | serving _ | ended | removed | closed =>
      rw [hphase] at hle
      cases hle
  refine ⟨fun b => ?_, hconns, ?_, ?_⟩
  · have hle := hwg ▸ h.counted.loop_le b
    cases hloop : (s.loops b).phase with
    | unborn => exact .inl rfl
    | returned => exact .inr rfl
    | waiting | working =>
      rw [hloop] at hle
      cases hle
  · refine Finset.eq_empty_of_forall_notMem fun k hk => ?_
    have hin := (h.registry k).mp hk
    rcases hconns k with hphase | hphase <;>
    · rw [hphase] at hin
      cases hin
  · have hreturned := h.watched hhas.2
    cases hlistening : s.listening with
    | false => rfl
    | true => rcases h.listening hlistening with hw | hw <;> cases hreturned.symm.trans hw

theorem Inv.alone_steps [DecidableEq κ] {a : LifeActor κ} (h : s.Inv)
    (hserve : s.serve = .finalizing ∨ s.serve = .stopped) (hstep : LifeStep cfg s a t) :
    a = .world ∨ a = .signal ∨ a = .serve := by
  obtain ⟨hloops, hconns, -, -⟩ := h.alone hserve
  have hreturned : s.watcher = .returned := h.watched (by rcases hserve with hs | hs <;> rw [hs] <;> rfl)
  have hconn {k : κ} {p : ConnPhase} (hphase : (s.conn k).phase = p) (hp : p.count ≠ 0) : False := by
    rcases hconns k with hk | hk <;> rw [← hphase, hk] at hp <;> exact hp rfl
  have hloop {b : Background} {p : LoopPhase} (hphase : (s.loops b).phase = p) (hp : p.count ≠ 0) :
      False := by
    rcases hloops b with hb | hb <;> rw [← hphase, hb] at hp <;> exact hp rfl
  cases hstep with
  | cancel | send | hangUp | turn => exact .inl rfl
  | signal => exact .inr (.inl rfl)
  | spawn | spawned | accept | acceptFails | register | refuse | launch | drop | retry | breaks
  | drained | stop => exact .inr (.inr rfl)
  | shutdown hw _ _ | shutdownAgain hw _ _ | closeListener hw | trip hw _ | unlock hw =>
    cases hreturned.symm.trans hw
  | wake hphase _ _ | rest hphase | quit hphase _ => exact (hloop hphase nofun).elim
  | emptyRequest hphase _ | request hphase _ _ | answer _ hphase _ | writeFails _ hphase _ _
  | protocolError hphase _ _ | protocolErrorLost hphase _ _ | readError hphase _ _
  | closeConn hphase _ | closeSocket hphase | done hphase => exact (hconn hphase nofun).elim

end Lifecycle

/-- No persistence, and nothing for the loops to do. -/
def idleConfig : ServeConfig := ⟨false, fun _ => false⟩

/-- A client connects and never says a word. `shutdown` returns, and later `wg.Wait`. -/
theorem silent_client : ∃ as bs, ∃ s t : Lifecycle Unit,
    Run (LifeStep idleConfig) (.start Unit idleConfig) as s ∧ s.cancelled = true ∧
      s.watcher = .returned ∧ s.serve ≠ .stopped ∧ (∀ k, (s.conn k).peer = .reads) ∧
      Run (LifeStep idleConfig) (.start Unit idleConfig) bs t ∧ t.serve = .finalizing := by
  have h₀ : Run (LifeStep idleConfig) _ _ _ := .nil (Lifecycle.start Unit idleConfig)
  have h₁ := h₀.snoc (.spawn rfl)
  have h₂ := h₁.snoc (.spawn rfl)
  have h₃ := h₂.snoc (.spawned rfl)
  have h₄ := h₃.snoc (.accept (k := ()) rfl rfl rfl)
  have h₅ := h₄.snoc (.register rfl rfl rfl)
  have h₆ := h₅.snoc (.launch rfl)
  have h₇ := h₆.snoc .cancel
  have h₈ := h₇.snoc (.shutdown rfl rfl rfl)
  have h₉ := h₈.snoc (.closeListener rfl)
  have h₁₀ := h₉.snoc (.trip (k := ()) rfl (by decide))
  have h₁₁ := h₁₀.snoc (.unlock rfl)
  have h₁₂ := h₁₁.snoc (.readError (k := ()) (e := .source .failure) rfl
    (Prod.ext (by decide +kernel) rfl) nofun)
  have h₁₃ := h₁₂.snoc (.closeConn (k := ()) rfl rfl)
  have h₁₄ := h₁₃.snoc (.closeSocket (k := ()) rfl)
  have h₁₅ := h₁₄.snoc (.done (k := ()) rfl)
  have h₁₆ := h₁₅.snoc (.quit (b := .reaper) rfl rfl)
  have h₁₇ := h₁₆.snoc (.quit (b := .expiry) rfl rfl)
  have h₁₈ := h₁₇.snoc (.acceptFails rfl)
  have h₁₉ := h₁₈.snoc (.breaks rfl rfl rfl)
  have h₂₀ := h₁₉.snoc (.drained rfl rfl)
  exact ⟨_, _, _, _, h₁₁, rfl, rfl, nofun, fun _ => rfl, h₂₀, rfl⟩

section Main

variable [DecidableEq κ] (cfg : ServeConfig) {as : List (LifeActor κ)} {s : Lifecycle κ}

theorem Lifecycle.inv_of_run (h : Run (LifeStep cfg) (Lifecycle.start κ cfg) as s) : s.Inv :=
  h.invariant Lifecycle.Inv (Lifecycle.inv_start κ cfg) fun hs hstep => hs.step hstep

/-- **`finalizePersistence` runs alone.** Whatever connections come and go and whenever the context is
cancelled: the wait group is the number of goroutines that have not ended, so it never falls below
zero; once `shutdown` has returned every registered connection has its deadline tripped, those included
that were being registered meanwhile; and when `Serve` is past `wg.Wait` the listener and every
connection ever accepted are closed, no loop runs, and nothing can happen any more but what `Serve`
itself does. -/
theorem serve_drains (h : Run (LifeStep cfg) (Lifecycle.start κ cfg) as s) :
    s.Counted ∧
      (s.watcher = .returned → ∀ k ∈ s.conns, (s.conn k).reader.fin = .failure) ∧
      (s.serve = .finalizing ∨ s.serve = .stopped → s.Alone ∧
        ∀ a t, LifeStep cfg s a t → a = .world ∨ a = .signal ∨ a = .serve) := by
  have hinv := Lifecycle.inv_of_run cfg h
  refine ⟨hinv.counted, fun hreturned k hk => ?_, fun hserve => ⟨hinv.alone hserve, fun a t hstep =>
    hinv.alone_steps hserve hstep⟩⟩
  exact hinv.reached k hk (by rw [hreturned]; trivial)

/-- The silent client is gone, and so are the loops. -/
theorem serve_drains_silent : ∃ as, ∃ s : Lifecycle Unit,
    Run (LifeStep idleConfig) (.start Unit idleConfig) as s ∧ s.serve = .finalizing ∧ s.Alone := by
  obtain ⟨-, bs, -, t, -, -, -, -, -, hrun, hserve⟩ := silent_client
  exact ⟨bs, t, hrun, hserve, ((serve_drains idleConfig hrun).2.2 (.inl hserve)).1⟩

/-- **`Serve` returns, if the clients read.** When the context is cancelled and `Serve` has not returned,
somebody on the server can go on, or a client in the registry has stopped reading its replies; what the
clients send or fail to send is all the same. And after `shutdown` there is a bound on the steps that the
server makes, which only the ticks and values for its loops can raise, by two steps each. -/
theorem serve_returns (h : Run (LifeStep cfg) (Lifecycle.start κ cfg) as s)
    (hcancelled : s.cancelled = true) :
    (s.serve ≠ .stopped →
      (∃ a t, a.own = true ∧ LifeStep cfg s a t) ∨ ∃ k ∈ s.conns, (s.conn k).peer = .stalls) ∧
      (s.watcher = .returned → ∃ bound, ∀ bs t, Run (LifeStep cfg) s bs t →
        (bs.filter LifeActor.own).length ≤ bound + (bs.map LifeActor.brings).sum) := by
  have hinv := Lifecycle.inv_of_run cfg h
  refine ⟨fun hserve => ?_, fun hreturned => ?_⟩
  · by_cases hstalls : ∃ k ∈ s.conns, (s.conn k).peer = .stalls
    · exact .inr hstalls
    · exact .inl (hinv.progress hcancelled (fun k hk hpeer => hstalls ⟨k, hk, hpeer⟩) hserve)
  · obtain ⟨K, hK, -⟩ := hinv.counted
    refine ⟨s.potential K, fun bs t hrun => ?_⟩
    have hbound := hrun.length_le (Lifecycle.Closed K) (Lifecycle.potential K) LifeActor.own
      LifeActor.brings ⟨hinv, hreturned, hK⟩ fun hs hstep => ⟨hs.step hstep, hs.step_potential hstep⟩
    omega

/-- The server does not wait for the silent client. -/
theorem serve_returns_silent : ∃ as, ∃ s : Lifecycle Unit,
    Run (LifeStep idleConfig) (.start Unit idleConfig) as s ∧ s.cancelled = true ∧
      (∃ a t, a.own = true ∧ LifeStep idleConfig s a t) ∧
      ∃ bound, ∀ bs t, Run (LifeStep idleConfig) s bs t →
        (bs.filter LifeActor.own).length ≤ bound + (bs.map LifeActor.brings).sum := by
  obtain ⟨as, -, s, -, hrun, hcancelled, hreturned, hserve, hreads, -⟩ := silent_client
  obtain ⟨hprogress, hbound⟩ := serve_returns idleConfig hrun hcancelled
  refine ⟨as, s, hrun, hcancelled, (hprogress hserve).resolve_right ?_, hbound hreturned⟩
  rintro ⟨k, -, hstalls⟩
  cases (hreads k).symm.trans hstalls

end Main

/-! ## A client that does not read -/

/-- Every reply has bytes. -/
theorem writeReply_ne_nil (reply : Reply) : writeReply reply ≠ [] := by
  cases reply with
  | nil => exact List.cons_ne_nil _ _
  | simple | error | int | bulk | array => simp [writeReply, writeFrame, writeNumber, writeBulk]

/-- A reply to the last request in the buffer is written to the socket. -/
theorem Connection.sends_of_drained {c : Connection} (hbuf : c.reader.buf = []) (reply : Reply) :
    c.Sends reply := by
  have hsent : (c.answer reply).writer.sent = c.writer.sent ++ (c.writer.buf ++ writeReply reply) := by
    simp only [Connection.answer, hbuf, List.length_nil, if_pos]
    exact (ReplyWriter.all_writeReply c.writer reply).trans (List.append_assoc _ _ _)
  rw [Connection.Sends, hsent, ne_eq, List.append_right_eq_self, List.append_eq_nil_iff]
  exact fun h => writeReply_ne_nil reply h.2

namespace Lifecycle

/-- The connection has a reply to send, and its client does not read. -/
structure Stuck (k : κ) (s : Lifecycle κ) : Prop where
  phase : ∃ args, (s.conn k).phase = .serving args
  drained : (s.conn k).reader.buf = []
  stalls : (s.conn k).peer = .stalls

variable [DecidableEq κ] {cfg : ServeConfig} {k : κ} {s t : Lifecycle κ}

/-- **Nobody but the client gets the connection out of there**: not `shutdown`, which trips the deadline
for reading. -/
theorem Stuck.step {a : LifeActor κ} (h : s.Stuck k) (hinv : s.Inv) (hstep : LifeStep cfg s a t)
    (hstalls : (t.conn k).peer = .stalls) : t.Stuck k := by
  obtain ⟨args, hserving⟩ := h.phase
  -- a step of another connection, and a step that is none of a connection in this phase
  have hother {k' : κ} {c : Connection} {u : Lifecycle κ} (hu : u.conn = Function.update s.conn k' c)
      (hne : k' ≠ k) : u.Stuck k := by
    have hconn : u.conn k = s.conn k := by rw [hu, Function.update_of_ne hne.symm]
    exact ⟨⟨args, by rw [hconn, hserving]⟩, by rw [hconn, h.drained], by rw [hconn, h.stalls]⟩
  have hphase {k' : κ} {c : Connection} {u : Lifecycle κ} {p : ConnPhase}
      (hu : u.conn = Function.update s.conn k' c) (hp : (s.conn k').phase = p)
      (hne : ∀ args, p ≠ .serving args) : u.Stuck k := by
    refine hother hu ?_
    rintro rfl
    exact hne args (hp.symm.trans hserving)
  have hreader {k' : κ} {c : Connection} {u : Lifecycle κ} (hu : u.conn = Function.update s.conn k' c)
      (hpeer : (u.conn k).peer = .stalls) (hp : c.phase = (s.conn k').phase)
      (hbuf : c.reader.buf = (s.conn k').reader.buf) : u.Stuck k := by
    by_cases hk : k' = k
    · subst hk
      have hconn : u.conn k' = c := by rw [hu, Function.update_self]
      exact ⟨⟨args, by rw [hconn, hp, hserving]⟩, by rw [hconn, hbuf, h.drained], hpeer⟩
    · exact hother hu hk
  cases hstep with
  | cancel | signal | spawn | spawned | acceptFails | refuse | retry | breaks | drained | stop
  | shutdown | shutdownAgain | closeListener | unlock | wake | rest | quit =>
    exact ⟨h.phase, h.drained, h.stalls⟩
  | send | hangUp | turn | trip => exact hreader rfl hstalls rfl rfl
  | accept _ _ hp => exact hphase rfl hp nofun
  | @register k' hserve | @drop k' hserve =>
    exact hphase rfl ((hinv.owner k' .accepted rfl).mp (by rw [hserve]; rfl)) nofun
  | @launch k' hserve =>
    exact hphase rfl ((hinv.owner k' .registered rfl).mp (by rw [hserve]; rfl)) nofun
  | emptyRequest hp | request hp | protocolError hp | protocolErrorLost hp | readError hp
  | closeConn hp | closeSocket hp | done hp => exact hphase rfl hp nofun
  | @answer k' _ reply _ hpeer =>
    refine hother rfl ?_
    rintro rfl
    cases h.stalls.symm.trans (hpeer (Connection.sends_of_drained h.drained reply))
  | @writeFails k' _ _ _ _ hpeer =>
    refine hother rfl ?_
    rintro rfl
    cases h.stalls.symm.trans hpeer

end Lifecycle

end Memcore
