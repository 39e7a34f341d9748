import Memcore.Lib.Ahead
import Memcore.Resp.Packets

/-!
# Requests in rounds

Where packets end relative to requests does not show in what is read, but it shows in what is left in
the buffer after a request. A client sends in rounds if every packet lies inside a request or ends with
one: the packets of a round but the last are part of its first request, and the last packet has the rest
of it and then only whole requests (`Rounds`). After the first request of a round the buffer then holds
the other requests of the round and nothing else (`readRequest_round`), and these are read without
touching the source (`Batch.read`).
-/

namespace Memcore

open Go Prog Bufio

/-- Whole requests, of which the last one is not empty, or which come to bytes that are no request. -/
inductive Batch : List UInt8 → Prop where
  | last {req : List Bytes} {w : List UInt8} (h : RequestBytes req w) (nonEmpty : req ≠ []) : Batch w
  | request {req : List Bytes} {w rest : List UInt8} (h : RequestBytes req w) (more : Batch rest) :
      Batch (w ++ rest)
  | violation {w : List UInt8}
      (h : ∀ last, ∃ v s, readStream ⟨w, last, .open⟩ = (.error (.protocol v), s)) : Batch w

/-- **The client sends in rounds.** A round is a request, with all packets but the last one inside it,
and nothing or a batch behind it in the last one; a round with a batch is shorter than the reader's
buffer. Behind the rounds there is no whole request. -/
inductive Rounds : List Packet → Prop where
  | unfinished {ps : List Packet} (h : ∀ req w, RequestBytes req w → ¬ w <+: flat ps) : Rounds ps
  | round {qs ps : List Packet} {q : Packet} {req : List Bytes} {w more : List UInt8}
      (h : RequestBytes req w) (bytes : flat qs ++ q.1 = w ++ more)
      (inside : (flat qs).length < w.length)
      (after : more = [] ∨ Batch more ∧ (flat qs ++ q.1).length < readBufferSize)
      (rest : Rounds ps) : Rounds (qs ++ q :: ps)

/-! ## Reading a batch -/

/-- What can be read from the buffer is what is read, and the source is left alone. -/
theorem readRequest_buffered (b : RequestReader) :
    (∃ s, readStream ⟨b.buf, b.last, .open⟩ = (.error (.input (.source .open)), s)) ∨
      (readStream ⟨b.buf, b.last, .open⟩).1 = b.readRequest.1 ∧
        Bufio.Reader.Holds b.packets b.fin (readStream ⟨b.buf, b.last, .open⟩).2 b.readRequest.2 := by
  have hfits : Fits (Bufio.Reader.Holds b.packets b.fin) (· = .source .open)
      (Stream.io readBufferSize) Bufio.Reader.io := ⟨Bufio.Reader.io_buffered _ _, fun _ he => he⟩
  rcases readRequest_matches hfits ⟨b.buf, b.last, .open⟩ b ⟨rfl, rfl, rfl, rfl, rfl⟩ with
    ⟨e, he, hwait⟩ | hsame
  · cases e with
    | input e =>
      obtain rfl : e = .source .open := hwait
      exact .inl ⟨_, Prod.ext he rfl⟩
    | protocol v => exact hwait.elim
  · exact .inr hsame

/-- What a batch begins with. -/
theorem Batch.readStream {w : List UInt8} (h : Batch w) (last : Option UInt8) :
    (∃ v s, Memcore.readStream ⟨w, last, .open⟩ = (.error (.protocol v), s)) ∨
      ∃ req s, Memcore.readStream ⟨w, last, .open⟩ = (.ok req, s) ∧
        (s.rest = [] ∧ req ≠ [] ∨ Batch s.rest) := by
  cases h with
  | @last req _ hreq hne =>
    refine .inr ⟨req, _, (readStream_recognises _ _ _).mpr
      ⟨w, [], (List.append_nil w).symm, hreq, rfl⟩, .inl ⟨rfl, hne⟩⟩
  | @request req w rest hreq hmore =>
    exact .inr ⟨req, _, (readStream_recognises _ _ _).mpr ⟨w, rest, rfl, hreq, rfl⟩, .inr hmore⟩
  | violation hviolation => exact .inl (hviolation last)

/-- A batch does not have to wait. -/
theorem Batch.not_waits {w : List UInt8} (h : Batch w) (last : Option UInt8) (s : Stream) :
    Memcore.readStream ⟨w, last, .open⟩ ≠ (.error (.input (.source .open)), s) := by
  intro hwait
  rcases h.readStream last with ⟨v, s', hread⟩ | ⟨req, s', hread, -⟩
  · cases hwait.symm.trans hread
  · cases hwait.symm.trans hread

/-- **A batch is read from the buffer alone**: it begins with something that is no request, or with a
request that is the last one and not empty, or that leaves a batch. -/
theorem Batch.read {b : RequestReader} (h : Batch b.buf) :
    (∃ v b', b.readRequest = (.error (.protocol v), b')) ∨
      ∃ req b', b.readRequest = (.ok req, b') ∧ b'.packets = b.packets ∧
        (b'.buf = [] ∧ req ≠ [] ∨ Batch b'.buf) := by
  rcases readRequest_buffered b with ⟨s, hwait⟩ | ⟨hsame, hholds⟩
  · exact absurd hwait (h.not_waits b.last s)
  · rcases h.readStream b.last with ⟨v, s, hread⟩ | ⟨req, s, hread, hrest⟩
    · rw [hread] at hsame
      exact .inl ⟨v, _, Prod.ext hsame.symm rfl⟩
    · rw [hread] at hsame hholds
      have hbuf : s.rest = b.readRequest.2.buf := hholds.rest
      rw [hbuf] at hrest
      exact .inr ⟨req, _, Prod.ext hsame.symm rfl, hholds.packets, hrest⟩

/-! ## Reading a round -/

/-- **The first request of a round** leaves the rest of the round in the buffer, and the packets behind
the round in the source. -/
theorem readRequest_round {b : RequestReader} {qs ps : List Packet} {q : Packet} {req : List Bytes}
    {w more : List UInt8} (hbuf : b.buf = []) (hpackets : b.packets = qs ++ q :: ps)
    (hreq : RequestBytes req w) (hbytes : flat qs ++ q.1 = w ++ more)
    (hinside : (flat qs).length < w.length)
    (hafter : more = [] ∨ (flat qs ++ q.1).length < readBufferSize) :
    ∃ b', b.readRequest = (.ok req, b') ∧ b'.buf = more ∧ b'.packets = ps := by
  -- the reader before the packets behind the round have arrived
  let b₀ : RequestReader := { b with packets := qs ++ [q], fin := .open }
  have hb : b = b₀.behind ps b.fin := by
    obtain ⟨buf, last, packets, fin, fits, room⟩ := b
    simp only at hpackets
    subst hpackets
    simp [b₀, Bufio.Reader.behind]
  have hpending : b₀.pending = w ++ more := by
    change b.buf ++ flat (qs ++ [q]) = w ++ more
    rw [hbuf, flat_concat, List.nil_append, hbytes]
  have hread : readStream b₀.view = (.ok req, b₀.view.drop w more) :=
    (readStream_recognises _ _ _).mpr ⟨w, more, hpending, hreq, rfl⟩
  rw [readRequest_view b₀] at hread
  obtain ⟨hok, hview⟩ := Prod.ext_iff.mp hread
  have hrest : b₀.readRequest.2.pending = more := congrArg Stream.rest hview
  have hnot {P : Prop} (h : (∃ e, b₀.readRequest.1 = .error e ∧ Excused (· = .source .open) e) ∨ P) :
      P := by
    rcases h with ⟨e, he, -⟩ | hP
    · cases hok.symm.trans he
    · exact hP
  have hall : b₀.readRequest.2.packets = [] := by
    rcases hafter with rfl | hsmall
    · exact packets_eq_nil_of_flat (List.append_eq_nil_iff.mp hrest).2
    · have hstart : b₀.Whole (qs ++ [q]) := by
        refine ⟨?_, List.suffix_rfl⟩
        have hone : b₀.last.toList.length ≤ 1 := by cases b₀.last <;> simp
        rw [hpending, ← hbytes]
        omega
      have hfits : Fits (fun b b' : RequestReader => Bufio.Reader.Behind ps b₀.fin b b' ∧
          b.Whole (qs ++ [q])) (· = .source .open) Bufio.Reader.io Bufio.Reader.io :=
        ⟨(Bufio.Reader.io_behind _ _).keeping (Bufio.Reader.io_whole _), fun _ he => he⟩
      obtain ⟨-, -, hwhole⟩ := hnot (readRequest_matches hfits b₀ _ ⟨⟨rfl, rfl⟩, hstart⟩)
      refine hwhole.packets_eq_nil ?_
      have hlen := congrArg List.length hbytes
      rw [List.length_append, List.length_append] at hlen
      change b₀.readRequest.2.pending.length < q.1.length
      rw [hrest]
      omega
  have hfits : Fits (Bufio.Reader.Behind ps b.fin) (· = .source .open)
      (Bufio.Reader.io : Input RequestReader) Bufio.Reader.io :=
    ⟨Bufio.Reader.io_behind _ _, fun _ he => he⟩
  obtain ⟨hsame, -, hbehind⟩ := hnot (readRequest_matches hfits b₀ b ⟨rfl, hb⟩)
  refine ⟨b.readRequest.2, Prod.ext (hsame.symm.trans hok) rfl, ?_, ?_⟩
  · change (readRequest Bufio.Reader.io b).2.buf = more
    rw [hbehind]
    change b₀.readRequest.2.buf = more
    rw [← hrest, Bufio.Reader.pending, hall]
    exact (List.append_nil _).symm
  · change (readRequest Bufio.Reader.io b).2.packets = ps
    rw [hbehind]
    change b₀.readRequest.2.packets ++ ps = ps
    rw [hall, List.nil_append]

end Memcore
