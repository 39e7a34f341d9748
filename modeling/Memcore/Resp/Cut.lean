import Memcore.Resp.Packets

/-!
# A stream that ends

`ReadRequest` tells a stream that ends inside a request from one that ends between two. The first is
`io.ErrUnexpectedEOF`, wherever in the request the end is; the second is `io.EOF`, and it means that
the bytes were whole requests and nothing more. The server closes the connection in silence on
either, but replies to a violation of the protocol; so a cut must not look like one.

The first half is `Parses.short`, carried along the reader with its grammar. The second says of every
function inside a request that it cannot fail with `io.EOF` (`Inside`).
-/

namespace Memcore

open Go Prog Bufio

/-! ## Inside a request -/

/-- Not `io.EOF`. -/
def Inside (e : ReadError) : Prop := e ≠ .input (.source .eof)

section Inside

variable {σ : Type} (io : Input σ)

theorem within_inside {α : Type} (p : Prog σ Bufio.Error α) : RaisesOnly Inside (within p) := by
  refine RaisesOnly.mapError (fun e => ?_) p
  rcases e with ((_ | _ | _) | _ | _ | _) <;> simp [Inside, eofIsUnexpected]

theorem violation_inside {α : Type} (v : Violation) :
    RaisesOnly Inside (violation v : Prog σ ReadError α) :=
  RaisesOnly.fail (by simp [Inside])

theorem readLine_inside : RaisesOnly Inside (readLine io) := by
  refine RaisesOnly.bind (RaisesOnly.mapError (fun e => ?_) _) fun raw =>
    RaisesOnly.ite (violation_inside _) (RaisesOnly.pure _)
  rcases e with ((_ | _ | _) | _ | _ | _) <;> simp [Inside, lineError, eofIsUnexpected]

theorem readCount_inside : RaisesOnly Inside (readCount io) := by
  refine (readLine_inside io).bind fun line => ?_
  cases parseInt (Bytes.ofList line) with
  | none => exact violation_inside _
  | some n => exact RaisesOnly.pure n

theorem readChunks_inside (buf : List UInt8) (left : Nat) :
    RaisesOnly Inside (readChunks io buf left) := by
  induction left using Nat.strongRecOn generalizing buf with
  | ind left ih =>
    rw [readChunks]
    split
    next => exact RaisesOnly.pure buf
    next hleft =>
      have hlimit : 0 < directReadLimit := by decide
      exact (within_inside _).bind fun chunk => ih _ (by omega) _

theorem readBulk_inside : RaisesOnly Inside (readBulk io) := by
  have hend : RaisesOnly Inside (expectCRLF io) :=
    (within_inside _).bind fun c => (within_inside _).bind fun d =>
      RaisesOnly.ite (violation_inside _) (RaisesOnly.pure ())
  refine (readCount_inside io).bind fun n => RaisesOnly.ite (violation_inside _) ?_
  refine RaisesOnly.bind ?_ fun body => hend.bind fun _ => RaisesOnly.pure _
  exact RaisesOnly.ite (within_inside _) (readChunks_inside io [] _)

theorem readArgs_inside : ∀ n, RaisesOnly Inside (readArgs io n)
  | 0 => RaisesOnly.pure []
  | n + 1 => by
      refine (within_inside _).bind fun marker => RaisesOnly.ite (violation_inside _) ?_
      exact (readBulk_inside io).bind fun arg => (readArgs_inside n).bind fun args =>
        RaisesOnly.pure _

theorem readMultiBulk_inside : RaisesOnly Inside (readMultiBulk io) :=
  (readCount_inside io).bind fun n => RaisesOnly.ite (RaisesOnly.pure [])
    (RaisesOnly.ite (violation_inside _) (readArgs_inside io n.toNat))

theorem readInline_inside : RaisesOnly Inside (readInline io) :=
  (readLine_inside io).bind fun _ => RaisesOnly.pure _

end Inside

/-! ## One request -/

/-- **`io.EOF` is for a stream that has nothing left.** -/
theorem readStream_eof (s : Stream) :
    (readStream s).1 = .error (.input (.source .eof)) ↔ s.rest = [] ∧ s.fin = .eof := by
  constructor
  · intro h
    have hrun : readStream s = (.error (.input (.source .eof)), (readStream s).2) := Prod.ext h rfl
    cases hs : s.rest with
    | nil =>
      rw [readStream_nil hs] at h
      cases hfin : s.fin with
      | eof => exact ⟨rfl, rfl⟩
      | failure | «open» =>
        rw [hfin] at h
        cases h
    | cons c r =>
      by_cases hc : c = byte '*'
      · subst hc
        rw [readStream_star hs] at hrun
        exact absurd rfl (readMultiBulk_inside _ _ _ _ hrun)
      · rw [readStream_inline hs hc] at hrun
        exact absurd rfl (readInline_inside _ _ _ _ hrun)
  · rintro ⟨hrest, hfin⟩
    rw [readStream_nil hrest, hfin]

/-- **A stream that ends inside a request**, behind its first byte. -/
theorem readStream_short {s : Stream} {req : List Bytes} {w : List UInt8} (h : RequestBytes req w)
    (hcut : s.rest <+: w) (hsome : s.rest ≠ []) (hne : s.rest ≠ w) (hfin : s.fin = .eof) :
    (readStream s).1 = .error (.input .unexpectedEOF) := by
  obtain ⟨c, r, hs⟩ := List.exists_cons_of_ne_nil hsome
  obtain ⟨d, w, rfl⟩ := List.exists_cons_of_ne_nil h.ne_nil
  rw [hs] at hcut hne
  obtain ⟨rfl, hr⟩ := List.cons_prefix_cons.mp hcut
  by_cases hc : c = byte '*'
  · subst hc
    obtain ⟨e, s', hrun, rfl⟩ := readMultiBulk_parses.short (s.drop [byte '*'] r) req w
      (request_of_star.mp h) hr (fun hrw => hne (congrArg (byte '*' :: ·) hrw)) hfin
    rw [readStream_star hs, hrun]
  · generalize hw : c :: w = u at h
    cases h with
    | multiBulk | empty => exact absurd (List.cons.inj hw).1 hc
    | @inline line _ hline hlen =>
      rw [hw, ← hs] at hcut hne
      obtain ⟨e, s', hrun, rfl⟩ := readLine_parses.short { s with last := none } line
        (line ++ crlf) ⟨rfl, hline, hlen⟩ hcut hne hfin
      rw [readStream_inline hs hc, readInline, bind_apply_error hrun]

/-! ## Requests one after the other -/

/-- Reading ends with `io.EOF` on whole requests and nothing more. -/
theorem reads_stream_eof {reqs : List (List Bytes)} {s : Stream} :
    Reads readStream s reqs (.input (.source .eof)) ↔
      s.fin = .eof ∧ ∃ ws, s.rest = ws.flatten ∧ List.Forall₂ RequestBytes reqs ws := by
  induction reqs generalizing s with
  | nil =>
    constructor
    · intro h
      cases h with
      | stop hs =>
        obtain ⟨hrest, hfin⟩ := (readStream_eof s).mp (congrArg Prod.fst hs)
        exact ⟨hfin, [], hrest, .nil⟩
    · rintro ⟨hfin, ws, hrest, hws⟩
      cases hws
      exact .stop (Prod.ext ((readStream_eof s).mpr ⟨hrest, hfin⟩) rfl)
  | cons req reqs ih =>
    constructor
    · intro h
      cases h with
      | next hs hreads =>
        obtain ⟨w, rest, hrest, hreq, rfl⟩ := (readStream_recognises s req _).mp hs
        obtain ⟨hfin, ws, hflat, hws⟩ := ih.mp hreads
        have htail : rest = ws.flatten := hflat
        exact ⟨hfin, w :: ws, by rw [hrest, htail, List.flatten_cons], .cons hreq hws⟩
    · rintro ⟨hfin, ws, hrest, hws⟩
      cases hws with
      | @cons _ w _ ws hreq hws =>
        rw [List.flatten_cons] at hrest
        exact .next ((readStream_recognises s req _).mpr ⟨w, ws.flatten, hrest, hreq, rfl⟩)
          (ih.mpr ⟨hfin, ws, rfl, hws⟩)

theorem reads_view_iff {b : RequestReader} {reqs : List (List Bytes)} {e : ReadError} :
    Reads RequestReader.readRequest b reqs e ↔ Reads readStream b.view reqs e := by
  constructor
  · intro h
    obtain ⟨reqs', e', hstream⟩ := reads_stream b.view
    obtain ⟨rfl, rfl⟩ := h.unique (reads_view hstream)
    exact hstream
  · exact reads_view

/-- **A request cut short is reported as such.** The encoding of every command within the limits,
and any other bytes of a request, cut behind the first byte and before the last: in whatever packets
the rest comes, `ReadRequest` returns `io.ErrUnexpectedEOF`. It returns `io.EOF` exactly where the
stream ends and no byte is left, so reading requests up to the first error ends with `io.EOF` exactly
if the bytes were whole requests one after the other. -/
theorem readRequest_cut :
    (∀ args : List Bytes, 1 ≤ args.length → args.length ≤ maxMultiBulkLen →
      (∀ a ∈ args, a.data.length ≤ maxBulkLen) →
      ∃ bytes, Client.writeCommand args = some bytes ∧ ∀ b : RequestReader, b.fin = .eof →
        b.pending <+: bytes → b.pending ≠ [] → b.pending ≠ bytes →
        b.readRequest.1 = .error (.input .unexpectedEOF)) ∧
    (∀ (b : RequestReader) (req : List Bytes) (w : List UInt8), RequestBytes req w →
      b.fin = .eof → b.pending <+: w → b.pending ≠ [] → b.pending ≠ w →
      b.readRequest.1 = .error (.input .unexpectedEOF)) ∧
    (∀ b : RequestReader, b.readRequest.1 = .error (.input (.source .eof)) ↔
      b.pending = [] ∧ b.fin = .eof) ∧
    (∀ (b : RequestReader) (reqs : List (List Bytes)),
      Reads RequestReader.readRequest b reqs (.input (.source .eof)) ↔
        b.fin = .eof ∧ ∃ ws, b.pending = ws.flatten ∧ List.Forall₂ RequestBytes reqs ws) := by
  have hview (b : RequestReader) : b.readRequest.1 = (readStream b.view).1 :=
    (congrArg Prod.fst (readRequest_view b)).symm
  have hcut (b : RequestReader) (req : List Bytes) (w : List UInt8) (hreq : RequestBytes req w)
      (hfin : b.fin = .eof) (hpre : b.pending <+: w) (hsome : b.pending ≠ [])
      (hne : b.pending ≠ w) : b.readRequest.1 = .error (.input .unexpectedEOF) := by
    rw [hview]
    exact readStream_short hreq hpre hsome hne hfin
  refine ⟨fun args hpos hmax hargs => ?_, hcut, fun b => ?_, fun b reqs => ?_⟩
  · obtain ⟨bytes, hwrite⟩ : ∃ bytes, Client.writeCommand args = some bytes := by
      rw [Client.writeCommand, if_neg (Nat.one_le_iff_ne_zero.mp hpos)]
      exact ⟨_, rfl⟩
    obtain ⟨w, rfl, hw⟩ := writeCommand_multiBulk hwrite hmax hargs
    exact ⟨_, hwrite, fun b hfin hpre hsome hne => hcut b args _ (.multiBulk hw) hfin hpre hsome hne⟩
  · rw [hview]
    exact readStream_eof b.view
  · rw [reads_view_iff]
    exact reads_stream_eof

/-- A request of two arguments, cut behind the first: in two packets. -/
theorem readRequest_cut_argument :
    (RequestReader.readRequest (Bufio.Reader.new
      [⟨(ascii "*2\r\n$3\r\nG").data, by decide⟩, ⟨(ascii "ET\r\n").data, by decide⟩] .eof)).1
      = .error (.input .unexpectedEOF) := by
  obtain ⟨bytes, hwrite, hread⟩ := readRequest_cut.1 [ascii "GET", ascii "k"] (by decide) (by decide)
    (by decide)
  obtain rfl : (ascii "*2\r\n$3\r\nGET\r\n$1\r\nk\r\n").data = bytes := Option.some.inj hwrite
  exact hread _ rfl (by decide) (by decide) (by decide)

end Memcore
