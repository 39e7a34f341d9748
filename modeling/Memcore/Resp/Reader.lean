import Memcore.Lib.Go
import Memcore.Lib.Stream

/-!
# Reading requests

`resp/reader.go`. The parser is written over any `Input`: the server runs it on a `bufio.Reader` of
16 KiB (`Reader`), and its proofs run it on the stream of bytes that are to come. Inputs that match
give the same requests (`readRequest_matches`).
-/

namespace Memcore

open Go Prog Bufio

/-- `maxBulkLen`. -/
def maxBulkLen : Nat := 512 <<< 20

/-- `maxMultiBulkLen`. -/
def maxMultiBulkLen : Nat := 1 <<< 20

/-- `directReadLimit`. -/
def directReadLimit : Nat := 64 <<< 10

/-- `readBufferSize`. -/
def readBufferSize : Nat := 16 <<< 10

instance : NeZero readBufferSize := ⟨by decide⟩

/-- What is wrong with a request: the texts that wrap `ErrProtocol`. -/
inductive Violation where
  /-- Reported as "multi-bulk count %d too large". -/
  | multiBulkCount (n : Int)
  /-- Reported as "expected '$', got %q". -/
  | expectedBulk (marker : UInt8)
  /-- Reported as "bulk length %d out of range". -/
  | bulkLength (n : Int)
  /-- Reported as "invalid count %q". -/
  | invalidCount (line : Bytes)
  /-- Reported as "line too long". -/
  | lineTooLong
  /-- Reported as "line not terminated by CRLF". -/
  | lineTerminator
  /-- Reported as "bulk not terminated by CRLF". -/
  | bulkTerminator
deriving DecidableEq

/-- How reading a request fails. -/
inductive ReadError where
  | input (e : Bufio.Error)
  | protocol (v : Violation)
deriving DecidableEq

/-- `eofIsUnexpected`. -/
def eofIsUnexpected : Bufio.Error → Bufio.Error
  | .source .eof => .unexpectedEOF
  | e => e

section Reader

variable {σ : Type} (io : Input σ)

/-- Inside a request the end of the stream is unexpected. -/
def within {α : Type} (p : Prog σ Bufio.Error α) : Prog σ ReadError α :=
  mapError (fun e => .input (eofIsUnexpected e)) p

def violation {α : Type} (v : Violation) : Prog σ ReadError α := Prog.lift (.error (.protocol v))

/-- How `readLine` reports an error of `ReadSlice`. -/
def lineError : Bufio.Error → ReadError
  | .bufferFull => .protocol .lineTooLong
  | e => .input (eofIsUnexpected e)

/-- `readLine`. -/
def readLine : Prog σ ReadError (List UInt8) := do
  let raw ← mapError lineError (io.readSlice lf)
  let n := raw.length
  if n < 2 ∨ raw[n - 2]? ≠ some cr then violation .lineTerminator
  else pure (raw.take (n - 2))

/-- `readCount`. -/
def readCount : Prog σ ReadError Int := do
  let line ← readLine io
  match parseInt (Bytes.ofList line) with
  | none => violation (.invalidCount (Bytes.ofList line))
  | some n => pure n

/-- The loop of `readN` over chunks: `left` bytes are still wanted after `buf`. -/
def readChunks (buf : List UInt8) (left : Nat) : Prog σ ReadError (List UInt8) :=
  if left = 0 then pure buf
  else do
    let want := min left directReadLimit
    let chunk ← within (io.readFull want)
    readChunks (buf ++ chunk) (left - want)
termination_by left
decreasing_by
  have : 0 < directReadLimit := by decide
  omega

/-- `readN`. -/
def readN (n : Nat) : Prog σ ReadError (List UInt8) :=
  if n ≤ directReadLimit then within (io.readFull n) else readChunks io [] n

/-- `expectCRLF`. -/
def expectCRLF : Prog σ ReadError Unit := do
  let c ← within io.readByte
  let d ← within io.readByte
  if c ≠ cr ∨ d ≠ lf then violation .bulkTerminator else pure ()

/-- `readBulk`. -/
def readBulk : Prog σ ReadError Bytes := do
  let n ← readCount io
  if n < 0 ∨ maxBulkLen < n then violation (.bulkLength n)
  else do
    let body ← readN io n.toNat
    expectCRLF io
    pure (Bytes.ofList body)

/-- The loop of `readMultiBulk` over `n` arguments. -/
def readArgs : Nat → Prog σ ReadError (List Bytes)
  | 0 => pure []
  | n + 1 => do
      let marker ← within io.readByte
      if marker ≠ byte '$' then violation (.expectedBulk marker)
      else do
        let arg ← readBulk io
        let args ← readArgs n
        pure (arg :: args)

/-- `readMultiBulk`. -/
def readMultiBulk : Prog σ ReadError (List Bytes) := do
  let n ← readCount io
  -- a zero or null array carries no command
  if n ≤ 0 then pure []
  else if maxMultiBulkLen < n then violation (.multiBulkCount n)
  else readArgs io n.toNat

/-- `readInline`. -/
def readInline : Prog σ ReadError (List Bytes) := do
  let line ← readLine io
  pure ((fields line).map Bytes.ofList)

/-- `ReadRequest`. -/
def readRequest : Prog σ ReadError (List Bytes) := do
  let marker ← mapError .input io.readByte
  if marker = byte '*' then readMultiBulk io
  else do
    mapError .input io.unreadByte
    readInline io

end Reader

/-! ## Inputs that match -/

section Matches

variable {σ τ : Type} {R : σ → τ → Prop} {skip : Bufio.Error → Prop} {i : Input σ} {j : Input τ}

/-- Errors of the input that are excused. -/
def Excused (skip : Bufio.Error → Prop) : ReadError → Prop
  | .input e => skip e
  | .protocol _ => False

/-- The one error that may be excused is that the input would have to wait. -/
structure Fits (R : σ → τ → Prop) (skip : Bufio.Error → Prop) (i : Input σ) (j : Input τ) : Prop where
  ops : i.Matches R skip j
  waits : ∀ e, skip e → e = .source .open

theorem input_matches {α : Type} {p : Prog σ Bufio.Error α} {q : Prog τ Bufio.Error α}
    (hpq : Prog.Matches R skip p q) :
    Prog.Matches R (Excused skip) (mapError ReadError.input p) (mapError ReadError.input q) :=
  hpq.mapError fun _ he => he

variable (h : Fits R skip i j)

include h

theorem Fits.within {α : Type} {p : Prog σ Bufio.Error α} {q : Prog τ Bufio.Error α}
    (hpq : Prog.Matches R skip p q) : Prog.Matches R (Excused skip) (within p) (within q) := by
  refine hpq.mapError fun e he => ?_
  obtain rfl := h.waits e he
  exact he

theorem readLine_matches : Prog.Matches R (Excused skip) (readLine i) (readLine j) := by
  refine ((h.ops.readSlice lf).mapError fun e he => ?_).bind fun line => ?_
  · obtain rfl := h.waits e he
    exact he
  · simp only
    split
    · exact .lift _
    · exact .pure _

theorem readCount_matches : Prog.Matches R (Excused skip) (readCount i) (readCount j) := by
  refine (readLine_matches h).bind fun line => ?_
  split
  · exact .lift _
  · exact .pure _

theorem readChunks_matches (buf : List UInt8) (left : Nat) :
    Prog.Matches R (Excused skip) (readChunks i buf left) (readChunks j buf left) := by
  induction left using Nat.strongRecOn generalizing buf with
  | ind left ih =>
    rw [readChunks, readChunks]
    split
    · exact .pure _
    · have hlimit : 0 < directReadLimit := by decide
      exact (h.within (h.ops.readFull _)).bind fun chunk => ih _ (by omega) _

theorem readN_matches (n : Nat) : Prog.Matches R (Excused skip) (readN i n) (readN j n) := by
  unfold readN
  split
  · exact h.within (h.ops.readFull n)
  · exact readChunks_matches h [] n

theorem readBulk_matches : Prog.Matches R (Excused skip) (readBulk i) (readBulk j) := by
  have hend : Prog.Matches R (Excused skip) (expectCRLF i) (expectCRLF j) := by
    refine (h.within h.ops.readByte).bind fun c => (h.within h.ops.readByte).bind fun d => ?_
    split
    · exact .lift _
    · exact .pure _
  refine (readCount_matches h).bind fun n => ?_
  split
  · exact .lift _
  · exact (readN_matches h _).bind fun body => hend.bind fun _ => .pure _

theorem readArgs_matches : ∀ n, Prog.Matches R (Excused skip) (readArgs i n) (readArgs j n)
  | 0 => .pure _
  | n + 1 => by
      refine (h.within h.ops.readByte).bind fun marker => ?_
      split
      · exact .lift _
      · exact (readBulk_matches h).bind fun arg => (readArgs_matches n).bind fun args => .pure _

/-- **Matching inputs give the same requests.** -/
theorem readRequest_matches : Prog.Matches R (Excused skip) (readRequest i) (readRequest j) := by
  refine (input_matches h.ops.readByte).bind fun marker => ?_
  split
  · refine (readCount_matches h).bind fun n => ?_
    split
    · exact .pure _
    · split
      · exact .lift _
      · exact readArgs_matches h _
  · refine (input_matches h.ops.unreadByte).bind fun _ => ?_
    exact (readLine_matches h).bind fun line => .pure _

end Matches

/-! ## Inputs that do not wait -/

section Keeps

variable {σ : Type} {I : σ → Prop} {io : Input σ}

/-- The input does not have to wait. -/
def Decided (e : ReadError) : Prop := e ≠ .input (.source .open)

theorem violation_keeps {α : Type} (v : Violation) :
    Prog.Keeps I Decided (violation v : Prog σ ReadError α) := .fail nofun

theorem within_keeps {α : Type} {p : Prog σ Bufio.Error α} (hp : Prog.Keeps I (· ≠ .source .open) p) :
    Prog.Keeps I Decided (within p) := by
  refine hp.mapError fun e he => ?_
  rcases e with ((_ | _ | _) | _ | _ | _) <;> simp_all [Decided, eofIsUnexpected]

variable (h : io.Keeps I (· ≠ .source .open))

include h

theorem readLine_keeps : Prog.Keeps I Decided (readLine io) := by
  refine ((h.readSlice lf).mapError fun e he => ?_).bind fun line => ?_
  · rcases e with ((_ | _ | _) | _ | _ | _) <;> simp_all [Decided, lineError, eofIsUnexpected]
  · simp only
    split
    · exact violation_keeps _
    · exact .pure _

theorem readCount_keeps : Prog.Keeps I Decided (readCount io) := by
  refine (readLine_keeps h).bind fun line => ?_
  split
  · exact violation_keeps _
  · exact .pure _

theorem readChunks_keeps (buf : List UInt8) (left : Nat) :
    Prog.Keeps I Decided (readChunks io buf left) := by
  induction left using Nat.strongRecOn generalizing buf with
  | ind left ih =>
    rw [readChunks]
    split
    · exact .pure _
    · have hlimit : 0 < directReadLimit := by decide
      exact (within_keeps (h.readFull _)).bind fun chunk => ih _ (by omega) _

theorem readBulk_keeps : Prog.Keeps I Decided (readBulk io) := by
  have hend : Prog.Keeps I Decided (expectCRLF io) := by
    refine (within_keeps h.readByte).bind fun c => (within_keeps h.readByte).bind fun d => ?_
    split
    · exact violation_keeps _
    · exact .pure _
  have hbody (n : Nat) : Prog.Keeps I Decided (readN io n) := by
    unfold readN
    split
    · exact within_keeps (h.readFull n)
    · exact readChunks_keeps h [] n
  refine (readCount_keeps h).bind fun n => ?_
  split
  · exact violation_keeps _
  · exact (hbody _).bind fun body => hend.bind fun _ => .pure _

theorem readArgs_keeps : ∀ n, Prog.Keeps I Decided (readArgs io n)
  | 0 => .pure _
  | n + 1 => by
      refine (within_keeps h.readByte).bind fun marker => ?_
      split
      · exact violation_keeps _
      · exact (readBulk_keeps h).bind fun arg => (readArgs_keeps n).bind fun args => .pure _

/-- **Reading a request does not wait if the input does not.** -/
theorem readRequest_keeps : Prog.Keeps I Decided (readRequest io) := by
  have hinput (e : Bufio.Error) (he : e ≠ .source .open) : Decided (.input e) := fun hwait =>
    he (ReadError.input.inj hwait)
  refine (h.readByte.mapError hinput).bind fun marker => ?_
  split
  · refine (readCount_keeps h).bind fun n => ?_
    split
    · exact .pure _
    · split
      · exact violation_keeps _
      · exact readArgs_keeps h _
  · refine (h.unreadByte.mapError hinput).bind fun _ => ?_
    exact (readLine_keeps h).bind fun line => .pure _

end Keeps

/-! ## The reader of a connection -/

/-- `Reader`. -/
abbrev RequestReader := Bufio.Reader readBufferSize

/-- `Reader.ReadRequest`. -/
def RequestReader.readRequest (b : RequestReader) :
    Except ReadError (List Bytes) × RequestReader :=
  Memcore.readRequest Bufio.Reader.io b

/-- Reading a request off the bytes to come. -/
def readStream : Prog Stream ReadError (List Bytes) := readRequest (Stream.io readBufferSize)

theorem readRequest_view (b : RequestReader) :
    readStream b.view = (b.readRequest.1, b.readRequest.2.view) := by
  have hfits : Fits (fun (b : RequestReader) s => b.view = s) (fun _ => False) Bufio.Reader.io
      (Stream.io readBufferSize) := ⟨Bufio.Reader.io_matches, nofun⟩
  rcases readRequest_matches hfits b b.view rfl with ⟨e, -, he⟩ | ⟨hreq, hview⟩
  · cases e <;> exact he.elim
  · exact Prod.ext hreq.symm hview.symm

/-- **A connection whose source has ended is not waited for**: what is in the buffer is a request, a
violation, or an error. -/
theorem readRequest_decided {b : RequestReader} (h : b.fin ≠ .open) :
    b.readRequest.2.fin = b.fin ∧ b.readRequest.1 ≠ .error (.input (.source .open)) := by
  obtain ⟨hfin, hdecided⟩ := readRequest_keeps (Stream.io_keeps readBufferSize h) b.view rfl
  have hview := readRequest_view b
  unfold readStream at hview
  rw [hview] at hfin hdecided
  exact ⟨hfin, fun hwait => hdecided _ hwait rfl⟩

end Memcore
