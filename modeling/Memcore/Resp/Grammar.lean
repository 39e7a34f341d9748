import Memcore.Client.Client
import Memcore.Lib.Recogniser
import Memcore.Resp.Reader

/-!
# The multi-bulk grammar

What `ReadRequest` takes for a request that starts with `*`, as a relation between argument lists and
byte strings. The reader recognises exactly this relation (`readMultiBulk_parses`), on any stream
and in any packets, and what the client writes is in it (`writeCommand_multiBulk`). Where the stream
ends inside a request, every function of the reader says so with the same error (`CutShort`).
-/

namespace Memcore

open Go Prog Bufio

/-! ## The grammar -/

/-- `n` in decimal and CRLF, no longer than the buffer. -/
def CountLine (n : Int) (w : List UInt8) : Prop :=
  ∃ c, w = c ++ crlf ∧ parseInt (Bytes.ofList c) = some n ∧ c.length + 2 ≤ readBufferSize

/-- A bulk string after its marker. -/
def Bulk (a : Bytes) (w : List UInt8) : Prop :=
  ∃ l, w = l ++ (a.data ++ crlf) ∧ CountLine a.data.length l ∧ a.data.length ≤ maxBulkLen

/-- Bulk strings one after the other. -/
inductive Blocks : List Bytes → List UInt8 → Prop where
  | nil : Blocks [] []
  | cons {a : Bytes} {args : List Bytes} {u v : List UInt8} (bulk : Bulk a u) (rest : Blocks args v) :
      Blocks (a :: args) (byte '$' :: (u ++ v))

/-- A request after its marker. -/
def MultiBulk (args : List Bytes) (w : List UInt8) : Prop :=
  ∃ c v, w = c ++ v ∧ CountLine args.length c ∧ 1 ≤ args.length ∧ args.length ≤ maxMultiBulkLen ∧
    Blocks args v

/-! ## The reader -/

/-- The error of a request that the stream ends inside of. -/
def CutShort (e : ReadError) : Prop := e = .input .unexpectedEOF

theorem within_parses {α : Type} {p : Prog Stream Bufio.Error α} {L : α → List UInt8 → Prop}
    (h : Parses p L Bufio.Error.AtEnd) : Parses (within p) L CutShort := by
  refine h.mapError ?_
  rintro e (rfl | rfl) <;> rfl

theorem lineError_atEnd (e : Bufio.Error) (h : e.AtEnd) : CutShort (lineError e) := by
  rcases h with rfl | rfl <;> rfl

theorem readLine_parses : Parses (readLine (Stream.io readBufferSize)) (fun line w =>
    w = line ++ crlf ∧ lf ∉ line ∧ line.length + 2 ≤ readBufferSize) CutShort := by
  refine (((readSlice_parses readBufferSize lf).mapError lineError_atEnd).bind fun raw =>
    Parses.ite (fun _ => Parses.fail _) (fun _ => Parses.pure _)).congr ?_
  intro line w
  constructor
  · rintro ⟨_, raw, v, rfl, ⟨rfl, pre, rfl, hpre, hlen⟩, hend⟩
    split at hend
    next => exact hend.elim
    next hok =>
      obtain ⟨rfl, rfl⟩ := hend
      rw [not_or, not_not] at hok
      obtain ⟨hlong, hcr⟩ := hok
      -- the line feed has a carriage return in front of it
      rcases List.eq_nil_or_concat' pre with rfl | ⟨line, c, rfl⟩
      · simp at hlong
      · have hn : (line ++ [c] ++ [lf]).length - 2 = line.length := by simp
        have hraw : line ++ [c] ++ [lf] = line ++ [c, lf] := by simp
        rw [hn, hraw, List.getElem?_append_right (Nat.le_refl _), Nat.sub_self] at hcr
        cases hcr
        rw [hn, hraw, List.take_left, List.append_nil]
        refine ⟨rfl, fun hmem => hpre (List.mem_append_left _ hmem), ?_⟩
        simpa using hlen
  · rintro ⟨rfl, hline, hlen⟩
    refine ⟨line ++ crlf, line ++ crlf, [], (List.append_nil _).symm,
      ⟨rfl, line ++ [cr], by simp [crlf], ?_, by simpa [crlf] using hlen⟩, ?_⟩
    · rw [List.mem_append, not_or]
      exact ⟨hline, by decide⟩
    · have hn : (line ++ crlf).length - 2 = line.length := by simp [crlf]
      have hcr : (line ++ crlf)[line.length]? = some cr := by
        rw [List.getElem?_append_right (Nat.le_refl _), Nat.sub_self]
        rfl
      rw [hn, hcr, if_neg (by simp [crlf]), List.take_left]
      exact ⟨rfl, rfl⟩

theorem readCount_parses :
    Parses (readCount (Stream.io readBufferSize)) CountLine CutShort := by
  unfold readCount
  refine Parses.congr (Parses.bind
    (N := fun line n w => parseInt (Bytes.ofList line) = some n ∧ w = []) readLine_parses
    fun line => ?_) fun n w => ?_
  · cases parseInt (Bytes.ofList line) with
    | none => exact (Parses.fail _).congr fun _ _ => by simp
    | some n => exact (Parses.pure n).congr fun _ _ => by simp [eq_comm]
  constructor
  · rintro ⟨c, u, v, rfl, ⟨rfl, -, hlen⟩, hn, rfl⟩
    exact ⟨c, List.append_nil _, hn, hlen⟩
  · rintro ⟨c, rfl, hn, hlen⟩
    have hline := parseInt_oneLine hn
    rw [Bytes.OneLine, Bytes.ofList_data (by simp [maxAlloc, readBufferSize] at hlen ⊢; omega)]
      at hline
    exact ⟨c, c ++ crlf, [], (List.append_nil _).symm, ⟨rfl, hline, hlen⟩, hn, rfl⟩

theorem readChunks_parses (buf : List UInt8) (left : Nat) :
    Parses (readChunks (Stream.io readBufferSize) buf left) (fun body w =>
      body = buf ++ w ∧ w.length = left) CutShort := by
  induction left using Nat.strongRecOn generalizing buf with
  | ind left ih =>
    rw [readChunks]
    by_cases hleft : left = 0
    · rw [if_pos hleft]
      refine (Parses.pure buf).congr fun body w => ?_
      rw [hleft, List.length_eq_zero_iff]
      constructor
      · rintro ⟨rfl, rfl⟩
        exact ⟨(List.append_nil _).symm, rfl⟩
      · rintro ⟨rfl, rfl⟩
        exact ⟨List.append_nil _, rfl⟩
    · rw [if_neg hleft]
      have hlimit : 0 < directReadLimit := by decide
      have hchunk := within_parses (readFull_parses (min left directReadLimit))
      refine (hchunk.bind fun chunk => ih _ (by omega) (buf ++ chunk)).congr fun body w => ?_
      constructor
      · rintro ⟨chunk, _, v, rfl, ⟨rfl, hlen⟩, rfl, hv⟩
        refine ⟨List.append_assoc _ _ _, ?_⟩
        rw [List.length_append, hlen, hv]
        omega
      · rintro ⟨rfl, hlen⟩
        refine ⟨w.take (min left directReadLimit), _, w.drop (min left directReadLimit),
          (List.take_append_drop _ w).symm, ⟨rfl, ?_⟩, ?_, ?_⟩
        · rw [List.length_take]
          omega
        · rw [List.append_assoc, List.take_append_drop]
        · rw [List.length_drop, hlen]

theorem readN_parses (n : Nat) :
    Parses (readN (Stream.io readBufferSize) n) (fun body w => body = w ∧ w.length = n)
      CutShort := by
  unfold readN
  split
  · refine (within_parses (readFull_parses n)).congr fun body w => ?_
    constructor
    · rintro ⟨rfl, hlen⟩
      exact ⟨rfl, hlen⟩
    · rintro ⟨rfl, hlen⟩
      exact ⟨rfl, hlen⟩
  · exact (readChunks_parses [] n).congr fun body w => by rw [List.nil_append]

theorem expectCRLF_parses :
    Parses (expectCRLF (Stream.io readBufferSize)) (fun _ w => w = crlf) CutShort := by
  have hbyte := within_parses readByte_parses
  refine (hbyte.bind fun c => hbyte.bind fun d =>
    Parses.ite (fun _ => Parses.fail _) fun _ => Parses.pure ()).congr fun _ w => ?_
  constructor
  · rintro ⟨c, _, _, rfl, rfl, d, _, _, rfl, rfl, hend⟩
    split at hend
    next => exact hend.elim
    next hok =>
      rw [not_or, not_not, not_not] at hok
      obtain ⟨rfl, rfl⟩ := hok
      rw [hend.2]
      rfl
  · rintro rfl
    exact ⟨cr, [cr], [lf], rfl, rfl, lf, [lf], [], rfl, rfl, by simp⟩

theorem readBulk_parses : Parses (readBulk (Stream.io readBufferSize)) Bulk CutShort := by
  refine (readCount_parses.bind fun n => Parses.ite (fun _ => Parses.fail _) fun _ =>
    (readN_parses n.toNat).bind fun body => expectCRLF_parses.bind fun _ =>
      Parses.pure (Bytes.ofList body)).congr fun a w => ?_
  have hmax : maxBulkLen ≤ maxAlloc := by decide
  constructor
  · rintro ⟨n, l, _, rfl, hl, hbody⟩
    split at hbody
    next => exact hbody.elim
    next hrange =>
      obtain ⟨body, _, _, rfl, ⟨rfl, hlen⟩, _, _, _, rfl, rfl, rfl, rfl⟩ := hbody
      rw [not_or] at hrange
      have hdata : (Bytes.ofList body).data = body := Bytes.ofList_data (by omega)
      have hn : (body.length : Int) = n := by omega
      refine ⟨l, ?_, ?_, ?_⟩
      · rw [hdata, List.append_nil]
      · rwa [hdata, hn]
      · rw [hdata]
        omega
  · rintro ⟨l, rfl, hl, hlen⟩
    refine ⟨a.data.length, l, _, rfl, hl, ?_⟩
    rw [if_neg (by omega)]
    exact ⟨a.data, a.data, crlf, rfl, ⟨rfl, by simp⟩, (), crlf, [], (List.append_nil _).symm, rfl,
      (Bytes.ofList_self a).symm, rfl⟩

theorem readArgs_parses : ∀ n, Parses (readArgs (Stream.io readBufferSize) n)
    (fun args w => args.length = n ∧ Blocks args w) CutShort
  | 0 => by
      refine (Parses.pure []).congr fun args w => ?_
      constructor
      · rintro ⟨rfl, rfl⟩
        exact ⟨rfl, .nil⟩
      · rintro ⟨hlen, hblocks⟩
        cases hblocks with
        | nil => exact ⟨rfl, rfl⟩
        | cons _ _ => cases hlen
  | n + 1 => by
      refine ((within_parses readByte_parses).bind fun marker =>
        Parses.ite (fun _ => Parses.fail _) fun _ =>
          readBulk_parses.bind fun arg => (readArgs_parses n).bind fun args =>
            Parses.pure (arg :: args)).congr fun args w => ?_
      constructor
      · rintro ⟨marker, _, _, rfl, rfl, hrest⟩
        split at hrest
        next => exact hrest.elim
        next hmarker =>
          obtain ⟨arg, u, _, rfl, hbulk, args, v, _, rfl, ⟨rfl, hblocks⟩, rfl, rfl⟩ := hrest
          rw [not_not] at hmarker
          rw [hmarker, List.append_nil]
          have hcons : Blocks (arg :: args) (byte '$' :: (u ++ v)) := .cons hbulk hblocks
          exact ⟨rfl, hcons⟩
      · rintro ⟨hlen, hblocks⟩
        cases hblocks with
        | nil => cases hlen
        | @cons a args u v hbulk hblocks =>
          refine ⟨byte '$', [byte '$'], u ++ v, rfl, rfl, ?_⟩
          rw [if_neg (not_not.mpr rfl)]
          exact ⟨a, u, v, rfl, hbulk, args, v, [], (List.append_nil _).symm,
            ⟨Nat.succ.inj hlen, hblocks⟩, rfl, rfl⟩

/-- **The reader accepts exactly the grammar**, where it returns any arguments at all. -/
theorem readMultiBulk_parses : Parses (readMultiBulk (Stream.io readBufferSize))
    (fun args w => MultiBulk args w ∨ args = [] ∧ ∃ n ≤ 0, CountLine n w) CutShort := by
  refine (readCount_parses.bind fun n =>
    Parses.ite (fun _ => Parses.pure []) fun _ =>
      Parses.ite (fun _ => Parses.fail _) fun _ => readArgs_parses n.toNat).congr
    fun args w => ?_
  constructor
  · rintro ⟨n, c, v, rfl, hc, hrest⟩
    split at hrest
    next hn =>
      obtain ⟨rfl, rfl⟩ := hrest
      rw [List.append_nil]
      exact .inr ⟨rfl, n, hn, hc⟩
    next hn =>
      split at hrest
      next => exact hrest.elim
      next hmax =>
        obtain ⟨hlen, hblocks⟩ := hrest
        have hn : (args.length : Int) = n := by omega
        exact .inl ⟨c, v, rfl, hn ▸ hc, by omega, by omega, hblocks⟩
  · rintro (⟨c, v, rfl, hc, hpos, hmax, hblocks⟩ | ⟨rfl, n, hn, hc⟩)
    · refine ⟨args.length, c, v, rfl, hc, ?_⟩
      rw [if_neg (by omega), if_neg (by omega)]
      exact ⟨by simp, hblocks⟩
    · refine ⟨n, w, [], (List.append_nil _).symm, hc, ?_⟩
      rw [if_pos hn]
      exact ⟨rfl, rfl⟩

/-! ## What the client writes -/

theorem countLine_formatInt {n : Int} (h : IsInt64 n) :
    CountLine n ((formatInt n).data ++ crlf) := by
  refine ⟨_, rfl, ?_, ?_⟩
  · rw [Bytes.ofList_self, parseInt_formatInt h.1 h.2]
  · have hlen := formatInt_length_le n
    have hsize : 23 ≤ readBufferSize := by decide
    omega

theorem isInt64_length {k : Nat} (h : k ≤ maxAlloc) : IsInt64 k := by
  have hmax : (maxAlloc : Int) ≤ maxInt64 := by decide
  simp only [IsInt64, minInt64]
  omega

theorem blocks_writeBulk : ∀ {args : List Bytes}, (∀ a ∈ args, a.data.length ≤ maxBulkLen) →
    Blocks args (args.flatMap writeBulk)
  | [], _ => .nil
  | a :: args, h => by
      obtain ⟨ha, hargs⟩ := List.forall_mem_cons.mp h
      have hbulk : Bulk a ((formatInt a.data.length).data ++ crlf ++ (a.data ++ crlf)) :=
        ⟨_, rfl, countLine_formatInt (isInt64_length a.inMem), ha⟩
      exact .cons hbulk (blocks_writeBulk hargs)

theorem writeCommand_multiBulk {args : List Bytes} {bytes : List UInt8}
    (h : Client.writeCommand args = some bytes) (hmax : args.length ≤ maxMultiBulkLen)
    (hargs : ∀ a ∈ args, a.data.length ≤ maxBulkLen) :
    ∃ w, bytes = byte '*' :: w ∧ MultiBulk args w := by
  unfold Client.writeCommand at h
  split at h
  next => cases h
  next hpos =>
    cases h
    have hcount : IsInt64 args.length := by
      refine isInt64_length (hmax.trans ?_)
      decide
    exact ⟨_, rfl, _, _, rfl, countLine_formatInt hcount, by omega, hmax, blocks_writeBulk hargs⟩

/-! ## Requests -/

theorem readStream_star {s : Stream} {r : List UInt8} (h : s.rest = byte '*' :: r) :
    readStream s = readMultiBulk (Stream.io readBufferSize) (s.drop [byte '*'] r) := by
  have hbyte : mapError ReadError.input (Stream.io readBufferSize).readByte s
      = (.ok (byte '*'), s.drop [byte '*'] r) :=
    mapError_eq_ok.mpr ((readByte_recognises s _ _).mpr ⟨[byte '*'], r, h, rfl, rfl⟩)
  unfold readStream readRequest
  rw [bind_apply_ok hbyte, if_pos rfl]

/-- Which requests come out of bytes that start with a star. -/
theorem readRequest_star (b : RequestReader) {args : List Bytes} (hargs : args ≠ [])
    {r : List UInt8} (hb : b.pending = byte '*' :: r) (rest : List UInt8) :
    (∃ b', b.readRequest = (.ok args, b') ∧ b'.pending = rest) ↔
      ∃ w, r = w ++ rest ∧ MultiBulk args w := by
  have hstar := readStream_star (s := b.view) hb
  have hview := readRequest_view b
  rw [hstar] at hview
  constructor
  · rintro ⟨b', hread, rfl⟩
    rw [hread] at hview
    obtain ⟨w, rest, hw, hparse, hdrop⟩ := (readMultiBulk_parses.recognises _ _ _).mp hview
    rcases hparse with hparse | ⟨hnil, -⟩
    · have hrest : b'.pending = rest := congrArg Stream.rest hdrop
      exact ⟨w, hrest ▸ hw, hparse⟩
    · exact absurd hnil hargs
  · rintro ⟨w, rfl, hparse⟩
    have hread : readMultiBulk (Stream.io readBufferSize) (b.view.drop [byte '*'] (w ++ rest)) = _ :=
      (readMultiBulk_parses.recognises _ _ _).mpr ⟨w, rest, rfl, .inl hparse, rfl⟩
    rw [hread] at hview
    obtain ⟨hreq, hleft⟩ := Prod.ext_iff.mp hview
    exact ⟨b.readRequest.2, Prod.ext hreq.symm rfl, (congrArg Stream.rest hleft).symm⟩

/-- **The parser accepts exactly the multi-bulk grammar.** Whatever is in the buffer of the reader and
whatever packets the rest comes in: where the bytes to come start with a star, `ReadRequest` returns
some arguments and leaves `rest` if and only if the bytes are the star, these arguments in the grammar,
and `rest`. So it returns the arguments of every command the client writes within the limits. -/
theorem readRequest_multiBulk :
    (∀ (b : RequestReader) (args : List Bytes) (rest : List UInt8),
      b.pending.head? = some (byte '*') → args ≠ [] →
      ((∃ b', b.readRequest = (.ok args, b') ∧ b'.pending = rest) ↔
        ∃ w, b.pending = byte '*' :: (w ++ rest) ∧ MultiBulk args w)) ∧
    (∀ (b : RequestReader) (args : List Bytes) (bytes rest : List UInt8),
      Client.writeCommand args = some bytes → args.length ≤ maxMultiBulkLen →
      (∀ a ∈ args, a.data.length ≤ maxBulkLen) → b.pending = bytes ++ rest →
      ∃ b', b.readRequest = (.ok args, b') ∧ b'.pending = rest) := by
  constructor
  · intro b args rest hstar hargs
    obtain ⟨r, hb⟩ := List.head?_eq_some_iff.mp hstar
    rw [readRequest_star b hargs hb, hb]
    simp only [List.cons.injEq, true_and]
  · intro b args bytes rest hwrite hmax hargs hb
    obtain ⟨w, rfl, hw⟩ := writeCommand_multiBulk hwrite hmax hargs
    have hne : args ≠ [] := by
      rintro rfl
      cases hwrite
    exact (readRequest_star b hne hb rest).mpr ⟨w, rfl, hw⟩

/-- A command in two packets, with a byte of the next one. -/
theorem readRequest_multiBulk_split :
    ∃ b' : RequestReader, RequestReader.readRequest (Bufio.Reader.new
        [⟨(ascii "*2\r\n$3\r\nG").data, by decide⟩, ⟨(ascii "ET\r\n$2\r\n\r\n\r\n*").data, by decide⟩] .eof)
      = (.ok [ascii "GET", ascii "\r\n"], b') ∧ b'.pending = (ascii "*").data := by
  refine readRequest_multiBulk.2 _ _ (ascii "*2\r\n$3\r\nGET\r\n$2\r\n\r\n\r\n").data _ ?_ ?_ ?_ ?_
  · rfl
  · decide
  · decide
  · rfl

end Memcore
