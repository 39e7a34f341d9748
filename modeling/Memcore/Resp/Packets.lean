import Memcore.Resp.Grammar

/-!
# Requests and packets

A client's bytes reach the reader in packets of any size. Reading requests until the first error gives
the same requests and the same error for every way to cut the bytes, and it always comes to an end:
every request takes at least a byte (`requests_of_bytes`).
-/

namespace Memcore

open Go Prog Bufio

/-- Reading requests one after the other, until there is an error. -/
inductive Reads {σ : Type} (read : Prog σ ReadError (List Bytes)) :
    σ → List (List Bytes) → ReadError → Prop where
  | stop {s s' : σ} {e : ReadError} (h : read s = (.error e, s')) : Reads read s [] e
  | next {s s' : σ} {req : List Bytes} {reqs : List (List Bytes)} {e : ReadError}
      (h : read s = (.ok req, s')) (rest : Reads read s' reqs e) : Reads read s (req :: reqs) e

/-- What is read is determined. -/
theorem Reads.unique {σ : Type} {read : Prog σ ReadError (List Bytes)} {s : σ}
    {reqs reqs' : List (List Bytes)} {e e' : ReadError} (h : Reads read s reqs e)
    (h' : Reads read s reqs' e') : reqs' = reqs ∧ e' = e := by
  induction h generalizing reqs' e' with
  | stop hs =>
    cases h' with
    | stop hs' =>
      cases hs.symm.trans hs'
      exact ⟨rfl, rfl⟩
    | next hs' _ => cases hs.symm.trans hs'
  | next hs _ ih =>
    cases h' with
    | stop hs' => cases hs.symm.trans hs'
    | next hs' hrest =>
      cases hs.symm.trans hs'
      obtain ⟨rfl, rfl⟩ := ih hrest
      exact ⟨rfl, rfl⟩

/-! ## What a request is -/

/-- A request and its bytes: an array of bulk strings, an array without any, or a line of words. -/
inductive RequestBytes : List Bytes → List UInt8 → Prop where
  | multiBulk {args : List Bytes} {w : List UInt8} (h : MultiBulk args w) :
      RequestBytes args (byte '*' :: w)
  | empty {n : Int} {w : List UInt8} (hn : n ≤ 0) (h : CountLine n w) : RequestBytes [] (byte '*' :: w)
  | inline {line : List UInt8} (hstar : (line ++ crlf).head? ≠ some (byte '*')) (hline : lf ∉ line)
      (hlen : line.length + 2 ≤ readBufferSize) :
      RequestBytes ((fields line).map Bytes.ofList) (line ++ crlf)

theorem RequestBytes.ne_nil {req : List Bytes} {w : List UInt8} (h : RequestBytes req w) : w ≠ [] := by
  cases h with
  | multiBulk | empty => exact List.cons_ne_nil _ _
  | inline => exact List.append_ne_nil_of_right_ne_nil _ (List.cons_ne_nil _ _)

theorem readStream_nil {s : Stream} (h : s.rest = []) :
    readStream s = (.error (.input (.source s.fin)), s) := by
  unfold readStream readRequest
  refine bind_apply_error ?_
  change mapError ReadError.input Stream.readByte s = _
  unfold mapError Stream.readByte
  simp only [h]

theorem readRequest_nil {b : RequestReader} (h : b.pending = []) :
    b.readRequest.1 = .error (.input (.source b.fin)) := by
  have hview := readRequest_view b
  rw [readStream_nil (s := b.view) h] at hview
  exact (congrArg Prod.fst hview).symm

theorem readStream_inline {s : Stream} {c : UInt8} {r : List UInt8} (h : s.rest = c :: r)
    (hc : c ≠ byte '*') :
    readStream s = readInline (Stream.io readBufferSize) { s with last := none } := by
  have hbyte : mapError ReadError.input (Stream.io readBufferSize).readByte s
      = (.ok c, s.drop [c] r) :=
    mapError_eq_ok.mpr ((readByte_recognises s _ _).mpr ⟨[c], r, h, rfl, rfl⟩)
  have hunread : mapError ReadError.input (Stream.io readBufferSize).unreadByte (s.drop [c] r)
      = (.ok (), { s with last := none }) := by
    refine mapError_eq_ok.mpr ?_
    change ((.ok () : Except Bufio.Error Unit), Stream.mk (c :: r) none s.fin) = _
    rw [← h]
  unfold readStream readRequest
  rw [bind_apply_ok hbyte, if_neg hc, bind_apply_ok hunread]

theorem request_of_star {req : List Bytes} {w : List UInt8} :
    RequestBytes req (byte '*' :: w) ↔ MultiBulk req w ∨ req = [] ∧ ∃ n ≤ 0, CountLine n w := by
  constructor
  · intro h
    generalize hw : byte '*' :: w = u at h
    cases h with
    | multiBulk h =>
      cases hw
      exact .inl h
    | empty hn h =>
      cases hw
      exact .inr ⟨rfl, _, hn, h⟩
    | inline hstar _ _ =>
      rw [← hw] at hstar
      exact absurd rfl hstar
  · rintro (h | ⟨rfl, n, hn, h⟩)
    · exact .multiBulk h
    · exact .empty hn h

/-- **`ReadRequest` takes requests**, and nothing else. -/
theorem readStream_recognises : Recognises readStream RequestBytes := by
  intro s req s'
  cases hs : s.rest with
  | nil =>
    -- no bytes: no request is empty on the wire
    rw [readStream_nil hs]
    constructor
    · intro h
      cases h
    · rintro ⟨w, rest, hrest, hreq, -⟩
      exact absurd (List.append_eq_nil_iff.mp hrest.symm).1 hreq.ne_nil
  | cons c r =>
    by_cases hc : c = byte '*'
    · subst hc
      rw [readStream_star hs, readMultiBulk_parses.recognises]
      constructor
      · rintro ⟨w, rest, hrest, hreq, rfl⟩
        exact ⟨byte '*' :: w, rest, congrArg (byte '*' :: ·) hrest, request_of_star.mpr hreq,
          Stream.drop_drop s [byte '*'] r w rest⟩
      · rintro ⟨w, rest, hrest, hreq, rfl⟩
        obtain ⟨c, w, rfl⟩ := List.exists_cons_of_ne_nil hreq.ne_nil
        obtain ⟨rfl, hr⟩ := List.cons.inj hrest
        exact ⟨w, rest, hr, request_of_star.mp hreq, (Stream.drop_drop s [byte '*'] r w rest).symm⟩
    -- an inline command: the byte that was looked at is put back and read again
    · have hlast {w : List UInt8} (hw : w ≠ []) (rest : List UInt8) :
          ({ s with last := none } : Stream).drop w rest = s.drop w rest := by
        refine Stream.drop_eq ?_ hw rest
        rfl
      rw [readStream_inline hs hc, readInline, bind_eq_ok]
      constructor
      · rintro ⟨line, s₁, hline, hpure⟩
        cases hpure
        obtain ⟨w, rest, hrest, ⟨rfl, hlf, hlen⟩, rfl⟩ := (readLine_parses.recognises _ _ _).mp hline
        have hrest' : c :: r = line ++ crlf ++ rest := hs.symm.trans hrest
        have hreq : RequestBytes ((fields line).map Bytes.ofList) (line ++ crlf) := by
          refine .inline (fun hstar => hc ?_) hlf hlen
          obtain ⟨t, ht⟩ := List.head?_eq_some_iff.mp hstar
          rw [ht] at hrest'
          exact (List.cons.inj hrest').1
        exact ⟨line ++ crlf, rest, hrest', hreq, hlast hreq.ne_nil rest⟩
      · rintro ⟨w, rest, hrest, hreq, rfl⟩
        cases hreq with
        | multiBulk | empty => exact absurd (List.cons.inj hrest).1 hc
        | @inline line hstar hlf hlen =>
          refine ⟨line, _, (readLine_parses.recognises _ _ _).mpr
            ⟨line ++ crlf, rest, hs.trans hrest, ⟨rfl, hlf, hlen⟩, rfl⟩, ?_⟩
          rw [hlast (RequestBytes.inline hstar hlf hlen).ne_nil]
          rfl

/-! ## Every request takes a byte -/

/-- **Every request takes a byte.** -/
theorem readStream_shorter {s s' : Stream} {req : List Bytes} (h : readStream s = (.ok req, s')) :
    s'.rest.length < s.rest.length := by
  obtain ⟨w, rest, hrest, hreq, rfl⟩ := (readStream_recognises s req s').mp h
  have hw := List.length_pos_iff.mpr hreq.ne_nil
  change rest.length < s.rest.length
  rw [hrest, List.length_append]
  omega

theorem reads_stream (s : Stream) : ∃ reqs e, Reads readStream s reqs e := by
  induction hn : s.rest.length using Nat.strongRecOn generalizing s with
  | ind n ih =>
    cases hread : readStream s with
    | mk x s' =>
      cases x with
      | error e => exact ⟨[], e, .stop hread⟩
      | ok req =>
        have hshort := readStream_shorter hread
        obtain ⟨reqs, e, hreqs⟩ := ih s'.rest.length (by omega) s' rfl
        exact ⟨req :: reqs, e, .next hread hreqs⟩

/-- Reading from packets and reading from their bytes. -/
theorem reads_view {b : RequestReader} {reqs : List (List Bytes)} {e : ReadError}
    (h : Reads readStream b.view reqs e) : Reads RequestReader.readRequest b reqs e := by
  induction reqs generalizing b with
  | nil =>
    cases h with
    | stop hs =>
      obtain ⟨herror, rfl⟩ := Prod.ext_iff.mp ((readRequest_view b).symm.trans hs)
      exact .stop (Prod.ext herror rfl)
  | cons req reqs ih =>
    cases h with
    | next hs hrest =>
      obtain ⟨hreq, rfl⟩ := Prod.ext_iff.mp ((readRequest_view b).symm.trans hs)
      exact .next (Prod.ext hreq rfl) (ih hrest)

/-- **Parsing does not depend on packet boundaries.** For any bytes and any end of the stream there
are requests and an error, such that for every way to cut the bytes into packets reading until the
first error comes to an end, with exactly these requests and this error. -/
theorem requests_of_bytes (bytes : List UInt8) (fin : End) :
    ∃ reqs e, ∀ packets : List Packet, flat packets = bytes → ∀ reqs' e',
      Reads RequestReader.readRequest (Bufio.Reader.new packets fin) reqs' e' ↔
        reqs' = reqs ∧ e' = e := by
  obtain ⟨reqs, e, h⟩ := reads_stream ⟨bytes, none, fin⟩
  refine ⟨reqs, e, ?_⟩
  rintro packets rfl reqs' e'
  have hreads : Reads RequestReader.readRequest (Bufio.Reader.new packets fin) reqs e := reads_view h
  constructor
  · exact hreads.unique
  · rintro ⟨rfl, rfl⟩
    exact hreads

end Memcore
