import Memcore.Lib.Prog
import Memcore.Resp.Writer

/-!
# The Go client

`memcore.go`: how the client writes a command and reads a reply. It reads from a buffered stream, of
which only the unread bytes matter: `ReadBytes` and `ReadFull` wait for as many bytes as they need,
however these arrive.

Whatever the server writes for a reply whose texts are lines, the client reads back
(`readReply_writeReply`).
-/

namespace Memcore

open Go Prog

namespace Client

/-- A reply as the client returns it; `list` is a slice of such values. -/
inductive Value where
  | nil
  | str (s : Bytes)
  | int (n : Int)
  | list (items : List Value)

/-- Why `readReply` fails. -/
inductive Error where
  /-- the `*Error` of an error reply -/
  | reply (msg : Bytes)
  | eof
  | empty
  | syntaxError
  | unknownType (marker : UInt8)
  /-- `make` with a length that is out of range -/
  | panic
  /-- the recursion of the model has run out; see `readReply_ends` -/
  | diverge
deriving DecidableEq

/-- A computation on the unread bytes. -/
abbrev Read := Prog (List UInt8) Error

/-- Stop with an error. -/
def fail {α : Type} (e : Error) : Read α := Prog.lift (.error e)

/-! ## Writing a command -/

/-- `Client.writeCommand`; `none` for its error on an empty command. -/
def writeCommand (args : List Bytes) : Option (List UInt8) :=
  if args.length = 0 then none
  else some (writeNumber (byte '*') args.length ++ args.flatMap writeBulk)

/-! ## Reading a reply -/

/-- A line without its terminator, from the line without its line feed. -/
def trimLine (line : List UInt8) : List UInt8 :=
  if line.getLast? = some cr then line.dropLast else line

/-- `readLine`. -/
def readLine : Read (List UInt8) := fun s =>
  match s.dropWhile (· ≠ lf) with
  | [] => (.error .eof, [])
  | _ :: rest => (.ok (trimLine (s.takeWhile (· ≠ lf))), rest)

/-- `io.ReadFull` of `n` bytes. -/
def readFull (n : Nat) : Read (List UInt8) := fun s =>
  if n ≤ s.length then (.ok (s.take n), s.drop n) else (.error .eof, [])

/-- `strconv.Atoi` or `strconv.ParseInt` of the rest of a line. -/
def readNumber (body : List UInt8) : Read Int :=
  match parseInt (Bytes.ofList body) with
  | none => fail .syntaxError
  | some n => pure n

/-- The case of a bulk string. `make` panics when `n + 2` is no `int`; that it also panics for a length
that no memory has, from 2 ^ 48 on, is left out: no reply of the server announces one. -/
def readBulk (body : List UInt8) : Read Value := do
  let n ← readNumber body
  if n < 0 then pure .nil
  else if maxInt64 < n + 2 then fail .panic
  else do
    let buf ← readFull (n + 2).toNat
    pure (.str (Bytes.ofList (buf.take n.toNat)))

/-- The loop over the items of an array. -/
def readItems (item : Read Value) : Nat → Read (List Value)
  | 0 => pure []
  | n + 1 => do
      let v ← item
      let items ← readItems item n
      pure (v :: items)

/-- The case of an array. That `make` panics for more items than a memory has is left out: no reply of
the server announces that many. -/
def readArray (item : Read Value) (body : List UInt8) : Read Value := do
  let n ← readNumber body
  if n < 0 then pure .nil
  else do
    let items ← readItems item n.toNat
    pure (.list items)

/-- The switch of `readReply` over the first byte of a line; `item` reads a reply inside this one. -/
def readKind (item : Read Value) (marker : UInt8) (body : List UInt8) : Read Value :=
  if marker = byte '+' then pure (.str (Bytes.ofList body))
  else if marker = byte '-' then fail (.reply (Bytes.ofList body))
  else if marker = byte ':' then do
    let n ← readNumber body
    pure (.int n)
  else if marker = byte '$' then readBulk body
  else if marker = byte '*' then readArray item body
  else fail (.unknownType marker)

/-- `readReply`, with at most `depth` replies inside one another. -/
def readReplyAt : Nat → Read Value
  | 0 => fail .diverge
  | depth + 1 => do
      match ← readLine with
      | [] => fail .empty
      | marker :: body => readKind (readReplyAt depth) marker body

/-- `readReply`. Every reply inside another begins with a byte of its own, so the depth is bounded by
the bytes there are. -/
def readReply : Read Value := fun s => readReplyAt (s.length + 1) s

/-! ## Reading ends -/

section Ends

variable {α β : Type}

/-- The program leaves at most the bytes it was given, and ends for fewer than `depth` of them. -/
structure Ends (depth : Nat) (p : Read α) : Prop where
  shorter : ∀ s, (p s).2.length ≤ s.length
  ends : ∀ s, s.length < depth → (p s).1 ≠ .error .diverge

variable {depth : Nat}

theorem Ends.lift {x : Except Error α} (h : x ≠ .error .diverge) :
    Ends depth (Prog.lift x : Read α) :=
  ⟨fun _ => le_rfl, fun _ _ => h⟩

theorem Ends.pure (a : α) : Ends depth (Pure.pure a : Read α) := Ends.lift (x := .ok a) nofun

theorem Ends.bind {p : Read α} {f : α → Read β} (hp : Ends depth p) (hf : ∀ a, Ends depth (f a)) :
    Ends depth (p >>= f) where
  shorter s := by
    have hs := hp.shorter s
    rw [bind_apply]
    cases hps : p s with
    | mk x s' =>
      rw [hps] at hs
      cases x with
      | ok a => exact ((hf a).shorter s').trans hs
      | error e => exact hs
  ends s hlt := by
    have hs := hp.shorter s
    have he := hp.ends s hlt
    rw [bind_apply]
    cases hps : p s with
    | mk x s' =>
      rw [hps] at hs he
      cases x with
      | ok a => exact (hf a).ends s' (Nat.lt_of_le_of_lt hs hlt)
      | error e =>
        intro h
        cases h
        exact he rfl

theorem readFull_ends (n : Nat) : Ends depth (readFull n) where
  shorter s := by
    unfold readFull
    split <;> simp
  ends s _ := by
    unfold readFull
    split <;> nofun

theorem readNumber_ends (body : List UInt8) : Ends depth (readNumber body) := by
  unfold readNumber
  split
  · exact Ends.lift nofun
  · exact Ends.pure _

theorem readBulk_ends (body : List UInt8) : Ends depth (readBulk body) := by
  refine (readNumber_ends body).bind fun n => ?_
  split
  · exact Ends.pure _
  · split
    · exact Ends.lift nofun
    · exact (readFull_ends _).bind fun _ => Ends.pure _

theorem readItems_ends {item : Read Value} (h : Ends depth item) :
    ∀ n, Ends depth (readItems item n)
  | 0 => Ends.pure _
  | n + 1 => h.bind fun _ => (readItems_ends h n).bind fun _ => Ends.pure _

theorem readArray_ends {item : Read Value} (h : Ends depth item) (body : List UInt8) :
    Ends depth (readArray item body) := by
  refine (readNumber_ends body).bind fun n => ?_
  split
  · exact Ends.pure _
  · exact (readItems_ends h _).bind fun _ => Ends.pure _

/-- A line takes at least its line feed. -/
theorem readLine_shorter {s line rest : List UInt8} (h : readLine s = (.ok line, rest)) :
    rest.length < s.length := by
  have hlen := congrArg List.length (List.takeWhile_append_dropWhile (p := (· ≠ lf)) (l := s))
  unfold readLine at h
  split at h
  next => cases h
  next c rest' hdrop =>
    cases h
    rw [hdrop, List.length_append, List.length_cons] at hlen
    omega

theorem readKind_ends {item : Read Value} (h : Ends depth item) (marker : UInt8)
    (body : List UInt8) : Ends depth (readKind item marker body) := by
  unfold readKind
  repeat' split
  · exact Ends.pure _
  · exact Ends.lift nofun
  · exact (readNumber_ends _).bind fun _ => Ends.pure _
  · exact readBulk_ends _
  · exact readArray_ends h _
  · exact Ends.lift nofun

theorem readLine_error {s rest : List UInt8} {e : Error} (h : readLine s = (.error e, rest)) :
    e = .eof ∧ rest = [] := by
  unfold readLine at h
  split at h <;> cases h
  exact ⟨rfl, rfl⟩

theorem readReplyAt_ends : ∀ depth, Ends depth (readReplyAt depth)
  | 0 => ⟨fun _ => le_rfl, nofun⟩
  | depth + 1 => by
      have hbody : ∀ line, Ends depth (match (line : List UInt8) with
          | [] => fail .empty
          | marker :: body => readKind (readReplyAt depth) marker body) := by
        intro line
        cases line with
        | nil => exact Ends.lift nofun
        | cons marker body => exact readKind_ends (readReplyAt_ends depth) marker body
      -- the line that comes first leaves fewer bytes, so the depth below it suffices
      constructor
      · intro s
        rw [readReplyAt, bind_apply]
        cases hline : readLine s with
        | mk x s' =>
          cases x with
          | ok line => exact ((hbody line).shorter s').trans (readLine_shorter hline).le
          | error e =>
            rw [(readLine_error hline).2]
            exact Nat.zero_le _
      · intro s hlt
        rw [readReplyAt, bind_apply]
        cases hline : readLine s with
        | mk x s' =>
          cases x with
          | ok line =>
            have hshort := readLine_shorter hline
            exact (hbody line).ends s' (by omega)
          | error e =>
            rw [(readLine_error hline).1]
            nofun

/-- **Reading a reply ends**, whatever bytes there are. -/
theorem readReply_ends (s : List UInt8) : (readReply s).1 ≠ .error .diverge :=
  (readReplyAt_ends _).ends s (Nat.lt_succ_self _)

end Ends

/-! ## What the server writes, the client reads -/

mutual

/-- What the client makes of a reply: a string of a simple or bulk string, its `*Error` of an error,
and of an array the slice of its items, or the first error among them. -/
def decoded : Reply → Except Error Value
  | .nil => .ok .nil
  | .simple s => .ok (.str s)
  | .error s => .error (.reply s)
  | .int n => .ok (.int n)
  | .bulk b => .ok (.str b)
  | .array elems => (decodedAll elems).map .list

def decodedAll : List Reply → Except Error (List Value)
  | [] => .ok []
  | r :: rest =>
    match decoded r with
    | .error e => .error e
    | .ok v => (decodedAll rest).map (v :: ·)

end

theorem readLine_writeFrame {marker : UInt8} (hmarker : marker ≠ lf) {s : Bytes} (hs : s.OneLine)
    (rest : List UInt8) :
    readLine (writeFrame marker s ++ rest) = (.ok (marker :: s.data), rest) := by
  have hline : ∀ b ∈ marker :: (s.data ++ [cr]), decide (b ≠ lf) = true := by
    intro b hb
    rw [List.mem_cons, List.mem_append, List.mem_singleton] at hb
    rcases hb with rfl | hb | rfl
    · simpa using hmarker
    · simp only [ne_eq, decide_not, Bool.not_eq_eq_eq_not, Bool.not_true, decide_eq_false_iff_not]
      rintro rfl
      exact hs hb
    · decide
  have hsplit : writeFrame marker s ++ rest = (marker :: (s.data ++ [cr])) ++ lf :: rest := by
    simp [writeFrame, crlf]
  unfold readLine
  rw [hsplit, List.dropWhile_append_of_pos hline, List.takeWhile_append_of_pos hline]
  have htrim : trimLine (marker :: (s.data ++ [cr])) = marker :: s.data := by
    rw [trimLine, ← List.cons_append, if_pos List.getLast?_concat, List.dropLast_concat]
  simp [htrim]

theorem readNumber_formatInt {n : Int} (h : IsInt64 n) (s : List UInt8) :
    readNumber (formatInt n).data s = (.ok n, s) := by
  rw [readNumber, Bytes.ofList_self, parseInt_formatInt h.1 h.2]
  rfl

theorem readFull_append (b : List UInt8) (rest : List UInt8) :
    readFull b.length (b ++ rest) = (.ok b, rest) := by
  rw [readFull, if_pos (by simp), List.take_left, List.drop_left]

/-- The first line of a reply decides how the rest is read. -/
theorem readReplyAt_frame {marker : UInt8} (hmarker : marker ≠ lf) {text : Bytes}
    (htext : text.OneLine) (depth : Nat) (rest : List UInt8) :
    readReplyAt (depth + 1) (writeFrame marker text ++ rest)
      = readKind (readReplyAt depth) marker text.data rest := by
  rw [readReplyAt, bind_apply_ok (readLine_writeFrame hmarker htext rest)]

theorem readBulk_write (b : Bytes) (rest : List UInt8) :
    readBulk (formatInt b.len).data (b.data ++ crlf ++ rest) = (.ok (.str b), rest) := by
  have hlen : (b.len : Int) + 2 ≤ maxInt64 := by
    have := b.inMem
    simp only [Bytes.len, maxAlloc, maxInt64] at *
    omega
  have hint : IsInt64 b.len := by
    simp only [IsInt64, minInt64]
    omega
  have hfull : readFull ((b.len : Int) + 2).toNat (b.data ++ crlf ++ rest)
      = (.ok (b.data ++ crlf), rest) := by
    have hsize : ((b.len : Int) + 2).toNat = (b.data ++ crlf).length := by
      simp only [List.length_append, crlf, Bytes.len, List.length_cons, List.length_nil]
      omega
    rw [hsize, readFull_append]
  rw [readBulk, bind_apply_ok (readNumber_formatInt hint _), if_neg (by omega), if_neg (by omega),
    bind_apply_ok hfull]
  have htake : (b.data ++ crlf).take (b.len : Int).toNat = b.data := b.take_len_append crlf
  rw [htake, Bytes.ofList_self]
  rfl

mutual

/-- A reply that is no error and holds none has a value. -/
theorem decoded_ok : ∀ r : Reply, r.isError = false → r.framed = true → ∃ v, decoded r = .ok v
  | .nil, _, _ | .simple _, _, _ | .int _, _, _ | .bulk _, _, _ => ⟨_, rfl⟩
  | .array elems, _, h => by
      rw [Reply.framed, Bool.and_eq_true] at h
      obtain ⟨items, hitems⟩ := decodedAll_ok elems h.2
      exact ⟨.list items, by rw [decoded, hitems]; rfl⟩

theorem decodedAll_ok : ∀ elems : List Reply, Reply.allFramed elems = true →
    ∃ items, decodedAll elems = .ok items
  | [], _ => ⟨[], rfl⟩
  | r :: elems, h => by
      simp only [Reply.allFramed, Bool.and_eq_true, Bool.not_eq_true'] at h
      obtain ⟨v, hv⟩ := decoded_ok r h.1.1 h.1.2
      obtain ⟨items, hitems⟩ := decodedAll_ok elems h.2
      exact ⟨v :: items, by rw [decodedAll, hv, hitems]; rfl⟩

end

/-- A reply that is all there is not reported as one that is not. -/
theorem decoded_ne_eof {r : Reply} (h : r.framed = true) : decoded r ≠ .error .eof := by
  cases herror : r.isError with
  | false =>
    obtain ⟨v, hv⟩ := decoded_ok r herror h
    rw [hv]
    nofun
  | true =>
    cases r with
    | error s =>
      rw [decoded]
      nofun
    | nil | simple | int | bulk | array => cases herror

theorem writeFrame_length (marker : UInt8) (s : Bytes) :
    (writeFrame marker s).length = s.len + 3 := by
  simp [writeFrame, crlf, Bytes.len]

mutual

/-- One reply, read with a depth that its bytes bound. -/
theorem readReplyAt_write : ∀ (r : Reply) (depth : Nat) (rest : List UInt8), r.framed = true →
    (writeReply r).length ≤ depth → readReplyAt depth (writeReply r ++ rest) = (decoded r, rest)
  | r, 0, _, _, hdepth => by
      -- no reply is written as nothing, so a depth of 0 does not arise
      have hpos : 0 < (writeReply r).length := by
        cases r with
        | nil => decide
        | _ => simp [writeReply, writeBulk, writeNumber, writeFrame_length]
      omega
  | .nil, depth + 1, rest, _, _ => by
      have hframe : writeReply .nil = writeFrame (byte '$') (formatInt (-1)) := by rfl
      rw [hframe, readReplyAt_frame (by decide) (formatInt_oneLine _)]
      change readBulk _ rest = _
      rw [readBulk, bind_apply_ok (readNumber_formatInt (by decide) _)]
      rfl
  | .simple s, depth + 1, rest, h, _ => by
      have hs : s.OneLine := of_decide_eq_true h
      rw [writeReply, readReplyAt_frame (by decide) hs, readKind, if_pos rfl, Bytes.ofList_self]
      rfl
  | .error s, depth + 1, rest, h, _ => by
      have hs : s.OneLine := of_decide_eq_true h
      rw [writeReply, readReplyAt_frame (by decide) hs, readKind, if_neg (by decide), if_pos rfl,
        Bytes.ofList_self]
      rfl
  | .int n, depth + 1, rest, h, _ => by
      have hn : IsInt64 n := of_decide_eq_true h
      rw [writeReply, writeNumber, readReplyAt_frame (by decide) (formatInt_oneLine n)]
      change (readNumber _ >>= _) rest = _
      rw [bind_apply_ok (readNumber_formatInt hn rest)]
      rfl
  | .bulk b, depth + 1, rest, _, _ => by
      rw [writeReply, writeBulk, writeNumber, List.append_assoc,
        readReplyAt_frame (by decide) (formatInt_oneLine _)]
      exact readBulk_write b rest
  | .array elems, depth + 1, rest, h, hdepth => by
      rw [Reply.framed, Bool.and_eq_true, decide_eq_true_eq] at h
      obtain ⟨hcount, hall⟩ := h
      have hlen : (writeReplies elems).length ≤ depth := by
        rw [writeReply, writeNumber, List.length_append, writeFrame_length] at hdepth
        omega
      rw [writeReply, writeNumber, List.append_assoc,
        readReplyAt_frame (by decide) (formatInt_oneLine _)]
      change readArray _ _ _ = _
      rw [readArray, bind_apply_ok (readNumber_formatInt hcount _), if_neg (by omega)]
      -- the elements are nested one deeper, in fewer bytes
      obtain ⟨items, hitems, hread⟩ := readItems_write elems depth rest hall hlen
      rw [Int.toNat_natCast, bind_apply_ok hread, decoded, hitems]
      rfl

/-- The replies of an array, one after the other. -/
theorem readItems_write : ∀ (elems : List Reply) (depth : Nat) (rest : List UInt8),
    Reply.allFramed elems = true → (writeReplies elems).length ≤ depth →
    ∃ items, decodedAll elems = .ok items ∧
      readItems (readReplyAt depth) elems.length (writeReplies elems ++ rest) = (.ok items, rest)
  | [], _, _, _, _ => ⟨[], rfl, rfl⟩
  | r :: elems, depth, rest, h, hdepth => by
      simp only [Reply.allFramed, Bool.and_eq_true, Bool.not_eq_true'] at h
      obtain ⟨⟨herror, hr⟩, hall⟩ := h
      rw [writeReplies, List.length_append] at hdepth
      obtain ⟨items, hitems, hread⟩ := readItems_write elems depth rest hall (by omega)
      have hfirst := readReplyAt_write r depth (writeReplies elems ++ rest) hr (by omega)
      obtain ⟨v, hv⟩ := decoded_ok r herror hr
      rw [hv] at hfirst
      refine ⟨v :: items, ?_, ?_⟩
      · rw [decodedAll, hv, hitems]
        rfl
      · rw [writeReplies, List.append_assoc, List.length_cons, readItems, bind_apply_ok hfirst,
          bind_apply_ok hread]
        rfl

end

theorem readReply_frame (r : Reply) (h : r.framed = true) (rest : List UInt8) :
    readReply (writeReply r ++ rest) = (decoded r, rest) := by
  refine readReplyAt_write r _ rest h ?_
  rw [List.length_append]
  omega

/-- **Reply encoding round-trips through the client.** Whatever follows it, the client reads the bytes
of a reply whose texts are lines, whose numbers are `int64`s and whose arrays hold no errors as what
the reply stands for, and leaves what follows. -/
theorem readReply_writeReply (r : Reply) (h : r.framed = true) (rest : List UInt8) :
    readReply (writeReply r ++ rest) = (decoded r, rest) :=
  readReply_frame r h rest

/-- An array with a bulk string that looks like a frame, an array and nothing. -/
theorem readReply_writeReply_nested :
    readReply (writeReply (.array [.bulk (ascii "a\r\n$1\r\n"), .array [.int (-5)], .nil])
        ++ (ascii "+OK\r\n").data)
      = (.ok (.list [.str (ascii "a\r\n$1\r\n"), .list [.int (-5)], .nil]),
        (ascii "+OK\r\n").data) :=
  readReply_writeReply _ (by decide) _

/-! ## Replies one after the other -/

/-- `n` calls of `readReply`: what they return, and what is left. -/
def readReplies : Nat → List UInt8 → List (Except Error Value) × List UInt8
  | 0, s => ([], s)
  | n + 1, s =>
    let (x, s) := readReply s
    let (xs, s) := readReplies n s
    (x :: xs, s)

theorem readReplies_write : ∀ rs : List Reply, (∀ r ∈ rs, r.framed = true) →
    readReplies rs.length (rs.flatMap writeReply) = (rs.map decoded, [])
  | [], _ => rfl
  | r :: rs, h => by
      obtain ⟨hr, hrs⟩ := List.forall_mem_cons.mp h
      have hread : readReply (writeReply r ++ rs.flatMap writeReply)
          = (decoded r, rs.flatMap writeReply) := readReply_frame r hr _
      rw [List.length_cons, List.flatMap_cons, readReplies, hread]
      simp only [readReplies_write rs hrs, List.map_cons]

/-! ## An error that is not a line -/

/-- The client takes a text up to its first line feed for the whole of it. -/
theorem readLine_cut {marker : UInt8} (hlf : marker ≠ lf) (hcr : marker ≠ cr) {s : Bytes}
    (hs : ¬ s.OneLine) (rest : List UInt8) :
    ∃ body rest', readLine (writeFrame marker s ++ rest) = (.ok (marker :: body), rest') ∧
      body.length < s.data.length := by
  have hmem : lf ∈ s.data := not_not.mp hs
  obtain ⟨pre, post, hsplit, hpre⟩ := List.eq_append_cons_of_mem hmem
  have hline : ∀ b ∈ marker :: pre, decide (b ≠ lf) = true := by
    intro b hb
    refine decide_eq_true ?_
    rintro rfl
    rcases List.mem_cons.mp hb with h | h
    · exact hlf h.symm
    · exact hpre h
  have hwhole : writeFrame marker s ++ rest
      = (marker :: pre) ++ lf :: (post ++ crlf ++ rest) := by
    simp [writeFrame, hsplit]
  have hbody : ∃ body, trimLine (marker :: pre) = marker :: body ∧ body.length ≤ pre.length := by
    cases pre with
    | nil => exact ⟨[], by simp [trimLine, hcr], le_rfl⟩
    | cons b pre =>
      unfold trimLine
      split
      · exact ⟨(b :: pre).dropLast, rfl, by simp⟩
      · exact ⟨b :: pre, rfl, le_rfl⟩
  obtain ⟨body, htrim, hbody⟩ := hbody
  refine ⟨body, post ++ crlf ++ rest, ?_, ?_⟩
  · unfold readLine
    rw [hwhole, List.dropWhile_append_of_pos hline, List.takeWhile_append_of_pos hline]
    simp [htrim]
  · rw [hsplit, List.length_append, List.length_cons]
    omega

theorem readReply_cut {s : Bytes} (hs : ¬ s.OneLine) (rest : List UInt8) :
    (readReply (writeReply (.error s) ++ rest)).1 ≠ decoded (.error s) := by
  have hlf : byte '-' ≠ lf := by decide
  obtain ⟨body, rest', hline, hlen⟩ := readLine_cut hlf (by decide) hs rest
  intro h
  have hread : readReply (writeReply (.error s) ++ rest)
      = (.error (.reply (Bytes.ofList body)), rest') := by
    change readReplyAt (_ + 1) _ = _
    rw [writeReply, readReplyAt, bind_apply_ok hline]
    rfl
  rw [hread, decoded] at h
  injection h with h
  injection h with h
  have hle : (Bytes.ofList body).data.length ≤ body.length := List.length_take_le' _ _
  rw [h] at hle
  omega

/-- **Replies are read back one for one exactly if every one of them can be framed**, when those that
cannot are errors. -/
theorem readReplies_write_iff : ∀ rs : List Reply, (∀ r ∈ rs, r.framed = true ∨ r.isError = true) →
    (readReplies rs.length (rs.flatMap writeReply) = (rs.map decoded, []) ↔
      ∀ r ∈ rs, r.framed = true) := by
  intro rs hrs
  refine ⟨fun h => ?_, readReplies_write rs⟩
  induction rs with
  | nil => nofun
  | cons r rs ih =>
    obtain ⟨hr, hrs⟩ := List.forall_mem_cons.mp hrs
    rw [List.length_cons, List.flatMap_cons, readReplies, List.map_cons] at h
    simp only [Prod.mk.injEq, List.cons.injEq] at h
    obtain ⟨⟨hfirst, hxs⟩, hleft⟩ := h
    -- the first reply is read as what it is, so it can be framed
    have hframed : r.framed = true := by
      by_contra hno
      cases r with
      | error s => exact readReply_cut (fun hs => hno (decide_eq_true hs)) _ hfirst
      | nil | simple _ | int _ | bulk _ | array _ =>
        rcases hr with hr | hr
        · exact hno hr
        · cases hr
    have hread : readReply (writeReply r ++ rs.flatMap writeReply)
        = (decoded r, rs.flatMap writeReply) := readReply_frame r hframed _
    rw [hread] at hxs hleft
    exact List.forall_mem_cons.mpr ⟨hframed, ih hrs (Prod.ext hxs hleft)⟩

/-! ## A reply that is not all there -/

section Waiting

variable {more : List UInt8}

/-- The client would have to wait for more bytes, or the model to recurse further. -/
def Unfinished (e : Error) : Prop := e = .eof ∨ e = .diverge

theorem readLine_extends :
    Matches (fun s t => t = s ++ more) Unfinished readLine readLine := by
  rintro s t rfl
  cases hs : s.dropWhile (· ≠ lf) with
  | nil =>
    refine .inl ⟨.eof, ?_, .inl rfl⟩
    simp only [readLine, hs]
  | cons c rest =>
    have hdrop : (s ++ more).dropWhile (· ≠ lf) = c :: (rest ++ more) := by
      rw [List.dropWhile_append, hs]
      rfl
    have htake : (s ++ more).takeWhile (· ≠ lf) = s.takeWhile (· ≠ lf) := by
      rw [List.takeWhile_append, if_neg]
      intro hall
      have hlen := congrArg List.length (List.takeWhile_append_dropWhile (p := (· ≠ lf)) (l := s))
      rw [hs, List.length_append, List.length_cons] at hlen
      omega
    refine .inr ?_
    simp only [readLine, hs, hdrop, htake, and_self]

theorem readFull_extends (n : Nat) :
    Matches (fun s t => t = s ++ more) Unfinished (readFull n) (readFull n) := by
  rintro s t rfl
  unfold readFull
  by_cases hn : n ≤ s.length
  · have hn' : n ≤ (s ++ more).length := by
      rw [List.length_append]
      omega
    rw [if_pos hn, if_pos hn', List.take_append_of_le_length hn, List.drop_append_of_le_length hn]
    exact .inr ⟨rfl, rfl⟩
  · rw [if_neg hn]
    exact .inl ⟨.eof, rfl, .inl rfl⟩

theorem readNumber_extends (body : List UInt8) :
    Matches (fun s t => t = s ++ more) Unfinished (readNumber body) (readNumber body) := by
  unfold readNumber
  split
  · exact .lift _
  · exact .pure _

theorem readItems_extends {item item' : Read Value}
    (h : Matches (fun s t => t = s ++ more) Unfinished item item') :
    ∀ n, Matches (fun s t => t = s ++ more) Unfinished (readItems item n) (readItems item' n)
  | 0 => .pure _
  | n + 1 => h.bind fun _ => (readItems_extends h n).bind fun _ => .pure _

theorem readKind_extends {item item' : Read Value}
    (h : Matches (fun s t => t = s ++ more) Unfinished item item') (marker : UInt8)
    (body : List UInt8) :
    Matches (fun s t => t = s ++ more) Unfinished (readKind item marker body)
      (readKind item' marker body) := by
  unfold readKind
  repeat' split
  · exact .pure _
  · exact .lift _
  · exact (readNumber_extends body).bind fun _ => .pure _
  · refine (readNumber_extends body).bind fun n => ?_
    split
    · exact .pure _
    · split
      · exact .lift _
      · exact (readFull_extends _).bind fun _ => .pure _
  · refine (readNumber_extends body).bind fun n => ?_
    split
    · exact .pure _
    · exact (readItems_extends h _).bind fun _ => .pure _
  · exact .lift _

/-- What is behind a reply, and how deep the model could recurse, makes no difference. -/
theorem readReplyAt_extends : ∀ {depth depth' : Nat}, depth ≤ depth' →
    Matches (fun s t => t = s ++ more) Unfinished (readReplyAt depth) (readReplyAt depth')
  | 0, _, _ => fun _ _ _ => .inl ⟨.diverge, rfl, .inr rfl⟩
  | depth + 1, depth' + 1, hle => by
      refine readLine_extends.bind fun line => ?_
      cases line with
      | nil => exact .lift _
      | cons marker body =>
        exact readKind_extends (readReplyAt_extends (Nat.le_of_succ_le_succ hle)) marker body

/-- **The client waits for the whole of a reply.** From a part of its bytes it returns nothing. -/
theorem readReply_waits {r : Reply} (h : r.framed = true) {part : List UInt8}
    (hpart : part <+: writeReply r) (hne : part ≠ writeReply r) :
    (readReply part).1 = .error .eof := by
  obtain ⟨more, hmore⟩ := hpart
  have hlen : part.length + 1 ≤ (writeReply r).length + 1 := by
    rw [← hmore, List.length_append]
    omega
  have hwhole : readReplyAt ((writeReply r).length + 1) (part ++ more) = (decoded r, []) := by
    rw [hmore]
    have hread := readReplyAt_write r ((writeReply r).length + 1) [] h (Nat.le_succ _)
    rwa [List.append_nil] at hread
  rcases readReplyAt_extends hlen part (part ++ more) rfl with ⟨e, he, hend | hdiverge⟩ | ⟨-, hrest⟩
  · rw [hend] at he
    exact he
  · rw [hdiverge] at he
    exact absurd he (readReply_ends part)
  · -- the whole leaves nothing, so the part was the whole
    rw [hwhole] at hrest
    have hnil : more = [] := (List.append_eq_nil_iff.mp hrest.symm).2
    rw [hnil, List.append_nil] at hmore
    exact absurd hmore hne

end Waiting

end Client

end Memcore
