import Memcore.Lib.Incremental
import Memcore.Resp.Writer

/-!
# The Node client

`memcore.mjs`: `parseReply` over the buffer of received bytes, and `_onData`, which parses replies
off its front with every chunk that arrives and settles the pending requests in order.

The parser starts over from the front of the buffer each time, so the chunks do not matter if it
waits on every proper prefix of a reply and does not look behind a whole one (`parses_reply`).
`onData_settles` says what follows for the requests.
-/

namespace Memcore

open Go ByteStream Incremental

namespace NodeClient

/-! ## The host -/

/-- What the client uses of its host: strings and numbers, the decoding of UTF-8, and `Number`. An
integer in decimal is converted exactly up to 2⁵³. -/
structure Host where
  Str : Type
  Num : Type
  utf8 : List UInt8 → Str
  number : Str → Num
  toInt : Num → Option Int
  toInt_number : ∀ n : Int, n.natAbs ≤ 2 ^ 53 → toInt (number (utf8 (formatInt n).data)) = some n

variable (H : Host)

/-- A decoded reply; `error` is a `MemcoreError` with its message. -/
inductive Value where
  | null
  | str (s : H.Str)
  | error (message : H.Str)
  | num (n : H.Num)
  | array (items : List Value)

/-- How `parseReply` can fail to return. -/
inductive Failure where
  /-- the error thrown for an unknown type -/
  | unknownType (type : UInt8)
  /-- a length or a count that is neither -1 nor a natural number, which is not modelled further -/
  | oddLength
  /-- the recursion of the model has run out; see `parseReply_ends` -/
  | diverge

/-! ## `parseReply` -/

/-- The first index of a CRLF. -/
def crlfIn : List UInt8 → Option Nat
  | [] => none
  | b :: rest => if b = cr ∧ rest.head? = some lf then some 0 else (crlfIn rest).map (· + 1)

/-- `buf.indexOf("\r\n", start)`. -/
def indexOfCrlf (buf : List UInt8) (start : Nat) : Option Nat :=
  (crlfIn (buf.drop start)).map (start + ·)

/-- The bytes `toString` decodes. -/
def slice (buf : List UInt8) (start stop : Nat) : List UInt8 := (buf.take stop).drop start

/-- The case of a bulk string, `length` being the number in its line. -/
def parseBulk (buf : List UInt8) (length : Option Int) (afterLine : Nat) :
    Parsed (Value H) Failure :=
  match length with
  | some (.negSucc 0) => .item .null afterLine
  | some (.ofNat n) =>
    if buf.length < afterLine + n + 2 then .incomplete
    else .item (.str (H.utf8 (slice buf afterLine (afterLine + n)))) (afterLine + n + 2)
  | _ => .failed .oddLength

variable {H}

/-- The loop over the elements of an array. -/
def parseItems (element : Nat → Parsed (Value H) Failure) :
    Nat → Nat → List (Value H) → Parsed (Value H) Failure
  | 0, cursor, items => .item (.array items) cursor
  | n + 1, cursor, items =>
    match element cursor with
    | .item v offset => parseItems element n offset (items ++ [v])
    | other => other

/-- The case of an array, `count` being the number in its line. -/
def parseArray (element : Nat → Parsed (Value H) Failure) (count : Option Int) (afterLine : Nat) :
    Parsed (Value H) Failure :=
  match count with
  | some (.negSucc 0) => .item .null afterLine
  | some (.ofNat n) => parseItems element n afterLine []
  | _ => .failed .oddLength

variable (H)

/-- The `switch` of `parseReply` over the first byte of a line. -/
def parseKind (element : Nat → Parsed (Value H) Failure) (buf : List UInt8) (type : UInt8)
    (line : List UInt8) (afterLine : Nat) : Parsed (Value H) Failure :=
  if type = byte '+' then .item (.str (H.utf8 line)) afterLine
  else if type = byte '-' then .item (.error (H.utf8 line)) afterLine
  else if type = byte ':' then .item (.num (H.number (H.utf8 line))) afterLine
  else if type = byte '$' then parseBulk H buf (H.toInt (H.number (H.utf8 line))) afterLine
  else if type = byte '*' then parseArray element (H.toInt (H.number (H.utf8 line))) afterLine
  else .failed (.unknownType type)

/-- `parseReply`, with at most `depth` replies inside one another. -/
def parseReplyAt : Nat → List UInt8 → Nat → Parsed (Value H) Failure
  | 0, _, _ => .failed .diverge
  | depth + 1, buf, offset =>
    if buf.length ≤ offset then .incomplete
    else match indexOfCrlf buf (offset + 1) with
      | none => .incomplete
      | some crlf =>
        parseKind H (parseReplyAt depth buf) buf (buf.getD offset 0)
          (slice buf (offset + 1) crlf) (crlf + 2)

/-- `parseReply`. Every reply inside another begins with a byte of its own, so the depth is bounded by
the bytes there are. -/
def parseReply (buf : List UInt8) (offset : Nat) : Parsed (Value H) Failure :=
  parseReplyAt H (buf.length + 1) buf offset

/-! ### It ends -/

variable {H}

/-- The model's recursion has not run out, and an item goes on to `lo` at least. -/
structure Goes (lo : Nat) (p : Parsed (Value H) Failure) : Prop where
  ends : p ≠ .failed .diverge
  forward : ∀ v offset, p = .item v offset → lo ≤ offset

theorem Goes.mono {lo lo' : Nat} {p : Parsed (Value H) Failure} (h : Goes lo p) (hle : lo' ≤ lo) :
    Goes lo' p :=
  ⟨h.ends, fun v offset heq => hle.trans (h.forward v offset heq)⟩

theorem Goes.item {lo offset : Nat} (v : Value H) (h : lo ≤ offset) : Goes lo (.item v offset) := by
  refine ⟨fun hf => (by cases hf), fun v' offset' heq => ?_⟩
  cases heq
  exact h

theorem Goes.incomplete (lo : Nat) : Goes (H := H) lo .incomplete :=
  ⟨fun hf => (by cases hf), fun _ _ heq => (by cases heq)⟩

theorem Goes.failed (lo : Nat) {f : Failure} (h : f ≠ .diverge) : Goes (H := H) lo (.failed f) := by
  refine ⟨fun hf => ?_, fun _ _ heq => (by cases heq)⟩
  cases hf
  exact h rfl

theorem parseItems_goes {element : Nat → Parsed (Value H) Failure} {lo : Nat}
    (h : ∀ cursor, lo ≤ cursor → Goes cursor (element cursor)) :
    ∀ (n cursor : Nat) (items : List (Value H)), lo ≤ cursor →
      Goes lo (parseItems element n cursor items)
  | 0, cursor, items, hlo => Goes.item _ hlo
  | n + 1, cursor, items, hlo => by
      have hgoes := h cursor hlo
      rw [parseItems]
      cases helem : element cursor with
      | incomplete => exact Goes.incomplete lo
      | failed f =>
        refine Goes.failed lo fun hf => hgoes.ends ?_
        rw [helem, hf]
      | item v offset =>
        have hforward := hgoes.forward v offset helem
        exact parseItems_goes h n offset _ (hlo.trans hforward)

theorem parseKind_goes {element : Nat → Parsed (Value H) Failure} {after : Nat}
    (h : ∀ cursor, after ≤ cursor → Goes cursor (element cursor)) (buf : List UInt8) (type : UInt8)
    (line : List UInt8) : Goes after (parseKind H element buf type line after) := by
  have hbulk : ∀ length, Goes after (parseBulk H buf length after) := by
    intro length
    unfold parseBulk
    split
    · exact Goes.item _ le_rfl
    · split
      · exact Goes.incomplete _
      · exact Goes.item _ (by omega)
    · exact Goes.failed _ fun hf => (by cases hf)
  have harray : ∀ count, Goes after (parseArray element count after) := by
    intro count
    unfold parseArray
    split
    · exact Goes.item _ le_rfl
    · exact parseItems_goes h _ after [] le_rfl
    · exact Goes.failed _ fun hf => (by cases hf)
  unfold parseKind
  repeat' split
  · exact Goes.item _ le_rfl
  · exact Goes.item _ le_rfl
  · exact Goes.item _ le_rfl
  · exact hbulk _
  · exact harray _
  · exact Goes.failed _ fun hf => (by cases hf)

/-- Every line takes bytes, so that a depth beyond the bytes that are left is enough. -/
theorem parseReplyAt_goes (buf : List UInt8) : ∀ depth offset, 0 < depth →
    buf.length < depth + offset → Goes (offset + 1) (parseReplyAt H depth buf offset)
  | 0, _, hpos, _ => absurd hpos (Nat.lt_irrefl 0)
  | depth + 1, offset, _, hlt => by
      rw [parseReplyAt]
      split
      · exact Goes.incomplete _
      · next hbuf =>
          cases hcrlf : indexOfCrlf buf (offset + 1) with
          | none => exact Goes.incomplete _
          | some crlf =>
            have hle : offset + 1 ≤ crlf := by
              unfold indexOfCrlf at hcrlf
              obtain ⟨i, -, rfl⟩ := Option.map_eq_some_iff.mp hcrlf
              exact Nat.le_add_right _ _
            have hkind : Goes (crlf + 2) (parseKind H (parseReplyAt H depth buf) buf
                (buf.getD offset 0) (slice buf (offset + 1) crlf) (crlf + 2)) := by
              refine parseKind_goes (fun cursor hcursor => ?_) _ _ _
              exact (parseReplyAt_goes buf depth cursor (by omega) (by omega)).mono (Nat.le_succ _)
            exact hkind.mono (by omega)

/-- **Parsing ends**, whatever bytes there are and wherever it starts. -/
theorem parseReply_ends (buf : List UInt8) (offset : Nat) :
    parseReply H buf offset ≠ .failed .diverge :=
  (parseReplyAt_goes buf (buf.length + 1) offset (Nat.succ_pos _) (by omega)).ends

variable (H)

/-! ## `_onData` -/

/-- How a request was settled. -/
inductive Settlement where
  | resolved (value : Value H)
  | rejected (error : Value H)

/-- `_pending`, and the requests that were settled, in order. -/
structure Requests (κ : Type) where
  pending : List κ
  settled : List (κ × Settlement H)

variable {H} {κ : Type}

/-- The settlement of a request by a value. -/
def settlement (v : Value H) : Settlement H :=
  match v with
  | .error _ => .rejected v
  | _ => .resolved v

/-- The body of the loop in `_onData` behind the parser: a reply without a request is ignored. -/
def settle (c : Requests H κ) (v : Value H) : Requests H κ :=
  match c.pending with
  | [] => c
  | request :: pending => ⟨pending, c.settled ++ [(request, settlement v)]⟩

/-- `Client._onData`. -/
def onData (c : Receiver (Requests H κ) Failure) (chunk : List UInt8) :
    Receiver (Requests H κ) Failure :=
  feed (fun buf => parseReply H buf 0) settle .diverge c chunk

/-- The loop of `_onData` ends too, whatever arrives. -/
theorem onData_ends {c : Receiver (Requests H κ) Failure} (h : c.failure ≠ some .diverge)
    (chunk : List UInt8) : (onData c chunk).failure ≠ some .diverge := by
  unfold onData feed
  split
  · exact h
  · refine drain_ends _ _ rfl (fun buf => parseReply_ends buf 0) (fun buf v offset hparse => ?_) _ _ _
      (Nat.lt_succ_self _)
    have hgoes := parseReplyAt_goes (H := H) buf (buf.length + 1) 0 (Nat.succ_pos _) (by omega)
    exact hgoes.forward v offset hparse

/-! ## Lines -/

/-- A text without CRLF ends at the first one that follows. -/
theorem crlfIn_append {text : List UInt8} (h : crlfIn text = none) (rest : List UInt8) :
    crlfIn (text ++ (crlf ++ rest)) = some text.length := by
  induction text with
  | nil => rfl
  | cons b text ih =>
    rw [crlfIn] at h
    split at h
    next => cases h
    next hb =>
      rw [Option.map_eq_none_iff] at h
      have hb' : ¬ (b = cr ∧ (text ++ (crlf ++ rest)).head? = some lf) := by
        rintro ⟨hcr, hhead⟩
        cases text with
        | nil => exact absurd (show some cr = some lf from hhead) (by decide)
        | cons c text => exact hb ⟨hcr, hhead⟩
      rw [List.cons_append, crlfIn, if_neg hb', ih h]
      rfl

/-- In a proper prefix of a line there is no CRLF. -/
theorem crlfIn_cut {text p : List UInt8} (h : crlfIn text = none) (hp : p <+: text ++ crlf)
    (hne : p ≠ text ++ crlf) : crlfIn p = none := by
  induction text generalizing p with
  | nil =>
    rcases List.prefix_cons_iff.mp hp with rfl | ⟨q, rfl, hq⟩
    · rfl
    · rcases List.prefix_cons_iff.mp hq with rfl | ⟨q', rfl, hq'⟩
      · rfl
      · rw [List.prefix_nil.mp hq'] at hne
        exact absurd rfl hne
  | cons b text ih =>
    rw [crlfIn] at h
    split at h
    next => cases h
    next hb =>
      rw [Option.map_eq_none_iff] at h
      rw [List.cons_append] at hp hne
      rcases List.prefix_cons_iff.mp hp with rfl | ⟨q, rfl, hq⟩
      · rfl
      · have hb' : ¬ (b = cr ∧ q.head? = some lf) := by
          rintro ⟨hcr, hhead⟩
          have hlong : (text ++ crlf).head? = some lf := by
            obtain ⟨t, ht⟩ := hq
            rw [← ht, List.head?_append, hhead]
            rfl
          cases text with
          | nil => exact absurd hlong (by decide)
          | cons c text => exact hb ⟨hcr, hlong⟩
        rw [crlfIn, if_neg hb', ih h hq fun heq => hne (by rw [heq])]
        rfl

theorem crlfIn_oneLine {s : Bytes} (h : s.OneLine) : crlfIn s.data = none := by
  unfold Bytes.OneLine at h
  generalize s.data = bs at h
  induction bs with
  | nil => rfl
  | cons b rest ih =>
    have hb : ¬ (b = cr ∧ rest.head? = some lf) := by
      rintro ⟨-, hhead⟩
      exact h (List.mem_cons_of_mem _ (List.mem_of_mem_head? hhead))
    rw [crlfIn, if_neg hb, ih fun hmem => h (List.mem_cons_of_mem _ hmem)]
    rfl

variable (H)

/-- A whole line is taken apart at its end. -/
theorem parseReplyAt_line {text : Bytes} (h : crlfIn text.data = none) (type : UInt8)
    (pre rest : List UInt8) (depth : Nat) :
    parseReplyAt H (depth + 1) (pre ++ (writeFrame type text ++ rest)) pre.length =
      parseKind H (parseReplyAt H depth (pre ++ (writeFrame type text ++ rest)))
        (pre ++ (writeFrame type text ++ rest)) type text.data
        (pre.length + (writeFrame type text).length) := by
  have hbuf : pre ++ (writeFrame type text ++ rest) =
      (pre ++ [type]) ++ (text.data ++ (crlf ++ rest)) := by
    simp [writeFrame]
  have hlen : (pre ++ [type]).length = pre.length + 1 := by simp
  have hindex : indexOfCrlf (pre ++ (writeFrame type text ++ rest)) (pre.length + 1) =
      some (pre.length + 1 + text.data.length) := by
    rw [indexOfCrlf, hbuf, ← hlen, List.drop_left, crlfIn_append h]
    rfl
  have hslice : slice (pre ++ (writeFrame type text ++ rest)) (pre.length + 1)
      (pre.length + 1 + text.data.length) = text.data := by
    rw [slice, hbuf, ← hlen, ← List.length_append, ← List.append_assoc, List.take_left,
      List.drop_left]
  have htype : (pre ++ (writeFrame type text ++ rest)).getD pre.length 0 = type := by
    simp [writeFrame]
  have hafter : pre.length + 1 + text.data.length + 2 =
      pre.length + (writeFrame type text).length := by
    simp [writeFrame, crlf]
    omega
  have hlt : ¬ (pre ++ (writeFrame type text ++ rest)).length ≤ pre.length := by
    simp [writeFrame]
  rw [parseReplyAt, if_neg hlt, hindex]
  simp only [hslice, htype, hafter]

/-- The parser waits on a proper prefix of a line. -/
theorem parseReplyAt_cut {text : Bytes} (h : crlfIn text.data = none) {type : UInt8}
    {p : List UInt8} (hp : p <+: writeFrame type text) (hne : p ≠ writeFrame type text)
    (pre : List UInt8) (depth : Nat) :
    parseReplyAt H (depth + 1) (pre ++ p) pre.length = .incomplete := by
  rw [parseReplyAt]
  rcases List.prefix_cons_iff.mp hp with rfl | ⟨q, rfl, hq⟩
  · rw [if_pos (by simp)]
  · have hnone : indexOfCrlf (pre ++ type :: q) (pre.length + 1) = none := by
      have hdrop : (pre ++ type :: q).drop (pre.length + 1) = q := by simp
      rw [indexOfCrlf, hdrop, crlfIn_cut h hq fun heq => hne (by rw [heq]; rfl)]
      rfl
    rw [if_neg (by simp), hnone]

/-! ## What the server writes -/

variable {H}

mutual

/-- The texts have no CRLF in them; the counts are converted exactly, as those of all arrays are that
fit in memory. -/
def sendable : Reply → Bool
  | .nil | .int _ | .bulk _ => true
  | .simple s | .error s => (crlfIn s.data).isNone
  | .array elems => decide (elems.length ≤ 2 ^ 53) && allSendable elems

def allSendable : List Reply → Bool
  | [] => true
  | r :: rest => sendable r && allSendable rest

end

variable (H)

mutual

/-- What the client makes of a reply. -/
def valueOf : Reply → Value H
  | .nil => .null
  | .simple s => .str (H.utf8 s.data)
  | .error s => .error (H.utf8 s.data)
  | .int n => .num (H.number (H.utf8 (formatInt n).data))
  | .bulk b => .str (H.utf8 b.data)
  | .array elems => .array (valuesOf elems)

def valuesOf : List Reply → List (Value H)
  | [] => []
  | r :: rest => valueOf r :: valuesOf rest

end

/-- Wherever it stands in the buffer, the parser recognises `e` as `v`, whatever follows, and waits
on every proper prefix of it. -/
structure Parses (e : List UInt8) (v : Value H) : Prop where
  whole : ∀ depth pre rest, e.length ≤ depth →
    parseReplyAt H depth (pre ++ (e ++ rest)) pre.length = .item v (pre.length + e.length)
  cut : ∀ depth pre p, p <+: e → p ≠ e → p.length < depth →
    parseReplyAt H depth (pre ++ p) pre.length = .incomplete

/-- The same for the elements of an array, one after the other. -/
structure ParsesItems (es : List UInt8) (vs : List (Value H)) : Prop where
  whole : ∀ depth pre rest items, es.length ≤ depth →
    parseItems (parseReplyAt H depth (pre ++ (es ++ rest))) vs.length pre.length items
      = .item (.array (items ++ vs)) (pre.length + es.length)
  cut : ∀ depth pre p items, p <+: es → p ≠ es → p.length < depth →
    parseItems (parseReplyAt H depth (pre ++ p)) vs.length pre.length items = .incomplete

variable {H}

/-- A reply that is one line. -/
theorem parses_line {text : Bytes} {type : UInt8} {v : Value H} (h : crlfIn text.data = none)
    (hkind : ∀ element buf after, parseKind H element buf type text.data after = .item v after) :
    Parses H (writeFrame type text) v where
  whole depth pre rest hdepth := by
    obtain ⟨depth, rfl⟩ := Nat.exists_eq_succ_of_ne_zero
      (Nat.ne_of_gt (Nat.lt_of_lt_of_le (by simp [writeFrame]) hdepth))
    rw [parseReplyAt_line H h, hkind]
  cut depth pre p hp hne hdepth := by
    obtain ⟨depth, rfl⟩ := Nat.exists_eq_succ_of_ne_zero (Nat.ne_of_gt (Nat.zero_lt_of_lt hdepth))
    exact parseReplyAt_cut H h hp hne pre depth

/-- A reply that is a line with a number and something behind it: the parser waits on what is cut in
the line, and goes on behind the line otherwise. -/
theorem parses_number {type : UInt8} {n : Nat} {body : List UInt8} {v : Value H}
    (hwhole : ∀ depth pre rest, body.length < depth →
      parseKind H (parseReplyAt H depth (pre ++ (body ++ rest))) (pre ++ (body ++ rest)) type
        (formatInt n).data pre.length = .item v (pre.length + body.length))
    (hcut : ∀ depth pre p, p <+: body → p ≠ body → p.length < depth →
      parseKind H (parseReplyAt H depth (pre ++ p)) (pre ++ p) type (formatInt n).data pre.length
        = .incomplete) :
    Parses H (writeNumber type n ++ body) v where
  whole depth pre rest hdepth := by
    have hline : crlfIn (formatInt n).data = none := crlfIn_oneLine (formatInt_oneLine n)
    have hpos : 2 ≤ (writeNumber type n).length := by simp [writeNumber, writeFrame, crlf]
    rw [List.length_append] at hdepth
    obtain ⟨depth, rfl⟩ := Nat.exists_eq_succ_of_ne_zero (show depth ≠ 0 by omega)
    have hparse := hwhole depth (pre ++ writeNumber type n) rest (by omega)
    rw [List.append_assoc, List.length_append] at hparse
    rw [List.append_assoc, writeNumber, parseReplyAt_line H hline, List.length_append,
      ← Nat.add_assoc]
    exact hparse
  cut depth pre p hp hne hdepth := by
    have hline : crlfIn (formatInt n).data = none := crlfIn_oneLine (formatInt_oneLine n)
    have hpos : 2 ≤ (writeNumber type n).length := by simp [writeNumber, writeFrame, crlf]
    obtain ⟨depth, rfl⟩ := Nat.exists_eq_succ_of_ne_zero (show depth ≠ 0 by omega)
    rcases prefix_append_cases hp with ⟨hcutp, hnep⟩ | ⟨q, rfl, hq⟩
    · exact parseReplyAt_cut H hline hcutp hnep pre depth
    · rw [List.length_append] at hdepth
      have hparse := hcut depth (pre ++ writeNumber type n) q hq (fun heq => hne (by rw [heq]))
        (by omega)
      rw [List.append_assoc, List.length_append] at hparse
      rw [writeNumber, parseReplyAt_line H hline]
      exact hparse

theorem toInt_length {n : Nat} (h : n ≤ 2 ^ 53) :
    H.toInt (H.number (H.utf8 (formatInt n).data)) = some (.ofNat n) :=
  H.toInt_number n h

/-- The switch, for the line of a bulk string and for that of an array. -/
theorem parseKind_bulk (element : Nat → Parsed (Value H) Failure) (buf : List UInt8) {n : Nat}
    (h : n ≤ 2 ^ 53) (after : Nat) :
    parseKind H element buf (byte '$') (formatInt n).data after =
      if buf.length < after + n + 2 then .incomplete
      else .item (.str (H.utf8 (slice buf after (after + n)))) (after + n + 2) := by
  rw [parseKind, if_neg (by decide), if_neg (by decide), if_neg (by decide), if_pos rfl,
    toInt_length h]
  rfl

theorem parseKind_array (element : Nat → Parsed (Value H) Failure) (buf : List UInt8) {n : Nat}
    (h : n ≤ 2 ^ 53) (after : Nat) :
    parseKind H element buf (byte '*') (formatInt n).data after =
      parseItems element n after [] := by
  rw [parseKind, if_neg (by decide), if_neg (by decide), if_neg (by decide), if_neg (by decide),
    if_pos rfl, toInt_length h]
  rfl

theorem parses_bulk (b : Bytes) : Parses H (writeBulk b) (.str (H.utf8 b.data)) := by
  have hlen : b.len ≤ 2 ^ 53 := b.inMem.trans (by decide)
  have hbody : (b.data ++ crlf).length = b.len + 2 := List.length_append
  refine parses_number (fun depth pre rest _ => ?_) fun depth pre p hp hne _ => ?_
  · have hslice : slice (pre ++ ((b.data ++ crlf) ++ rest)) pre.length (pre.length + b.len)
        = b.data := by
      rw [slice, List.append_assoc, ← List.append_assoc, Bytes.len, ← List.length_append,
        List.take_left, List.drop_left]
    rw [parseKind_bulk _ _ hlen, hslice, hbody, if_neg, Nat.add_assoc]
    simp only [List.length_append]
    simp only [List.length_append] at hbody
    omega
  · -- a proper prefix is too short, whatever is in it
    have hlt : p.length < b.len + 2 := by
      rw [← hbody]
      exact lt_of_le_of_ne hp.length_le fun heq => hne (hp.eq_of_length heq)
    rw [parseKind_bulk _ _ hlen, if_pos]
    rw [List.length_append]
    omega

theorem parses_array {es : List UInt8} {vs : List (Value H)} (h : ParsesItems H es vs)
    (hlen : vs.length ≤ 2 ^ 53) :
    Parses H (writeNumber (byte '*') vs.length ++ es) (.array vs) := by
  refine parses_number (fun depth pre rest hdepth => ?_) fun depth pre p hp hne hdepth => ?_
  · rw [parseKind_array _ _ hlen, h.whole depth pre rest [] (Nat.le_of_lt hdepth), List.nil_append]
  · rw [parseKind_array _ _ hlen, h.cut depth pre p [] hp hne hdepth]

theorem parsesItems_nil : ParsesItems H [] [] where
  whole depth pre rest items _ := by rw [List.append_nil]; rfl
  cut depth pre p items hp hne _ := absurd (List.prefix_nil.mp hp) hne

theorem parsesItems_cons {e es : List UInt8} {v : Value H} {vs : List (Value H)}
    (h : Parses H e v) (hs : ParsesItems H es vs) : ParsesItems H (e ++ es) (v :: vs) where
  whole depth pre rest items hdepth := by
    rw [List.length_append] at hdepth
    have hrest := hs.whole depth (pre ++ e) rest (items ++ [v]) (by omega)
    rw [List.append_assoc, List.length_append, List.append_assoc] at hrest
    rw [List.length_cons, parseItems, List.append_assoc, h.whole depth pre (es ++ rest) (by omega),
      List.length_append, ← Nat.add_assoc]
    exact hrest
  cut depth pre p items hp hne hdepth := by
    rw [List.length_cons, parseItems]
    rcases prefix_append_cases hp with ⟨hcutp, hnep⟩ | ⟨q, rfl, hq⟩
    · rw [h.cut depth pre p hcutp hnep hdepth]
    · rw [List.length_append] at hdepth
      have hrest := hs.cut depth (pre ++ e) q (items ++ [v]) hq (fun heq => hne (by rw [heq]))
        (by omega)
      rw [List.append_assoc, List.length_append] at hrest
      rw [h.whole depth pre q (by omega)]
      exact hrest

theorem length_valuesOf : ∀ rs : List Reply, (valuesOf H rs).length = rs.length
  | [] => rfl
  | _ :: rs => congrArg (· + 1) (length_valuesOf rs)

theorem parses_nil : Parses H (writeReply .nil) .null := by
  have hline : writeReply .nil = writeFrame (byte '$') (formatInt (-1)) := by
    rw [writeReply]
    decide
  rw [hline]
  refine parses_line (crlfIn_oneLine (formatInt_oneLine (-1))) fun element buf after => ?_
  rw [parseKind, if_neg (by decide), if_neg (by decide), if_neg (by decide), if_pos rfl,
    H.toInt_number (-1) (by decide)]
  rfl

mutual

/-- **The parser reads what the server writes**, and waits for the rest of what is cut. -/
theorem parses_reply : ∀ r : Reply, sendable r = true → Parses H (writeReply r) (valueOf H r)
  | .nil, _ => parses_nil
  | .simple s, h => parses_line (Option.isNone_iff_eq_none.mp h) fun _ _ _ => rfl
  | .error s, h => parses_line (Option.isNone_iff_eq_none.mp h) fun _ _ _ => rfl
  | .int n, _ => parses_line (crlfIn_oneLine (formatInt_oneLine n)) fun _ _ _ => rfl
  | .bulk b, _ => parses_bulk b
  | .array elems, h => by
      obtain ⟨hlen, hall⟩ := Bool.and_eq_true_iff.mp h
      have harray := parses_array (parses_replies elems hall)
        (by rw [length_valuesOf]; exact of_decide_eq_true hlen)
      rwa [length_valuesOf] at harray

theorem parses_replies : ∀ rs : List Reply, allSendable rs = true →
    ParsesItems H (writeReplies rs) (valuesOf H rs)
  | [], _ => parsesItems_nil
  | r :: rs, h => by
      obtain ⟨hr, hrs⟩ := Bool.and_eq_true_iff.mp h
      exact parsesItems_cons (parses_reply r hr) (parses_replies rs hrs)

end

/-! ## The pending requests -/

theorem frames_reply {r : Reply} (h : sendable r = true) :
    Frames (fun buf => parseReply H buf 0) (writeReply r) (valueOf H r) where
  whole rest := by
    have hwhole := (parses_reply r h).whole (H := H) ((writeReply r ++ rest).length + 1) [] rest
      (by rw [List.length_append]; omega)
    rwa [List.nil_append, List.length_nil, Nat.zero_add] at hwhole
  cut p hp hne := (parses_reply r h).cut (p.length + 1) [] p hp hne (Nat.lt_succ_self _)

/-- Values settle the requests in front of the queue, one each. -/
theorem foldl_settle (vs : List (Value H)) (requests : List κ) (done : List (κ × Settlement H)) :
    vs.foldl settle (⟨requests, done⟩ : Requests H κ) = ⟨requests.drop vs.length,
      done ++ List.zipWith (fun request v => (request, settlement v)) requests vs⟩ := by
  induction vs generalizing requests done with
  | nil => simp
  | cons v vs ih =>
    cases requests with
    | nil => rw [List.foldl_cons, show settle ⟨[], done⟩ v = ⟨[], done⟩ from rfl, ih]; simp
    | cons request requests =>
      have hstep : settle ⟨request :: requests, done⟩ v
          = ⟨requests, done ++ [(request, settlement v)]⟩ := rfl
      rw [List.foldl_cons, hstep, ih]
      simp

theorem settlement_valueOf (r : Reply) : settlement (valueOf H r) =
    if r.isError then .rejected (valueOf H r) else .resolved (valueOf H r) := by
  cases r <;> rfl

theorem map_fst_zipWith {α β γ : Type} (f : α → β → γ) : ∀ (xs : List α) (ys : List β),
    (List.zipWith (fun x y => (x, f x y)) xs ys).map Prod.fst = xs.take ys.length
  | [], ys => by simp
  | _ :: _, [] => rfl
  | x :: xs, _ :: ys => congrArg (x :: ·) (map_fst_zipWith f xs ys)

theorem frames_replies {replies : List Reply} (h : ∀ r ∈ replies, sendable r = true) :
    List.Forall₂ (Frames fun buf => parseReply H buf 0) (replies.map writeReply)
      (replies.map (valueOf H)) := by
  induction replies with
  | nil => exact .nil
  | cons r replies ih =>
    obtain ⟨hr, hrest⟩ := List.forall_mem_cons.mp h
    exact .cons (frames_reply hr) (ih hrest)

/-- **The Node client pairs replies with requests, however the bytes arrive.** On the bytes of a
reply `parseReply` returns its value and the index behind it, whatever follows, and `null` on every
proper prefix. For any replies, any chunks that make up their bytes, and at least as many requests:
nothing is left in the buffer and nothing is thrown, the i-th request is settled by the value of the
i-th reply, rejected if that is an error and resolved otherwise, each of them once, and the other
requests stay pending. -/
theorem onData_settles (H : Host) {κ : Type} (replies : List Reply)
    (hsend : ∀ r ∈ replies, sendable r = true) (chunks : List (List UInt8))
    (hchunks : chunks.flatten = replies.flatMap writeReply) (requests : List κ)
    (hlen : replies.length ≤ requests.length) :
    (∀ r ∈ replies,
      (∀ rest, parseReply H (writeReply r ++ rest) 0
        = .item (valueOf H r) (writeReply r).length) ∧
      ∀ p, p <+: writeReply r → p ≠ writeReply r → parseReply H p 0 = .incomplete) ∧
    let out := chunks.foldl onData ⟨⟨requests, []⟩, [], none⟩
    out.buffer = [] ∧ out.failure = none ∧
      out.state.settled = List.zipWith (fun request r => (request,
        if r.isError then Settlement.rejected (valueOf H r) else .resolved (valueOf H r)))
          requests replies ∧
      out.state.settled.length = replies.length ∧
      out.state.settled.map Prod.fst = requests.take replies.length ∧
      out.state.pending = requests.drop replies.length := by
  refine ⟨fun r hr => ⟨(frames_reply (hsend r hr)).whole, (frames_reply (hsend r hr)).cut⟩, ?_⟩
  have hall : [] ++ chunks.flatten = (replies.map writeReply).flatten := by
    rw [List.nil_append, hchunks, List.flatMap_def]
  have hout : chunks.foldl onData ⟨(⟨requests, []⟩ : Requests H κ), [], none⟩
      = ⟨(replies.map (valueOf H)).foldl settle ⟨requests, []⟩, [], none⟩ :=
    feed_frames settle Failure.diverge rfl chunks (frames_replies hsend) .nil hall ⟨requests, []⟩
  rw [foldl_settle, List.length_map, List.nil_append, List.zipWith_map_right] at hout
  simp only [hout, settlement_valueOf]
  refine ⟨trivial, trivial, trivial, ?_, map_fst_zipWith _ requests replies, trivial⟩
  rw [List.length_zipWith, Nat.min_eq_right hlen]

/-- A host whose strings are bytes and whose numbers are the integers `ParseInt` reads. -/
def byteHost : Host where
  Str := List UInt8
  Num := Option Int
  utf8 := id
  number s := parseInt (Bytes.ofList s)
  toInt := id
  toInt_number n h := by
    have hlo : minInt64 ≤ n := by
      have hmin : minInt64 = -(2 ^ 63) := rfl
      omega
    have hhi : n ≤ maxInt64 := by
      have hmax : maxInt64 = 2 ^ 63 - 1 := rfl
      omega
    simp only [id, Bytes.ofList_self]
    exact parseInt_formatInt hlo hhi

/-- An array with an error in it and then an error, cut inside the line ends and the bulk string. -/
theorem onData_settles_cut :
    let out := [(ascii "*2\r\n$2\r").data, (ascii "\n\r").data, (ascii "\n\r\n-no\r\n-ERR\r").data,
        (ascii "\n").data].foldl onData
      ⟨(⟨["first", "second", "third"], []⟩ : Requests byteHost String), [], none⟩
    out.buffer = [] ∧ out.failure = none ∧ out.state.settled.map Prod.fst = ["first", "second"] := by
  obtain ⟨-, hbuffer, hfailure, -, -, hfirst, -⟩ := onData_settles byteHost
    [Reply.array [.bulk (ascii "\r\n"), .error (ascii "no")], .error (ascii "ERR")] (by decide)
    [(ascii "*2\r\n$2\r").data, (ascii "\n\r").data, (ascii "\n\r\n-no\r\n-ERR\r").data,
      (ascii "\n").data] (by decide) ["first", "second", "third"] (by decide)
  exact ⟨hbuffer, hfailure, hfirst⟩

end NodeClient

end Memcore
