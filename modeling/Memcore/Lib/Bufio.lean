import Mathlib.Algebra.GroupWithZero.Nat
import Mathlib.Data.List.Basic
import Memcore.Lib.Prog

/-!
# Buffered input

Go's `bufio.Reader` over a source that hands out its bytes in packets. A `Reader size` keeps at most
`size` bytes it has taken from the source and not yet given away. Its operations are those of
`bufio`: `ReadByte` and `UnreadByte`, `ReadSlice`, which finds a delimiter within one buffer or fails,
and `Read` under `io.ReadFull`, which passes long reads by the buffer.

The operations are collected in an `Input`, so that a parser can be written once and run on other
inputs too; `Lib/Stream` has the input without packets.
-/

namespace Bufio

/-! ## Sources -/

/-- What the source has after its last packet: the end of the stream, a failure, or nothing yet, so
that a read waits. -/
inductive End where
  | eof
  | failure
  | open
deriving DecidableEq

/-- What a read of the source returns: at least a byte. -/
abbrev Packet := { bytes : List UInt8 // bytes ≠ [] }

/-- The bytes of some packets. -/
def flat (ps : List Packet) : List UInt8 := ps.flatMap Subtype.val

/-- The packets after a read that left `bs` of the first one. -/
def unfinished (bs : List UInt8) (ps : List Packet) : List Packet :=
  match bs with
  | [] => ps
  | c :: cs => ⟨c :: cs, List.cons_ne_nil c cs⟩ :: ps

theorem flat_unfinished (bs : List UInt8) (ps : List Packet) :
    flat (unfinished bs ps) = bs ++ flat ps := by
  cases bs <;> rfl

/-- One read of at most `cap` bytes; what does not fit stays for the next one. -/
def readPacket (cap : Nat) : List Packet → Option (List UInt8 × List Packet)
  | [] => none
  | p :: ps => some (p.1.take cap, unfinished (p.1.drop cap) ps)

theorem readPacket_none {cap : Nat} {ps : List Packet} (h : readPacket cap ps = none) :
    ps = [] := by
  cases ps with
  | nil => rfl
  | cons p ps => cases h

theorem readPacket_length {cap : Nat} {ps ps' : List Packet} {bs : List UInt8}
    (h : readPacket cap ps = some (bs, ps')) : bs.length ≤ cap := by
  cases ps with
  | nil => cases h
  | cons p ps =>
    cases h
    exact List.length_take_le _ _

theorem readPacket_flat {cap : Nat} {ps ps' : List Packet} {bs : List UInt8}
    (h : readPacket cap ps = some (bs, ps')) : bs ++ flat ps' = flat ps := by
  cases ps with
  | nil => cases h
  | cons p ps =>
    cases h
    rw [flat_unfinished, ← List.append_assoc, List.take_append_drop]
    rfl

theorem take_ne_nil {k : Nat} (hk : 0 < k) {bs : List UInt8} (hbs : bs ≠ []) : bs.take k ≠ [] := by
  rw [ne_eq, List.take_eq_nil_iff, not_or]
  exact ⟨Nat.pos_iff_ne_zero.mp hk, hbs⟩

theorem readPacket_ne_nil {cap : Nat} (hcap : 0 < cap) {ps ps' : List Packet} {bs : List UInt8}
    (h : readPacket cap ps = some (bs, ps')) : bs ≠ [] := by
  cases ps with
  | nil => cases h
  | cons p ps =>
    cases h
    exact take_ne_nil hcap p.2

/-! ## Errors and operations -/

/-- How an operation fails. -/
inductive Error where
  | source (fin : End)
  /-- `io.ErrUnexpectedEOF`. -/
  | unexpectedEOF
  | bufferFull
  | invalidUnreadByte
deriving DecidableEq

/-- The operations of a reader on states `σ`. -/
structure Input (σ : Type) where
  readByte : Prog σ Error UInt8
  unreadByte : Prog σ Error Unit
  readSlice : UInt8 → Prog σ Error (List UInt8)
  readFull : Nat → Prog σ Error (List UInt8)

/-- The operations of two readers match one by one. -/
structure Input.Matches {σ τ : Type} (R : σ → τ → Prop) (skip : Error → Prop) (i : Input σ)
    (j : Input τ) : Prop where
  readByte : Prog.Matches R skip i.readByte j.readByte
  unreadByte : Prog.Matches R skip i.unreadByte j.unreadByte
  readSlice : ∀ delim, Prog.Matches R skip (i.readSlice delim) (j.readSlice delim)
  readFull : ∀ want, Prog.Matches R skip (i.readFull want) (j.readFull want)

/-- The operations of a reader keep `I`, and their failures are of `E`. -/
structure Input.Keeps {σ : Type} (I : σ → Prop) (E : Error → Prop) (i : Input σ) : Prop where
  readByte : Prog.Keeps I E i.readByte
  unreadByte : Prog.Keeps I E i.unreadByte
  readSlice : ∀ delim, Prog.Keeps I E (i.readSlice delim)
  readFull : ∀ want, Prog.Keeps I E (i.readFull want)

theorem Input.Matches.keeping {σ τ : Type} {R : σ → τ → Prop} {skip : Error → Prop} {i : Input σ}
    {j : Input τ} {I : σ → Prop} {E : Error → Prop} (h : i.Matches R skip j) (hi : i.Keeps I E) :
    i.Matches (fun s t => R s t ∧ I s) skip j :=
  ⟨h.readByte.keeping hi.readByte, h.unreadByte.keeping hi.unreadByte,
    fun delim => (h.readSlice delim).keeping (hi.readSlice delim),
    fun want => (h.readFull want).keeping (hi.readFull want)⟩

/-- How `io.ReadFull` reports the end of the stream after `got`. -/
def shortRead (got : List UInt8) : Error → Error
  | .source .eof => if got = [] then .source .eof else .unexpectedEOF
  | e => e

/-- The bytes up to the first `delim`, and `delim`. -/
def upTo (delim : UInt8) (bs : List UInt8) : List UInt8 := bs.takeWhile (· ≠ delim) ++ [delim]

theorem upTo_ne_nil (delim : UInt8) (bs : List UInt8) : upTo delim bs ≠ [] :=
  List.append_ne_nil_of_right_ne_nil _ (List.cons_ne_nil _ _)

theorem upTo_eq {delim : UInt8} {pre : List UInt8} (hpre : delim ∉ pre) (post : List UInt8) :
    upTo delim (pre ++ delim :: post) = pre ++ [delim] := by
  have hpre' : ∀ x ∈ pre, decide (x ≠ delim) = true := by
    intro x hx
    refine decide_eq_true ?_
    rintro rfl
    exact hpre hx
  unfold upTo
  rw [List.takeWhile_append_of_pos hpre']
  simp

/-- The delimiter that comes first stays first, whatever follows. -/
theorem upTo_append {delim : UInt8} {bs : List UInt8} (h : delim ∈ bs) :
    ∃ rest, bs = upTo delim bs ++ rest ∧ ∀ cs, upTo delim (bs ++ cs) = upTo delim bs := by
  obtain ⟨pre, post, rfl, hpre⟩ := List.eq_append_cons_of_mem h
  refine ⟨post, ?_, fun cs => ?_⟩
  · rw [upTo_eq hpre, List.append_assoc]
    rfl
  · rw [List.append_assoc, List.cons_append, upTo_eq hpre, upTo_eq hpre]

/-- The last byte that was read, after reading `bs`. -/
def lastOf (last : Option UInt8) (bs : List UInt8) : Option UInt8 := bs.getLast?.or last

theorem lastOf_append (last : Option UInt8) (bs cs : List UInt8) :
    lastOf last (bs ++ cs) = lastOf (lastOf last bs) cs := by
  simp [lastOf, List.getLast?_append, Option.or_assoc]

/-- After some bytes it does not matter what was read before them. -/
theorem lastOf_eq {bs : List UInt8} (h : bs ≠ []) (last last' : Option UInt8) :
    lastOf last bs = lastOf last' bs := by
  obtain ⟨c, hc⟩ := Option.isSome_iff_exists.mp (List.getLast?_isSome.mpr h)
  simp [lastOf, hc]

theorem lastOf_ne_none {last : Option UInt8} {bs : List UInt8} (h : lastOf last bs ≠ none) :
    bs ≠ [] ∨ last ≠ none := by
  cases bs with
  | nil => exact .inr h
  | cons c cs => exact .inl (List.cons_ne_nil c cs)

/-! ## Readers -/

/-- A reader with a buffer of `size` bytes. -/
structure Reader (size : Nat) where
  /-- What is in the buffer and not yet given away. -/
  buf : List UInt8
  /-- The byte that was given away last, if it still has its place in the buffer. -/
  last : Option UInt8
  packets : List Packet
  fin : End
  fits : buf.length ≤ size
  room : last ≠ none → buf.length < size

namespace Reader

variable {size : Nat}

/-- A reader before its first read. -/
def new (packets : List Packet) (fin : End) : Reader size :=
  ⟨[], none, packets, fin, Nat.zero_le _, nofun⟩

/-- The bytes that are still to come. -/
def pending (b : Reader size) : List UInt8 := b.buf ++ flat b.packets

/-- The reader after giving away the first `k` bytes of the buffer. -/
def advance (b : Reader size) (k : Nat) : Reader size where
  buf := b.buf.drop k
  last := lastOf b.last (b.buf.take k)
  packets := b.packets
  fin := b.fin
  fits := by
    have := b.fits
    rw [List.length_drop]
    omega
  room h := by
    have hfits := b.fits
    rw [List.length_drop]
    rcases lastOf_ne_none h with h | h
    · have hpos := List.length_pos_iff.mpr h
      rw [List.length_take] at hpos
      omega
    · have := b.room h
      omega

/-- `fill`: one read of the source behind what is in the buffer, which slides to the front. -/
def fill (b : Reader size) : Option (Reader size) :=
  match h : readPacket (size - b.buf.length) b.packets with
  | none => none
  | some (bs, packets) =>
    some
      { buf := b.buf ++ bs
        last := none
        packets
        fin := b.fin
        fits := by
          have hfits := b.fits
          have hlen := readPacket_length h
          rw [List.length_append]
          omega
        room := nofun }

theorem fill_some {b b' : Reader size} {bs : List UInt8} {packets : List Packet}
    (h : readPacket (size - b.buf.length) b.packets = some (bs, packets)) (hbuf : b'.buf = b.buf ++ bs)
    (hlast : b'.last = none) (hpackets : b'.packets = packets) (hfin : b'.fin = b.fin) :
    b.fill = some b' := by
  obtain ⟨buf', last', packets', fin', fits', room'⟩ := b'
  simp only at hbuf hlast hpackets hfin
  subst hbuf hlast hpackets hfin
  unfold fill
  split
  next hread => cases h.symm.trans hread
  next hread =>
    cases h.symm.trans hread
    rfl

/-- Nothing is left in the source. -/
theorem fill_none {b : Reader size} (h : b.fill = none) : b.packets = [] := by
  unfold fill at h
  split at h
  next hread => exact readPacket_none hread
  next => cases h

theorem fill_more {b b' : Reader size} (h : b.fill = some b') (hroom : b.buf.length < size) :
    b.buf.length < b'.buf.length := by
  unfold fill at h
  split at h
  next => cases h
  next bs packets hread =>
    cases h
    have hbs := List.length_pos_iff.mpr (readPacket_ne_nil (by omega) hread)
    change b.buf.length < (b.buf ++ bs).length
    rw [List.length_append]
    omega

theorem fill_ne_nil [NeZero size] {b b' : Reader size} (hempty : b.buf = []) (h : b.fill = some b') :
    b'.buf ≠ [] := by
  have hmore := fill_more h
  rw [hempty] at hmore
  exact List.length_pos_iff.mp (hmore (Nat.pos_of_neZero size))

/-! ### Operations -/

/-- `UnreadByte`. -/
def unreadByte : Prog (Reader size) Error Unit := fun b =>
  match h : b.last with
  | none => (.error .invalidUnreadByte, b)
  | some c =>
    (.ok (),
      { b with
        buf := c :: b.buf
        last := none
        fits := b.room (by rw [h]; nofun)
        room := nofun })

/-- `ReadSlice`. -/
def readSlice (delim : UInt8) (b : Reader size) : Except Error (List UInt8) × Reader size :=
  if delim ∈ b.buf then
    let line := upTo delim b.buf
    (.ok line, b.advance line.length)
  else if hfull : size ≤ b.buf.length then (.error .bufferFull, b.advance b.buf.length)
  else
    match h : b.fill with
    | none => (.error (.source b.fin), b.advance b.buf.length)
    | some b' =>
      have := fill_more h (Nat.lt_of_not_le hfull)
      readSlice delim b'
termination_by size - b.buf.length

theorem readSlice_none {delim : UInt8} {b : Reader size} (h : delim ∉ b.buf)
    (hfull : ¬ size ≤ b.buf.length) (hfill : b.fill = none) :
    readSlice delim b = (.error (.source b.fin), b.advance b.buf.length) := by
  rw [readSlice, if_neg h, dif_neg hfull]
  split
  next => rfl
  next hfill' => cases hfill.symm.trans hfill'

theorem readSlice_some {delim : UInt8} {b b' : Reader size} (h : delim ∉ b.buf)
    (hfull : ¬ size ≤ b.buf.length) (hfill : b.fill = some b') :
    readSlice delim b = readSlice delim b' := by
  conv_lhs => rw [readSlice, if_neg h, dif_neg hfull]
  split
  next hfill' => cases hfill.symm.trans hfill'
  next hfill' =>
    cases hfill.symm.trans hfill'
    rfl

section NonEmpty

variable [NeZero size]

/-- `ReadByte`. -/
def readByte : Prog (Reader size) Error UInt8 := fun b =>
  match hbuf : b.buf with
  | c :: _ => (.ok c, b.advance 1)
  | [] =>
    match h : b.fill with
    | none => (.error (.source b.fin), b)
    | some b' => (.ok (b'.buf.head (fill_ne_nil hbuf h)), b'.advance 1)

theorem readByte_cons {b : Reader size} {c : UInt8} {rest : List UInt8} (h : b.buf = c :: rest) :
    readByte b = (.ok c, b.advance 1) := by
  unfold readByte
  split
  next h' =>
    cases h.symm.trans h'
    rfl
  next h' => cases h.symm.trans h'

theorem readByte_none {b : Reader size} (hbuf : b.buf = []) (h : b.fill = none) :
    readByte b = (.error (.source b.fin), b) := by
  unfold readByte
  split
  next h' => cases hbuf.symm.trans h'
  next =>
    split
    next => rfl
    next h' => cases h.symm.trans h'

theorem readByte_some {b b' : Reader size} (hbuf : b.buf = []) (h : b.fill = some b') :
    readByte b = (.ok (b'.buf.head (fill_ne_nil hbuf h)), b'.advance 1) := by
  unfold readByte
  split
  next h' => cases hbuf.symm.trans h'
  next =>
    split
    next h' => cases h.symm.trans h'
    next h' =>
      cases h.symm.trans h'
      rfl

/-- `Read` of at most `want` bytes, which is not 0. -/
def read (want : Nat) : Prog (Reader size) Error (List UInt8) := fun b =>
  if b.buf = [] then
    if size ≤ want then
      -- a long read goes past the empty buffer
      match readPacket want b.packets with
      | none => (.error (.source b.fin), b)
      | some (bs, packets) =>
        (.ok bs, ⟨[], lastOf b.last bs, packets, b.fin, Nat.zero_le _,
          fun _ => Nat.pos_of_neZero size⟩)
    else
      match b.fill with
      | none => (.error (.source b.fin), b)
      | some b' => (.ok (b'.buf.take want), b'.advance want)
  else (.ok (b.buf.take want), b.advance want)

/-- A read that succeeds reads something. -/
theorem read_ne_nil {want : Nat} (hwant : 0 < want) {b b' : Reader size} {bs : List UInt8}
    (h : read want b = (.ok bs, b')) : bs ≠ [] := by
  unfold read at h
  split at h
  next hempty =>
    split at h
    next =>
      split at h
      next => cases h
      next hread =>
        cases h
        exact readPacket_ne_nil hwant hread
    next =>
      split at h
      next => cases h
      next hfill =>
        cases h
        exact take_ne_nil hwant (fill_ne_nil hempty hfill)
  next hbuf =>
    cases h
    exact take_ne_nil hwant hbuf

/-- `io.ReadFull` of `want` bytes more after `got`. -/
def readMore (got : List UInt8) (want : Nat) (b : Reader size) :
    Except Error (List UInt8) × Reader size :=
  if hwant : want = 0 then (.ok got, b)
  else
    match h : read want b with
    | (.error e, b') => (.error (shortRead got e), b')
    | (.ok bs, b') =>
      have := List.length_pos_iff.mpr (read_ne_nil (Nat.pos_iff_ne_zero.mpr hwant) h)
      readMore (got ++ bs) (want - bs.length) b'
termination_by want

/-- The operations of the reader. -/
def io : Input (Reader size) := ⟨readByte, unreadByte, readSlice, readMore []⟩

end NonEmpty

end Reader

end Bufio
