import Memcore.Lib.Bufio

/-!
# Buffered input without packets

A `Stream` is all the bytes that are still to come, with no buffer and no packets. Each operation of a
`Reader` is the one of the same name on its stream (`Reader.io_matches`), so a packet boundary never
shows. And an operation that can do with the bytes in the buffer leaves the source alone
(`Reader.io_buffered`): the stream of these bytes alone, with no end yet, has the same outcome, or
would have to wait. The same holds of bytes that come later (`Stream.io_grows`).
-/

namespace Bufio

/-- All the bytes that are still to come, and the byte that was read last. -/
structure Stream where
  rest : List UInt8
  last : Option UInt8
  fin : End

namespace Stream

def readByte : Prog Stream Error UInt8 := fun s =>
  match s.rest with
  | [] => (.error (.source s.fin), s)
  | c :: rest => (.ok c, { s with rest, last := some c })

def unreadByte : Prog Stream Error Unit := fun s =>
  match s.last with
  | none => (.error .invalidUnreadByte, s)
  | some c => (.ok (), { s with rest := c :: s.rest, last := none })

/-- Give away `bs`, the first bytes, keeping `rest`. -/
def drop (s : Stream) (bs rest : List UInt8) : Stream := { s with rest, last := lastOf s.last bs }

/-- The bytes up to the first `delim`, which has to be among the first `size`. -/
def readSlice (size : Nat) (delim : UInt8) : Prog Stream Error (List UInt8) := fun s =>
  let window := s.rest.take size
  let line := upTo delim window
  if delim ∈ window then (.ok line, s.drop line (s.rest.drop line.length))
  else if size ≤ s.rest.length then (.error .bufferFull, s.drop window (s.rest.drop size))
  else (.error (.source s.fin), s.drop s.rest [])

def readFull (want : Nat) : Prog Stream Error (List UInt8) := fun s =>
  if want ≤ s.rest.length then (.ok (s.rest.take want), s.drop (s.rest.take want) (s.rest.drop want))
  else (.error (shortRead s.rest (.source s.fin)), s.drop s.rest [])

/-! ## What the operations come to -/

theorem readByte_cons {s : Stream} {c : UInt8} {rest : List UInt8} (h : s.rest = c :: rest) :
    readByte s = (.ok c, s.drop [c] rest) := by
  unfold readByte
  simp only [h]
  rfl

/-- The operation finds too little and has to wait for more. -/
def Waits {α : Type} (p : Prog Stream Error α) (s : Stream) : Prop :=
  ∃ e, (p s).1 = .error e ∧ e = .source .open

theorem readByte_waits {s : Stream} (h : s.rest = []) (hfin : s.fin = .open) : Waits readByte s := by
  refine ⟨.source .open, ?_, rfl⟩
  unfold readByte
  simp only [h, hfin]

theorem readSlice_ok {size : Nat} {delim : UInt8} {s : Stream} (h : delim ∈ s.rest.take size) :
    readSlice size delim s = (.ok (upTo delim (s.rest.take size)),
      s.drop (upTo delim (s.rest.take size))
        (s.rest.drop (upTo delim (s.rest.take size)).length)) := by
  unfold readSlice
  simp only [if_pos h]

theorem readSlice_full {size : Nat} {delim : UInt8} {s : Stream} (h : delim ∉ s.rest.take size)
    (hfull : size ≤ s.rest.length) : readSlice size delim s
      = (.error .bufferFull, s.drop (s.rest.take size) (s.rest.drop size)) := by
  unfold readSlice
  simp only [if_neg h, if_pos hfull]

theorem readSlice_waits {size : Nat} {delim : UInt8} {s : Stream} (h : delim ∉ s.rest.take size)
    (hshort : ¬ size ≤ s.rest.length) (hfin : s.fin = .open) : Waits (readSlice size delim) s := by
  refine ⟨.source .open, ?_, rfl⟩
  unfold readSlice
  simp only [if_neg h, if_neg hshort, hfin]

theorem readFull_ok {want : Nat} {s : Stream} (h : want ≤ s.rest.length) :
    readFull want s = (.ok (s.rest.take want), s.drop (s.rest.take want) (s.rest.drop want)) := by
  unfold readFull
  rw [if_pos h]

theorem readFull_waits {want : Nat} {s : Stream} (h : ¬ want ≤ s.rest.length)
    (hfin : s.fin = .open) : Waits (readFull want) s := by
  refine ⟨.source .open, ?_, rfl⟩
  unfold readFull
  simp only [if_neg h, hfin]
  rfl

theorem drop_drop (s : Stream) (bs rest cs rest' : List UInt8) :
    (s.drop bs rest).drop cs rest' = s.drop (bs ++ cs) rest' := by
  unfold drop
  rw [lastOf_append]

theorem drop_eq {s t : Stream} (hfin : s.fin = t.fin) {bs : List UInt8} (hbs : bs ≠ [])
    (rest : List UInt8) : s.drop bs rest = t.drop bs rest := by
  unfold drop
  rw [hfin, lastOf_eq hbs s.last t.last]

/-- Reading a slice of something forgets what was read before. -/
theorem readSlice_eq {size : Nat} (hsize : 0 < size) (delim : UInt8) {s t : Stream}
    (hrest : s.rest = t.rest) (hfin : s.fin = t.fin) (hne : s.rest ≠ []) :
    readSlice size delim s = readSlice size delim t := by
  have hwindow : s.rest.take size ≠ [] := take_ne_nil hsize hne
  unfold readSlice
  rw [← hrest, ← hfin]
  simp only
  split
  · rw [drop_eq hfin (upTo_ne_nil _ _)]
  · split
    · rw [drop_eq hfin hwindow]
    · rw [drop_eq hfin hne]

/-- The operations of a reader with a buffer of `size` bytes. -/
def io (size : Nat) : Input Stream := ⟨readByte, unreadByte, readSlice size, readFull⟩

/-- **A stream that has come to its end does not wait**: no operation changes how it ends. -/
theorem io_keeps (size : Nat) {fin : End} (hfin : fin ≠ .open) :
    (io size).Keeps (fun s => s.fin = fin) (· ≠ .source .open) where
  readByte s h := by
    change (readByte s).2.fin = fin ∧ ∀ e, (readByte s).1 = .error e → _
    unfold readByte
    split
    · refine ⟨h, fun e he => ?_⟩
      cases he
      rw [h]
      exact fun hopen => hfin (Error.source.inj hopen)
    · exact ⟨h, nofun⟩
  unreadByte s h := by
    change (unreadByte s).2.fin = fin ∧ ∀ e, (unreadByte s).1 = .error e → _
    unfold unreadByte
    split
    · refine ⟨h, fun e he => ?_⟩
      cases he
      nofun
    · exact ⟨h, nofun⟩
  readSlice delim s h := by
    change (readSlice size delim s).2.fin = fin ∧ ∀ e, (readSlice size delim s).1 = .error e → _
    unfold readSlice
    simp only
    split
    · exact ⟨h, nofun⟩
    · split
      · refine ⟨h, fun e he => ?_⟩
        cases he
        nofun
      · refine ⟨h, fun e he => ?_⟩
        cases he
        rw [h]
        exact fun hopen => hfin (Error.source.inj hopen)
  readFull want s h := by
    change (readFull want s).2.fin = fin ∧ ∀ e, (readFull want s).1 = .error e → _
    unfold readFull
    split
    · exact ⟨h, nofun⟩
    · refine ⟨h, fun e he => ?_⟩
      cases he
      rw [h]
      -- `io.ReadFull` renames the end of the stream, never into waiting
      cases fin with
      | eof =>
        unfold shortRead
        simp only
        split <;> nofun
      | failure => nofun
      | «open» => exact absurd rfl hfin

end Stream

namespace Reader

variable {size : Nat}

/-- The reader as a stream. -/
def view (b : Reader size) : Stream := ⟨b.pending, b.last, b.fin⟩

/-! ## Packet boundaries do not show -/

/-- The readers have the same bytes to come. -/
structure SameBytes (b b' : Reader size) : Prop where
  pending : b'.pending = b.pending
  fin : b'.fin = b.fin

theorem fill_same {b b' : Reader size} (h : b.fill = some b') : SameBytes b b' := by
  unfold fill at h
  split at h
  next => cases h
  next bs packets hread =>
    cases h
    refine ⟨?_, rfl⟩
    change b.buf ++ bs ++ flat packets = b.buf ++ flat b.packets
    rw [List.append_assoc, readPacket_flat hread]

theorem advance_view {b : Reader size} {k : Nat} (hk : k ≤ b.buf.length) :
    (b.advance k).view = b.view.drop (b.pending.take k) (b.pending.drop k) := by
  unfold view advance Stream.drop pending
  rw [List.take_append_of_le_length hk, List.drop_append_of_le_length hk]

/-- Giving away bytes after a fill. -/
theorem SameBytes.advance_view {b b' : Reader size} (h : SameBytes b b') {k : Nat} (hpos : 0 < k)
    (hk : k ≤ b'.buf.length) :
    (b'.advance k).view = b.view.drop (b.pending.take k) (b.pending.drop k) := by
  have htake : b.pending.take k ≠ [] := by
    rw [← h.pending]
    refine take_ne_nil hpos (List.append_ne_nil_of_left_ne_nil ?_ _)
    exact List.length_pos_iff.mp (by omega)
  rw [Reader.advance_view hk, h.pending]
  exact Stream.drop_eq h.fin htake _

theorem unreadByte_view (b : Reader size) :
    Stream.unreadByte b.view = ((unreadByte b).1, (unreadByte b).2.view) := by
  obtain ⟨buf, last, packets, fin, fits, room⟩ := b
  cases last <;> rfl

/-- What of the bytes to come would fit into the buffer starts with what is there. -/
theorem window_eq (b : Reader size) :
    b.view.rest.take size = b.buf ++ (flat b.packets).take (size - b.buf.length) := by
  change (b.buf ++ flat b.packets).take size = _
  rw [List.take_append, List.take_of_length_le b.fits]

theorem readSlice_found {b : Reader size} {delim : UInt8} (h : delim ∈ b.buf) :
    Stream.readSlice size delim b.view
      = (.ok (upTo delim b.buf), (b.advance (upTo delim b.buf).length).view) := by
  obtain ⟨rest, hbuf, hline⟩ := upTo_append h
  unfold Stream.readSlice
  simp only [window_eq, if_pos (List.mem_append_left _ h), hline]
  generalize upTo delim b.buf = line at hbuf
  have hlen : line.length ≤ b.buf.length := by
    rw [hbuf, List.length_append]
    exact Nat.le_add_right _ _
  have htake : b.pending.take line.length = line := by
    rw [pending, hbuf, List.append_assoc, List.take_left]
  rw [advance_view hlen, htake]
  rfl

section NonEmpty

variable [NeZero size]

theorem readByte_view (b : Reader size) :
    Stream.readByte b.view = ((readByte b).1, (readByte b).2.view) := by
  have hpop {c : UInt8} {rest : List UInt8} (h : b.pending = c :: rest) :
      Stream.readByte b.view = (.ok c, b.view.drop (b.pending.take 1) (b.pending.drop 1)) := by
    rw [Stream.readByte_cons (s := b.view) h, h]
    rfl
  unfold readByte
  split
  next c rest hbuf =>
    rw [hpop (show b.pending = c :: (rest ++ flat b.packets) by rw [pending, hbuf]; rfl),
      advance_view (by rw [hbuf]; simp)]
  next hbuf =>
    split
    next h =>
      have hnil : b.pending = [] := by rw [pending, hbuf, fill_none h]; rfl
      unfold Stream.readByte view
      simp only [hnil]
    next b' h =>
      obtain ⟨c, rest, hcons⟩ := List.exists_cons_of_ne_nil (fill_ne_nil hbuf h)
      have hsame := fill_same h
      have hpending : b.pending = c :: (rest ++ flat b'.packets) := by
        rw [← hsame.pending, pending, hcons]
        rfl
      rw [hpop hpending, hsame.advance_view Nat.one_pos (by rw [hcons]; simp)]
      simp [hcons]

theorem readSlice_view (delim : UInt8) (b : Reader size) :
    Stream.readSlice size delim b.view = ((readSlice delim b).1, (readSlice delim b).2.view) := by
  -- the buffer grows until it holds the delimiter, is full, or the source has no more
  induction b using readSlice.induct delim with
  | case1 b h =>
    rw [readSlice, if_pos h]
    exact readSlice_found h
  | case2 b h hfull =>
    have hsize : b.buf.length = size := Nat.le_antisymm b.fits hfull
    have hwindow : b.view.rest.take size = b.buf := by
      rw [window_eq, hsize, Nat.sub_self, List.take_zero, List.append_nil]
    have hlong : size ≤ b.view.rest.length := by
      change size ≤ (b.buf ++ flat b.packets).length
      rw [List.length_append]
      omega
    rw [readSlice, if_neg h, dif_pos hfull, Stream.readSlice]
    simp only [hwindow, if_neg h, if_pos hlong]
    rw [advance_view (Nat.le_refl _), hsize, ← hwindow]
    rfl
  | case3 b h hfull hfill =>
    have hrest : b.view.rest = b.buf := by
      change b.buf ++ flat b.packets = b.buf
      rw [fill_none hfill]
      exact List.append_nil _
    have hwindow : b.view.rest.take size = b.buf := by
      rw [hrest, List.take_of_length_le b.fits]
    have hshort : ¬ size ≤ b.view.rest.length := by rwa [hrest]
    rw [readSlice_none h hfull hfill, Stream.readSlice]
    simp only [hwindow, if_neg h, if_neg hshort]
    rw [advance_view (Nat.le_refl _), show b.pending = b.buf from hrest, List.take_length,
      List.drop_length, hrest]
    rfl
  | case4 b h hfull b' hfill _ ih =>
    have hsame := fill_same hfill
    have hmore := fill_more hfill (Nat.lt_of_not_le hfull)
    have hne : b.view.rest ≠ [] := by
      change b.pending ≠ []
      rw [← hsame.pending, pending]
      exact List.append_ne_nil_of_left_ne_nil (List.length_pos_iff.mp (by omega)) _
    have heq : Stream.readSlice size delim b.view = Stream.readSlice size delim b'.view :=
      Stream.readSlice_eq (Nat.pos_of_neZero size) delim hsame.pending.symm hsame.fin.symm hne
    rw [heq, ih, readSlice_some h hfull hfill]

/-- The outcome of a read that gives away the first of the bytes to come. -/
def Gives (want : Nat) (b : Reader size) (x : Except Error (List UInt8) × Reader size) : Prop :=
  ∃ bs rest, bs ≠ [] ∧ bs.length ≤ want ∧ b.pending = bs ++ rest ∧ x.1 = .ok bs ∧
    x.2.view = b.view.drop bs rest

omit [NeZero size] in
theorem gives_advance {want : Nat} (hwant : 0 < want) {b b' : Reader size} (hsame : SameBytes b b')
    (hne : b'.buf ≠ []) : Gives want b (.ok (b'.buf.take want), b'.advance want) := by
  have hpos := List.length_pos_iff.mpr hne
  have hk : min want b'.buf.length ≤ b'.buf.length := Nat.min_le_right _ _
  have htake : b'.buf.take want = b.pending.take (min want b'.buf.length) := by
    rw [← hsame.pending, pending, List.take_append_of_le_length hk, List.take_eq_take_min]
  have hadvance : (b'.advance want).view = (b'.advance (min want b'.buf.length)).view := by
    change Stream.mk (b'.buf.drop want ++ flat b'.packets) (lastOf b'.last (b'.buf.take want)) b'.fin
      = ⟨b'.buf.drop (min want b'.buf.length) ++ flat b'.packets,
        lastOf b'.last (b'.buf.take (min want b'.buf.length)), b'.fin⟩
    rw [List.take_eq_take_min, List.drop_eq_drop_min]
  refine ⟨_, b.pending.drop (min want b'.buf.length), take_ne_nil hwant hne,
    List.length_take_le _ _, ?_, rfl, ?_⟩
  · rw [htake, List.take_append_drop]
  · rw [htake, ← hsame.advance_view (by omega) hk]
    exact hadvance

/-- A read returns the first of the bytes to come, if there are any. -/
theorem read_view {want : Nat} (hwant : 0 < want) (b : Reader size) :
    (b.pending = [] ∧ read want b = (.error (.source b.fin), b)) ∨ Gives want b (read want b) := by
  unfold read
  split
  next hempty =>
    split
    next =>
      split
      next hread =>
        refine .inl ⟨?_, rfl⟩
        rw [pending, hempty, readPacket_none hread]
        rfl
      next bs packets hread =>
        refine .inr ⟨bs, flat packets, readPacket_ne_nil hwant hread, readPacket_length hread, ?_,
          rfl, rfl⟩
        rw [pending, hempty, readPacket_flat hread]
        rfl
    next =>
      split
      next hfill =>
        refine .inl ⟨?_, rfl⟩
        rw [pending, hempty, fill_none hfill]
        rfl
      next b' hfill => exact .inr (gives_advance hwant (fill_same hfill) (fill_ne_nil hempty hfill))
  next hbuf => exact .inr (gives_advance hwant ⟨rfl, rfl⟩ hbuf)

theorem readMore_error {want : Nat} (hwant : want ≠ 0) {b b' : Reader size} {e : Error}
    (h : read want b = (.error e, b')) (got : List UInt8) :
    readMore got want b = (.error (shortRead got e), b') := by
  rw [readMore, dif_neg hwant]
  split
  next h' =>
    cases h.symm.trans h'
    rfl
  next h' => cases h.symm.trans h'

theorem readMore_ok {want : Nat} (hwant : want ≠ 0) {b b' : Reader size} {bs : List UInt8}
    (h : read want b = (.ok bs, b')) (got : List UInt8) :
    readMore got want b = readMore (got ++ bs) (want - bs.length) b' := by
  conv_lhs => rw [readMore, dif_neg hwant]
  split
  next h' => cases h.symm.trans h'
  next h' =>
    cases h.symm.trans h'
    rfl

/-- What is still wanted comes from the bytes to come, or these are too few. -/
theorem readMore_view (got : List UInt8) (want : Nat) (b : Reader size) :
    ((readMore got want b).1, (readMore got want b).2.view) =
      if want ≤ b.pending.length then
        (.ok (got ++ b.pending.take want), b.view.drop (b.pending.take want) (b.pending.drop want))
      else (.error (shortRead (got ++ b.pending) (.source b.fin)), b.view.drop b.pending []) := by
  induction want using Nat.strongRecOn generalizing got b with
  | ind want ih =>
    by_cases hwant : want = 0
    · subst hwant
      rw [readMore, dif_pos rfl, if_pos (Nat.zero_le _), List.take_zero, List.drop_zero,
        List.append_nil]
      rfl
    · have hpos := Nat.pos_iff_ne_zero.mpr hwant
      rcases read_view hpos b with ⟨hnil, hread⟩ | ⟨bs, rest, hne, hle, hpending, hok, hview⟩
      · rw [readMore_error hwant hread, hnil, if_neg (by simp; omega), List.append_nil]
        simp [Stream.drop, view, hnil, lastOf]
      · have hread : read want b = (.ok bs, (read want b).2) := Prod.ext hok rfl
        have hbs := List.length_pos_iff.mpr hne
        have hrest : (read want b).2.pending = rest := congrArg Stream.rest hview
        have hfin : (read want b).2.fin = b.fin := congrArg Stream.fin hview
        rw [readMore_ok hwant hread, ih _ (by omega), hrest, hfin, hview, hpending,
          List.length_append, Stream.drop_drop, Stream.drop_drop, List.append_assoc,
          List.append_assoc]
        by_cases hlong : want ≤ bs.length + rest.length
        · rw [if_pos (by omega), if_pos hlong, List.take_append, List.drop_append,
            List.take_of_length_le hle, List.drop_eq_nil_of_le hle]
          rfl
        · rw [if_neg (by omega), if_neg hlong]

/-- **Packet boundaries do not show**: every operation of a reader is the one of its stream. -/
theorem io_matches :
    (io : Input (Reader size)).Matches (fun b s => b.view = s) (fun _ => False) (Stream.io size) where
  readByte := by
    rintro b _ rfl
    change _ ∨ (readByte b).1 = (Stream.readByte b.view).1 ∧ _
    exact .inr (Prod.ext_iff.mp (readByte_view b).symm)
  unreadByte := by
    rintro b _ rfl
    exact .inr (Prod.ext_iff.mp (unreadByte_view b).symm)
  readSlice delim := by
    rintro b _ rfl
    exact .inr (Prod.ext_iff.mp (readSlice_view delim b).symm)
  readFull want := by
    rintro b _ rfl
    refine .inr (Prod.ext_iff.mp ((readMore_view [] want b).trans ?_))
    rfl

/-! ## The bytes in the buffer alone -/

/-- The stream is what the reader has in its buffer; the source is at `packets` and `fin`. -/
structure Holds (packets : List Packet) (fin : End) (s : Stream) (b : Reader size) : Prop where
  rest : s.rest = b.buf
  last : s.last = b.last
  waits : s.fin = .open
  packets : b.packets = packets
  fin : b.fin = fin

omit [NeZero size] in
theorem Holds.advance {packets : List Packet} {fin : End} {s : Stream} {b : Reader size}
    (h : Holds packets fin s b) (k : Nat) :
    Holds packets fin (s.drop (b.buf.take k) (b.buf.drop k)) (b.advance k) :=
  ⟨rfl, congrArg (lastOf · _) h.last, h.waits, h.packets, h.fin⟩

theorem readMore_buffered {b : Reader size} {want : Nat} (hwant : want ≤ b.buf.length) :
    readMore [] want b = (.ok (b.buf.take want), b.advance want) := by
  by_cases hzero : want = 0
  · subst hzero
    rw [readMore, dif_pos rfl]
    rfl
  · have hne : b.buf ≠ [] := List.length_pos_iff.mp (by omega)
    have hread : read want b = (.ok (b.buf.take want), b.advance want) := by
      rw [read, if_neg hne]
    rw [readMore_ok hzero hread, List.length_take_of_le hwant, Nat.sub_self, readMore, dif_pos rfl]
    rfl

/-- **What the buffer has is not read again**: an operation that can do with the bytes in the buffer
leaves the source alone. -/
theorem io_buffered (packets : List Packet) (fin : End) :
    (Stream.io size).Matches (Holds packets fin) (· = .source .open)
      (io : Input (Reader size)) where
  readByte s b h := by
    cases hbuf : b.buf with
    | nil => exact .inl (Stream.readByte_waits (h.rest.trans hbuf) h.waits)
    | cons c rest =>
      have hb : readByte b = (.ok c, b.advance 1) := by
        unfold readByte
        split
        next hbuf' =>
          cases hbuf.symm.trans hbuf'
          rfl
        next hbuf' => cases hbuf.symm.trans hbuf'
      have hadvance := h.advance 1
      rw [hbuf] at hadvance
      exact Prog.matches_of_eq (Stream.readByte_cons (h.rest.trans hbuf)) hb hadvance
  unreadByte s b h := by
    obtain ⟨buf, last, packets, fin, fits, room⟩ := b
    obtain ⟨rest, slast, sfin⟩ := s
    obtain ⟨hrest, hlast, hwaits, hpackets, hfin⟩ := h
    simp only at hrest hlast hwaits hpackets hfin
    subst hrest hlast hpackets hfin hwaits
    cases slast with
    | none => exact .inr ⟨rfl, rfl, rfl, rfl, rfl, rfl⟩
    | some c => exact .inr ⟨rfl, rfl, rfl, rfl, rfl, rfl⟩
  readSlice delim s b h := by
    -- the window of the stream is the buffer
    have hwindow : s.rest.take size = b.buf := by rw [h.rest, List.take_of_length_le b.fits]
    by_cases hmem : delim ∈ b.buf
    · have hs := Stream.readSlice_ok (hwindow.symm ▸ hmem)
      have hb : readSlice delim b = (.ok (upTo delim b.buf), b.advance (upTo delim b.buf).length) := by
        rw [readSlice, if_pos hmem]
      have hadvance := h.advance (upTo delim b.buf).length
      obtain ⟨rest, hbuf, -⟩ := upTo_append hmem
      have htake : b.buf.take (upTo delim b.buf).length = upTo delim b.buf := by
        generalize upTo delim b.buf = line at hbuf
        rw [hbuf, List.take_left]
      rw [htake] at hadvance
      rw [hwindow, h.rest] at hs
      exact Prog.matches_of_eq hs hb hadvance
    · have hnone : delim ∉ s.rest.take size := hwindow.symm ▸ hmem
      by_cases hfull : size ≤ b.buf.length
      · have hs := Stream.readSlice_full hnone (h.rest.symm ▸ hfull)
        have hb : readSlice delim b = (.error .bufferFull, b.advance b.buf.length) := by
          rw [readSlice, if_neg hmem, dif_pos hfull]
        have hadvance := h.advance b.buf.length
        rw [List.take_length, Nat.le_antisymm b.fits hfull] at hadvance
        rw [Nat.le_antisymm b.fits hfull] at hb
        rw [hwindow, h.rest] at hs
        exact Prog.matches_of_eq hs hb hadvance
      · exact .inl (Stream.readSlice_waits hnone (h.rest.symm ▸ hfull) h.waits)
  readFull want s b h := by
    by_cases hwant : want ≤ b.buf.length
    · have hs := Stream.readFull_ok (h.rest.symm ▸ hwant)
      rw [h.rest] at hs
      exact Prog.matches_of_eq hs (readMore_buffered hwant) (h.advance want)
    · exact .inl (Stream.readFull_waits (h.rest.symm ▸ hwant) h.waits)

end NonEmpty

end Reader

/-! ## More bytes to come -/

namespace Stream

/-- `t` is the stream `s`, which has no end yet, with `more` behind it. -/
structure Grows (more : List UInt8) (s t : Stream) : Prop where
  rest : t.rest = s.rest ++ more
  last : t.last = s.last
  waits : s.fin = .open

theorem Grows.drop {more : List UInt8} {s t : Stream} (h : Grows more s t) (bs rest : List UInt8) :
    Grows more (s.drop bs rest) (t.drop bs (rest ++ more)) :=
  ⟨rfl, congrArg (lastOf · bs) h.last, h.waits⟩

/-- **Bytes that come later change nothing**: an operation that can do without them has the same
outcome when they are there. -/
theorem io_grows (size : Nat) (more : List UInt8) :
    (io size).Matches (Grows more) (· = .source .open) (io size) where
  readByte s t h := by
    cases hs : s.rest with
    | nil => exact .inl (readByte_waits hs h.waits)
    | cons c rest =>
      have ht : t.rest = c :: (rest ++ more) := by rw [h.rest, hs, List.cons_append]
      exact Prog.matches_of_eq (readByte_cons hs) (readByte_cons ht) (h.drop [c] rest)
  unreadByte s t h := by
    refine .inr ?_
    change (Stream.unreadByte s).1 = (Stream.unreadByte t).1 ∧
      Grows more (Stream.unreadByte s).2 (Stream.unreadByte t).2
    unfold Stream.unreadByte
    rw [h.last]
    cases s.last with
    | none => exact ⟨rfl, h⟩
    | some c => exact ⟨rfl, congrArg (c :: ·) h.rest, rfl, h.waits⟩
  readSlice delim s t h := by
    by_cases hmem : delim ∈ s.rest.take size
    · -- the delimiter of the longer window is the one of the shorter
      obtain ⟨rest, hrest, hsame⟩ := upTo_append hmem
      have hwindow : t.rest.take size = s.rest.take size ++ more.take (size - s.rest.length) := by
        rw [h.rest, List.take_append]
      have hle : (upTo delim (s.rest.take size)).length ≤ s.rest.length := by
        have hlen := congrArg List.length hrest
        rw [List.length_append, List.length_take] at hlen
        omega
      have ht := readSlice_ok (s := t) (hwindow ▸ List.mem_append_left _ hmem)
      rw [hwindow, hsame, h.rest, List.drop_append_of_le_length hle] at ht
      exact Prog.matches_of_eq (readSlice_ok hmem) ht (h.drop _ _)
    · by_cases hfull : size ≤ s.rest.length
      -- a full window is not changed by what comes behind it
      · have hwindow : t.rest.take size = s.rest.take size := by
          rw [h.rest, List.take_append_of_le_length hfull]
        have ht := readSlice_full (s := t) (hwindow ▸ hmem) (by
          rw [h.rest, List.length_append]
          omega)
        rw [hwindow, h.rest, List.drop_append_of_le_length hfull] at ht
        exact Prog.matches_of_eq (readSlice_full hmem hfull) ht (h.drop _ _)
      · exact .inl (readSlice_waits hmem hfull h.waits)
  readFull want s t h := by
    by_cases hwant : want ≤ s.rest.length
    · have ht := readFull_ok (s := t) (show want ≤ t.rest.length by
        rw [h.rest, List.length_append]
        omega)
      rw [h.rest, List.take_append_of_le_length hwant, List.drop_append_of_le_length hwant] at ht
      exact Prog.matches_of_eq (readFull_ok hwant) ht (h.drop _ _)
    · exact .inl (readFull_waits hwant h.waits)

end Stream

end Bufio
