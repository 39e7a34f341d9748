import Memcore.Lib.Bufio

/-!
# Buffered output

Go's `bufio.Writer` over a connection that takes everything: what is written goes to a buffer of
`size` bytes, and leaves it when it is full or flushed. No byte is lost or changes places
(`Writer.all_write` and its like).
-/

namespace Bufio

/-- A writer with a buffer of `size` bytes; `sent` is what the connection has been given. -/
structure Writer (size : Nat) where
  buf : List UInt8
  sent : List UInt8
  fits : buf.length ≤ size

namespace Writer

variable {size : Nat}

def new : Writer size := ⟨[], [], Nat.zero_le _⟩

/-- All that was written. -/
def all (w : Writer size) : List UInt8 := w.sent ++ w.buf

/-- `Flush`. -/
def flush (w : Writer size) : Writer size := ⟨[], w.all, Nat.zero_le _⟩

/-- `Available`. -/
def available (w : Writer size) : Nat := size - w.buf.length

/-- Copy as many bytes behind what is in the buffer as there is room for. -/
def copy (w : Writer size) (bs : List UInt8) : Writer size where
  buf := w.buf ++ bs.take w.available
  sent := w.sent
  fits := by
    have hfits := w.fits
    have hlen := List.length_take_le w.available bs
    unfold available at hlen ⊢
    rw [List.length_append]
    omega

theorem all_flush (w : Writer size) : w.flush.all = w.all := List.append_nil _

theorem all_copy (w : Writer size) (bs : List UInt8) :
    (w.copy bs).all = w.all ++ bs.take w.available := (List.append_assoc _ _ _).symm

variable [NeZero size]

theorem flush_progress {w : Writer size} {bs : List UInt8} (h : ¬ bs.length ≤ w.available) :
    bs.length - w.available + (w.copy bs).flush.buf.length < bs.length + w.buf.length := by
  have hsize := Nat.pos_of_neZero size
  have hempty : (w.copy bs).flush.buf.length = 0 := rfl
  rw [hempty]
  unfold available at h ⊢
  omega

/-- `WriteString`. -/
def writeString (w : Writer size) (bs : List UInt8) : Writer size :=
  if h : bs.length ≤ w.available then w.copy bs
  else
    have := flush_progress h
    writeString (w.copy bs).flush (bs.drop w.available)
termination_by bs.length + w.buf.length

/-- `Write`. -/
def write (w : Writer size) (bs : List UInt8) : Writer size :=
  if h : bs.length ≤ w.available then w.copy bs
  else if w.buf = [] then
    -- a long write goes past the empty buffer
    { w with sent := w.sent ++ bs }
  else
    have := flush_progress h
    write (w.copy bs).flush (bs.drop w.available)
termination_by bs.length + w.buf.length

/-- `WriteByte`. -/
def writeByte (w : Writer size) (c : UInt8) : Writer size :=
  if w.available = 0 then w.flush.copy [c] else w.copy [c]

theorem all_writeString (w : Writer size) (bs : List UInt8) :
    (w.writeString bs).all = w.all ++ bs := by
  induction w, bs using writeString.induct with
  | case1 w bs h =>
    rw [writeString, dif_pos h, all_copy, List.take_of_length_le h]
  | case2 w bs h _ ih =>
    rw [writeString, dif_neg h, ih, all_flush, all_copy, List.append_assoc,
      List.take_append_drop]

theorem all_write (w : Writer size) (bs : List UInt8) : (w.write bs).all = w.all ++ bs := by
  induction w, bs using write.induct with
  | case1 w bs h =>
    rw [write, dif_pos h, all_copy, List.take_of_length_le h]
  | case2 w bs h hempty =>
    rw [write, dif_neg h, if_pos hempty]
    simp [all, hempty]
  | case3 w bs h hempty _ ih =>
    rw [write, dif_neg h, if_neg hempty, ih, all_flush, all_copy, List.append_assoc,
      List.take_append_drop]

theorem all_writeByte (w : Writer size) (c : UInt8) : (w.writeByte c).all = w.all ++ [c] := by
  have hsize := Nat.pos_of_neZero size
  unfold writeByte
  split
  next =>
    have hroom : [c].length ≤ w.flush.available := hsize
    rw [all_copy, List.take_of_length_le hroom, all_flush]
  next h =>
    rw [all_copy, List.take_of_length_le (by rw [List.length_singleton]; omega)]

end Writer

end Bufio
