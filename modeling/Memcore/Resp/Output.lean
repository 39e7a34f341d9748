import Memcore.Lib.BufWriter
import Memcore.Resp.Writer

/-!
# The writer of a connection

`Writer` of `resp/writer.go` over its buffer of 16 KiB, write by write; write failures are left out.
What has been written is the bytes of the replies (`all_writeReply`), some of them sent already.
-/

namespace Memcore

open Go Bufio

/-- `writeBufferSize`. -/
def writeBufferSize : Nat := 16 <<< 10

instance : NeZero writeBufferSize := ⟨by decide⟩

/-- `Writer`. -/
abbrev ReplyWriter := Bufio.Writer writeBufferSize

namespace ReplyWriter

/-- `Writer.writeFrame`. -/
def writeFrame (w : ReplyWriter) (marker : UInt8) (s : Bytes) : ReplyWriter :=
  ((w.writeByte marker).writeString s.data).writeString crlf

/-- A marker, `Writer.writeInt` and the end of the line. -/
def writeNumber (w : ReplyWriter) (marker : UInt8) (n : Int) : ReplyWriter :=
  ((w.writeByte marker).write (formatInt n).data).writeString crlf

/-- `Writer.writeBulk`. -/
def writeBulk (w : ReplyWriter) (b : Bytes) : ReplyWriter :=
  ((writeNumber w (byte '$') b.len).write b.data).writeString crlf

mutual

/-- `Writer.writeReply`. -/
def writeReply (w : ReplyWriter) : Reply → ReplyWriter
  | .nil => w.writeString (ascii "$-1\r\n").data
  | .simple s => writeFrame w (byte '+') s
  | .error s => writeFrame w (byte '-') s
  | .int n => writeNumber w (byte ':') n
  | .bulk b => writeBulk w b
  | .array elems => writeReplies (writeNumber w (byte '*') elems.length) elems

/-- The loop of `writeReply` over the elements of an array. -/
def writeReplies (w : ReplyWriter) : List Reply → ReplyWriter
  | [] => w
  | r :: rest => writeReplies (writeReply w r) rest

end

theorem all_writeFrame (w : ReplyWriter) (marker : UInt8) (s : Bytes) :
    (writeFrame w marker s).all = w.all ++ Memcore.writeFrame marker s := by
  simp [writeFrame, Memcore.writeFrame, Writer.all_writeString, Writer.all_writeByte]

theorem all_writeNumber (w : ReplyWriter) (marker : UInt8) (n : Int) :
    (writeNumber w marker n).all = w.all ++ Memcore.writeNumber marker n := by
  simp [writeNumber, Memcore.writeNumber, Memcore.writeFrame, Writer.all_writeString,
    Writer.all_write, Writer.all_writeByte]

theorem all_writeBulk (w : ReplyWriter) (b : Bytes) :
    (writeBulk w b).all = w.all ++ Memcore.writeBulk b := by
  simp [writeBulk, Memcore.writeBulk, Writer.all_writeString, Writer.all_write, all_writeNumber]

mutual

/-- **The writer writes the bytes of the reply.** -/
theorem all_writeReply (w : ReplyWriter) : ∀ r : Reply,
    (writeReply w r).all = w.all ++ Memcore.writeReply r
  | .nil => Writer.all_writeString w _
  | .simple s | .error s => all_writeFrame w _ s
  | .int n => all_writeNumber w _ n
  | .bulk b => all_writeBulk w b
  | .array elems => by
      rw [writeReply, Memcore.writeReply, all_writeReplies, all_writeNumber, List.append_assoc]

theorem all_writeReplies (w : ReplyWriter) : ∀ rs : List Reply,
    (writeReplies w rs).all = w.all ++ Memcore.writeReplies rs
  | [] => (List.append_nil _).symm
  | r :: rs => by
      rw [writeReplies, Memcore.writeReplies, all_writeReplies, all_writeReply, List.append_assoc]

end

end ReplyWriter

end Memcore
