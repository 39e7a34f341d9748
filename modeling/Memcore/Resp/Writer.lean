import Memcore.Reply

/-!
# Replies on the wire

`writer.go`: the bytes of a reply in RESP2. A simple string or an error is a line; an integer, a
length or a count is a decimal line; a bulk string is its length and then its bytes.
-/

namespace Memcore

open Go

/-- `Writer.writeFrame`. -/
def writeFrame (marker : UInt8) (s : Bytes) : List UInt8 := marker :: (s.data ++ crlf)

/-- A marker and a decimal number on a line of their own. -/
def writeNumber (marker : UInt8) (n : Int) : List UInt8 := writeFrame marker (formatInt n)

/-- `Writer.writeBulk`. -/
def writeBulk (b : Bytes) : List UInt8 := writeNumber (byte '$') b.len ++ (b.data ++ crlf)

mutual

/-- `Writer.writeReply`. -/
def writeReply : Reply → List UInt8
  | .nil => (ascii "$-1\r\n").data
  | .simple s => writeFrame (byte '+') s
  | .error s => writeFrame (byte '-') s
  | .int n => writeNumber (byte ':') n
  | .bulk b => writeBulk b
  | .array elems => writeNumber (byte '*') elems.length ++ writeReplies elems

/-- The loop of `writeReply` over the elements of an array. -/
def writeReplies : List Reply → List UInt8
  | [] => []
  | r :: rest => writeReply r ++ writeReplies rest

end

/-! ## Replies that can be framed -/

mutual

/-- Texts are lines, numbers and counts are `int64`s, and no array holds an error. -/
def Reply.framed : Reply → Bool
  | .nil | .bulk _ => true
  | .simple s | .error s => decide s.OneLine
  | .int n => decide (IsInt64 n)
  | .array elems => decide (IsInt64 elems.length) && Reply.allFramed elems

def Reply.allFramed : List Reply → Bool
  | [] => true
  | r :: rest => !r.isError && Reply.framed r && Reply.allFramed rest

end

end Memcore
