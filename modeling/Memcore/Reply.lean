import Memcore.Lib.Go

/-!
# Replies

`reply.go`: a RESP reply as a tagged union.
-/

namespace Memcore

open Go

/-- `Reply`. -/
inductive Reply where
  | nil
  | simple (s : Bytes)
  | error (s : Bytes)
  | int (n : Int)
  | bulk (b : Bytes)
  | array (elems : List Reply)

namespace Reply

/-- `OK`. -/
def ok : Reply := .simple (ascii "OK")

/-- `Reply.IsError`. -/
def isError : Reply → Bool
  | .error _ => true
  | _ => false

mutual

/-- `Reply.Equal`. -/
def equal : Reply → Reply → Bool
  | .nil, .nil => true
  | .simple s, .simple t => decide (s = t)
  | .error s, .error t => decide (s = t)
  | .int n, .int k => decide (n = k)
  | .bulk b, .bulk c => decide (b = c)
  | .array xs, .array ys => equalAll xs ys
  | _, _ => false

/-- The loop of `Reply.Equal` over the elements of two arrays. -/
def equalAll : List Reply → List Reply → Bool
  | [], [] => true
  | x :: xs, y :: ys => equal x y && equalAll xs ys
  | _, _ => false

end

end Reply

/-! ## Texts -/

/-- Bytes put one after the other, as `fmt.Sprintf` does for `%s`. -/
def concat (parts : List Bytes) : Bytes := Bytes.ofList (parts.flatMap Bytes.data)

/-- `msgWrongType`. -/
def msgWrongType : Bytes :=
  ascii "WRONGTYPE Operation against a key holding the wrong kind of value"

/-- `msgNotInteger`. -/
def msgNotInteger : Bytes := ascii "ERR value is not an integer or out of range"

end Memcore
