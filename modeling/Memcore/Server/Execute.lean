import Mathlib.Data.List.Sort
import Memcore.Command.Footprint

/-!
# Executing a request

`conn.go`: the shards a command locks (`shardSet` and the lock helpers of `shard.go`), running it,
turning a panic into an error reply, and the form in which a write is logged.
-/

namespace Memcore

open Go Prog

variable {n m : Nat}

/-! ## Locks -/

/-- How a shard is locked. -/
inductive LockMode where
  | read
  | write
deriving DecidableEq

/-- Shared for a read-only command, exclusive for every other. -/
def lockMode (cmd : Command n m) : LockMode :=
  if cmd.readOnly && !cmd.wholeDB then .read else .write

/-- The first occurrences among shard indices. -/
def distinctShards (seen : List (Fin m)) : List (Fin m) → List (Fin m)
  | [] => []
  | i :: rest =>
    if i ∈ seen then distinctShards seen rest else i :: distinctShards (i :: seen) rest

/-- `DB.shardSet`. -/
def shardSet (route : Bytes → Fin m) (keys : List Bytes) : List (Fin m) :=
  match keys with
  | [] => []
  | [key] => [route key]
  | keys => (distinctShards [] (keys.map route)).insertionSort (· ≤ ·)

/-- The shards of the selected database `execute` locks, in the order it locks them. -/
def lockShards (route : Bytes → Fin m) (cmd : Command n m) (args : List Bytes) :
    Result (List (Fin m)) :=
  if cmd.singleKey = true ∧ 1 < args.length then do
    let key ← Go.index args 1
    .ok [route key]
  else if cmd.wholeDB then .ok (List.finRange m)
  else do
    let keys ← cmd.keys args
    .ok (shardSet route keys)

/-! ## Running and logging -/

/-- Is the outcome of a handler a panic or an error reply? -/
def isFailure : Result Reply → Bool
  | .ok reply => reply.isError
  | .error _ => true

/-- The reply `execute` gives for a handler's outcome: a panic is recovered from. -/
def replyOf : Result Reply → Reply
  | .ok reply => reply
  | .error _ => .error (ascii "ERR internal server error")

/-- Is the command with this outcome appended to the log? -/
def isLogged (cmd : Command n m) (outcome : Result Reply) : Bool :=
  !cmd.readOnly && !isFailure outcome

/-- `persistArgs`; `now` is its own reading of the clock. -/
def persistArgs (now : Time) (cmd : Command n m) (args : List Bytes) : List Bytes :=
  if cmd.name = ascii "expire" then
    match args with
    | [_, key, arg2] =>
      match parseInt arg2 with
      | some secs =>
        [ascii "PEXPIREAT", key, formatInt (Time.unixMilli (Time.add now (seconds secs))).toInt]
      | none => args
    | _ => args
  else args

/-- A command as the append log records it. -/
structure Logged (n : Nat) where
  db : Fin n
  args : List Bytes
deriving DecidableEq

/-- `execute` without the locks: reply, log entry and context; `logNow` is the clock reading of
`persistArgs`. -/
def execute (env : Env m) (logNow : Time) (cmd : Command n m) (args : List Bytes)
    (c : Context n m) : Reply × Option (Logged n) × Context n m :=
  let (outcome, c') := cmd.run env args c
  (replyOf outcome,
    if isLogged cmd outcome then some ⟨c'.index, persistArgs logNow cmd args⟩ else none, c')

/-- One request of a connection: `Server.dispatch`. -/
def request (env : Env m) (logNow : Time) (args : List Bytes) (c : Context n m) :
    Reply × Option (Logged n) × Context n m :=
  match resolve args with
  | .error reply => (reply, none, c)
  | .ok cmd => execute env logNow cmd args c

end Memcore
