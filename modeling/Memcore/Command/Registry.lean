import Memcore.Command.Handlers

/-!
# The command table

`registry.go` and the command metadata of `command.go`. The table is a list searched by name; no
name occurs twice, so the search finds what the source's map holds.
-/

namespace Memcore

open Go

/-- `Command`. -/
structure Command (n m : Nat) where
  name : Bytes
  arity : Int
  run : Handler n m
  readOnly : Bool
  wholeDB : Bool
  firstKey : Int
  lastKey : Int
  keyStep : Int

namespace Command

variable {n m : Nat}

/-- `plain`. -/
def plain (name : String) (arity : Int) (run : Handler n m) : Command n m :=
  ⟨ascii name, arity, run, false, false, 0, 0, 0⟩

/-- `readKey`. -/
def readKey (name : String) (arity : Int) (run : Handler n m) : Command n m :=
  ⟨ascii name, arity, run, true, false, 1, 1, 1⟩

/-- `writeKey`. -/
def writeKey (name : String) (arity : Int) (run : Handler n m) : Command n m :=
  ⟨ascii name, arity, run, false, false, 1, 1, 1⟩

/-- `readKeys`. -/
def readKeys (name : String) (arity : Int) (run : Handler n m) : Command n m :=
  ⟨ascii name, arity, run, true, false, 1, -1, 1⟩

/-- `writeKeys`. -/
def writeKeys (name : String) (arity : Int) (run : Handler n m) : Command n m :=
  ⟨ascii name, arity, run, false, false, 1, -1, 1⟩

/-- `wholeDB`. -/
def whole (name : String) (arity : Int) (run : Handler n m) : Command n m :=
  ⟨ascii name, arity, run, false, true, 0, 0, 0⟩

/-- `Command.SingleKey`. -/
def singleKey (c : Command n m) : Bool :=
  decide (c.firstKey = 1) && decide (c.lastKey = 1) && decide (c.keyStep = 1) && !c.wholeDB

/-- The loop of `Command.Keys`, for a positive stride. -/
def keysFrom (args : List Bytes) (step last : Nat) : Nat → Nat → Result (List Bytes)
  | 0, _ => .ok []
  | fuel + 1, i =>
    if i ≤ last then do
      let key ← Go.index args i
      let rest ← keysFrom args step last fuel (i + step)
      .ok (key :: rest)
    else .ok []

/-- `Command.Keys`. -/
def keys (c : Command n m) (args : List Bytes) : Result (List Bytes) :=
  if c.firstKey = 0 ∨ c.wholeDB then .ok []
  else
    let last := if c.lastKey < 0 then args.length + c.lastKey else c.lastKey
    let last := if args.length ≤ last then (args.length : Int) - 1 else last
    if last < c.firstKey then .ok []
    else keysFrom args c.keyStep.toNat last.toNat (args.length + 1) c.firstKey.toNat

/-- `Command.accepts`. -/
def accepts (c : Command n m) (count : Nat) : Bool :=
  if 0 ≤ c.arity then decide ((count : Int) = c.arity) else decide (-c.arity ≤ count)

end Command

open Command

variable {n m : Nat}

/-- `stringCommands`. -/
def stringCommands : List (Command n m) :=
  [readKey "get" 2 cmdGet, writeKey "set" 3 cmdSet, writeKey "incr" 2 cmdIncr,
    writeKey "decr" 2 cmdDecr]

/-- `keyCommands`. -/
def keyCommands : List (Command n m) :=
  [writeKeys "del" (-2) cmdDel, writeKeys "unlink" (-2) cmdUnlink,
    readKeys "exists" (-2) cmdExists, writeKey "expire" 3 cmdExpire,
    writeKey "pexpireat" 3 cmdPExpireAt, readKey "ttl" 2 cmdTTL,
    writeKey "persist" 2 cmdPersist, readKey "type" 2 cmdType]

/-- `listCommands`. -/
def listCommands : List (Command n m) :=
  [writeKey "lpush" (-3) cmdLPush, writeKey "rpush" (-3) cmdRPush, writeKey "lpop" (-2) cmdLPop,
    writeKey "rpop" (-2) cmdRPop, readKey "lrange" 4 cmdLRange, readKey "llen" 2 cmdLLen]

/-- `hashCommands`. -/
def hashCommands : List (Command n m) :=
  [writeKey "hset" (-4) cmdHSet, readKey "hget" 3 cmdHGet, writeKey "hdel" (-3) cmdHDel,
    readKey "hgetall" 2 cmdHGetAll]

/-- `setCommands`. -/
def setCommands : List (Command n m) :=
  [writeKey "sadd" (-3) cmdSAdd, writeKey "srem" (-3) cmdSRem, readKey "smembers" 2 cmdSMembers,
    readKeys "sinter" (-2) cmdSInter]

/-- `zsetCommands`. -/
def zsetCommands : List (Command n m) :=
  [writeKey "zadd" (-4) cmdZAdd, readKey "zrange" (-4) cmdZRange, readKey "zscore" 3 cmdZScore]

/-- `serverCommands`. -/
def serverCommands : List (Command n m) :=
  [plain "ping" (-1) fun _ => cmdPing, plain "select" 2 fun _ => cmdSelect,
    plain "config" (-2) cmdConfig, whole "flushdb" (-1) fun _ => cmdFlushDB]

/-- `NewRegistry`: every command, in the order of registration. -/
def registry : List (Command n m) :=
  stringCommands ++ keyCommands ++ listCommands ++ hashCommands ++ setCommands ++ zsetCommands ++
    serverCommands

/-- A command without its handler. -/
def Command.row (c : Command n m) : Command 0 0 := { c with run := fun _ _ => pure .nil }

/-- The table without its handlers. -/
def rows : List (Command 0 0) := (registry : List (Command 0 0)).map Command.row

/-- The metadata of a command does not depend on the shards it runs on. -/
theorem row_mem {cmd : Command n m} (hcmd : cmd ∈ registry) : cmd.row ∈ rows := by
  have hrows : (registry : List (Command n m)).map Command.row = rows := rfl
  rw [← hrows]
  exact List.mem_map_of_mem hcmd

/-- Registration never meets a name twice, so it never panics. -/
theorem registry_names_nodup : ((registry : List (Command n m)).map Command.name).Nodup := by
  have hnames : (registry : List (Command n m)).map Command.name = rows.map Command.name := rfl
  rw [hnames]
  decide

/-- `maxCommandNameLen`. -/
def maxCommandNameLen : Nat := 32

/-- ASCII lower case. -/
def lowerByte (b : UInt8) : UInt8 := if 65 ≤ b ∧ b ≤ 90 then b + 32 else b

/-- The lowered name `lookupFold` searches for. -/
def foldName (name : Bytes) : Bytes := Bytes.ofList (name.data.map lowerByte)

/-- `Registry.lookupFold`. -/
def lookupFold (name : Bytes) : Option (Command n m) :=
  if name.len = 0 ∨ maxCommandNameLen < name.len then none
  else registry.find? fun c => decide (c.name = foldName name)

/-- `Registry.Resolve`: the command, or the error reply. -/
def resolve (args : List Bytes) : Except Reply (Command n m) :=
  match args with
  | [] => .error (.error (ascii "ERR empty command"))
  | name :: _ =>
    match lookupFold name with
    | none => .error (.error (concat [ascii "ERR unknown command '", name, ascii "'"]))
    | some cmd =>
      if !cmd.accepts args.length then
        .error (.error (concat
          [ascii "ERR wrong number of arguments for '", cmd.name, ascii "' command"]))
      else .ok cmd

/-- `Registry.Dispatch`. -/
def dispatch (env : Env m) (args : List Bytes) : Cmd n m Reply :=
  match resolve args with
  | .error reply => pure reply
  | .ok cmd => cmd.run env args

end Memcore
