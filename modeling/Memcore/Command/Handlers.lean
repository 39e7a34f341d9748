import Memcore.Command.Context

/-!
# The command handlers

`strings.go`, `keys.go`, `lists.go`, `hashes.go`, `sets.go`, `zsets.go` and `server.go` of the
command package, handler by handler. `args` is the whole request with the command name at 0, and an
index past its end is a panic; so is a payload accessor on the wrong kind.

A handler that changes a collection in place computes the changed collection first and then stores
it (`Cmd.mutate`); nothing between the two can fail.
-/

namespace Memcore

open Go Cmd

/-- `Handler`. -/
abbrev Handler (n m : Nat) := Env m → List Bytes → Cmd n m Reply

variable {n m : Nat} (env : Env m)

/-- How most handlers begin: look the key up, go on with an entry of kind `k`, and do `absent` when
there is none. -/
def withKind (key : Bytes) (k : Kind) (absent : Cmd n m Reply) (present : Entry → Cmd n m Reply) :
    Cmd n m Reply := do
  match ← lookup env key with
  | none => absent
  | some e => if e.value.kind ≠ k then pure (.error msgWrongType) else present e

/-- Store a collection after elements left it; an empty one takes its key with it. -/
def storeShrunk (key : Bytes) (v : Value) (len : Nat) : Cmd n m Unit := do
  mutate env key v
  if len = 0 then do
    let _ ← delete env key
    pure ()
  else pure ()

/-! ## Strings -/

/-- `cmdGet`. -/
def cmdGet (args : List Bytes) : Cmd n m Reply := do
  let key ← arg args 1
  match ← getBytes env key with
  | none => pure .nil
  | some v =>
    if v.kind ≠ .string then pure (.error msgWrongType)
    else do
      let b ← Prog.lift v.getStr
      pure (.bulk b)

/-- `cmdSet`. -/
def cmdSet (args : List Bytes) : Cmd n m Reply := do
  let key ← arg args 1
  let val ← arg args 2
  set env key (.str val)
  pure .ok

/-- The end of `incrBy`: check the range, store and reply. -/
def incrStore (key : Bytes) (e : Option Entry) (cur delta : Int) : Cmd n m Reply :=
  if (0 < delta ∧ maxInt64 - delta < cur) ∨ (delta < 0 ∧ cur < minInt64 - delta) then
    pure (.error (ascii "ERR increment or decrement would overflow"))
  else do
    let next := Value.str (formatInt (cur + delta))
    match e with
    | some e => setEntry env key { e with value := next }
    | none => set env key next
    pure (.int (cur + delta))

/-- `incrBy`. -/
def incrBy (key : Bytes) (delta : Int) : Cmd n m Reply :=
  withKind env key .string (incrStore env key none 0 delta) fun e => do
    let b ← Prog.lift e.value.getStr
    match parseInt b with
    | none => pure (.error msgNotInteger)
    | some cur => incrStore env key (some e) cur delta

/-- `cmdIncr`. -/
def cmdIncr (args : List Bytes) : Cmd n m Reply := do
  let key ← arg args 1
  incrBy env key 1

/-- `cmdDecr`. -/
def cmdDecr (args : List Bytes) : Cmd n m Reply := do
  let key ← arg args 1
  incrBy env key (-1)

/-! ## Keys -/

/-- The loop of DEL, UNLINK and EXISTS: count the keys for which `op` says yes. -/
def countKeys (op : Bytes → Cmd n m Bool) : List Bytes → Int → Cmd n m Int
  | [], count => pure count
  | raw :: rest, count => do
      if ← op raw then countKeys op rest (count + 1) else countKeys op rest count

/-- `cmdDel`. -/
def cmdDel (args : List Bytes) : Cmd n m Reply := do
  let keys ← argsFrom args 1
  let count ← countKeys (delete env) keys 0
  pure (.int count)

/-- `cmdUnlink`. -/
def cmdUnlink (args : List Bytes) : Cmd n m Reply := do
  let keys ← argsFrom args 1
  let count ← countKeys (unlink env) keys 0
  pure (.int count)

/-- `cmdExists`. -/
def cmdExists (args : List Bytes) : Cmd n m Reply := do
  let keys ← argsFrom args 1
  let count ← countKeys (existsBytes env) keys 0
  pure (.int count)

/-- The end of EXPIRE and PEXPIREAT. -/
def expireAt (key : Bytes) (at' : Time) : Cmd n m Reply := do
  if ← setExpire env key at' then pure (.int 1) else pure (.int 0)

/-- `cmdExpire`. -/
def cmdExpire (args : List Bytes) : Cmd n m Reply := do
  let arg2 ← arg args 2
  match parseInt arg2 with
  | none => pure (.error msgNotInteger)
  | some secs => do
      let key ← arg args 1
      expireAt env key (Time.add env.now (seconds secs))

/-- `cmdPExpireAt`. -/
def cmdPExpireAt (args : List Bytes) : Cmd n m Reply := do
  let arg2 ← arg args 2
  match parseInt arg2 with
  | none => pure (.error msgNotInteger)
  | some ms => do
      let key ← arg args 1
      expireAt env key (unixMilli ms)

/-- `cmdTTL`. -/
def cmdTTL (args : List Bytes) : Cmd n m Reply := do
  let key ← arg args 1
  match ← lookup env key with
  | none => pure (.int (-2))
  | some e =>
    if !e.hasExpiry then pure (.int (-1))
    else
      let ms := Int.tdiv (Time.sub e.expireAt env.now) (10 ^ 6)
      let ms := if ms < 0 then 0 else ms
      pure (.int (Int.tdiv (ms + 500) 1000))

/-- `cmdPersist`. -/
def cmdPersist (args : List Bytes) : Cmd n m Reply := do
  let key ← arg args 1
  if ← persist env key then pure (.int 1) else pure (.int 0)

/-- `cmdType`. -/
def cmdType (args : List Bytes) : Cmd n m Reply := do
  let key ← arg args 1
  match ← lookup env key with
  | none => pure (.simple (ascii "none"))
  | some e => pure (.simple e.value.kind.toBytes)

/-! ## Lists -/

/-- The loop of `listPush`. -/
def pushAll (front : Bool) : List Bytes → ListVal → Result ListVal
  | [], l => .ok l
  | v :: vs, l => do
      let l ← if front then l.pushFront v else l.pushBack v
      pushAll front vs l

/-- `listPush`. -/
def listPush (front : Bool) (args : List Bytes) : Cmd n m Reply := do
  let key ← arg args 1
  let vs ← argsFrom args 2
  withKind env key .list
    (do
      let l ← Prog.lift (pushAll front vs (ListVal.new env.limits.list))
      set env key (.list l)
      pure (.int l.len))
    fun e => do
      let l ← Prog.lift e.value.getList
      let l ← Prog.lift (pushAll front vs l)
      mutate env key (.list l)
      pure (.int l.len)

/-- `cmdLPush`. -/
def cmdLPush (args : List Bytes) : Cmd n m Reply := listPush env true args

/-- `cmdRPush`. -/
def cmdRPush (args : List Bytes) : Cmd n m Reply := listPush env false args

/-- `PopFront` or `PopBack`. -/
def popOne (front : Bool) (l : ListVal) : Result (Option Bytes × ListVal) :=
  if front then l.popFront else l.popBack

/-- The loop of a counted pop. -/
def popMany (front : Bool) : Nat → ListVal → Result (List Bytes × ListVal)
  | 0, l => .ok ([], l)
  | count + 1, l => do
      match ← popOne front l with
      | (none, l) => .ok ([], l)
      | (some v, l) => do
          let (vs, l) ← popMany front count l
          .ok (v :: vs, l)

/-- The size of a `Reply` in the array a counted pop makes room for. -/
def replySize : Nat := 80

/-- The part of `listPop` after the arguments are parsed; `count` is `none` when none was given. -/
def popReply (front : Bool) (key : Bytes) (count : Option Nat) : Cmd n m Reply :=
  withKind env key .list (pure .nil) fun e => do
    let l ← Prog.lift e.value.getList
    match count with
    | none => do
        let (v, l) ← Prog.lift (popOne front l)
        storeShrunk env key (.list l) l.len
        pure (.bulk (v.getD (Bytes.ofList [])))
    | some count => do
        Prog.lift (makeSlice replySize count)
        let (vs, l) ← Prog.lift (popMany front count l)
        storeShrunk env key (.list l) l.len
        pure (.array (vs.map .bulk))

/-- `listPop`. -/
def listPop (front : Bool) (args : List Bytes) : Cmd n m Reply := do
  if 3 < args.length then do
    let name ← arg args 0
    pure (.error (concat [ascii "ERR wrong number of arguments for '", name, ascii "' command"]))
  else if args.length = 3 then do
    let arg2 ← arg args 2
    match parseInt arg2 with
    | none => pure (.error msgNotInteger)
    | some count =>
      if count < 0 then
        pure (.error (ascii "ERR value is out of range, must be positive"))
      else do
        let key ← arg args 1
        popReply env front key (some count.toNat)
  else do
    let key ← arg args 1
    popReply env front key none

/-- `cmdLPop`. -/
def cmdLPop (args : List Bytes) : Cmd n m Reply := listPop env true args

/-- `cmdRPop`. -/
def cmdRPop (args : List Bytes) : Cmd n m Reply := listPop env false args

/-- `cmdLRange`. -/
def cmdLRange (args : List Bytes) : Cmd n m Reply := do
  let arg2 ← arg args 2
  let arg3 ← arg args 3
  match parseInt arg2, parseInt arg3 with
  | some start, some stop => do
      let key ← arg args 1
      withKind env key .list (pure (.array [])) fun e => do
        let l ← Prog.lift e.value.getList
        let elems ← Prog.lift (l.range start stop)
        pure (.array (elems.map .bulk))
  | _, _ => pure (.error msgNotInteger)

/-- `cmdLLen`. -/
def cmdLLen (args : List Bytes) : Cmd n m Reply := do
  let key ← arg args 1
  withKind env key .list (pure (.int 0)) fun e => do
    let l ← Prog.lift e.value.getList
    pure (.int l.len)

/-! ## Hashes -/

/-- The loop of `cmdHSet` over the arguments from the first field on: how many were new. -/
def hsetAll : List Bytes → HashVal → Int → Result (Int × HashVal)
  | f :: v :: rest, h, added => do
      let (isNew, h) ← h.set f v
      hsetAll rest h (if isNew then added + 1 else added)
  | _, h, added => .ok (added, h)

/-- `cmdHSet`. -/
def cmdHSet (args : List Bytes) : Cmd n m Reply := do
  if args.length % 2 ≠ 0 then
    pure (.error (ascii "ERR wrong number of arguments for 'hset' command"))
  else do
    let key ← arg args 1
    let rest ← argsFrom args 2
    withKind env key .hash
      (do
        let (added, h) ← Prog.lift (hsetAll rest (HashVal.new env.limits.hash) 0)
        set env key (.hash h)
        pure (.int added))
      fun e => do
        let h ← Prog.lift e.value.getHash
        let (added, h) ← Prog.lift (hsetAll rest h 0)
        mutate env key (.hash h)
        pure (.int added)

/-- `cmdHGet`. -/
def cmdHGet (args : List Bytes) : Cmd n m Reply := do
  let key ← arg args 1
  withKind env key .hash (pure .nil) fun e => do
    let h ← Prog.lift e.value.getHash
    let field ← arg args 2
    match ← Prog.lift (h.get field) with
    | none => pure .nil
    | some v => pure (.bulk v)

/-- The loop of `cmdHDel`: how many were there. -/
def hdelAll : List Bytes → HashVal → Int → Result (Int × HashVal)
  | [], h, removed => .ok (removed, h)
  | f :: fs, h, removed => do
      let (found, h) ← h.delete f
      hdelAll fs h (if found then removed + 1 else removed)

/-- `cmdHDel`. -/
def cmdHDel (args : List Bytes) : Cmd n m Reply := do
  let key ← arg args 1
  withKind env key .hash (pure (.int 0)) fun e => do
    let h ← Prog.lift e.value.getHash
    let fields ← argsFrom args 2
    let (removed, h) ← Prog.lift (hdelAll fields h 0)
    storeShrunk env key (.hash h) h.len
    pure (.int removed)

/-- `cmdHGetAll`. -/
def cmdHGetAll (args : List Bytes) : Cmd n m Reply := do
  let key ← arg args 1
  withKind env key .hash (pure (.array [])) fun e => do
    let h ← Prog.lift e.value.getHash
    let pairs ← Prog.lift (h.pairs env.ord)
    pure (.array (pairs.map .bulk))

/-! ## Sets -/

/-- The loop of `cmdSAdd`: how many were new. -/
def saddAll : List Bytes → SetVal → Int → Result (Int × SetVal)
  | [], s, added => .ok (added, s)
  | x :: xs, s, added => do
      let (isNew, s) ← s.add x
      saddAll xs s (if isNew then added + 1 else added)

/-- `cmdSAdd`. -/
def cmdSAdd (args : List Bytes) : Cmd n m Reply := do
  let key ← arg args 1
  let xs ← argsFrom args 2
  withKind env key .set
    (do
      let (added, s) ← Prog.lift (saddAll xs (SetVal.new env.limits.set) 0)
      set env key (.set s)
      pure (.int added))
    fun e => do
      let s ← Prog.lift e.value.getSet
      let (added, s) ← Prog.lift (saddAll xs s 0)
      mutate env key (.set s)
      pure (.int added)

/-- The loop of `cmdSRem`: how many were there. -/
def sremAll : List Bytes → SetVal → Int → Result (Int × SetVal)
  | [], s, removed => .ok (removed, s)
  | x :: xs, s, removed => do
      let (found, s) ← s.remove x
      sremAll xs s (if found then removed + 1 else removed)

/-- `cmdSRem`. -/
def cmdSRem (args : List Bytes) : Cmd n m Reply := do
  let key ← arg args 1
  withKind env key .set (pure (.int 0)) fun e => do
    let s ← Prog.lift e.value.getSet
    let xs ← argsFrom args 2
    let (removed, s) ← Prog.lift (sremAll xs s 0)
    storeShrunk env key (.set s) s.len
    pure (.int removed)

/-- `cmdSMembers`. -/
def cmdSMembers (args : List Bytes) : Cmd n m Reply := do
  let key ← arg args 1
  withKind env key .set (pure (.array [])) fun e => do
    let s ← Prog.lift e.value.getSet
    let members ← Prog.lift (s.members env.ord)
    pure (.array (members.map .bulk))

/-- The first loop of `cmdSInter`: the sets, or the reply that ends the command. -/
def collectSets : List Bytes → List SetVal → Cmd n m (Except Reply (List SetVal))
  | [], sets => pure (.ok sets)
  | raw :: rest, sets => do
      match ← lookup env raw with
      | none => pure (.error (.array []))
      | some e =>
        if e.value.kind ≠ .set then pure (.error (.error msgWrongType))
        else do
          let s ← Prog.lift e.value.getSet
          collectSets rest (sets ++ [s])

/-- The second loop of `cmdSInter`: the index of the first smallest set. -/
def smallestFrom : List SetVal → Nat → Nat → Nat → Nat
  | [], _, best, _ => best
  | s :: rest, i, best, bestLen =>
    if s.len < bestLen then smallestFrom rest (i + 1) i s.len
    else smallestFrom rest (i + 1) best bestLen

/-- The innermost loop of `cmdSInter`: is `x` in every set but the `skip`th? -/
def inAllSets (x : Bytes) (skip : Nat) : List SetVal → Nat → Result Bool
  | [], _ => .ok true
  | s :: rest, i => do
      if i = skip then inAllSets x skip rest (i + 1)
      else if ← s.contains x then inAllSets x skip rest (i + 1) else .ok false

/-- The loop of `cmdSInter` over the members of the smallest set. -/
def interFrom (sets : List SetVal) (smallest : Nat) : List Bytes → Result (List Bytes)
  | [] => .ok []
  | x :: xs => do
      let keep ← inAllSets x smallest sets 0
      let rest ← interFrom sets smallest xs
      .ok (if keep then x :: rest else rest)

/-- `cmdSInter`. -/
def cmdSInter (args : List Bytes) : Cmd n m Reply := do
  let keys ← argsFrom args 1
  match ← collectSets env keys [] with
  | .error reply => pure reply
  | .ok sets => do
      let first ← Prog.lift (Go.index sets 0)
      let smallest := smallestFrom sets 0 0 first.len
      let s ← Prog.lift (Go.index sets smallest)
      let members ← Prog.lift (s.members env.ord)
      let out ← Prog.lift (interFrom sets smallest members)
      pure (.array (out.map .bulk))

/-! ## Sorted sets -/

/-- The first loop of `cmdZAdd` over the arguments from the first score on: the pairs, or `none` for
a score that is not a number. -/
def parsePairs (host : Host) : List Bytes → List ZMember → Option (List ZMember)
  | score :: member :: rest, pairs =>
    match host.parseFloat score with
    | none => none
    | some s => if s.isNaN then none else parsePairs host rest (pairs ++ [⟨member, s⟩])
  | _, pairs => some pairs

/-- The second loop of `cmdZAdd`: how many were new. -/
def zaddAll : List ZMember → ZSetVal → Rng → Int → Result (Int × ZSetVal × Rng)
  | [], z, rng, added => .ok (added, z, rng)
  | e :: es, z, rng, added => do
      let (isNew, z, rng) ← z.add e rng
      zaddAll es z rng (if isNew then added + 1 else added)

/-- `cmdZAdd`. -/
def cmdZAdd (args : List Bytes) : Cmd n m Reply := do
  if args.length % 2 ≠ 0 then
    pure (.error (ascii "ERR wrong number of arguments for 'zadd' command"))
  else do
    let rest ← argsFrom args 2
    match parsePairs env.host rest [] with
    | none => pure (.error (ascii "ERR value is not a valid float"))
    | some pairs => do
        let key ← arg args 1
        let rng ← getRng
        withKind env key .zset
          (do
            let (added, z, rng) ← Prog.lift (zaddAll pairs (ZSetVal.new env.limits.zset) rng 0)
            set env key (.zset z)
            setRng rng
            pure (.int added))
          fun e => do
            let z ← Prog.lift e.value.getZSet
            let (added, z, rng) ← Prog.lift (zaddAll pairs z rng 0)
            mutate env key (.zset z)
            setRng rng
            pure (.int added)

/-- `formatScore`. -/
def formatScore (host : Host) (f : Score) : Bytes :=
  if f.isPosInf then ascii "inf" else if f.isNegInf then ascii "-inf" else host.formatFloat f

/-- The part of `cmdZRange` after the options are parsed. -/
def zrangeReply (args : List Bytes) (withScores : Bool) : Cmd n m Reply := do
  let arg2 ← arg args 2
  let arg3 ← arg args 3
  match parseInt arg2, parseInt arg3 with
  | some start, some stop => do
      let key ← arg args 1
      withKind env key .zset (pure (.array [])) fun e => do
        let z ← Prog.lift e.value.getZSet
        let members ← Prog.lift (z.range start stop)
        if withScores then
          pure (.array (members.flatMap fun x =>
            [.bulk x.member, .bulk (formatScore env.host x.score)]))
        else pure (.array (members.map fun x => .bulk x.member))
  | _, _ => pure (.error msgNotInteger)

/-- `cmdZRange`. -/
def cmdZRange (args : List Bytes) : Cmd n m Reply := do
  if args.length = 4 then zrangeReply env args false
  else if args.length = 5 then do
    let option ← arg args 4
    if env.host.equalFold option (ascii "WITHSCORES") then zrangeReply env args true
    else pure (.error (ascii "ERR syntax error"))
  else pure (.error (ascii "ERR syntax error"))

/-- `cmdZScore`. -/
def cmdZScore (args : List Bytes) : Cmd n m Reply := do
  let key ← arg args 1
  withKind env key .zset (pure .nil) fun e => do
    let z ← Prog.lift e.value.getZSet
    let member ← arg args 2
    match ← Prog.lift (z.score member) with
    | none => pure .nil
    | some s => pure (.bulk (formatScore env.host s))

/-! ## Server -/

/-- `cmdSelect`. -/
def cmdSelect (args : List Bytes) : Cmd n m Reply := do
  let arg1 ← arg args 1
  match parseInt arg1 with
  | none => pure (.error (ascii "ERR value is not an integer or out of range"))
  | some index => do
      if ← select index then pure .ok else pure (.error (ascii "ERR DB index is out of range"))

/-- `cmdPing`. -/
def cmdPing (args : List Bytes) : Cmd n m Reply :=
  match args with
  | [_] => pure (.simple (ascii "PONG"))
  | [_, msg] => pure (.bulk msg)
  | _ => pure (.error (ascii "ERR wrong number of arguments for 'ping' command"))

/-- `cmdFlushDB`. -/
def cmdFlushDB (_ : List Bytes) : Cmd n m Reply := do
  flush
  pure .ok

/-- `configGet`. -/
def configGet (r : Reloadable) (pattern : Bytes) : Reply :=
  if pattern = ascii "*" then .array (r.all.flatMap fun kv => [.bulk kv.1, .bulk kv.2])
  else
    match r.get (env.host.toLower pattern) with
    | some v => .array [.bulk (env.host.toLower pattern), .bulk v]
    | none => .array []

/-- `cmdConfig`. -/
def cmdConfig (args : List Bytes) : Cmd n m Reply := do
  match ← getSettings with
  | none => pure (.error (ascii "ERR CONFIG is unavailable"))
  | some r => do
      let arg1 ← arg args 1
      if env.host.toUpper arg1 = ascii "GET" then
        if args.length ≠ 3 then
          pure (.error (ascii "ERR wrong number of arguments for 'config|get' command"))
        else do
          let pattern ← arg args 2
          pure (configGet env r pattern)
      else if env.host.toUpper arg1 = ascii "SET" then
        if args.length ≠ 4 then
          pure (.error (ascii "ERR wrong number of arguments for 'config|set' command"))
        else do
          let name ← arg args 2
          let val ← arg args 3
          match r.set env.host (env.host.toLower name) val with
          | .error text => pure (.error (concat [ascii "ERR ", text]))
          | .ok r => do
              setSettings r
              pure .ok
      else pure (.error (concat [ascii "ERR unknown CONFIG subcommand '", arg1, ascii "'"]))

end Memcore
