import Memcore.Command.Effect

/-!
# What a command answers

The other half of what a command is for: the reply, from the abstract entries of its keys. A reply
whose order the source leaves to the iteration of a Go map is given as the set or the map it lists;
every other reply is given as it is.

`Command.answer` is the reply of a request; the handlers are tied to it in `Command/Replies`.
-/

namespace Memcore

open Go

/-! ## Replies without an order -/

/-- A reply, up to the order of what has none. -/
inductive AReply where
  | exact (r : Reply)
  /-- the members of a set, in any order -/
  | members (s : Finset Bytes)
  /-- the fields of a hash, each before its value, in any order -/
  | fields (m : GoMap Bytes)

namespace AReply

/-- The reply is one the command may give. -/
def Shows : AReply → Reply → Prop
  | .exact r, r' => r' = r
  | .members s, r' => ∃ xs : List Bytes, xs.Nodup ∧ xs.toFinset = s ∧ r' = .array (xs.map .bulk)
  | .fields m, r' => ∃ ps, Lists ps m ∧ r' = .array ((flatPairs ps).map .bulk)

def wrongType : AReply := .exact (.error msgWrongType)

def notInteger : AReply := .exact (.error msgNotInteger)

end AReply

/-! ## Counts -/

/-- How many of the fields are new when alternating fields and values are set, on top of `k`. -/
def fieldsAdded : List Bytes → GoMap Bytes → Int → Int
  | f :: v :: rest, m, k =>
    fieldsAdded rest (m.insert f v) (if (!(m.lookup f).isSome) = true then k + 1 else k)
  | _, _, k => k

/-- How many of the fields are there when they are deleted one by one, on top of `k`. -/
def fieldsRemoved : List Bytes → GoMap Bytes → Int → Int
  | [], _, k => k
  | f :: rest, m, k =>
    fieldsRemoved rest (m.erase f) (if (m.lookup f).isSome = true then k + 1 else k)

/-- How many of the members are new when they are added one by one, on top of `k`. -/
def membersAdded : List Bytes → Finset Bytes → Int → Int
  | [], _, k => k
  | x :: rest, m, k =>
    membersAdded rest (insert x m) (if decide (x ∉ m) = true then k + 1 else k)

/-- How many of the members are there when they are removed one by one, on top of `k`. -/
def membersRemoved : List Bytes → Finset Bytes → Int → Int
  | [], _, k => k
  | x :: rest, m, k =>
    membersRemoved rest (m.erase x) (if decide (x ∈ m) = true then k + 1 else k)

/-- How many of the members are new when their scores are set one by one, on top of `k`. -/
def scoresAdded (max : Thresholds) : List ZMember → List ZMember → Int → Int
  | [], _, k => k
  | e :: rest, es, k =>
    scoresAdded max rest (zput max e es)
      (if (zscore e.member es).isNone = true then k + 1 else k)

/-- The element a pop takes. -/
def popEnd (front : Bool) (xs : List Bytes) : Option Bytes :=
  if front then xs.head? else xs.getLast?

/-- The elements `count` pops take, in the order they come out. -/
def popsOf (front : Bool) (count : Nat) (xs : List Bytes) : List Bytes :=
  if front then xs.take count else xs.reverse.take count

/-! ## Single-key commands -/

namespace AReply

/-- A command on values of one kind: `absent` when there is no live entry. -/
def onKind {α : Type} (project : AVal → Option α) (absent : AReply) (present : α → AReply)
    (o : Option AEntry) : AReply :=
  match o with
  | none => absent
  | some e => (project e.value).elim wrongType present

end AReply

namespace AVal

def str? : AVal → Option Bytes
  | .str b => some b
  | _ => none

def list? : AVal → Option (List Bytes)
  | .list xs => some xs
  | _ => none

def hash? : AVal → Option (GoMap Bytes)
  | .hash m => some m
  | _ => none

def set? : AVal → Option (Finset Bytes)
  | .set m => some m
  | _ => none

def zset? : AVal → Option (List ZMember)
  | .zset es => some es
  | _ => none

end AVal

namespace Answer

open AReply

/-- The end of INCR and DECR. -/
def counted (cur delta : Int) : AReply :=
  match incremented cur delta with
  | none => .exact (.error (ascii "ERR increment or decrement would overflow"))
  | some k => .exact (.int k)

/-- INCR and DECR. -/
def incr (delta : Int) : Option AEntry → AReply :=
  onKind AVal.str? (counted 0 delta) fun b =>
    match parseInt b with
    | none => notInteger
    | some cur => counted cur delta

/-- EXPIRE and PEXPIREAT. -/
def expire (rest : List Bytes) (o : Option AEntry) : AReply :=
  match rest.head?.bind parseInt with
  | none => notInteger
  | some _ => .exact (.int (if o.isSome then 1 else 0))

/-- TTL: the seconds left, rounded. -/
def ttl (now : Time) (o : Option AEntry) : AReply :=
  match o with
  | none => .exact (.int (-2))
  | some e =>
    if !e.hasExpiry then .exact (.int (-1))
    else
      let ms := Int.tdiv (Time.sub e.expireAt now) (10 ^ 6)
      let ms := if ms < 0 then 0 else ms
      .exact (.int (Int.tdiv (ms + 500) 1000))

/-- LPOP and RPOP, unless they panic. -/
def pop (front : Bool) (name : Bytes) (rest : List Bytes) (o : Option AEntry) : AReply :=
  match rest with
  | [] => onKind AVal.list? (.exact .nil) (fun xs =>
    .exact (.bulk ((popEnd front xs).getD (Bytes.ofList [])))) o
  | [arg2] =>
    match parseInt arg2 with
    | none => notInteger
    | some count =>
      if count < 0 then .exact (.error (ascii "ERR value is out of range, must be positive"))
      else onKind AVal.list? (.exact .nil)
        (fun xs => .exact (.array ((popsOf front count.toNat xs).map .bulk))) o
  | _ => .exact (.error (concat
      [ascii "ERR wrong number of arguments for '", name, ascii "' command"]))

/-- LRANGE. -/
def lrange (rest : List Bytes) (o : Option AEntry) : AReply :=
  match rest with
  | arg2 :: arg3 :: _ =>
    match parseInt arg2, parseInt arg3 with
    | some start, some stop => onKind AVal.list? (.exact (.array []))
        (fun xs => .exact (.array ((rangeOf start stop xs).map .bulk))) o
    | _, _ => notInteger
  | _ => notInteger

/-- HSET. -/
def hset (rest : List Bytes) (o : Option AEntry) : AReply :=
  if rest.length % 2 = 0 then
    onKind AVal.hash? (.exact (.int (fieldsAdded rest ∅ 0)))
      (fun m => .exact (.int (fieldsAdded rest m 0))) o
  else .exact (.error (ascii "ERR wrong number of arguments for 'hset' command"))

/-- A reply that is a bulk or nothing. -/
def maybe (b : Option Bytes) : AReply := .exact (b.elim .nil .bulk)

/-- ZADD. -/
def zadd (host : Host) (lim : Limits) (rest : List Bytes) (o : Option AEntry) : AReply :=
  if rest.length % 2 = 0 then
    match parsePairs host rest [] with
    | none => .exact (.error (ascii "ERR value is not a valid float"))
    | some pairs => onKind AVal.zset? (.exact (.int (scoresAdded lim.zset pairs [] 0)))
        (fun es => .exact (.int (scoresAdded lim.zset pairs es 0))) o
  else .exact (.error (ascii "ERR wrong number of arguments for 'zadd' command"))

/-- The members of a range, with their scores when asked for. -/
def scored (host : Host) (withScores : Bool) (es : List ZMember) : List Reply :=
  if withScores then
    es.flatMap fun x => [.bulk x.member, .bulk (formatScore host x.score)]
  else es.map fun x => .bulk x.member

/-- ZRANGE, its options parsed. -/
def zrangeOf (host : Host) (arg2 arg3 : Bytes) (withScores : Bool) (o : Option AEntry) : AReply :=
  match parseInt arg2, parseInt arg3 with
  | some start, some stop => onKind AVal.zset? (.exact (.array []))
      (fun es => .exact (.array (scored host withScores (rangeOf start stop es)))) o
  | _, _ => notInteger

/-- ZRANGE. -/
def zrange (host : Host) (rest : List Bytes) (o : Option AEntry) : AReply :=
  match rest with
  | [arg2, arg3] => zrangeOf host arg2 arg3 false o
  | [arg2, arg3, option] =>
    if host.equalFold option (ascii "WITHSCORES") then zrangeOf host arg2 arg3 true o
    else .exact (.error (ascii "ERR syntax error"))
  | _ => .exact (.error (ascii "ERR syntax error"))

/-- The reply of the single-key command `cmd`, called `name` in the request, from the arguments
after the key and the live entry of the key. -/
def single (now : Time) (lim : Limits) (host : Host) (cmd name : Bytes) (rest : List Bytes)
    (o : Option AEntry) : AReply :=
  if cmd = ascii "get" then onKind AVal.str? (.exact .nil) (fun b => .exact (.bulk b)) o
  else if cmd = ascii "set" then .exact .ok
  else if cmd = ascii "incr" then incr 1 o
  else if cmd = ascii "decr" then incr (-1) o
  else if cmd = ascii "expire" then expire rest o
  else if cmd = ascii "pexpireat" then expire rest o
  else if cmd = ascii "ttl" then ttl now o
  else if cmd = ascii "persist" then .exact (.int (if o.any AEntry.hasExpiry then 1 else 0))
  else if cmd = ascii "type" then .exact (.simple (o.elim (ascii "none") fun e => e.value.kind.toBytes))
  else if cmd = ascii "lpush" then
    onKind AVal.list? (.exact (.int rest.length)) (fun xs => .exact (.int (xs.length + rest.length))) o
  else if cmd = ascii "rpush" then
    onKind AVal.list? (.exact (.int rest.length)) (fun xs => .exact (.int (xs.length + rest.length))) o
  else if cmd = ascii "lpop" then pop true name rest o
  else if cmd = ascii "rpop" then pop false name rest o
  else if cmd = ascii "lrange" then lrange rest o
  else if cmd = ascii "llen" then
    onKind AVal.list? (.exact (.int 0)) (fun xs => .exact (.int xs.length)) o
  else if cmd = ascii "hset" then hset rest o
  else if cmd = ascii "hget" then
    onKind AVal.hash? (.exact .nil) (fun m => maybe (rest.head?.bind m.lookup)) o
  else if cmd = ascii "hdel" then
    onKind AVal.hash? (.exact (.int 0)) (fun m => .exact (.int (fieldsRemoved rest m 0))) o
  else if cmd = ascii "hgetall" then onKind AVal.hash? (.exact (.array [])) .fields o
  else if cmd = ascii "sadd" then
    onKind AVal.set? (.exact (.int (membersAdded rest ∅ 0)))
      (fun m => .exact (.int (membersAdded rest m 0))) o
  else if cmd = ascii "srem" then
    onKind AVal.set? (.exact (.int 0)) (fun m => .exact (.int (membersRemoved rest m 0))) o
  else if cmd = ascii "smembers" then onKind AVal.set? (.exact (.array [])) .members o
  else if cmd = ascii "zadd" then zadd host lim rest o
  else if cmd = ascii "zrange" then zrange host rest o
  else onKind AVal.zset? (.exact .nil)
    (fun es => maybe ((rest.head?.bind fun x => zscore x es).map (formatScore host))) o

/-! ## Multi-key commands -/

/-- How many of the keys are live when they are removed one by one, on top of `k`. -/
def removed (now : Time) : List Bytes → ADB → Int → Int
  | [], _, k => k
  | key :: keys, a, k =>
    removed now keys (Function.update a key none)
      (if (liveAt now (a key)).isSome = true then k + 1 else k)

/-- How many of the keys are live, repetitions counted, on top of `k`. -/
def existing (now : Time) (a : ADB) : List Bytes → Int → Int
  | [], k => k
  | key :: keys, k =>
    existing now a keys (if (liveAt now (a key)).isSome = true then k + 1 else k)

/-- The sets under the keys, or the reply at the first key that holds none. -/
def sets (now : Time) (a : ADB) : List Bytes → Except AReply (List (Finset Bytes))
  | [] => .ok []
  | key :: keys =>
    match liveAt now (a key) with
    | none => .error (.exact (.array []))
    | some e =>
      match e.value.set? with
      | none => .error wrongType
      | some s => (sets now a keys).map (s :: ·)

/-- What all sets have in common. -/
def inter : List (Finset Bytes) → Finset Bytes
  | [] => ∅
  | s :: ss => ss.foldl (· ∩ ·) s

/-- The reply of the multi-key command `cmd`. -/
def multi (now : Time) (cmd : Bytes) (keys : List Bytes) (a : ADB) : AReply :=
  if cmd = ascii "del" ∨ cmd = ascii "unlink" then .exact (.int (removed now keys a 0))
  else if cmd = ascii "exists" then .exact (.int (existing now a keys 0))
  else
    match sets now a keys with
    | .error reply => reply
    | .ok ss => .members (inter ss)

end Answer

variable {n m : Nat}

/-- The reply of a request that names keys, from the selected database. -/
def Command.answer (now : Time) (lim : Limits) (host : Host) (cmd : Command n m)
    (args : List Bytes) (a : ADB) : AReply :=
  match args with
  | name :: key :: rest =>
    if cmd.singleKey then Answer.single now lim host cmd.name name rest (liveAt now (a key))
    else if cmd.wholeDB then .exact .ok
    else Answer.multi now cmd.name (key :: rest) a
  | _ => .exact .ok

/-! ## What an answer depends on

The live entries of the keys it names. -/

section Congr

variable {now : Time} {a b : ADB}

theorem removed_congr : ∀ (keys : List Bytes) (k : Int) {a b : ADB},
    (∀ key ∈ keys, liveAt now (a key) = liveAt now (b key)) →
    Answer.removed now keys a k = Answer.removed now keys b k
  | [], _, _, _, _ => rfl
  | key :: keys, k, a, b, h => by
      rw [Answer.removed, Answer.removed, h key List.mem_cons_self]
      refine removed_congr keys _ fun key' hk' => ?_
      by_cases heq : key' = key
      · subst heq
        rw [Function.update_self, Function.update_self]
      · rw [Function.update_of_ne heq, Function.update_of_ne heq]
        exact h key' (List.mem_cons_of_mem _ hk')

theorem existing_congr : ∀ (keys : List Bytes) (k : Int),
    (∀ key ∈ keys, liveAt now (a key) = liveAt now (b key)) →
    Answer.existing now a keys k = Answer.existing now b keys k
  | [], _, _ => rfl
  | key :: keys, k, h => by
      rw [Answer.existing, Answer.existing, h key List.mem_cons_self]
      exact existing_congr keys _ fun key' hk' => h key' (List.mem_cons_of_mem _ hk')

theorem sets_congr : ∀ keys : List Bytes,
    (∀ key ∈ keys, liveAt now (a key) = liveAt now (b key)) →
    Answer.sets now a keys = Answer.sets now b keys
  | [], _ => rfl
  | key :: keys, h => by
      rw [Answer.sets, Answer.sets, h key List.mem_cons_self,
        sets_congr keys fun key' hk' => h key' (List.mem_cons_of_mem _ hk')]

/-- The first key that holds no set ends SINTER in one of two ways. -/
theorem sets_error {reply : AReply} : ∀ {keys : List Bytes}, Answer.sets now a keys = .error reply →
    reply = .exact (.array []) ∨ reply = .wrongType
  | key :: keys, h => by
      rw [Answer.sets] at h
      split at h
      · cases h
        exact .inl rfl
      · split at h
        · cases h
          exact .inr rfl
        · cases hrest : Answer.sets now a keys with
          | error reply' =>
            rw [hrest] at h
            cases h
            exact sets_error hrest
          | ok ss =>
            rw [hrest] at h
            cases h

theorem multi_congr {cmd : Bytes} {keys : List Bytes}
    (h : ∀ key ∈ keys, liveAt now (a key) = liveAt now (b key)) :
    Answer.multi now cmd keys a = Answer.multi now cmd keys b := by
  unfold Answer.multi
  rw [removed_congr keys 0 h, existing_congr keys 0 h, sets_congr keys h]

end Congr

/-! ## Which answers have an order -/

/-- A reply with an order. -/
def AReply.IsExact : AReply → Prop
  | .exact _ => True
  | .members _ | .fields _ => False

theorem onKind_isExact {β : Type} {project : AVal → Option β} {absent : AReply}
    {present : β → AReply} {o : Option AEntry} (habsent : absent.IsExact)
    (hpresent : ∀ x, (present x).IsExact) :
    (AReply.onKind project absent present o).IsExact := by
  unfold AReply.onKind
  split
  · exact habsent
  · next e =>
    cases project e.value with
    | none => trivial
    | some x => exact hpresent x

theorem counted_isExact (cur delta : Int) : (Answer.counted cur delta).IsExact := by
  unfold Answer.counted
  split <;> trivial

theorem ite_isExact {p : Prop} [Decidable p] {x y : AReply} (hx : p → x.IsExact)
    (hy : y.IsExact) : (if p then x else y).IsExact := by
  split
  · next h => exact hx h
  · exact hy

theorem single_isExact {lim : Limits} {host : Host} {cmd name : Bytes} {rest : List Bytes}
    {now : Time} {o : Option AEntry} (hgetall : cmd ≠ ascii "hgetall") (smembers : cmd ≠ ascii "smembers") :
    (Answer.single now lim host cmd name rest o).IsExact := by
  have hpop (front : Bool) : (Answer.pop front name rest o).IsExact := by
    unfold Answer.pop
    repeat' split
    all_goals first | trivial | exact onKind_isExact trivial fun _ => trivial
  have hincr (delta : Int) : (Answer.incr delta o).IsExact :=
    onKind_isExact (counted_isExact 0 delta) fun b => by
      split
      · trivial
      · exact counted_isExact _ delta
  have hexpire : (Answer.expire rest o).IsExact := by
    unfold Answer.expire
    split <;> trivial
  have httl : (Answer.ttl now o).IsExact := by
    unfold Answer.ttl
    split
    · trivial
    · exact ite_isExact (fun _ => trivial) trivial
  have hlrange : (Answer.lrange rest o).IsExact := by
    unfold Answer.lrange
    repeat' split
    all_goals first | trivial | exact onKind_isExact trivial fun _ => trivial
  have hzadd : (Answer.zadd host lim rest o).IsExact := by
    unfold Answer.zadd
    refine ite_isExact (fun _ => ?_) trivial
    split
    · trivial
    · exact onKind_isExact trivial fun _ => trivial
  have hzrangeOf (arg2 arg3 : Bytes) (scores : Bool) :
      (Answer.zrangeOf host arg2 arg3 scores o).IsExact := by
    unfold Answer.zrangeOf
    split
    · exact onKind_isExact trivial fun _ => trivial
    · trivial
  have hzrange : (Answer.zrange host rest o).IsExact := by
    unfold Answer.zrange
    split
    · exact hzrangeOf _ _ _
    · exact ite_isExact (fun _ => hzrangeOf _ _ _) trivial
    · trivial
  have hkind {β : Type} {project : AVal → Option β} {absent : Reply} {present : β → Reply} :
      (AReply.onKind project (.exact absent) (fun x => .exact (present x)) o).IsExact :=
    onKind_isExact trivial fun _ => trivial
  unfold Answer.single
  -- the commands in the order of the table
  refine ite_isExact (fun _ => hkind) (ite_isExact (fun _ => trivial) ?_)
  refine ite_isExact (fun _ => hincr 1) (ite_isExact (fun _ => hincr (-1)) ?_)
  refine ite_isExact (fun _ => hexpire) (ite_isExact (fun _ => hexpire) ?_)
  refine ite_isExact (fun _ => httl) (ite_isExact (fun _ => trivial) ?_)
  refine ite_isExact (fun _ => trivial) ?_
  refine ite_isExact (fun _ => hkind) (ite_isExact (fun _ => hkind) ?_)
  refine ite_isExact (fun _ => hpop true) (ite_isExact (fun _ => hpop false) ?_)
  refine ite_isExact (fun _ => hlrange) (ite_isExact (fun _ => hkind) ?_)
  refine ite_isExact (fun _ => ite_isExact (fun _ => hkind) trivial) ?_
  refine ite_isExact (fun _ => onKind_isExact trivial fun _ => trivial) ?_
  refine ite_isExact (fun _ => hkind) (ite_isExact (fun h => absurd h hgetall) ?_)
  refine ite_isExact (fun _ => hkind) (ite_isExact (fun _ => hkind) ?_)
  refine ite_isExact (fun h => absurd h smembers) ?_
  refine ite_isExact (fun _ => hzadd) (ite_isExact (fun _ => hzrange) ?_)
  exact onKind_isExact trivial fun _ => trivial

end Memcore
