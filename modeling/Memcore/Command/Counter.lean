import Memcore.Command.Deadline
import Memcore.Lib.Run

/-!
# Counters

INCR and DECR keep an integer as decimal text under a key. `counter` is the integer such a request
finds: 0 under a key that is absent or hidden, and nothing under a value that is no integer. A
request adds or subtracts one exactly, or answers an error and changes nothing
(`CounterOp.outcome`), and so does any sequence of them.
-/

namespace Memcore

open Go Prog Cmd

variable {n m : Nat}

/-- The integer a value is the text of. -/
def Value.integer : Value → Option Int
  | .str b => parseInt b
  | _ => Option.none

/-- The integer a request at `env.now` finds under `key`. -/
def counter (env : Env m) (key : Bytes) (c : Context n m) : Option Int :=
  match (c.db (env.route key)).lookup env.now key with
  | none => some 0
  | some e => e.value.integer

/-- The two requests. -/
inductive CounterOp where
  | incr
  | decr
deriving DecidableEq

namespace CounterOp

def delta : CounterOp → Int
  | incr => 1
  | decr => -1

def handler (env : Env m) : CounterOp → List Bytes → Cmd n m Reply
  | incr => cmdIncr env
  | decr => cmdDecr env

/-- What a request does in `c`. Either it finds no integer, or none to which it can add, and then it
answers an error and leaves the session as it was; or it answers the sum and stores a text of it. -/
def Outcome (op : CounterOp) (env : Env m) (key : Bytes) (c : Context n m)
    (out : Except Panic Reply × Context n m) : Prop :=
  ((∀ cur, counter env key c = some cur → ¬ IsInt64 (cur + op.delta)) ∧
    ∃ msg, out = (.ok (.error msg), c)) ∨
  ∃ cur, counter env key c = some cur ∧ IsInt64 (cur + op.delta) ∧
    out.1 = .ok (.int (cur + op.delta)) ∧
    ∃ b e, (out.2.db (env.route key)).lookup env.now key = some e ∧ e.value = .str b ∧
      parseInt b = some (cur + op.delta)

end CounterOp

/-! ## One request -/

theorem Value.integer_of_kind {v : Value} (h : v.kind ≠ .string) : v.integer = Option.none := by
  cases v with
  | str b => exact absurd rfl h
  | none | list l | hash h | set s | zset z => rfl

theorem Value.eq_str_of_kind {v : Value} (h : v.kind = .string) : ∃ b, v = .str b := by
  cases v with
  | str b => exact ⟨b, rfl⟩
  | none | list l | hash h | set s | zset z => cases h

/-- The two comparisons of the overflow check, for a step of one. -/
theorem CounterOp.overflow_iff (op : CounterOp) {cur : Int} (hcur : IsInt64 cur) :
    (0 < op.delta ∧ maxInt64 - op.delta < cur) ∨ (op.delta < 0 ∧ cur < minInt64 - op.delta) ↔
      ¬ IsInt64 (cur + op.delta) := by
  obtain ⟨hlo, hhi⟩ := hcur
  unfold IsInt64 at *
  cases op with
  | incr => simp only [delta]; omega
  | decr => simp only [delta]; omega

section

variable {env : Env m} {c : Context n m} {key : Bytes} {cur : Int}

/-- The end of a request that is not turned down: the text of the sum is stored, and it is live. A
deadline that an entry had, it keeps. -/
theorem incrStore_stores (op : CounterOp) (hcur : IsInt64 cur)
    (hsum : IsInt64 (cur + op.delta)) {o : Option Entry}
    (ho : (c.db (env.route key)).lookup env.now key = o) :
    ∃ c' e, incrStore env key o cur op.delta c = (.ok (.int (cur + op.delta)), c') ∧
      (c'.db (env.route key)).lookup env.now key = some e ∧
      e.value = .str (formatInt (cur + op.delta)) := by
  unfold incrStore
  rw [if_neg (mt (op.overflow_iff hcur).mp (not_not.mpr hsum))]
  cases o with
  | none =>
    refine ⟨c.setDB (Function.update c.db (env.route key) ((c.db (env.route key)).set key _)),
      ⟨.str (formatInt (cur + op.delta)), zeroTime⟩, rfl, ?_, rfl⟩
    rw [Context.setDB_db, Function.update_self]
    simp [Keyspace.lookup, Keyspace.peek, Keyspace.set, Entry.expired, Entry.hasExpiry,
      Time.isZero]
  | some e =>
    have hlive : e.expired env.now = false := by
      unfold Keyspace.lookup Keyspace.peek at ho
      split at ho
      next => cases ho
      next e' _ =>
        split at ho
        next => cases ho
        next hx =>
          cases ho
          exact Bool.eq_false_iff.mpr hx
    refine ⟨c.setDB (Function.update c.db (env.route key) ((c.db (env.route key)).setEntry key _)),
      { e with value := .str (formatInt (cur + op.delta)) }, rfl, ?_, rfl⟩
    rw [Context.setDB_db, Function.update_self]
    have hkeeps : Entry.expired { e with value := .str (formatInt (cur + op.delta)) } env.now
        = false := hlive
    simp [Keyspace.lookup, Keyspace.peek, Keyspace.setEntry, hkeeps]

theorem incrStore_outcome (op : CounterOp) (hcur : IsInt64 cur) {o : Option Entry}
    (ho : (c.db (env.route key)).lookup env.now key = o) (hcounter : counter env key c = some cur) :
    op.Outcome env key c (incrStore env key o cur op.delta c) := by
  by_cases hsum : IsInt64 (cur + op.delta)
  · obtain ⟨c', e, hrun, hentry, hvalue⟩ := incrStore_stores op hcur hsum ho
    rw [hrun]
    exact .inr ⟨cur, hcounter, hsum, rfl, _, e, hentry, hvalue,
      parseInt_formatInt hsum.1 hsum.2⟩
  · refine .inl ⟨fun cur' hcur' => ?_, ascii "ERR increment or decrement would overflow", ?_⟩
    · obtain rfl : cur = cur' := Option.some.inj (hcounter.symm.trans hcur')
      exact hsum
    · unfold incrStore
      rw [if_pos ((op.overflow_iff hcur).mpr hsum)]
      rfl

end

/-- **The step lemma**: one request, in any session. -/
theorem CounterOp.outcome (op : CounterOp) (env : Env m) (name key : Bytes) (c : Context n m) :
    op.Outcome env key c (op.handler env [name, key] c) := by
  have hhandler : op.handler env [name, key] c = incrBy env key op.delta c := by
    cases op <;> rfl
  rw [hhandler]
  have hread : Cmd.lookup env key c
      = (.ok ((c.db (env.route key)).lookup env.now key), c) := rfl
  unfold incrBy withKind
  rw [bind_apply_ok hread]
  cases ho : (c.db (env.route key)).lookup env.now key with
  | none => exact incrStore_outcome op (by unfold IsInt64; decide) ho (by simp [counter, ho])
  | some e =>
    have hcounter : counter env key c = e.value.integer := by simp [counter, ho]
    have hnone (h : e.value.integer = none) (cur : Int) (hcur : counter env key c = some cur) :
        ¬ IsInt64 (cur + op.delta) := by
      rw [hcounter, h] at hcur
      cases hcur
    simp only
    split
    next hkind => exact .inl ⟨hnone (Value.integer_of_kind hkind), msgWrongType, rfl⟩
    next hkind =>
      obtain ⟨b, hb⟩ := Value.eq_str_of_kind (not_not.mp hkind)
      simp only [hb, Value.getStr, lift_ok_bind]
      cases hparse : parseInt b with
      | none =>
        have hint : e.value.integer = none := by rw [hb]; exact hparse
        exact .inl ⟨hnone hint, msgNotInteger, rfl⟩
      | some cur =>
        have hint : e.value.integer = some cur := by rw [hb]; exact hparse
        exact incrStore_outcome op (parseInt_int64 hparse) ho (hcounter.trans hint)

/-! ## Sequences of requests -/

/-- In `c` the request is answered with `ev.2` and leaves `c'`. -/
def Counts (env : Env m) (name key : Bytes) (c : Context n m) (ev : CounterOp × Reply)
    (c' : Context n m) : Prop :=
  ev.1.handler env [name, key] c = (.ok ev.2, c')

/-- How many requests of this kind were not answered with an error. -/
def succeeded (op : CounterOp) (evs : List (CounterOp × Reply)) : Nat :=
  evs.countP fun ev => decide (ev.1 = op) && !ev.2.isError

/-- What a request that was answered with `reply` has added. -/
def CounterOp.added (ev : CounterOp × Reply) : Int := if ev.2.isError then 0 else ev.1.delta

theorem succeeded_snoc (evs : List (CounterOp × Reply)) (ev : CounterOp × Reply) :
    (succeeded .incr (evs ++ [ev]) : Int) - succeeded .decr (evs ++ [ev]) =
      succeeded .incr evs - succeeded .decr evs + CounterOp.added ev := by
  obtain ⟨op, reply⟩ := ev
  cases hr : reply.isError with
  | true => simp [succeeded, List.countP_append, CounterOp.added, hr]
  | false =>
    cases op with
    | incr =>
      simp [succeeded, List.countP_append, CounterOp.added, CounterOp.delta, hr]
      omega
    | decr =>
      simp [succeeded, List.countP_append, CounterOp.added, CounterOp.delta, hr]
      omega

/-- One request moves the counter by what it has added. -/
theorem Counts.counter_eq {env : Env m} {name key : Bytes} {c c' : Context n m}
    {ev : CounterOp × Reply} (h : Counts env name key c ev c') :
    counter env key c' = (counter env key c).map (· + CounterOp.added ev) ∧
      (counter env key c = none → c' = c) := by
  obtain ⟨op, reply⟩ := ev
  have hout := op.outcome env name key c
  rw [show op.handler env [name, key] c = (.ok reply, c') from h] at hout
  rcases hout with ⟨-, msg, herr⟩ | ⟨cur, hcur, -, hreply, b, e, he, hb, hparse⟩
  · cases herr
    refine ⟨?_, fun _ => rfl⟩
    cases counter env key c <;> simp [CounterOp.added, Reply.isError]
  · cases hreply
    refine ⟨?_, fun hnone => absurd (hnone.symm.trans hcur) (by simp)⟩
    rw [hcur]
    simp [counter, he, hb, Value.integer, hparse, CounterOp.added, Reply.isError]

/-- The run lemma. -/
theorem counter_run {env : Env m} {name key : Bytes} {c c' : Context n m}
    {evs : List (CounterOp × Reply)} (hrun : Run (Counts env name key) c evs c') :
    counter env key c' =
        (counter env key c).map (· + ((succeeded .incr evs : Int) - succeeded .decr evs)) ∧
      (counter env key c = none → c' = c) := by
  induction hrun with
  | nil =>
    refine ⟨?_, fun _ => rfl⟩
    cases counter env key c <;> simp [succeeded]
  | snoc _ hlast ih =>
    obtain ⟨hvalue, hsame⟩ := hlast.counter_eq
    refine ⟨?_, fun hnone => ?_⟩
    · rw [hvalue, ih.1, Option.map_map, succeeded_snoc]
      congr 1
      funext v
      simp only [Function.comp_apply]
      omega
    · obtain rfl := ih.2 hnone
      exact hsame hnone

/-- **INCR and DECR are exact counters.** In every session each request either adds its one to the
integer it finds, without wrapping, and stores a text that parses back to its reply, or answers an
error and changes nothing; it answers an error exactly when it finds no integer or the sum is no
`int64`. After any sequence of them at one reading of the clock the integer is the first one, plus
the INCRs that succeeded, minus the DECRs that did; where there is no integer, nothing changes. -/
theorem counter_exact (env : Env m) (name key : Bytes) :
    (∀ (op : CounterOp) (c : Context n m),
      op.Outcome env key c (op.handler env [name, key] c)) ∧
    ∀ (c c' : Context n m) (evs : List (CounterOp × Reply)),
      Run (Counts env name key) c evs c' →
      (∀ v, counter env key c = some v →
        counter env key c' = some (v + succeeded .incr evs - succeeded .decr evs)) ∧
      (counter env key c = none → c' = c) := by
  refine ⟨fun op c => op.outcome env name key c, fun c c' evs hrun => ?_⟩
  obtain ⟨hvalue, hsame⟩ := counter_run hrun
  refine ⟨fun v hv => ?_, hsame⟩
  rw [hvalue, hv, Option.map_some, Int.add_sub_assoc]

/-- A fresh key, two INCRs and a DECR. -/
theorem counter_exact_fresh : ∃ c' : Context 1 1,
    Run (Counts (Env.single 0) (ascii "INCR") (ascii "n")) keyed
      [(.incr, .int 1), (.incr, .int 2), (.decr, .int 1)] c' ∧
    counter (Env.single 0) (ascii "n") c' = some 1 := by
  have hrun : Run (Counts (Env.single 0) (ascii "INCR") (ascii "n")) keyed
      [(.incr, .int 1), (.incr, .int 2), (.decr, .int 1)] _ :=
    (((Run.nil keyed).snoc (show Counts (Env.single 0) (ascii "INCR") (ascii "n") keyed
      (.incr, .int 1) _ from rfl)).snoc (show Counts (Env.single 0) (ascii "INCR") (ascii "n") _
      (.incr, .int 2) _ from rfl)).snoc (show Counts (Env.single 0) (ascii "INCR") (ascii "n") _
      (.decr, .int 1) _ from rfl)
  exact ⟨_, hrun, ((counter_exact (Env.single 0) (ascii "INCR") (ascii "n")).2 _ _ _ hrun).1 0
    (by decide +kernel)⟩

end Memcore
