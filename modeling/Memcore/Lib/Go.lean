import Mathlib.Data.List.Basic
import Mathlib.Data.Int.Basic
import Mathlib.Tactic.Ring

/-!
# The parts of Go the model rests on

Byte slices that fit in memory, run-time panics, decimal integers (`strconv`) and instants
(`time`). Nothing here is about one program.

* `Bytes` is a Go byte slice (or string): a list of bytes together with the fact that it was
  allocated, so its length is at most `maxAlloc`. Every length a Go program takes of such a slice
  therefore fits an `int`, and no statement about slices has to say so again.
* `Go α` is a computation that may panic.
* `Time` is the number of nanoseconds since the Unix epoch. The zero `time.Time` is the first
  instant of year 1, `zeroTime`; `UnixNano` and `UnixMilli` wrap to 64 bits as Go's do.
-/

namespace Go

/-! ## Allocation -/

/-- The largest allocation Go's runtime makes on a 64-bit platform, in bytes; `make` panics on a
request above it. -/
def maxAlloc : Nat := 2 ^ 48

/-- The run-time panics the modelled code can raise. `diverge` stands for a loop that does not end. -/
inductive Panic where
  | indexOutOfRange
  | nilDereference
  | wrongKind
  | makeslice
  | diverge
  deriving Repr, DecidableEq

/-- A computation that may panic. -/
abbrev Result := Except Panic

/-- `make([]T, n)` with elements of `size` bytes: panics when the allocation is out of range. -/
def makeSlice (size n : Nat) : Result Unit :=
  if n * size ≤ maxAlloc then .ok () else .error .makeslice

/-- The size of a slice header, the element size of a `[][]byte`. -/
def sliceHeader : Nat := 24

/-! ## Byte slices -/

/-- A byte slice or string in memory. -/
structure Bytes where
  data : List UInt8
  inMem : data.length ≤ maxAlloc
  deriving DecidableEq

@[ext] theorem Bytes.ext {a b : Bytes} (h : a.data = b.data) : a = b := by
  cases a; cases b; cases h; rfl

def Bytes.len (b : Bytes) : Nat := b.data.length

theorem Bytes.len_lt (b : Bytes) : b.len < 2 ^ 64 :=
  Nat.lt_of_le_of_lt b.inMem (by decide)

def Bytes.ofList (l : List UInt8) : Bytes :=
  ⟨l.take maxAlloc, by rw [List.length_take]; exact Nat.min_le_left _ _⟩

theorem Bytes.ofList_data {l : List UInt8} (h : l.length ≤ maxAlloc) :
    (Bytes.ofList l).data = l := List.take_of_length_le h

@[simp] theorem Bytes.ofList_self (b : Bytes) : Bytes.ofList b.data = b :=
  Bytes.ext (Bytes.ofList_data b.inMem)

theorem Bytes.take_len_append (b : Bytes) (rest : List UInt8) :
    (b.data ++ rest).take b.len = b.data := List.take_left' rfl

theorem Bytes.drop_len_append (b : Bytes) (rest : List UInt8) :
    (b.data ++ rest).drop b.len = rest := List.drop_left' rfl

instance : Inhabited Bytes := ⟨⟨[], Nat.zero_le _⟩⟩

/-- The bytes of an ASCII string constant. -/
def ascii (s : String) : Bytes := Bytes.ofList (s.toList.map fun c => c.toNat.toUInt8)

/-- The byte of an ASCII character constant. -/
def byte (c : Char) : UInt8 := c.toNat.toUInt8

/-- A line feed. -/
def lf : UInt8 := 10

/-- A carriage return. -/
def cr : UInt8 := 13

/-- The end of a line of a text protocol. -/
def crlf : List UInt8 := [cr, lf]

/-- The text is one line. -/
def Bytes.OneLine (s : Bytes) : Prop := lf ∉ s.data

instance (s : Bytes) : Decidable s.OneLine := inferInstanceAs (Decidable (lf ∉ s.data))

/-- Go's `<` on strings: lexicographic in the bytes. -/
def Bytes.less (a b : Bytes) : Bool := decide (a.data < b.data)

theorem Bytes.less_iff {a b : Bytes} : a.less b = true ↔ a.data < b.data := by
  simp [Bytes.less]

theorem Bytes.less_irrefl (a : Bytes) : a.less a = false := by
  simp [Bytes.less, List.lt_irrefl]

theorem Bytes.less_trans {a b c : Bytes} (h₁ : a.less b = true) (h₂ : b.less c = true) :
    a.less c = true :=
  less_iff.mpr (List.lt_trans (less_iff.mp h₁) (less_iff.mp h₂))

theorem Bytes.less_total {a b : Bytes} (h : a ≠ b) : a.less b = true ∨ b.less a = true := by
  by_contra hno
  simp only [not_or, less_iff] at hno
  have hba : b.data ≤ a.data := List.not_lt.mp hno.1
  have hab : a.data ≤ b.data := List.not_lt.mp hno.2
  exact h (Bytes.ext (List.le_antisymm hab hba))

/-- `args[i]`. -/
def index {α : Type} (l : List α) (i : Nat) : Result α :=
  match l[i]? with
  | some a => .ok a
  | none => .error .indexOutOfRange

/-- `args[i:]`. -/
def sliceFrom {α : Type} (l : List α) (i : Nat) : Result (List α) :=
  if i ≤ l.length then .ok (l.drop i) else .error .indexOutOfRange

/-! ## Decimal integers -/

def minInt64 : Int := -2 ^ 63
def maxInt64 : Int := 2 ^ 63 - 1

/-- The number is an `int64`. -/
def IsInt64 (n : Int) : Prop := minInt64 ≤ n ∧ n ≤ maxInt64

instance (n : Int) : Decidable (IsInt64 n) := inferInstanceAs (Decidable (_ ∧ _))

/-- One digit of `strconv.ParseUint` in base 10. -/
def parseDigit (acc : Nat) (c : UInt8) : Option Nat :=
  if 48 ≤ c.toNat ∧ c.toNat ≤ 57 then some (acc * 10 + (c.toNat - 48)) else none

/-- A non-empty run of decimal digits. -/
def parseDigits : List UInt8 → Option Nat
  | [] => none
  | l => l.foldlM parseDigit 0

/-- An optional `+` or `-`, then decimal digits. -/
def parseSigned : List UInt8 → Option Int
  | [] => none
  | c :: rest =>
    if c = 43 then (parseDigits rest).map Int.ofNat
    else if c = 45 then (parseDigits rest).map fun n => -(n : Int)
    else (parseDigits (c :: rest)).map Int.ofNat

/-- `strconv.ParseInt(s, 10, 64)`, which is also `strconv.Atoi` where `int` has 64 bits. -/
def parseInt (s : Bytes) : Option Int :=
  match parseSigned s.data with
  | some v => if minInt64 ≤ v ∧ v ≤ maxInt64 then some v else none
  | none => none

/-- The decimal digits of `n` in front of `acc`, `k` of them at most. -/
def formatAux : Nat → Nat → List UInt8 → List UInt8
  | 0, _, acc => acc
  | k + 1, n, acc =>
    if n < 10 then (n + 48).toUInt8 :: acc
    else formatAux k (n / 10) ((n % 10 + 48).toUInt8 :: acc)

/-- `strconv.FormatInt(v, 10)`. -/
def formatInt (v : Int) : Bytes :=
  if v < 0 then Bytes.ofList (45 :: formatAux 20 v.natAbs [])
  else Bytes.ofList (formatAux 20 v.natAbs [])

theorem formatAux_eq_append : ∀ (k n : Nat) (acc : List UInt8),
    formatAux k n acc = formatAux k n [] ++ acc
  | 0, _, acc => by simp [formatAux]
  | k + 1, n, acc => by
      rw [formatAux, formatAux]
      split
      · simp
      · rw [formatAux_eq_append k _ (_ :: acc), formatAux_eq_append k _ [_]]
        simp

theorem formatAux_length_le : ∀ (k n : Nat), (formatAux k n []).length ≤ k
  | 0, _ => by simp [formatAux]
  | k + 1, n => by
      rw [formatAux]
      split
      · simp
      · rw [formatAux_eq_append]
        have := formatAux_length_le k (n / 10)
        simp
        omega

theorem parseDigit_ofNat {acc d : Nat} (h : d < 10) :
    parseDigit acc (d + 48).toUInt8 = some (acc * 10 + d) := by
  have hb : (d + 48).toUInt8.toNat = d + 48 := by simp; omega
  rw [parseDigit, hb, if_pos (by omega)]
  congr 2

/-- Digits written in front of an accumulator are read before it. -/
theorem foldlM_formatAux : ∀ (k n : Nat), n < 10 ^ k → 0 < k →
    (formatAux k n []).foldlM parseDigit 0 = some n
  | 0, _, _, hk => absurd hk (Nat.lt_irrefl 0)
  | k + 1, n, h, _ => by
      rw [formatAux]
      split
      · next hlt =>
          rw [List.foldlM_cons, parseDigit_ofNat hlt]
          simp
      · next hge =>
          have hk : 0 < k := by
            rcases Nat.eq_zero_or_pos k with rfl | hk
            · exact absurd h (by omega)
            · exact hk
          have hdiv : n / 10 < 10 ^ k := by
            rw [Nat.div_lt_iff_lt_mul (by decide)]
            rwa [Nat.pow_succ] at h
          rw [formatAux_eq_append, List.foldlM_append, foldlM_formatAux k _ hdiv hk]
          simp only [List.foldlM_cons, List.foldlM_nil, Option.bind_eq_bind, Option.bind_some,
            parseDigit_ofNat (Nat.mod_lt n (by decide : 0 < 10))]
          show some _ = _
          congr 1
          omega

/-- The text starts with a digit, so never with a sign. -/
theorem formatAux_head : ∀ (k n : Nat), 0 < k →
    ∃ d rest, formatAux k n [] = d :: rest ∧ 48 ≤ d.toNat ∧ d.toNat ≤ 57
  | 0, _, hk => absurd hk (Nat.lt_irrefl 0)
  | 1, n, _ => by
      rw [formatAux]
      split
      · exact ⟨_, _, rfl, by simp; omega, by simp; omega⟩
      · exact ⟨_, _, rfl, by simp; omega, by simp; omega⟩
  | k + 2, n, _ => by
      rw [formatAux]
      split
      · exact ⟨_, _, rfl, by simp; omega, by simp; omega⟩
      · obtain ⟨d, rest, he, hlo, hhi⟩ := formatAux_head (k + 1) (n / 10) (by omega)
        rw [formatAux_eq_append, he]
        exact ⟨d, _, rfl, hlo, hhi⟩

theorem formatAux_digits : ∀ (k n : Nat), ∀ b ∈ formatAux k n [], 48 ≤ b.toNat ∧ b.toNat ≤ 57
  | 0, _, _, h => by cases h
  | k + 1, n, b, h => by
      rw [formatAux] at h
      split at h
      · next hlt =>
          rw [List.mem_singleton.mp h]
          simp
          omega
      · rw [formatAux_eq_append, List.mem_append] at h
        rcases h with h | h
        · exact formatAux_digits k (n / 10) b h
        · rw [List.mem_singleton.mp h]
          simp
          omega

theorem formatInt_length_le (v : Int) : (formatInt v).data.length ≤ 21 := by
  have hlen := formatAux_length_le 20 v.natAbs
  unfold formatInt
  split
  · refine (List.length_take_le' _ _).trans ?_
    rw [List.length_cons]
    omega
  · exact (List.length_take_le' _ _).trans (by omega)

/-- Decimal text stays on its line. -/
theorem formatInt_oneLine (v : Int) : (formatInt v).OneLine := by
  have hdigit : ∀ b ∈ formatAux 20 v.natAbs [], b ≠ lf := by
    rintro b hb rfl
    exact absurd (formatAux_digits 20 _ _ hb).1 (by decide)
  have hlen := formatAux_length_le 20 v.natAbs
  unfold Bytes.OneLine formatInt
  split
  · rw [Bytes.ofList_data (by simp [maxAlloc]; omega)]
    intro h
    rcases List.mem_cons.mp h with h | h
    · exact absurd h (by decide)
    · exact hdigit lf h rfl
  · rw [Bytes.ofList_data (by simp [maxAlloc]; omega)]
    exact fun h => hdigit lf h rfl

theorem parseDigits_formatAux {n : Nat} (h : n < 10 ^ 20) :
    parseDigits (formatAux 20 n []) = some n := by
  obtain ⟨d, rest, he, -, -⟩ := formatAux_head 20 n (by decide)
  have := foldlM_formatAux 20 n h (by decide)
  rw [he] at this ⊢
  exact this

theorem foldlM_parseDigit_oneLine {l : List UInt8} {acc n : Nat}
    (h : l.foldlM parseDigit acc = some n) : lf ∉ l := by
  induction l generalizing acc with
  | nil => nofun
  | cons c cs ih =>
    rw [List.foldlM_cons] at h
    obtain ⟨acc', hc, hcs⟩ := Option.bind_eq_some_iff.mp h
    intro hmem
    rcases List.mem_cons.mp hmem with rfl | hmem
    · have hnone : parseDigit acc lf = none := rfl
      cases hnone.symm.trans hc
    · exact ih hcs hmem

/-- What parses as a number is a line. -/
theorem parseInt_oneLine {b : Bytes} {n : Int} (h : parseInt b = some n) : b.OneLine := by
  have hdigits {l : List UInt8} {k : Nat} (hl : parseDigits l = some k) : lf ∉ l := by
    cases l with
    | nil => nofun
    | cons d ds => exact foldlM_parseDigit_oneLine hl
  have hsigned : ∃ v, parseSigned b.data = some v := by
    unfold parseInt at h
    split at h
    next v hv => exact ⟨v, hv⟩
    next => cases h
  obtain ⟨v, hv⟩ := hsigned
  unfold Bytes.OneLine
  cases hb : b.data with
  | nil => nofun
  | cons c cs =>
    rw [hb, parseSigned] at hv
    split at hv
    next hc =>
      obtain ⟨k, hk, -⟩ := Option.map_eq_some_iff.mp hv
      rw [hc, List.mem_cons, not_or]
      exact ⟨by decide, hdigits hk⟩
    next =>
      split at hv
      next hc =>
        obtain ⟨k, hk, -⟩ := Option.map_eq_some_iff.mp hv
        obtain ⟨j, hj, -⟩ := Option.bind_eq_some_iff.mp hk
        rw [hc, List.mem_cons, not_or]
        exact ⟨by decide, hdigits hj⟩
      next =>
        obtain ⟨k, hk, -⟩ := Option.map_eq_some_iff.mp hv
        exact hdigits hk

theorem parseInt_int64 {b : Bytes} {n : Int} (h : parseInt b = some n) : IsInt64 n := by
  unfold parseInt at h
  split at h
  next =>
    split at h
    next hrange =>
      cases h
      exact hrange
    next => cases h
  next => cases h

/-- **Formatting then parsing is the identity** on the whole of `int64`. -/
theorem parseInt_formatInt {v : Int} (hlo : minInt64 ≤ v) (hhi : v ≤ maxInt64) :
    parseInt (formatInt v) = some v := by
  have habs : v.natAbs < 10 ^ 20 := by
    simp only [minInt64, maxInt64] at hlo hhi
    omega
  have hlen := formatAux_length_le 20 v.natAbs
  unfold formatInt
  split
  · next hneg =>
      rw [parseInt, Bytes.ofList_data (by simp [maxAlloc]; omega)]
      have hv : -(v.natAbs : Int) = v := by omega
      have hsigned : parseSigned (45 :: formatAux 20 v.natAbs []) = some v := by
        rw [parseSigned, if_neg (by decide), if_pos rfl, parseDigits_formatAux habs]
        exact congrArg some hv
      simp only [hsigned]
      exact if_pos ⟨hlo, hhi⟩
  · next hpos =>
      rw [parseInt, Bytes.ofList_data (by simp [maxAlloc]; omega)]
      have hv : (v.natAbs : Int) = v := by omega
      obtain ⟨d, rest, he, h48, h57⟩ := formatAux_head 20 v.natAbs (by decide)
      have hparse := parseDigits_formatAux habs
      rw [he] at hparse ⊢
      -- neither sign byte is a digit
      have h43 : d ≠ 43 := by rintro rfl; exact absurd h48 (by decide)
      have h45 : d ≠ 45 := by rintro rfl; exact absurd h48 (by decide)
      have hsigned : parseSigned (d :: rest) = some v := by
        rw [parseSigned, if_neg h43, if_neg h45, hparse, Option.map_some]
        exact congrArg some hv
      simp only [hsigned]
      exact if_pos ⟨hlo, hhi⟩

/-! ## Fields -/

/-- How many bytes the white space in front takes, in UTF-8; 0 if there is none. No byte of another
character looks like the first of one of these, so it does not matter where decoding started. -/
def spaceWidth : List UInt8 → Nat
  | 0x09 :: _ | 0x0A :: _ | 0x0B :: _ | 0x0C :: _ | 0x0D :: _ | 0x20 :: _ => 1
  | 0xC2 :: 0x85 :: _ | 0xC2 :: 0xA0 :: _ => 2
  | 0xE1 :: 0x9A :: 0x80 :: _ => 3
  | 0xE2 :: 0x80 :: c :: _ =>
    if (0x80 ≤ c ∧ c ≤ 0x8A) ∨ c = 0xA8 ∨ c = 0xA9 ∨ c = 0xAF then 3 else 0
  | 0xE2 :: 0x81 :: 0x9F :: _ => 3
  | 0xE3 :: 0x80 :: 0x80 :: _ => 3
  | _ => 0

/-- The loop of `bytes.Fields`: `skip` bytes of white space are still to go, `cur` is the field so
far. -/
def fieldsFrom (skip : Nat) (cur : List UInt8) : List UInt8 → List (List UInt8)
  | [] => if cur = [] then [] else [cur]
  | c :: rest =>
    match skip with
    | k + 1 => fieldsFrom k cur rest
    | 0 =>
      match spaceWidth (c :: rest) with
      | 0 => fieldsFrom 0 (cur ++ [c]) rest
      | k + 1 => if cur = [] then fieldsFrom k [] rest else cur :: fieldsFrom k [] rest

/-- `bytes.Fields`. -/
def fields (line : List UInt8) : List (List UInt8) := fieldsFrom 0 [] line

/-! ## Conversions between `int` and `uint64` -/

/-- `uint64(x)`. -/
def toUint64 (x : Int64) : Nat := x.toUInt64.toNat

/-- `int(n)` of a `uint64`. -/
def ofUint64 (n : Nat) : Int64 := (UInt64.ofNat n).toInt64

theorem toUint64_lt (x : Int64) : toUint64 x < 2 ^ 64 := x.toUInt64.toNat_lt

@[simp] theorem ofUint64_toUint64 (x : Int64) : ofUint64 (toUint64 x) = x := by
  rw [ofUint64, toUint64, UInt64.ofNat_toNat]
  rfl

/-! ## Time -/

/-- An instant, in nanoseconds since the Unix epoch. -/
abbrev Time := Int

/-- The zero `time.Time`, 1 January of year 1, which `IsZero` tests for. -/
def zeroTime : Time := -62135596800 * 10 ^ 9

def Time.isZero (t : Time) : Bool := decide (t = zeroTime)

/-- `time.UnixMilli`. -/
def unixMilli (ms : Int) : Time := ms * 10 ^ 6

/-- `time.Unix(0, ns)`. -/
def unixNanos (ns : Int64) : Time := ns.toInt

/-- `Time.UnixNano`, wrapping to 64 bits. -/
def Time.unixNano (t : Time) : Int64 := Int64.ofInt t

/-- `Time.UnixMilli`: whole milliseconds, rounded down, wrapping to 64 bits. -/
def Time.unixMilli (t : Time) : Int64 := Int64.ofInt (Int.ediv t (10 ^ 6))

/-- `time.Duration(secs) * time.Second`, wrapping to 64 bits. -/
def seconds (secs : Int) : Int64 := Int64.ofInt (secs * 10 ^ 9)

/-- `Time.Add`. -/
def Time.add (t : Time) (d : Int64) : Time := Int.add t d.toInt

/-- `Time.Sub`, saturating at the ends of `time.Duration`. -/
def Time.sub (t u : Time) : Int := max minInt64 (min maxInt64 (Int.sub t u))

end Go
