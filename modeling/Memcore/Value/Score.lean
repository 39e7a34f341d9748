import Mathlib.Data.List.Nodup
import Mathlib.Data.List.TakeWhile
import Memcore.Lib.Go

/-!
# Scores and their order

A score is a `float64`, held as its bit pattern: the persisted form is the bits, and Go's `==` and
`<` on non-NaN values only need sign and magnitude. The two zeros are equal and print differently,
so equal scores need not have equal bits.
-/

namespace Memcore

open Go

/-- A `float64` by its bits. -/
@[ext] structure Score where
  bits : UInt64
deriving DecidableEq, Repr

namespace Score

/-- The bits without the sign. -/
def magnitude (s : Score) : Nat := s.bits.toNat % 2 ^ 63

/-- `math.IsNaN`: a full exponent with a non-zero mantissa. -/
def isNaN (s : Score) : Bool := decide (0x7FF0000000000000 < s.magnitude)

/-- `math.IsInf(s, 1)`. -/
def isPosInf (s : Score) : Bool := s.bits == 0x7FF0000000000000

/-- `math.IsInf(s, -1)`. -/
def isNegInf (s : Score) : Bool := s.bits == 0xFFF0000000000000

/-- The position of a non-NaN value on the number line; both zeros are at 0. -/
def place (s : Score) : Int :=
  if s.bits.toNat < 2 ^ 63 then s.magnitude else -s.magnitude

/-- Go's `==` on `float64`. -/
def eq (a b : Score) : Bool := !a.isNaN && !b.isNaN && decide (a.place = b.place)

/-- Go's `<` on `float64`. -/
def lt (a b : Score) : Bool := !a.isNaN && !b.isNaN && decide (a.place < b.place)

end Score

/-- `ZMember`. -/
@[ext] structure ZMember where
  member : Bytes
  score : Score
deriving DecidableEq

/-- `zskipLess` on two members with their scores. -/
def zskipLess (a b : ZMember) : Bool :=
  if !a.score.eq b.score then a.score.lt b.score else Bytes.less a.member b.member

theorem zskipLess_iff (a b : ZMember) : zskipLess a b = true ↔
    a.score.isNaN = false ∧ b.score.isNaN = false ∧
      (a.score.place < b.score.place ∨
        a.score.place = b.score.place ∧ Bytes.less a.member b.member = true) := by
  unfold zskipLess Score.eq Score.lt
  cases ha : a.score.isNaN <;> cases hb : b.score.isNaN <;> simp
  split
  · next h => simp [h]
  · next h => simp [h]

/-- The order sees a score as `==` does, so it does not tell the two zeros apart. -/
theorem zskipLess_congr_right {a b : ZMember} (hm : a.member = b.member)
    (hs : a.score.eq b.score = true) (c : ZMember) : zskipLess c b = zskipLess c a := by
  simp only [Score.eq, Bool.and_eq_true, Bool.not_eq_true', decide_eq_true_eq] at hs
  obtain ⟨⟨ha, hb⟩, hplace⟩ := hs
  rw [Bool.eq_iff_iff, zskipLess_iff, zskipLess_iff, ha, hb, hm, hplace]

theorem zskipLess_irrefl (a : ZMember) : zskipLess a a = false := by
  rw [← Bool.not_eq_true, zskipLess_iff]
  rintro ⟨-, -, h | ⟨-, h⟩⟩
  · exact lt_irrefl _ h
  · rw [Bytes.less_irrefl] at h
    exact Bool.noConfusion h

theorem zskipLess_trans {a b c : ZMember} (hab : zskipLess a b = true) (hbc : zskipLess b c = true) :
    zskipLess a c = true := by
  rw [zskipLess_iff] at *
  obtain ⟨ha, -, hab⟩ := hab
  obtain ⟨-, hc, hbc⟩ := hbc
  refine ⟨ha, hc, ?_⟩
  rcases hab with hab | ⟨hab, hmab⟩ <;> rcases hbc with hbc | ⟨hbc, hmbc⟩
  · exact Or.inl (hab.trans hbc)
  · exact Or.inl (hab.trans_eq hbc)
  · exact Or.inl (hab.trans_lt hbc)
  · exact Or.inr ⟨hab.trans hbc, Bytes.less_trans hmab hmbc⟩

theorem zskipLess_asymm {a b : ZMember} (hab : zskipLess a b = true) : zskipLess b a = false := by
  cases hba : zskipLess b a with
  | false => rfl
  | true => exact absurd (zskipLess_trans hab hba) (by simp [zskipLess_irrefl])

/-- Distinct members with number scores are ordered one way or the other. -/
theorem zskipLess_total {a b : ZMember} (ha : a.score.isNaN = false) (hb : b.score.isNaN = false)
    (hne : a.member ≠ b.member) (h : zskipLess a b = false) : zskipLess b a = true := by
  rw [← Bool.not_eq_true, zskipLess_iff] at h
  rw [zskipLess_iff]
  refine ⟨hb, ha, ?_⟩
  rcases lt_trichotomy a.score.place b.score.place with hlt | heq | hgt
  · exact absurd ⟨ha, hb, Or.inl hlt⟩ h
  · refine Or.inr ⟨heq.symm, ?_⟩
    rcases Bytes.less_total hne with hl | hl
    · exact absurd ⟨ha, hb, Or.inr ⟨heq, hl⟩⟩ h
    · exact hl
  · exact Or.inl hgt

/-! ## Members in order -/

/-- `es` is what a sorted set can hold: number scores, each member once, in strict order. -/
structure ZOrdered (es : List ZMember) : Prop where
  number : ∀ e ∈ es, e.score.isNaN = false
  nodup : (es.map ZMember.member).Nodup
  sorted : es.Pairwise fun a b => zskipLess a b = true

/-- Where `e` goes among `es`. -/
def zinsert (e : ZMember) (es : List ZMember) : List ZMember :=
  es.takeWhile (zskipLess · e) ++ e :: es.dropWhile (zskipLess · e)

/-- `es` without `member`. -/
def zerase (member : Bytes) (es : List ZMember) : List ZMember :=
  es.filter fun e => decide (e.member ≠ member)

/-- The score of `member` among `es`. -/
def zscore (member : Bytes) (es : List ZMember) : Option Score :=
  (es.find? fun e => decide (e.member = member)).map ZMember.score

theorem zinsert_perm (e : ZMember) (es : List ZMember) : (zinsert e es).Perm (e :: es) := by
  have h : (zinsert e es).Perm _ := List.perm_middle
  rwa [List.takeWhile_append_dropWhile] at h

theorem mem_zinsert {e x : ZMember} {es : List ZMember} : x ∈ zinsert e es ↔ x = e ∨ x ∈ es := by
  rw [(zinsert_perm e es).mem_iff, List.mem_cons]

namespace ZOrdered

variable {es : List ZMember}

theorem empty : ZOrdered [] := ⟨by simp, by simp, by simp⟩

theorem sublist {fs : List ZMember} (h : ZOrdered es) (hs : fs.Sublist es) : ZOrdered fs :=
  ⟨fun e he => h.number e (hs.subset he), h.nodup.sublist (hs.map _), h.sorted.sublist hs⟩

theorem zerase (h : ZOrdered es) (member : Bytes) : ZOrdered (zerase member es) :=
  h.sublist List.filter_sublist

/-- What is not before `e` stays so down the list. -/
theorem dropWhile_not_less (h : ZOrdered es) (e : ZMember) :
    ∀ x ∈ es.dropWhile (zskipLess · e), zskipLess x e = false := by
  intro x hx
  have hd := h.sorted.sublist (List.dropWhile_sublist (zskipLess · e))
  cases hdw : es.dropWhile (zskipLess · e) with
  | nil => simp [hdw] at hx
  | cons y ys =>
    have hy : zskipLess y e = false := by
      have := List.head_dropWhile_not (p := (zskipLess · e)) (l := es) (by simp [hdw])
      simpa [hdw] using this
    rw [hdw] at hx hd
    rcases List.mem_cons.mp hx with rfl | hx
    · exact hy
    · cases hxe : zskipLess x e with
      | false => rfl
      | true =>
        have := zskipLess_trans ((List.pairwise_cons.mp hd).1 x hx) hxe
        rw [this] at hy
        exact Bool.noConfusion hy

theorem zinsert (h : ZOrdered es) {e : ZMember} (hnum : e.score.isNaN = false)
    (hnew : e.member ∉ es.map ZMember.member) : ZOrdered (zinsert e es) where
  number x hx := by
    rcases mem_zinsert.mp hx with rfl | hx
    · exact hnum
    · exact h.number x hx
  nodup := by
    rw [((zinsert_perm e es).map _).nodup_iff, List.map_cons, List.nodup_cons]
    exact ⟨hnew, h.nodup⟩
  sorted := by
    have hafter : ∀ x ∈ es.dropWhile (zskipLess · e), zskipLess e x = true := by
      intro x hx
      have hxes := (List.dropWhile_sublist (zskipLess · e)).subset hx
      exact zskipLess_total (h.number x hxes) hnum
        (fun heq => hnew (heq ▸ List.mem_map_of_mem hxes)) (h.dropWhile_not_less e x hx)
    have hbefore : ∀ x ∈ es.takeWhile (zskipLess · e), zskipLess x e = true :=
      fun x hx => List.mem_takeWhile_imp (p := (zskipLess · e)) hx
    have hsplit := h.sorted
    rw [← List.takeWhile_append_dropWhile (p := (zskipLess · e)) (l := es),
      List.pairwise_append] at hsplit
    obtain ⟨h₁, h₂, h₁₂⟩ := hsplit
    refine List.pairwise_append.mpr ⟨h₁, List.pairwise_cons.mpr ⟨hafter, h₂⟩, ?_⟩
    intro x hx y hy
    rcases List.mem_cons.mp hy with rfl | hy
    · exact hbefore x hx
    · exact h₁₂ x hx y hy

/-- Only one order of given members is sorted. -/
theorem eq_of_perm {fs : List ZMember} (h : ZOrdered es) (h' : ZOrdered fs) (hp : es.Perm fs) :
    es = fs := by
  refine hp.eq_of_pairwise (fun a b _ _ hab hba => ?_) h.sorted h'.sorted
  exact absurd (zskipLess_trans hab hba) (by simp [zskipLess_irrefl])

theorem zscore_eq_some (h : ZOrdered es) {member : Bytes} {s : Score} :
    zscore member es = some s ↔ (⟨member, s⟩ : ZMember) ∈ es := by
  unfold zscore
  constructor
  · intro hs
    obtain ⟨e, he, rfl⟩ := Option.map_eq_some_iff.mp hs
    have hm := List.find?_some he
    simp only [decide_eq_true_eq] at hm
    have := List.mem_of_find?_eq_some he
    rwa [← hm]
  · intro hmem
    cases hf : es.find? fun e => decide (e.member = member) with
    | none => simpa using List.find?_eq_none.mp hf _ hmem
    | some e =>
      have hm := List.find?_some hf
      simp only [decide_eq_true_eq] at hm
      have hmem' := List.mem_of_find?_eq_some hf
      have heq : e = ⟨member, s⟩ := List.inj_on_of_nodup_map h.nodup hmem' hmem hm
      rw [heq]
      rfl

theorem zscore_eq_none {member : Bytes} :
    zscore member es = none ↔ member ∉ es.map ZMember.member := by
  rw [zscore, Option.map_eq_none_iff, List.find?_eq_none]
  simp

end ZOrdered

end Memcore
