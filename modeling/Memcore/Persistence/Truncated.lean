import Memcore.Persistence.Snapshot

/-!
# A truncated snapshot

The file of a snapshot can end at any byte. Reading it applies the records that are whole, and
reports the cut unless the file is empty or ends between two records: an end of stream inside a
record is turned into an unexpected one at every level, so that only a boundary looks like the end.
-/

namespace Memcore

open Go ByteStream

/-- The header `WriteSnapshot` puts before the records. -/
def snapshotHeader (baseGen : Int64) : List UInt8 :=
  snapshotMagic ++ putUvarint (toUint64 baseGen)

/-- `WriteSnapshot` writes the header and the encodings one after the other. -/
theorem writeSnapshot_eq {ords : Nat → MapOrder} {baseGen : Int64} {records : List Record}
    {encs : List (List UInt8)} (h : recordEncodings ords 0 records = .ok encs) :
    writeSnapshot ords baseGen records = .ok (snapshotHeader baseGen ++ encs.flatten) := by
  simp only [writeSnapshot, writeRecords_eq h, bind, Except.bind, snapshotHeader,
    List.append_assoc]

/-! ## A prefix of the file -/

section Read

variable {σ E : Type}

/-- The header, followed by anything. -/
theorem readSnapshot_snapshotHeader (lim : Limits) (rngs : Nat → Rng)
    (apply : σ → Record → σ × Option E) (baseGen : Int64) (q : List UInt8) (s : σ) :
    readSnapshot lim rngs apply (snapshotHeader baseGen ++ q) s =
      ((readRecords lim rngs apply (q.length + 1) 0 q s).1, baseGen,
        (readRecords lim rngs apply (q.length + 1) 0 q s).2) := by
  rw [snapshotHeader, List.append_assoc]
  exact readSnapshot_header lim rngs apply baseGen q s

/-- A cut inside the header: nothing is applied, and only the empty file is not reported. -/
theorem readSnapshot_cut_header (lim : Limits) (rngs : Nat → Rng)
    (apply : σ → Record → σ × Option E) (baseGen : Int64) {p : List UInt8}
    (hp : p <+: snapshotHeader baseGen) (hne : p ≠ snapshotHeader baseGen) (s : σ) :
    readSnapshot lim rngs apply p s =
      (s, 0, if p = [] then none else some (.stream .unexpectedEOF)) := by
  rcases prefix_append_cases hp with ⟨hcut, hcutne⟩ | ⟨q, rfl, hq⟩
  · have hlt : ¬ snapshotMagic.length ≤ p.length := fun hle => hcutne (hcut.eq_of_length_le hle)
    unfold readSnapshot readFull
    rw [if_neg hlt]
    split
    next heq =>
      split at heq
      next hnil =>
        rw [if_pos hnil]
      next => cases heq
    next e hnot heq =>
      split at heq
      next => exact absurd (Except.error.inj heq).symm hnot
      next hnil =>
        rw [if_neg hnil]
        cases heq
        rfl
    next heq => split at heq <;> cases heq
  · have hgen : Decodes (unexpectedEnd (readUvarint : Read Nat)) _ _ :=
      (decodes_readUvarint (toUint64_lt baseGen)).unexpectedEnd
    obtain ⟨err, he, hend⟩ := hgen.cut q hq fun h => hne (by rw [h]; rfl)
    have hnil : snapshotMagic ++ q ≠ [] := fun h => absurd (List.append_eq_nil_iff.mp h).1 (by decide)
    rw [readSnapshot, decodes_magic.full, if_neg hnil]
    simp only [ne_eq, not_true_eq_false, if_false, he]
    rcases hend with rfl | rfl
    · exact absurd he (neverEof_unexpectedEnd _ q)
    · rfl

theorem cutError_of_ne_none {encs : List (List UInt8)} {p : List UInt8}
    (h : cutError (E := E) encs p ≠ none) :
    cutError encs p = some (.stream (E := E) .unexpectedEOF) :=
  if_neg fun heq => h (cutError_eq_none_iff.mpr heq)

end Read

/-- **A truncated snapshot yields no phantom record.** The bytes `WriteSnapshot` produces are a
header and the encodings of the records. On any prefix of them, `ReadSnapshot` calls `apply` on the
records whose whole encoding is inside the prefix, in order, each with a value observably equal to
the original. It returns without an error exactly when the prefix is empty or ends between two
records behind the header, and with an unexpected end of stream otherwise. -/
theorem readSnapshot_prefix (ords : Nat → MapOrder) (rngs : Nat → Rng) (lim : Limits)
    (baseGen : Int64) (records : List Record) (h : ∀ r ∈ records, r.value.Reachable) :
    ∃ encs records', recordEncodings ords 0 records = .ok encs ∧
      writeSnapshot ords baseGen records = .ok (snapshotHeader baseGen ++ encs.flatten) ∧
      List.Forall₂ (fun r r' : Record => r'.db = r.db ∧ r'.key = r.key ∧
        r'.expireAt = r.expireAt ∧ r.value.ObsEq r'.value) records records' ∧
      ∀ p, p <+: snapshotHeader baseGen ++ encs.flatten →
        ∀ {σ E : Type} (apply : σ → Record → σ) (s : σ),
          let out := readSnapshot lim rngs (fun s r => (apply s r, (none : Option E))) p s
          out.1 = (records'.take
            (fitting encs (p.length - (snapshotHeader baseGen).length))).foldl apply s ∧
          (out.2.2 = none ↔ p = [] ∨
            ∃ k ≤ encs.length, p = snapshotHeader baseGen ++ (encs.take k).flatten) ∧
          (out.2.2 ≠ none → out.2.2 = some (.stream .unexpectedEOF)) := by
  obtain ⟨encs, records', henc, -, hnes, hsame, hread⟩ := readRecords_prefix lim ords rngs records 0
    fun r hr => by
      obtain ⟨a, ha, hsize⟩ := (h r hr).exists_repr
      exact ⟨a, ha, hsize.trans (by decide)⟩
  have hobs : List.Forall₂ (fun r r' : Record => r'.db = r.db ∧ r'.key = r.key ∧
      r'.expireAt = r.expireAt ∧ r.value.ObsEq r'.value) records records' :=
    hsame.imp fun r r' hs => by
      obtain ⟨a, hr, hr', -⟩ := hs.value
      exact ⟨hs.db, hs.key, hs.expireAt, (Value.obsEq_iff hr hr').mpr rfl⟩
  refine ⟨encs, records', henc, writeSnapshot_eq henc, hobs, fun p hp σ E apply s => ?_⟩
  have hheader : snapshotHeader baseGen ≠ [] :=
    fun hnil => absurd (List.append_eq_nil_iff.mp hnil).1 (by decide)
  rcases prefix_append_cases hp with ⟨hcut, hne⟩ | ⟨q, rfl, hq⟩
  · -- the cut is inside the header
    have hlt : p.length - (snapshotHeader baseGen).length = 0 :=
      Nat.sub_eq_zero_of_le hcut.length_le
    simp only [readSnapshot_cut_header lim rngs _ baseGen hcut hne, hlt, fitting_zero hnes]
    have hbehind (k : Nat) : p ≠ snapshotHeader baseGen ++ (encs.take k).flatten := by
      intro heq
      exact hne (hcut.eq_of_length_le (by rw [heq, List.length_append]; omega))
    refine ⟨rfl, ?_, ?_⟩
    · by_cases hnil : p = []
      · simp [hnil]
      · rw [if_neg hnil]
        refine iff_of_false (Option.some_ne_none _) ?_
        rintro (hnil' | ⟨k, -, heq⟩)
        · exact hnil hnil'
        · exact hbehind k heq
    · intro hsome
      split
      next hnil => exact absurd (if_pos hnil) hsome
      next => rfl
  · have hlen : (snapshotHeader baseGen ++ q).length - (snapshotHeader baseGen).length = q.length := by
      simp
    -- the cut is among the records: those that fit are applied
    have hloop := hread (fun s r => (apply s r, (none : Option E))) q (q.length + 1) s hq
      (Nat.lt_succ_self _)
    rw [callEach_total apply] at hloop
    simp only [readSnapshot_snapshotHeader, hloop, hlen, Option.map_none, Option.none_or]
    refine ⟨trivial, ?_, cutError_of_ne_none⟩
    rw [cutError_eq_none_iff, ← clean_cut_iff hnes q]
    constructor
    · rintro ⟨k, hk, rfl⟩
      exact .inr ⟨k, hk, rfl⟩
    · rintro (hnil | ⟨k, hk, heq⟩)
      · exact absurd (List.append_eq_nil_iff.mp hnil).1 hheader
      · exact ⟨k, hk, List.append_cancel_left heq⟩

/-- Two records, the file cut between them: no error. -/
theorem readSnapshot_prefix_between : ∃ encs,
    recordEncodings (fun _ => MapOrder.default) 0
      [⟨0, ascii "k", 0, .str (ascii "v")⟩, ⟨1, ascii "l", 7, .list (ListVal.new ⟨0, 0⟩)⟩]
      = .ok encs ∧
    (readSnapshot ⟨⟨0, 0⟩, ⟨0, 0⟩, ⟨0, 0⟩, ⟨0, 0⟩⟩ (fun _ _ => 0)
      (fun (k : Nat) _ => (k + 1, (none : Option Unit)))
      (snapshotHeader 3 ++ (encs.take 1).flatten) 0).2.2 = none := by
  obtain ⟨encs, records', henc, -, hsame, hread⟩ :=
    readSnapshot_prefix (fun _ => MapOrder.default) (fun _ _ => 0)
      ⟨⟨0, 0⟩, ⟨0, 0⟩, ⟨0, 0⟩, ⟨0, 0⟩⟩ 3
      [⟨0, ascii "k", 0, .str (ascii "v")⟩, ⟨1, ascii "l", 7, .list (ListVal.new ⟨0, 0⟩)⟩]
      (by
        simp only [List.forall_mem_cons]
        exact ⟨.str _, .newList _, List.forall_mem_nil _⟩)
  refine ⟨encs, henc, ?_⟩
  have hprefix : snapshotHeader 3 ++ (encs.take 1).flatten <+: snapshotHeader 3 ++ encs.flatten := by
    refine (List.prefix_append_right_inj _).mpr ⟨(encs.drop 1).flatten, ?_⟩
    rw [← List.flatten_append, List.take_append_drop]
  have hlen : 1 ≤ encs.length := by
    obtain ⟨enc, rest, rfl⟩ : ∃ enc rest, encs = enc :: rest := by
      cases henc
      exact ⟨_, _, rfl⟩
    simp
  exact (hread _ hprefix (fun (k : Nat) _ => k + 1) 0).2.1.mpr (.inr ⟨1, hlen, rfl⟩)

end Memcore
