import Memcore.Lib.Stream

/-!
# Packets that are not needed yet

A buffered reader takes a packet only when the bytes it has do not do. What it makes of some packets it
therefore makes of them in front of others too, and leaves the others alone (`io_behind`). As long as
all its bytes would fit into the buffer, it also takes every packet as a whole (`io_whole`).
-/

namespace Bufio

theorem flat_concat (qs : List Packet) (q : Packet) : flat (qs ++ [q]) = flat qs ++ q.1 := by
  unfold flat
  rw [List.flatMap_append, List.flatMap_singleton]

theorem packets_eq_nil_of_flat {ps : List Packet} (h : flat ps = []) : ps = [] := by
  cases ps with
  | nil => rfl
  | cons p ps => exact absurd (List.append_eq_nil_iff.mp h).1 p.2

theorem flat_cons (p : Packet) (ps : List Packet) : flat (p :: ps) = p.1 ++ flat ps :=
  List.flatMap_cons

namespace Reader

variable {size : Nat}

/-! ## More packets behind -/

/-- The reader with the packets `ps` behind its own. -/
def behind (ps : List Packet) (fin : End) (b : Reader size) : Reader size :=
  { b with packets := b.packets ++ ps, fin }

theorem unfinished_append (bs : List UInt8) (qs ps : List Packet) :
    unfinished bs (qs ++ ps) = unfinished bs qs ++ ps := by
  cases bs <;> rfl

theorem readPacket_append {cap : Nat} {qs qs' : List Packet} {bs : List UInt8}
    (h : readPacket cap qs = some (bs, qs')) (ps : List Packet) :
    readPacket cap (qs ++ ps) = some (bs, qs' ++ ps) := by
  cases qs with
  | nil => cases h
  | cons q qs =>
    cases h
    exact congrArg (fun rest => some (_, rest)) (unfinished_append _ qs ps)

theorem fill_behind {b b' : Reader size} (h : b.fill = some b') (ps : List Packet) (fin : End) :
    (b.behind ps fin).fill = some (b'.behind ps fin) := by
  unfold fill at h
  split at h
  next => cases h
  next bs packets hread =>
    cases h
    exact fill_some (readPacket_append hread ps) rfl rfl rfl rfl

theorem fill_fin {b b' : Reader size} (h : b.fill = some b') : b'.fin = b.fin := (fill_same h).fin

/-- `b'` is `b`, whose source has no more for now, with other packets behind its own. -/
def Behind (ps : List Packet) (fin : End) (b b' : Reader size) : Prop :=
  b.fin = .open ∧ b' = b.behind ps fin

theorem readSlice_behind (ps : List Packet) (fin : End) (delim : UInt8) :
    Prog.Matches (Behind ps fin) (· = .source .open) (readSlice delim : Prog (Reader size) Error _)
      (readSlice delim) := by
  rintro b _ ⟨hopen, rfl⟩
  induction b using readSlice.induct delim with
  | case1 b h =>
    rw [readSlice, readSlice, if_pos h, if_pos (show delim ∈ (b.behind ps fin).buf from h)]
    exact .inr ⟨rfl, hopen, rfl⟩
  | case2 b h hfull =>
    rw [readSlice, readSlice, if_neg h, if_neg (show delim ∉ (b.behind ps fin).buf from h),
      dif_pos hfull, dif_pos (show size ≤ (b.behind ps fin).buf.length from hfull)]
    exact .inr ⟨rfl, hopen, rfl⟩
  | case3 b h hfull hfill =>
    refine .inl ⟨.source b.fin, ?_, by rw [hopen]⟩
    rw [readSlice_none h hfull hfill]
  | case4 b h hfull b' hfill _ ih =>
    rw [readSlice_some h hfull hfill, readSlice_some (b := b.behind ps fin) h hfull
      (fill_behind hfill ps fin)]
    exact ih ((fill_fin hfill).trans hopen)

section NonEmpty

variable [NeZero size]

theorem readByte_behind (ps : List Packet) (fin : End) :
    Prog.Matches (Behind ps fin) (· = .source .open) (readByte : Prog (Reader size) Error _)
      readByte := by
  rintro b _ ⟨hopen, rfl⟩
  cases hbuf : b.buf with
  | cons c rest =>
    exact Prog.matches_of_eq (readByte_cons hbuf) (readByte_cons (b := b.behind ps fin) hbuf)
      ⟨hopen, rfl⟩
  | nil =>
    cases hfill : b.fill with
    | none =>
      rw [readByte_none hbuf hfill]
      exact .inl ⟨.source b.fin, rfl, by rw [hopen]⟩
    | some b' =>
      exact Prog.matches_of_eq (readByte_some hbuf hfill)
        (readByte_some (b := b.behind ps fin) hbuf (fill_behind hfill ps fin))
        ⟨(fill_fin hfill).trans hopen, rfl⟩

theorem read_behind (ps : List Packet) (fin : End) (want : Nat) :
    Prog.Matches (Behind ps fin) (· = .source .open) (read want : Prog (Reader size) Error _)
      (read want) := by
  rintro b _ ⟨hopen, rfl⟩
  unfold read
  by_cases hbuf : b.buf = []
  · rw [if_pos hbuf, if_pos (show (b.behind ps fin).buf = [] from hbuf)]
    by_cases hlong : size ≤ want
    · rw [if_pos hlong, if_pos hlong]
      cases hread : readPacket want b.packets with
      | none => exact .inl ⟨_, rfl, by rw [hopen]⟩
      | some x =>
        obtain ⟨bs, packets⟩ := x
        rw [show readPacket want (b.behind ps fin).packets = some (bs, packets ++ ps) from
          readPacket_append hread ps]
        exact .inr ⟨rfl, hopen, rfl⟩
    · rw [if_neg hlong, if_neg hlong]
      cases hfill : b.fill with
      | none => exact .inl ⟨_, rfl, by rw [hopen]⟩
      | some b' =>
        rw [fill_behind hfill ps fin]
        exact .inr ⟨rfl, (fill_fin hfill).trans hopen, rfl⟩
  · rw [if_neg hbuf, if_neg (show (b.behind ps fin).buf ≠ [] from hbuf)]
    exact .inr ⟨rfl, hopen, rfl⟩

theorem readMore_behind (ps : List Packet) (fin : End) (want : Nat) (got : List UInt8) :
    Prog.Matches (Behind ps fin) (· = .source .open) (readMore got want : Prog (Reader size) Error _)
      (readMore got want) := by
  induction want using Nat.strongRecOn generalizing got with
  | ind want ih =>
    intro b b' h
    by_cases hwant : want = 0
    · subst hwant
      rw [readMore, readMore, dif_pos rfl, dif_pos rfl]
      exact .inr ⟨rfl, h⟩
    · rcases read_behind ps fin want b b' h with ⟨e, he, rfl⟩ | ⟨hsame, hR⟩
      · rw [readMore_error hwant (Prod.ext he rfl)]
        exact .inl ⟨_, rfl, rfl⟩
      · cases hread : read want b with
        | mk x b₁ =>
          rw [hread] at hsame hR
          have hread' : read want b' = (x, (read want b').2) := Prod.ext hsame.symm rfl
          cases x with
          | error e =>
            rw [readMore_error hwant hread, readMore_error hwant hread']
            exact .inr ⟨rfl, hR⟩
          | ok bs =>
            have hbs := List.length_pos_iff.mpr
              (read_ne_nil (Nat.pos_iff_ne_zero.mpr hwant) hread)
            rw [readMore_ok hwant hread, readMore_ok hwant hread']
            exact ih _ (by omega) _ _ _ hR

/-- **Packets that are not needed are not touched.** -/
theorem io_behind (ps : List Packet) (fin : End) :
    (io : Input (Reader size)).Matches (Behind ps fin) (· = .source .open) io where
  readByte := readByte_behind ps fin
  unreadByte := by
    rintro b _ ⟨hopen, rfl⟩
    obtain ⟨buf, last, packets, end', fits, room⟩ := b
    cases last with
    | none => exact .inr ⟨rfl, hopen, rfl⟩
    | some c => exact .inr ⟨rfl, hopen, rfl⟩
  readSlice := readSlice_behind ps fin
  readFull want := readMore_behind ps fin want []

end NonEmpty

/-! ## Packets that fit -/

/-- All the bytes to come would fit into the buffer, with the last byte in its place, and what is left
in the source are whole packets of `qs`. -/
structure Whole (qs : List Packet) (b : Reader size) : Prop where
  room : b.pending.length + b.last.toList.length ≤ size
  packets : b.packets <:+ qs

/-- A read that has room for it takes the whole packet. -/
theorem readPacket_whole {cap : Nat} {ps ps' : List Packet} {bs : List UInt8}
    (h : readPacket cap ps = some (bs, ps')) (hcap : (flat ps).length ≤ cap) :
    ∃ p, ps = p :: ps' ∧ bs = p.1 := by
  cases ps with
  | nil => cases h
  | cons p ps =>
    rw [flat_cons, List.length_append] at hcap
    have htake : p.1.take cap = p.1 := List.take_of_length_le (by omega)
    have hdrop : p.1.drop cap = [] := List.drop_eq_nil_of_le (by omega)
    simp only [readPacket, htake, hdrop] at h
    cases h
    exact ⟨p, rfl, rfl⟩

namespace Whole

variable {qs : List Packet} {b b' : Reader size}

theorem fill (h : Whole qs b) (hfill : b.fill = some b') : Whole qs b' := by
  have hsame := fill_same hfill
  have hroom := h.room
  unfold Reader.fill at hfill
  split at hfill
  next => cases hfill
  next bs packets hread =>
    cases hfill
    have hpending : b.pending.length = b.buf.length + (flat b.packets).length :=
      List.length_append
    obtain ⟨p, hpackets, -⟩ := readPacket_whole hread (by omega)
    refine ⟨?_, (List.suffix_cons p _).trans (hpackets ▸ h.packets)⟩
    rw [hsame.pending]
    exact Nat.le_trans (Nat.le_add_right _ _) hroom

theorem advance (h : Whole qs b) (k : Nat) : Whole qs (b.advance k) := by
  refine ⟨?_, h.packets⟩
  have hroom := h.room
  unfold pending at hroom ⊢
  change (b.buf.drop k ++ flat b.packets).length + (lastOf b.last (b.buf.take k)).toList.length ≤ size
  rw [List.length_append] at hroom ⊢
  rw [List.length_drop]
  cases htake : b.buf.take k with
  | nil =>
    rw [lastOf, List.getLast?_nil, Option.none_or]
    omega
  | cons c cs =>
    have hlen : (b.buf.take k).length ≠ 0 := by rw [htake]; exact Nat.succ_ne_zero _
    rw [List.length_take] at hlen
    have hone : (lastOf b.last (c :: cs)).toList.length ≤ 1 := by
      cases lastOf b.last (c :: cs) <;> simp
    omega

/-- A last packet that is longer than what is to come has been taken. -/
theorem packets_eq_nil {q : Packet} (h : Whole (qs ++ [q]) b)
    (hshort : b.pending.length < q.1.length) : b.packets = [] := by
  rcases List.suffix_concat_iff.mp h.packets with hnil | ⟨rs, hrs, -⟩
  · exact hnil
  · have hlen : b.pending.length = b.buf.length + (flat b.packets).length := List.length_append
    rw [hrs, flat_concat, List.length_append] at hlen
    omega

end Whole

variable {qs : List Packet}

theorem readSlice_whole (delim : UInt8) {b : Reader size} (h : Whole qs b) :
    Whole qs (readSlice delim b).2 := by
  induction b using readSlice.induct delim with
  | case1 b hmem =>
    rw [readSlice, if_pos hmem]
    exact h.advance _
  | case2 b hmem hfull =>
    rw [readSlice, if_neg hmem, dif_pos hfull]
    exact h.advance _
  | case3 b hmem hfull hfill =>
    rw [readSlice_none hmem hfull hfill]
    exact h.advance _
  | case4 b hmem hfull b' hfill _ ih =>
    rw [readSlice_some hmem hfull hfill]
    exact ih (h.fill hfill)

section NonEmpty

variable [NeZero size]

theorem read_whole (want : Nat) {b : Reader size} (h : Whole qs b) : Whole qs (read want b).2 := by
  unfold read
  by_cases hbuf : b.buf = []
  · rw [if_pos hbuf]
    by_cases hlong : size ≤ want
    · rw [if_pos hlong]
      cases hread : readPacket want b.packets with
      | none => exact h
      | some x =>
        obtain ⟨bs, packets⟩ := x
        have hroom := h.room
        rw [pending, hbuf, List.nil_append] at hroom
        obtain ⟨p, hpackets, rfl⟩ := readPacket_whole hread (by omega)
        refine ⟨?_, (List.suffix_cons p _).trans (hpackets ▸ h.packets)⟩
        have hp := List.length_pos_iff.mpr p.2
        have hone : (lastOf b.last p.1).toList.length ≤ 1 := by
          cases lastOf b.last p.1 <;> simp
        rw [hpackets, flat_cons, List.length_append] at hroom
        change (flat packets).length + (lastOf b.last p.1).toList.length ≤ size
        omega
    · rw [if_neg hlong]
      cases hfill : b.fill with
      | none => exact h
      | some b' => exact (h.fill hfill).advance want
  · rw [if_neg hbuf]
    exact h.advance want

theorem readMore_whole (want : Nat) (got : List UInt8) {b : Reader size} (h : Whole qs b) :
    Whole qs (readMore got want b).2 := by
  induction want using Nat.strongRecOn generalizing got b with
  | ind want ih =>
    by_cases hwant : want = 0
    · rw [readMore, dif_pos hwant]
      exact h
    · have hnext := read_whole want h
      cases hread : read want b with
      | mk x b' =>
        rw [hread] at hnext
        cases x with
        | error e =>
          rw [readMore_error hwant hread]
          exact hnext
        | ok bs =>
          have hbs := List.length_pos_iff.mpr
            (read_ne_nil (Nat.pos_iff_ne_zero.mpr hwant) hread)
          rw [readMore_ok hwant hread]
          exact ih _ (by omega) _ hnext

/-- **Packets that fit are taken as a whole.** -/
theorem io_whole (qs : List Packet) :
    (io : Input (Reader size)).Keeps (Whole qs) fun _ => True where
  readByte b h := by
    refine ⟨?_, fun _ _ => trivial⟩
    change Whole qs (readByte b).2
    cases hbuf : b.buf with
    | cons c rest =>
      rw [readByte_cons hbuf]
      exact h.advance 1
    | nil =>
      cases hfill : b.fill with
      | none =>
        rw [readByte_none hbuf hfill]
        exact h
      | some b' =>
        rw [readByte_some hbuf hfill]
        exact (h.fill hfill).advance 1
  unreadByte b h := by
    refine ⟨?_, fun _ _ => trivial⟩
    obtain ⟨buf, last, packets, fin, fits, room⟩ := b
    cases last with
    | none => exact h
    | some c =>
      refine ⟨?_, h.packets⟩
      have hroom := h.room
      simp only [pending, Option.toList_some, List.length_cons, List.length_nil,
        List.length_append] at hroom
      change (c :: buf ++ flat packets).length + 0 ≤ size
      rw [List.length_append, List.length_cons]
      omega
  readSlice delim b h := ⟨readSlice_whole delim h, fun _ _ => trivial⟩
  readFull want b h := ⟨readMore_whole want [] h, fun _ _ => trivial⟩

end NonEmpty

end Reader

end Bufio
