import Cc370.Lmod370

namespace Cc370.Lmod

/-- The length of the record that begins at an offset, if its type is known. -/
def recordLen (m : Buffer) (p : ℕ) : Option ℕ :=
  match (m p).toNat / 16 with
  | 0x2 => some (8 + mvsBe16 m (p + 6))
  | 0x8 => some ((m (p + 1)).toNat + 1)
  | 0x1 => some (4 + mvsBe24 m (p + 1))
  | 0x4 => some (4 + mvsBe16 m (p + 2))
  | 0x0 => some (16 + mvsBe16 m (p + 4) + mvsBe16 m (p + 6))
  | _ => none

/-- The walk comes to `it` and gets no further. -/
def StopsAt (m : Buffer) (n : ℕ) (it : Iter) : Prop := (walkMember m n).last = it ∧ iterNext m n it = .malformed

/-- A record whose type is not known; the reader asks for eight bytes before it looks at the type. -/
def UnknownAt (m : Buffer) (n : ℕ) (it : Iter) : Prop := it.pending = 0 ∧ it.p + 8 ≤ n ∧ recordLen m it.p = none

/-- A record, or the text that the last one announced, runs past the end. -/
def PastEndAt (m : Buffer) (n : ℕ) (it : Iter) : Prop :=
  it.pending ≠ 0 ∧ n < it.p + it.pending ∨ it.pending = 0 ∧ (n < it.p + 8 ∨ ∃ len, recordLen m it.p = some len ∧ n < it.p + len)

structure ClassifiesStop (m : Buffer) (n : ℕ) (a : Anomalies) : Prop where
  badrec : a.badrec = true ↔ ∃ it, StopsAt m n it ∧ UnknownAt m n it
  badlen : a.badlen = true ↔ ∃ it, StopsAt m n it ∧ PastEndAt m n it

section Stop

variable {m : Buffer} {n : ℕ} {it : Iter}

theorem recordLen_none (m : Buffer) (p : ℕ) : recordLen m p = none ↔ knownRecord (m p).toNat = false := by
  have hlt : (m p).toNat / 16 < 16 := by
    have := (m p).toNat_lt
    omega
  rw [recordLen, knownRecord]
  generalize (m p).toNat / 16 = hi at hlt ⊢
  interval_cases hi <;> simp

/-- Why the iterator does not go on. -/
theorem iterNext_malformed (h : iterNext m n it = .malformed) : UnknownAt m n it ∨ PastEndAt m n it := by
  by_cases hpend : it.pending ≠ 0
  · refine .inr (.inl ⟨hpend, ?_⟩)
    unfold iterNext at h
    rw [if_pos hpend] at h
    by_contra hfit
    rw [if_neg hfit] at h
    exact absurd h nofun
  have hpend : it.pending = 0 := not_not.mp hpend
  by_cases h8 : n < it.p + 8
  · exact .inr (.inr ⟨hpend, .inl h8⟩)
  cases hlen : recordLen m it.p with
  | none => exact .inl ⟨hpend, not_lt.mp h8, hlen⟩
  | some len =>
    refine .inr (.inr ⟨hpend, .inr ⟨len, hlen, ?_⟩⟩)
    by_contra hfit
    have hframe (kind : Kind) (flags blen pending : ℕ) (done : Bool) (hblen : some blen = some len) :
        (if n < it.p + blen then Next.malformed else .item ⟨it.p + blen, pending, done⟩ ⟨kind, it.p, blen, flags⟩) ≠ .malformed := by
      rw [Option.some.inj hblen, if_neg hfit]
      exact nofun
    unfold iterNext at h
    dsimp only at h
    rw [if_neg (not_not.mpr hpend)] at h
    by_cases hdone : it.done = true
    · rw [if_pos hdone] at h
      exact absurd h nofun
    rw [if_neg hdone, if_neg (by omega : ¬ n ≤ it.p), if_neg h8] at h
    unfold recordLen at hlen
    split at hlen
    · rename_i hhi
      rw [if_pos hhi] at h
      exact hframe _ _ _ _ _ hlen h
    · rename_i hhi
      rw [hhi, if_neg (by decide), if_pos rfl] at h
      exact hframe _ _ _ _ _ hlen h
    · rename_i hhi
      rw [hhi, if_neg (by decide), if_neg (by decide), if_pos rfl] at h
      exact hframe _ _ _ _ _ hlen h
    · rename_i hhi
      rw [hhi, if_neg (by decide), if_neg (by decide), if_neg (by decide), if_pos rfl] at h
      exact hframe _ _ _ _ _ hlen h
    · rename_i hhi
      have := Option.some.inj hlen
      rw [hhi, if_neg (by decide), if_neg (by decide), if_neg (by decide), if_neg (by decide), if_pos rfl, if_neg (by omega)] at h
      exact hframe _ _ _ _ _ hlen h
    · exact absurd hlen nofun

theorem walkMember_last (m : Buffer) (n : ℕ) :
    iterNext m n (walkMember m n).last = if (walkMember m n).malformed then .malformed else .stop := by
  apply walk_last
  obtain ⟨htile, hle⟩ := walk_tile (m := m) (n + 1) ⟨0, 0, false⟩ (Nat.zero_le n)
  have := htile.length_le
  dsimp only at this
  omega

/-- The walk of the member stops in one place, or in none. -/
theorem stopsAt_iff : StopsAt m n it ↔ (walkMember m n).malformed = true ∧ (walkMember m n).last = it := by
  have hlast := walkMember_last m n
  constructor
  · rintro ⟨rfl, h⟩
    refine ⟨?_, rfl⟩
    by_contra hno
    rw [if_neg hno, h] at hlast
    exact absurd hlast nofun
  · rintro ⟨hmal, rfl⟩
    rw [if_pos hmal] at hlast
    exact ⟨rfl, hlast⟩

theorem stop_unknown (hu : UnknownAt m n it) : ¬ PastEndAt m n it := by
  obtain ⟨hpend, h8, hlen⟩ := hu
  rintro (⟨htext, -⟩ | ⟨-, hhead | ⟨len, hsome, -⟩⟩)
  · exact htext hpend
  · exact absurd h8 (Nat.not_le.mpr hhead)
  · exact absurd (hlen.symm.trans hsome) nofun

/-- What `lmod_scan` says of a walk that stops. -/
theorem scan_stop (h : StopsAt m n it) : (scan m n).badrec = decide (it.p + 8 ≤ n ∧ recordLen m it.p = none) ∧
    (scan m n).badlen = !decide (it.p + 8 ≤ n ∧ recordLen m it.p = none) := by
  obtain ⟨hmal, rfl⟩ := stopsAt_iff.mp h
  rw [scan]
  dsimp only
  rw [if_pos hmal]
  by_cases hbad : (walkMember m n).last.p + 8 ≤ n ∧ recordLen m (walkMember m n).last.p = none
  · have hknown := (recordLen_none m _).mp hbad.2
    rw [if_pos ⟨hbad.1, by simp [hknown]⟩, decide_eq_true hbad]
    exact ⟨rfl, rfl⟩
  · rw [if_neg, decide_eq_false hbad]
    · exact ⟨rfl, rfl⟩
    · rintro ⟨h8, hknown⟩
      exact hbad ⟨h8, (recordLen_none m _).mpr (by simpa using hknown)⟩

theorem scan_whole (h : (walkMember m n).malformed = false) : (scan m n).badrec = false ∧ (scan m n).badlen = false := by
  rw [scan]
  dsimp only
  rw [if_neg (by simp [h])]
  split_ifs
  · exact ⟨rfl, rfl⟩
  · exact ⟨rfl, rfl⟩
  · exact ⟨rfl, rfl⟩

/-- The two causes are told apart but where an announced text begins like a record of no known type. -/
theorem classifiesStop_iff (l : List UInt8) : ClassifiesStop (ofBytes l) l.length (scan (ofBytes l) l.length) ↔
    ¬ ∃ it, StopsAt (ofBytes l) l.length it ∧ it.pending ≠ 0 ∧ it.p + 8 ≤ l.length ∧ recordLen (ofBytes l) it.p = none := by
  constructor
  · rintro ⟨hrec, -⟩ ⟨it, hstop, hpend, hbad⟩
    have hset : (scan (ofBytes l) l.length).badrec = true := by
      rw [(scan_stop hstop).1]
      exact decide_eq_true hbad
    obtain ⟨it', hstop', hpend', -⟩ := hrec.mp hset
    rw [← hstop.1, hstop'.1] at hpend
    exact hpend hpend'
  · intro hno
    cases hmal : (walkMember (ofBytes l) l.length).malformed with
    | false =>
      have hnone (it : Iter) : ¬ StopsAt (ofBytes l) l.length it := by
        intro h
        rw [(stopsAt_iff.mp h).1] at hmal
        exact absurd hmal nofun
      obtain ⟨hrec, hlen⟩ := scan_whole hmal
      rw [← Bool.not_eq_true] at hrec hlen
      exact ⟨iff_of_false hrec fun ⟨it, h, _⟩ => hnone it h, iff_of_false hlen fun ⟨it, h, _⟩ => hnone it h⟩
    | true =>
      have hstop : StopsAt (ofBytes l) l.length (walkMember (ofBytes l) l.length).last := stopsAt_iff.mpr ⟨hmal, rfl⟩
      obtain ⟨hrec, hlen⟩ := scan_stop hstop
      have hone (P : Iter → Prop) : (∃ it, StopsAt (ofBytes l) l.length it ∧ P it) ↔ P (walkMember (ofBytes l) l.length).last := by
        constructor
        · rintro ⟨it, h, hp⟩
          rwa [h.1]
        · exact fun hp => ⟨_, hstop, hp⟩
      have hunknown : UnknownAt (ofBytes l) l.length (walkMember (ofBytes l) l.length).last ↔
          (walkMember (ofBytes l) l.length).last.p + 8 ≤ l.length ∧ recordLen (ofBytes l) (walkMember (ofBytes l) l.length).last.p = none := by
        constructor
        · exact fun h => h.2
        · intro h
          refine ⟨?_, h⟩
          by_contra hpend
          exact hno ⟨_, hstop, hpend, h⟩
      have hpast : PastEndAt (ofBytes l) l.length (walkMember (ofBytes l) l.length).last ↔
          ¬ UnknownAt (ofBytes l) l.length (walkMember (ofBytes l) l.length).last := by
        constructor
        · exact fun h hu => stop_unknown hu h
        · exact fun h => (iterNext_malformed hstop.2).resolve_left h
      constructor
      · rw [hrec, hone, hunknown, decide_eq_true_iff]
      · rw [hlen, hone, hpast, hunknown, Bool.not_eq_true', decide_eq_false_iff_not]

/-- A control record announces thirty-two bytes of text, of which eight are there. -/
theorem textPastEnd_badrec : ¬ ClassifiesStop (ofBytes ([0x01, 0, 0, 0, 0, 0, 0, 0, 0, 0, 0, 0, 0, 0, 0, 0x20] ++ List.replicate 8 0xFF)) 24
    (scan (ofBytes ([0x01, 0, 0, 0, 0, 0, 0, 0, 0, 0, 0, 0, 0, 0, 0, 0x20] ++ List.replicate 8 0xFF)) 24) := by
  intro h
  obtain ⟨it, hstop, hpend, -⟩ := h.badrec.mp (by decide)
  rw [← hstop.1] at hpend
  exact absurd hpend (by decide)

end Stop

end Cc370.Lmod
