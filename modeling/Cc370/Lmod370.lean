import Cc370.Mvs370
import Cc370.Lib.Tiles

namespace Cc370

namespace Lmod

inductive Kind
  | cesd | idr | ctl | text | scatter | sym
deriving DecidableEq, Repr

structure Item where
  kind : Kind
  off : ℕ
  len : ℕ
  flags : ℕ
deriving DecidableEq

structure Iter where
  p : ℕ
  pending : ℕ
  done : Bool
deriving DecidableEq

/-- Byte 0 of a control record: a text record follows, the module ends. -/
def ctlText (b0 : ℕ) : Bool := b0 % 2 = 1

def ctlEnd (b0 : ℕ) : Bool := b0 / 8 % 2 = 1

inductive Next
  | item (it : Iter) (out : Item)
  | stop
  | malformed
deriving DecidableEq

def iterNext (m : Buffer) (n : ℕ) (it : Iter) : Next :=
  let p := it.p
  if it.pending ≠ 0 then
    if n < p + it.pending then .malformed
    else .item ⟨p + it.pending, 0, it.done⟩ ⟨.text, p, it.pending, 0⟩
  else if it.done then .stop
  else if n ≤ p then .stop
  else if n < p + 8 then .malformed
  else
    let b0 := (m p).toNat
    let hi := b0 / 16
    let frame (kind : Kind) (flags blen pending : ℕ) (done : Bool) : Next :=
      if n < p + blen then .malformed else .item ⟨p + blen, pending, done⟩ ⟨kind, p, blen, flags⟩
    if hi = 2 then frame .cesd 0 (8 + mvsBe16 m (p + 6)) 0 false
    else if hi = 8 then frame .idr 0 ((m (p + 1)).toNat + 1) 0 false
    else if hi = 1 then frame .scatter 0 (4 + mvsBe24 m (p + 1)) 0 false
    else if hi = 4 then frame .sym (m (p + 1)).toNat (4 + mvsBe16 m (p + 2)) 0 false
    else if hi = 0 then
      if n < p + 16 then .malformed
      else frame .ctl b0 (16 + mvsBe16 m (p + 4) + mvsBe16 m (p + 6))
        (if ctlText b0 then mvsBe16 m (p + 14) else 0) (ctlEnd b0)
    else .malformed

structure Walk where
  items : List Item
  last : Iter
  malformed : Bool
deriving DecidableEq

def walk (m : Buffer) (n : ℕ) : ℕ → Iter → Walk
  | 0, it => ⟨[], it, false⟩
  | fuel + 1, it =>
    match iterNext m n it with
    | .item it' out =>
      let w := walk m n fuel it'
      { w with items := out :: w.items }
    | .stop => ⟨[], it, false⟩
    | .malformed => ⟨[], it, true⟩

structure Anomalies where
  trailing : Bool
  badrec : Bool
  badlen : Bool
  nomodend : Bool
deriving DecidableEq

def Anomalies.none : Anomalies := ⟨false, false, false, false⟩

def knownRecord (b0 : ℕ) : Bool := b0 / 16 ∈ [0x0, 0x1, 0x2, 0x4, 0x8]

def Item.isModend (r : Item) : Bool := r.kind = .ctl ∧ ctlEnd r.flags

def walkMember (m : Buffer) (n : ℕ) : Walk := walk m n (n + 1) ⟨0, 0, false⟩

/-- The anomaly bits of `lmod_scan`. -/
def scan (m : Buffer) (n : ℕ) : Anomalies :=
  let w := walkMember m n
  let p := w.last.p
  if w.malformed then
    if p + 8 ≤ n ∧ !knownRecord (m p).toNat then { Anomalies.none with badrec := true }
    else { Anomalies.none with badlen := true }
  else if !w.items.any Item.isModend then { Anomalies.none with nomodend := true }
  else if p < n then { Anomalies.none with trailing := true }
  else .none

/-- An entry of the CESD; its ESDID is its place there, from 1. -/
structure Esd where
  name : Name
  type : ℕ
  esdid : ℕ
  seg : ℕ
  addr : ℕ
  len : ℕ
deriving DecidableEq

/-- Where the entries of a CESD record begin. -/
def cesdOffsets (n : ℕ) (r : Item) : List ℕ :=
  (List.range ((min r.len (n - r.off) - 8) / 16)).map fun k => r.off + 8 + 16 * k

def cesdWalk (m : Buffer) (n : ℕ) : List Esd :=
  let rs := (walkMember m n).items.takeWhile fun r => r.kind = .sym ∨ r.kind = .cesd
  ((rs.filter fun r => r.kind = .cesd).flatMap (cesdOffsets n)).zipIdx.map fun (e, k) =>
    ⟨nameAt m e, (m (e + 8)).toNat % 16, k + 1, (m (e + 12)).toNat, mvsBe24 m (e + 9), mvsBe24 m (e + 13)⟩

/-- The lengths in the ID/length list of the control record at an offset. -/
def idLengths (m : Buffer) (off : ℕ) : List ℕ :=
  (List.range (mvsBe16 m (off + 4) / 4)).map fun k =>
    mvsBe16 m (off + 16 + mvsBe16 m (off + 6) + 4 * k + 2)

/-- A load module as `lmod_scan` and program fetch want it. -/
structure WellFormed (l : List UInt8) (maxtext : ℕ) : Prop where
  clean : scan (ofBytes l) l.length = .none
  modend : ∃ rs r, (walkMember (ofBytes l) l.length).items.filter (fun r => r.kind = .ctl) =
    rs ++ [r] ∧ r.isModend = true ∧ ∀ r' ∈ rs, r'.isModend = false
  announced : ∀ r ∈ (walkMember (ofBytes l) l.length).items, r.kind = .ctl → ctlText r.flags = true →
    1 ≤ mvsBe16 (ofBytes l) (r.off + 14) ∧ mvsBe16 (ofBytes l) (r.off + 14) ≤ maxtext
  lists : ∀ r ∈ (walkMember (ofBytes l) l.length).items, r.kind = .ctl → ctlText r.flags = true →
    (idLengths (ofBytes l) r.off).sum = mvsBe16 (ofBytes l) (r.off + 14)

/-- The text that a control record announces. -/
def announced (m : Buffer) (r : Item) : ℕ := if r.kind = .ctl ∧ ctlText r.flags then mvsBe16 m (r.off + 14) else 0

/-- What the iterator returns: the text that is pending, or the record it stands at, with the text that is then pending. -/
theorem iterNext_cases {m : Buffer} {n : ℕ} {it it' : Iter} {out : Item} (h : iterNext m n it = .item it' out) :
    it.p + out.len ≤ n ∧ (it.pending ≠ 0 ∧ out = ⟨.text, it.p, it.pending, 0⟩ ∧ it' = ⟨it.p + it.pending, 0, it.done⟩ ∨
      it.pending = 0 ∧ it.done = false ∧ out.off = it.p ∧ 0 < out.len ∧ out.kind ≠ .text ∧ (out.kind = .ctl → 16 ≤ out.len) ∧
        it' = ⟨it.p + out.len, announced m out, out.isModend⟩) := by
  have hframe : ∀ (kind : Kind) (flags blen pending : ℕ) (done : Bool),
      (if n < it.p + blen then Next.malformed else .item ⟨it.p + blen, pending, done⟩ ⟨kind, it.p, blen, flags⟩) = .item it' out →
        it.p + blen ≤ n ∧ it' = ⟨it.p + blen, pending, done⟩ ∧ out = ⟨kind, it.p, blen, flags⟩ := by
    intro kind flags blen pending done hif
    by_cases hlt : n < it.p + blen
    · rw [if_pos hlt] at hif
      exact absurd hif (by simp)
    · rw [if_neg hlt] at hif
      obtain ⟨rfl, rfl⟩ := Next.item.inj hif
      exact ⟨Nat.le_of_not_lt hlt, rfl, rfl⟩
  unfold iterNext at h
  dsimp only at h
  by_cases hpend : it.pending ≠ 0
  · rw [if_pos hpend] at h
    obtain ⟨hle, rfl, rfl⟩ := hframe .text 0 it.pending 0 it.done h
    exact ⟨hle, .inl ⟨hpend, rfl, rfl⟩⟩
  rw [if_neg hpend] at h
  by_cases hdone : it.done = true
  · rw [if_pos hdone] at h
    exact absurd h (by simp)
  rw [if_neg hdone] at h
  by_cases hend : n ≤ it.p
  · rw [if_pos hend] at h
    exact absurd h (by simp)
  rw [if_neg hend] at h
  by_cases h8 : n < it.p + 8
  · rw [if_pos h8] at h
    exact absurd h (by simp)
  rw [if_neg h8] at h
  -- the records that are no control records announce nothing and do not end the module
  have hplain : ∀ (kind : Kind) (flags blen : ℕ), kind ≠ .text → kind ≠ .ctl → 0 < blen →
      (if n < it.p + blen then Next.malformed else .item ⟨it.p + blen, 0, false⟩ ⟨kind, it.p, blen, flags⟩) = .item it' out →
        it.p + out.len ≤ n ∧ (it.pending ≠ 0 ∧ out = ⟨.text, it.p, it.pending, 0⟩ ∧ it' = ⟨it.p + it.pending, 0, it.done⟩ ∨
          it.pending = 0 ∧ it.done = false ∧ out.off = it.p ∧ 0 < out.len ∧ out.kind ≠ .text ∧ (out.kind = .ctl → 16 ≤ out.len) ∧
            it' = ⟨it.p + out.len, announced m out, out.isModend⟩) := by
    intro kind flags blen htext hctl hpos hif
    obtain ⟨hle, rfl, rfl⟩ := hframe kind flags blen 0 false hif
    exact ⟨hle, .inr ⟨not_not.mp hpend, by simpa using hdone, rfl, hpos, htext, fun hk => absurd hk hctl, by simp [announced, Item.isModend, hctl]⟩⟩
  by_cases hcesd : (m it.p).toNat / 16 = 2
  · rw [if_pos hcesd] at h
    exact hplain .cesd _ _ (by decide) (by decide) (by omega) h
  rw [if_neg hcesd] at h
  by_cases hidr : (m it.p).toNat / 16 = 8
  · rw [if_pos hidr] at h
    exact hplain .idr _ _ (by decide) (by decide) (by omega) h
  rw [if_neg hidr] at h
  by_cases hscat : (m it.p).toNat / 16 = 1
  · rw [if_pos hscat] at h
    exact hplain .scatter _ _ (by decide) (by decide) (by omega) h
  rw [if_neg hscat] at h
  by_cases hsym : (m it.p).toNat / 16 = 4
  · rw [if_pos hsym] at h
    exact hplain .sym _ _ (by decide) (by decide) (by omega) h
  rw [if_neg hsym] at h
  by_cases hctl : (m it.p).toNat / 16 = 0
  · rw [if_pos hctl] at h
    by_cases h16 : n < it.p + 16
    · rw [if_pos h16] at h
      exact absurd h (by simp)
    rw [if_neg h16] at h
    obtain ⟨hle, rfl, rfl⟩ := hframe .ctl _ _ _ _ h
    refine ⟨hle, .inr ⟨not_not.mp hpend, by simpa using hdone, rfl, ?_, nofun, fun _ => ?_, by simp [announced, Item.isModend]⟩⟩
    · dsimp only
      omega
    · dsimp only
      omega
  · rw [if_neg hctl] at h
    exact absurd h (by simp)

/-- A record begins where the iterator stands, and the iterator moves behind it. Only one of sixteen bytes
and more ends the module. -/
theorem iterNext_item {m : Buffer} {n : ℕ} {it it' : Iter} {out : Item} (h : iterNext m n it = .item it' out) :
    out.off = it.p ∧ 0 < out.len ∧ it'.p = it.p + out.len ∧ it'.p ≤ n ∧ (it'.done = true → it.done = true ∨ 16 ≤ out.len) := by
  obtain ⟨hle, ⟨hpend, rfl, rfl⟩ | ⟨-, -, hoff, hpos, -, h16, rfl⟩⟩ := iterNext_cases h
  · exact ⟨rfl, Nat.pos_of_ne_zero hpend, rfl, hle, .inl⟩
  · refine ⟨hoff, hpos, rfl, hle, ?_⟩
    intro hend
    simp only [Item.isModend, decide_eq_true_eq] at hend
    exact .inr (h16 hend.1)

/-- The records of a walk stand one behind the other. -/
theorem walk_tile {m : Buffer} {n : ℕ} (fuel : ℕ) (it : Iter) (hp : it.p ≤ n) :
    Tiles.Tile Item.off Item.len it.p (walk m n fuel it).last.p (walk m n fuel it).items ∧ (walk m n fuel it).last.p ≤ n := by
  induction fuel generalizing it with
  | zero => exact ⟨rfl, hp⟩
  | succ fuel ih =>
    rw [walk]
    cases hn : iterNext m n it with
    | item it' out =>
      obtain ⟨hoff, hpos, hnext, hle, -⟩ := iterNext_item hn
      obtain ⟨htile, hlast⟩ := ih it' hle
      rw [hnext] at htile
      exact ⟨⟨hoff, hpos, htile⟩, hlast⟩
    | stop => exact ⟨rfl, hp⟩
    | malformed => exact ⟨rfl, hp⟩

/-- The iterator does the same on the bytes up to the end of the record. -/
theorem iterNext_prefix {m m' : Buffer} {n n' : ℕ} {it it' : Iter} {out : Item} (hagree : ∀ k < n', m' k = m k)
    (h : iterNext m n it = .item it' out) (hp : it'.p ≤ n') (h16 : it.pending = 0 → it.p + 16 ≤ n') (hle : n' ≤ n) :
    iterNext m' n' it = .item it' out := by
  have hframe : ∀ (kind : Kind) (flags blen pending : ℕ) (done : Bool),
      (if n < it.p + blen then Next.malformed else .item ⟨it.p + blen, pending, done⟩ ⟨kind, it.p, blen, flags⟩) = .item it' out →
        (if n' < it.p + blen then Next.malformed else .item ⟨it.p + blen, pending, done⟩ ⟨kind, it.p, blen, flags⟩) = .item it' out := by
    intro kind flags blen pending done hif
    by_cases hlt : n < it.p + blen
    · rw [if_pos hlt] at hif
      exact absurd hif (by simp)
    · rw [if_neg hlt] at hif
      obtain ⟨rfl, rfl⟩ := Next.item.inj hif
      exact if_neg (Nat.not_lt.mpr hp)
  unfold iterNext at h ⊢
  dsimp only at h ⊢
  by_cases hpend : it.pending ≠ 0
  · rw [if_pos hpend] at h ⊢
    exact hframe .text 0 it.pending 0 it.done h
  have hroom := h16 (not_not.mp hpend)
  have hbyte : ∀ k < 16, m' (it.p + k) = m (it.p + k) := fun k hk => hagree _ (by omega)
  have hbyte0 : m' it.p = m it.p := hbyte 0 (by omega)
  have hbe : ∀ k < 15, mvsBe16 m' (it.p + k) = mvsBe16 m (it.p + k) := by
    intro k hk
    rw [mvsBe16, mvsBe16, hbyte k (by omega), add_assoc, hbyte (k + 1) (by omega)]
  have hbe24 : mvsBe24 m' (it.p + 1) = mvsBe24 m (it.p + 1) := by
    rw [mvsBe24, mvsBe24, hagree _ (by omega), hagree _ (by omega), hagree _ (by omega)]
  rw [if_neg hpend] at h ⊢
  rw [hbyte0, hbyte 1 (by omega), hbe 2 (by omega), hbe 4 (by omega), hbe 6 (by omega), hbe 14 (by omega), hbe24]
  by_cases hdone : it.done = true
  · rw [if_pos hdone] at h
    exact absurd h (by simp)
  rw [if_neg hdone, if_neg (by omega), if_neg (by omega)] at h ⊢
  by_cases hcesd : (m it.p).toNat / 16 = 2
  · rw [if_pos hcesd] at h ⊢
    exact hframe _ _ _ _ _ h
  rw [if_neg hcesd] at h ⊢
  by_cases hidr : (m it.p).toNat / 16 = 8
  · rw [if_pos hidr] at h ⊢
    exact hframe _ _ _ _ _ h
  rw [if_neg hidr] at h ⊢
  by_cases hscat : (m it.p).toNat / 16 = 1
  · rw [if_pos hscat] at h ⊢
    exact hframe _ _ _ _ _ h
  rw [if_neg hscat] at h ⊢
  by_cases hsym : (m it.p).toNat / 16 = 4
  · rw [if_pos hsym] at h ⊢
    exact hframe _ _ _ _ _ h
  rw [if_neg hsym] at h ⊢
  by_cases hctl : (m it.p).toNat / 16 = 0
  · rw [if_pos hctl, if_neg (by omega)] at h ⊢
    exact hframe _ _ _ _ _ h
  · rw [if_neg hctl] at h
    exact absurd h (by simp)

theorem walk_done {m : Buffer} {n : ℕ} (fuel : ℕ) (it : Iter) (hp : it.p ≤ n) (hdone : it.done = false)
    (h : (walk m n fuel it).last.done = true) : it.p + 16 ≤ (walk m n fuel it).last.p := by
  induction fuel generalizing it with
  | zero =>
    rw [walk] at h
    exact absurd (hdone.symm.trans h) (by simp)
  | succ fuel ih =>
    rw [walk] at h ⊢
    cases hn : iterNext m n it with
    | item it' out =>
      rw [hn] at h
      obtain ⟨-, hpos, hnext, hle, hend⟩ := iterNext_item hn
      have hmono := (walk_tile (m := m) fuel it' hle).1.le
      dsimp only at h ⊢
      by_cases hgo : it'.done = true
      · have := (hend hgo).resolve_left (by simp [hdone])
        omega
      · have := ih it' hle (by simpa using hgo) h
        omega
    | stop =>
      rw [hn] at h
      exact absurd (hdone.symm.trans h) (by simp)
    | malformed =>
      rw [hn] at h
      exact absurd (hdone.symm.trans h) (by simp)

/-- The walk over a module that ends sees nothing behind the end. -/
theorem walk_prefix {m m' : Buffer} {n n' : ℕ} (hagree : ∀ k < n', m' k = m k) (hle : n' ≤ n) (fuel fuel' : ℕ) (it : Iter) (hp : it.p ≤ n)
    (hmal : (walk m n fuel it).malformed = false) (hdone : (walk m n fuel it).last.done = true) (hlast : (walk m n fuel it).last.p = n')
    (hfuel : (walk m n fuel it).items.length < fuel) (hfuel' : (walk m n fuel it).items.length < fuel') :
    walk m' n' fuel' it = walk m n fuel it := by
  induction fuel generalizing it fuel' with
  | zero => exact absurd hfuel (Nat.not_lt_zero _)
  | succ fuel ih =>
    obtain ⟨f, rfl⟩ := Nat.exists_eq_add_one_of_ne_zero (Nat.ne_of_gt (Nat.zero_lt_of_lt hfuel'))
    have hroom : it.done = false → it.p + 16 ≤ n' := fun hd => hlast ▸ walk_done (fuel + 1) it hp hd hdone
    rw [walk] at hmal hdone hlast hfuel hfuel'
    rw [walk, walk]
    cases hn : iterNext m n it with
    | item it' out =>
      rw [hn] at hmal hdone hlast hfuel hfuel'
      obtain ⟨-, -, -, hle', -⟩ := iterNext_item hn
      have hbound : it'.p ≤ n' := hlast ▸ (walk_tile (m := m) fuel it' hle').1.le
      have hpend : it.pending = 0 → it.p + 16 ≤ n' := by
        intro h0
        apply hroom
        by_contra hd
        rw [iterNext, if_neg (not_not.mpr h0), if_pos (by simpa using hd)] at hn
        exact absurd hn (by simp)
      have hsame := iterNext_prefix hagree hn hbound hpend hle
      have hrest := ih f it' hle' hmal hdone hlast (by simpa using hfuel) (by simpa using hfuel')
      rw [hsame]
      dsimp only
      rw [hrest]
    | stop =>
      rw [hn] at hdone
      have hd : it.done = true := hdone
      have hstop : iterNext m' n' it = .stop := by
        unfold iterNext at hn ⊢
        dsimp only at hn ⊢
        by_cases hpend : it.pending ≠ 0
        · rw [if_pos hpend] at hn
          split_ifs at hn
        · rw [if_neg hpend, if_pos hd]
      rw [hstop]
    | malformed =>
      rw [hn] at hmal
      exact absurd hmal (by simp)

/-- The iterator stops at the end of the bytes, or behind the record that ends the module and its text. -/
theorem iterNext_stop {m : Buffer} {n : ℕ} {it : Iter} (h : iterNext m n it = .stop) : it.pending = 0 ∧ (it.done = true ∨ n ≤ it.p) := by
  unfold iterNext at h
  dsimp only at h
  by_cases hpend : it.pending ≠ 0
  · rw [if_pos hpend] at h
    split_ifs at h
  refine ⟨not_not.mp hpend, ?_⟩
  by_contra hno
  rw [not_or] at hno
  rw [if_neg hpend, if_neg hno.1, if_neg hno.2] at h
  split_ifs at h

theorem walk_end {m : Buffer} {n : ℕ} (fuel : ℕ) (it : Iter) (hmal : (walk m n fuel it).malformed = false)
    (hfuel : (walk m n fuel it).items.length < fuel) : (walk m n fuel it).last.done = true ∨ n ≤ (walk m n fuel it).last.p := by
  induction fuel generalizing it with
  | zero => exact absurd hfuel (Nat.not_lt_zero _)
  | succ fuel ih =>
    rw [walk] at hmal hfuel ⊢
    cases hn : iterNext m n it with
    | item it' out =>
      rw [hn] at hmal hfuel
      exact ih it' hmal (by simpa using hfuel)
    | stop => exact (iterNext_stop hn).2
    | malformed =>
      rw [hn] at hmal
      exact absurd hmal (by simp)

/-- A walk with fuel for its records ends because the iterator does. -/
theorem walk_last {m : Buffer} {n : ℕ} (fuel : ℕ) (it : Iter) (hfuel : (walk m n fuel it).items.length < fuel) :
    iterNext m n (walk m n fuel it).last = if (walk m n fuel it).malformed then .malformed else .stop := by
  induction fuel generalizing it with
  | zero => exact absurd hfuel (Nat.not_lt_zero _)
  | succ fuel ih =>
    rw [walk] at hfuel ⊢
    cases hn : iterNext m n it with
    | item it' out =>
      rw [hn] at hfuel
      exact ih it' (by simpa using hfuel)
    | stop => exact hn
    | malformed => exact hn

/-- The items of the text that is pending. -/
def Iter.text (it : Iter) : List Item := if it.pending = 0 then [] else [⟨.text, it.p, it.pending, 0⟩]

/-- Behind the record that ends the module only its text is returned. -/
theorem walk_modend {m : Buffer} {n : ℕ} (fuel : ℕ) (it : Iter) (hdone : it.done = true) (hmal : (walk m n fuel it).malformed = false)
    (hfuel : (walk m n fuel it).items.length < fuel) : (walk m n fuel it).items = it.text := by
  induction fuel generalizing it with
  | zero => exact absurd hfuel (Nat.not_lt_zero _)
  | succ fuel ih =>
    rw [walk] at hmal hfuel ⊢
    cases hn : iterNext m n it with
    | item it' out =>
      rw [hn] at hmal hfuel
      obtain ⟨-, ⟨hpend, rfl, rfl⟩ | ⟨-, hno, -⟩⟩ := iterNext_cases hn
      · have hrest := ih ⟨it.p + it.pending, 0, it.done⟩ hdone hmal (by simpa using hfuel)
        dsimp only
        rw [hrest]
        simp [Iter.text, hpend]
      · exact absurd (hdone.symm.trans hno) (by simp)
    | stop => simp [Iter.text, (iterNext_stop hn).1]
    | malformed =>
      rw [hn] at hmal
      exact absurd hmal (by simp)

/-- A walk that is not malformed ends with the bytes, or with the first record that ends the module and the text it announces. -/
theorem walk_ends {m : Buffer} {n : ℕ} (fuel : ℕ) (it : Iter) (hp : it.p ≤ n) (hdone : it.done = false)
    (hmal : (walk m n fuel it).malformed = false) (hfuel : (walk m n fuel it).items.length < fuel) :
    (walk m n fuel it).last.p = n ∨ ∃ rs r, (walk m n fuel it).items = rs ++ r :: Iter.text ⟨r.off + r.len, announced m r, true⟩ ∧
      r.isModend = true ∧ ∀ x ∈ rs, x.isModend = false := by
  induction fuel generalizing it with
  | zero => exact absurd hfuel (Nat.not_lt_zero _)
  | succ fuel ih =>
    rw [walk] at hmal hfuel ⊢
    cases hn : iterNext m n it with
    | item it' out =>
      rw [hn] at hmal hfuel
      have hrest : (walk m n fuel it').items.length < fuel := by simpa using hfuel
      obtain ⟨-, -, -, hle, -⟩ := iterNext_item hn
      dsimp only
      -- either this record ends the module, or the walk goes on behind it
      have hgo : it'.done = false → out.isModend = false → (walk m n fuel it').last.p = n ∨ ∃ rs r,
          out :: (walk m n fuel it').items = rs ++ r :: Iter.text ⟨r.off + r.len, announced m r, true⟩ ∧ r.isModend = true ∧ ∀ x ∈ rs, x.isModend = false := by
        intro hd hout
        rcases ih it' hle hd hmal hrest with hend | ⟨rs, r, hitems, hr, hrs⟩
        · exact .inl hend
        · refine .inr ⟨out :: rs, r, by rw [hitems]; rfl, hr, ?_⟩
          intro x hx
          rcases List.mem_cons.mp hx with rfl | hx
          · exact hout
          · exact hrs x hx
      obtain ⟨-, ⟨-, rfl, rfl⟩ | ⟨-, -, hoff, -, -, -, rfl⟩⟩ := iterNext_cases hn
      · exact hgo hdone rfl
      · by_cases hout : out.isModend = true
        · refine .inr ⟨[], out, ?_, hout, nofun⟩
          rw [walk_modend fuel _ hout hmal hrest, hoff, hout]
          rfl
        · exact hgo (by simpa using hout) (by simpa using hout)
    | stop =>
      obtain ⟨-, hd | hn⟩ := iterNext_stop hn
      · exact absurd (hdone.symm.trans hd) (by simp)
      · exact .inl (Nat.le_antisymm hp hn)
    | malformed =>
      rw [hn] at hmal
      exact absurd hmal (by simp)

/-- The records of a module are those of the bytes up to its end. -/
theorem walkMember_take {l : List UInt8} (h : (walkMember (ofBytes l) l.length).malformed = false) :
    walkMember (ofBytes (l.take (walkMember (ofBytes l) l.length).last.p)) (l.take (walkMember (ofBytes l) l.length).last.p).length =
      walkMember (ofBytes l) l.length := by
  obtain ⟨htile, hle⟩ := walk_tile (m := ofBytes l) (l.length + 1) ⟨0, 0, false⟩ (Nat.zero_le _)
  have hcount := htile.length_le
  rw [← walkMember] at hle hcount
  have hlen : (l.take (walkMember (ofBytes l) l.length).last.p).length = (walkMember (ofBytes l) l.length).last.p :=
    List.length_take_of_le hle
  rcases walk_end (m := ofBytes l) (l.length + 1) ⟨0, 0, false⟩ h (Nat.lt_succ_of_le (by rw [← walkMember]; omega)) with hdone | hall
  · rw [hlen]
    apply walk_prefix ?_ hle _ _ _ (Nat.zero_le _) h hdone rfl
    · rw [← walkMember]
      omega
    · rw [← walkMember]
      omega
    · intro k hk
      simp [ofBytes, List.getElem?_take_of_lt hk]
  · rw [← walkMember] at hall
    rw [List.take_of_length_le hall]

/-- A record of the stream with the text record that follows it. -/
structure Block where
  kind : Kind
  head : List UInt8
  text : List UInt8

namespace Block

def bytes (b : Block) : List UInt8 := b.head ++ b.text

def byte0 (b : Block) : ℕ := (ofBytes b.head 0).toNat

def flags (b : Block) : ℕ := if b.kind = .ctl then b.byte0 else 0

def ends (b : Block) : Bool := b.kind = .ctl ∧ ctlEnd b.byte0

/-- The record announces its own length and that of its text. -/
def Framed (b : Block) : Prop :=
  8 ≤ b.head.length ∧
    match b.kind with
    | .cesd => b.byte0 / 16 = 2 ∧ b.head.length = 8 + mvsBe16 (ofBytes b.head) 6 ∧ b.text = []
    | .idr => b.byte0 / 16 = 8 ∧ b.head.length = (ofBytes b.head 1).toNat + 1 ∧ b.text = []
    | .ctl => b.byte0 / 16 = 0 ∧
        b.head.length = 16 + mvsBe16 (ofBytes b.head) 4 + mvsBe16 (ofBytes b.head) 6 ∧
        b.text.length = if ctlText b.byte0 then mvsBe16 (ofBytes b.head) 14 else 0
    | _ => False

def items (b : Block) (off : ℕ) : List Item :=
  ⟨b.kind, off, b.head.length, b.flags⟩ ::
    if b.text = [] then [] else [⟨.text, off + b.head.length, b.text.length, 0⟩]

end Block

def blockItems : ℕ → List Block → List Item
  | _, [] => []
  | off, b :: bs => b.items off ++ blockItems (off + b.bytes.length) bs

theorem iterNext_head {b : Block} (h : b.Framed) (pre rest : List UInt8) :
    iterNext (ofBytes (pre ++ b.head ++ rest)) (pre ++ b.head ++ rest).length ⟨pre.length, 0, false⟩ =
      .item ⟨pre.length + b.head.length, b.text.length, b.ends⟩
        ⟨b.kind, pre.length, b.head.length, b.flags⟩ := by
  obtain ⟨h8, hk⟩ := h
  have hn : (pre ++ b.head ++ rest).length = pre.length + b.head.length + rest.length := by
    simp [add_assoc]
  have hb0 : (ofBytes (pre ++ b.head ++ rest) pre.length).toNat = b.byte0 :=
    congrArg UInt8.toNat (ofBytes_middle (k := 0) (by omega) pre rest)
  have hb1 : ofBytes (pre ++ b.head ++ rest) (pre.length + 1) = ofBytes b.head 1 :=
    ofBytes_middle (by omega) pre rest
  have h6 : mvsBe16 (ofBytes (pre ++ b.head ++ rest)) (pre.length + 6) =
      mvsBe16 (ofBytes b.head) 6 := mvsBe16_middle (by omega) pre rest
  unfold iterNext
  simp only [hn, hb0, hb1, h6, ne_eq, not_true_eq_false, ↓reduceIte, Bool.false_eq_true]
  rw [if_neg (by omega), if_neg (by omega)]
  cases hkind : b.kind with
  | cesd =>
    rw [hkind] at hk
    obtain ⟨hhi, hlen, htext⟩ := hk
    rw [if_pos hhi, if_neg (by omega)]
    simp [Block.ends, Block.flags, hkind, htext, hlen]
  | idr =>
    rw [hkind] at hk
    obtain ⟨hhi, hlen, htext⟩ := hk
    rw [if_neg (by omega), if_pos hhi, if_neg (by omega)]
    simp [Block.ends, Block.flags, hkind, htext, hlen]
  | ctl =>
    rw [hkind] at hk
    obtain ⟨hhi, hlen, htext⟩ := hk
    have h4 : mvsBe16 (ofBytes (pre ++ b.head ++ rest)) (pre.length + 4) =
        mvsBe16 (ofBytes b.head) 4 := mvsBe16_middle (by omega) pre rest
    have h14 : mvsBe16 (ofBytes (pre ++ b.head ++ rest)) (pre.length + 14) =
        mvsBe16 (ofBytes b.head) 14 := mvsBe16_middle (by omega) pre rest
    rw [if_neg (by omega), if_neg (by omega), if_neg (by omega), if_neg (by omega), if_pos hhi,
      if_neg (by omega), h4, if_neg (by omega), h14]
    rw [← htext, ← hlen]
    simp [Block.ends, Block.flags, hkind]
  | text =>
    rw [hkind] at hk
    exact absurd hk id
  | scatter =>
    rw [hkind] at hk
    exact absurd hk id
  | sym =>
    rw [hkind] at hk
    exact absurd hk id

theorem iterNext_text {t : List UInt8} (h : t ≠ []) (pre rest : List UInt8) (done : Bool) :
    iterNext (ofBytes (pre ++ t ++ rest)) (pre ++ t ++ rest).length ⟨pre.length, t.length, done⟩ =
      .item ⟨pre.length + t.length, 0, done⟩ ⟨.text, pre.length, t.length, 0⟩ := by
  have hpos : t.length ≠ 0 := by simpa using h
  unfold iterNext
  simp only [ne_eq, hpos, not_false_eq_true, ↓reduceIte]
  rw [if_neg (by simp)]

theorem walk_block {b : Block} (h : b.Framed) (pre rest : List UInt8) {fuel : ℕ} (hf : 2 ≤ fuel) :
    ∃ fuel', fuel ≤ fuel' + 2 ∧
      walk (ofBytes (pre ++ b.bytes ++ rest)) (pre ++ b.bytes ++ rest).length fuel
          ⟨pre.length, 0, false⟩ =
        let w := walk (ofBytes (pre ++ b.bytes ++ rest)) (pre ++ b.bytes ++ rest).length fuel'
          ⟨(pre ++ b.bytes).length, 0, b.ends⟩
        { w with items := b.items pre.length ++ w.items } := by
  obtain ⟨f, rfl⟩ : ∃ f, fuel = f + 2 := ⟨fuel - 2, by omega⟩
  have hall : pre ++ b.bytes ++ rest = pre ++ b.head ++ (b.text ++ rest) := by simp [Block.bytes]
  have h1 := iterNext_head h pre (b.text ++ rest)
  rw [← hall] at h1
  by_cases ht : b.text = []
  · refine ⟨f + 1, by omega, ?_⟩
    have hlen : (pre ++ b.bytes).length = pre.length + b.head.length := by simp [Block.bytes, ht]
    rw [walk, h1]
    simp [Block.items, ht, hlen]
  · refine ⟨f, le_rfl, ?_⟩
    have hall' : pre ++ b.bytes ++ rest = (pre ++ b.head) ++ b.text ++ rest := by
      simp [Block.bytes]
    have h2 := iterNext_text ht (pre ++ b.head) rest b.ends
    rw [← hall', show (pre ++ b.head).length = pre.length + b.head.length by simp] at h2
    have hlen : (pre ++ b.bytes).length = pre.length + b.head.length + b.text.length := by
      simp [Block.bytes, add_assoc]
    rw [walk, h1]
    dsimp only
    rw [walk, h2]
    simp [Block.items, ht, hlen]

/-- The walk of a stream of framed records of which only the last may end the module. -/
theorem walk_blocks {bs : List Block} (h : ∀ b ∈ bs, b.Framed)
    (hend : ∀ b ∈ bs.dropLast, b.ends = false) (pre : List UInt8) {fuel : ℕ}
    (hf : 2 * bs.length < fuel) :
    walk (ofBytes (pre ++ bs.flatMap Block.bytes)) (pre ++ bs.flatMap Block.bytes).length fuel
        ⟨pre.length, 0, false⟩ =
      ⟨blockItems pre.length bs,
        ⟨(pre ++ bs.flatMap Block.bytes).length, 0, (bs.getLast?).any Block.ends⟩, false⟩ := by
  induction bs generalizing pre fuel with
  | nil =>
    obtain ⟨f, rfl⟩ : ∃ f, fuel = f + 1 := ⟨fuel - 1, by omega⟩
    have hstop : iterNext (ofBytes (pre ++ [].flatMap Block.bytes))
        (pre ++ [].flatMap Block.bytes).length ⟨pre.length, 0, false⟩ = .stop := by
      simp [iterNext]
    rw [walk, hstop]
    simp [blockItems]
  | cons b bs ih =>
    rw [List.length_cons] at hf
    have hall : pre ++ (b :: bs).flatMap Block.bytes = pre ++ b.bytes ++ bs.flatMap Block.bytes := by
      simp
    have hf2 : 2 ≤ fuel := by omega
    obtain ⟨f, hfl, hw⟩ := walk_block (h b (by simp)) pre (bs.flatMap Block.bytes) hf2
    rw [hall, hw]
    cases bs with
    | nil =>
      obtain ⟨f', rfl⟩ : ∃ f', f = f' + 1 := ⟨f - 1, by simp at hf; omega⟩
      have hstop : iterNext (ofBytes (pre ++ b.bytes ++ [].flatMap Block.bytes))
          (pre ++ b.bytes ++ [].flatMap Block.bytes).length
          ⟨(pre ++ b.bytes).length, 0, b.ends⟩ = .stop := by
        cases b.ends <;> simp [iterNext]
      simp only
      rw [walk, hstop]
      simp [blockItems]
    | cons b' bs =>
      have hb : b.ends = false := hend b (by simp)
      have hf' : 2 * (b' :: bs).length < f := by omega
      have hrest := ih (fun c hc => h c (List.mem_cons_of_mem _ hc))
        (fun c hc => hend c (by simp [List.dropLast_cons_of_ne_nil, hc])) (pre ++ b.bytes) hf'
      dsimp only
      rw [hb, hrest]
      simp [blockItems]

/-- Records of which none ends the module are walked first, whatever follows them. -/
theorem walk_leading {bs : List Block} (h : ∀ b ∈ bs, b.Framed) (hend : ∀ b ∈ bs, b.ends = false) (pre rest : List UInt8) {fuel : ℕ}
    (hf : 2 * bs.length ≤ fuel) : ∃ more, (walk (ofBytes (pre ++ bs.flatMap Block.bytes ++ rest))
      (pre ++ bs.flatMap Block.bytes ++ rest).length fuel ⟨pre.length, 0, false⟩).items = blockItems pre.length bs ++ more := by
  induction bs generalizing pre fuel with
  | nil => exact ⟨_, rfl⟩
  | cons b bs ih =>
    rw [List.length_cons] at hf
    have hall : pre ++ (b :: bs).flatMap Block.bytes ++ rest = pre ++ b.bytes ++ (bs.flatMap Block.bytes ++ rest) := by simp
    have hall' : pre ++ b.bytes ++ (bs.flatMap Block.bytes ++ rest) = (pre ++ b.bytes) ++ bs.flatMap Block.bytes ++ rest := by simp
    obtain ⟨f, hfl, hw⟩ := walk_block (h b List.mem_cons_self) pre (bs.flatMap Block.bytes ++ rest) (by omega : 2 ≤ fuel)
    obtain ⟨more, hmore⟩ := ih (fun c hc => h c (List.mem_cons_of_mem _ hc)) (fun c hc => hend c (List.mem_cons_of_mem _ hc))
      (pre ++ b.bytes) (by omega : 2 * bs.length ≤ f)
    refine ⟨more, ?_⟩
    rw [hall, hw, hend b List.mem_cons_self]
    dsimp only
    rw [hall', hmore, blockItems, List.append_assoc, List.length_append]

theorem walkMember_blocks {bs : List Block} (h : ∀ b ∈ bs, b.Framed)
    (hend : ∀ b ∈ bs.dropLast, b.ends = false) :
    walkMember (ofBytes (bs.flatMap Block.bytes)) (bs.flatMap Block.bytes).length =
      ⟨blockItems 0 bs, ⟨(bs.flatMap Block.bytes).length, 0, (bs.getLast?).any Block.ends⟩, false⟩ := by
  have hlen : 2 * bs.length ≤ (bs.flatMap Block.bytes).length := by
    clear hend
    induction bs with
    | nil => simp
    | cons b bs ih =>
      have h8 := (h b (by simp)).1
      have := ih fun c hc => h c (List.mem_cons_of_mem _ hc)
      simp only [List.flatMap_cons, List.length_append, List.length_cons, Block.bytes]
      omega
  exact walk_blocks h hend [] (by omega)

theorem Block.Framed.ctl_length {b : Block} (h : b.Framed) (hk : b.kind = .ctl) :
    b.head.length = 16 + mvsBe16 (ofBytes b.head) 4 + mvsBe16 (ofBytes b.head) 6 := by
  have := h.2
  rw [hk] at this
  exact this.2.1

theorem mem_blockItems {bs : List Block} {off : ℕ} {r : Item} (hr : r ∈ blockItems off bs)
    (hk : r.kind = .ctl) : ∃ pre b post, bs = pre ++ b :: post ∧ b.kind = .ctl ∧
      r = ⟨.ctl, off + (pre.flatMap Block.bytes).length, b.head.length, b.byte0⟩ := by
  induction bs generalizing off with
  | nil => simp [blockItems] at hr
  | cons b bs ih =>
    rcases List.mem_append.mp hr with hr | hr
    · rcases List.mem_cons.mp hr with rfl | hr
      · refine ⟨[], b, bs, rfl, hk, ?_⟩
        have hkb : b.kind = .ctl := hk
        simp [Block.flags, hkb]
      · split_ifs at hr with ht
        · simp at hr
        · rw [List.mem_singleton.mp hr] at hk
          exact absurd hk (by simp)
    · obtain ⟨pre, c, post, rfl, hkc, rfl⟩ := ih hr
      refine ⟨b :: pre, c, post, rfl, hkc, ?_⟩
      simp [add_assoc]

theorem blockItems_append (bs cs : List Block) (off : ℕ) :
    blockItems off (bs ++ cs) =
      blockItems off bs ++ blockItems (off + (bs.flatMap Block.bytes).length) cs := by
  induction bs generalizing off with
  | nil => simp [blockItems]
  | cons b bs ih => simp [blockItems, ih, add_assoc]

section Middle

variable {b : Block} (h : b.Framed) (hk : b.kind = .ctl) (pre rest : List UInt8)

include h hk

theorem ctl_be16 {k : ℕ} (hlt : k < 15) :
    mvsBe16 (ofBytes (pre ++ b.head ++ rest)) (pre.length + k) = mvsBe16 (ofBytes b.head) k := by
  have := h.ctl_length hk
  exact mvsBe16_middle (by omega) pre rest

theorem idLengths_middle :
    idLengths (ofBytes (pre ++ b.head ++ rest)) pre.length = idLengths (ofBytes b.head) 0 := by
  have hlen := h.ctl_length hk
  have h4 := ctl_be16 h hk pre rest (k := 4) (by omega)
  have h6 := ctl_be16 h hk pre rest (k := 6) (by omega)
  simp only [idLengths, h4, h6, Nat.zero_add]
  apply List.map_congr_left
  intro k hkr
  rw [List.mem_range] at hkr
  have hpos : pre.length + 16 + mvsBe16 (ofBytes b.head) 6 + 4 * k + 2 =
      pre.length + (16 + mvsBe16 (ofBytes b.head) 6 + 4 * k + 2) := by omega
  rw [hpos]
  exact mvsBe16_middle (by omega) pre rest

end Middle

/-- A stream of framed records is a well-formed module when its last record, and none before,
ends it and every control record with text is in order by itself. -/
theorem wellFormed_iff {bs : List Block} {maxtext : ℕ} (h : ∀ b ∈ bs, b.Framed)
    (hend : ∀ b ∈ bs.dropLast, b.ends = false) :
    WellFormed (bs.flatMap Block.bytes) maxtext ↔ (bs.getLast?).any Block.ends = true ∧
      ∀ b ∈ bs, b.kind = .ctl → ctlText b.byte0 = true →
        (1 ≤ mvsBe16 (ofBytes b.head) 14 ∧ mvsBe16 (ofBytes b.head) 14 ≤ maxtext) ∧
          (idLengths (ofBytes b.head) 0).sum = mvsBe16 (ofBytes b.head) 14 := by
  have hwalk := walkMember_blocks h hend
  have hmiddle (pre : List Block) (b : Block) (post : List Block) (hbs : bs = pre ++ b :: post) :
      bs.flatMap Block.bytes = pre.flatMap Block.bytes ++ b.head ++
        (b.text ++ post.flatMap Block.bytes) := by
    simp [hbs, Block.bytes]
  have hctl : ∀ r ∈ blockItems 0 bs, r.kind = .ctl → ∃ b ∈ bs, b.kind = .ctl ∧ r.flags = b.byte0 ∧
      mvsBe16 (ofBytes (bs.flatMap Block.bytes)) (r.off + 14) = mvsBe16 (ofBytes b.head) 14 ∧
      idLengths (ofBytes (bs.flatMap Block.bytes)) r.off = idLengths (ofBytes b.head) 0 := by
    intro r hr hk
    obtain ⟨pre, b, post, hbs, hkb, rfl⟩ := mem_blockItems hr hk
    have hb : b ∈ bs := by rw [hbs]; simp
    have h14 := ctl_be16 (h b hb) hkb (pre.flatMap Block.bytes)
      (b.text ++ post.flatMap Block.bytes) (k := 14) (by omega)
    have hids := idLengths_middle (h b hb) hkb (pre.flatMap Block.bytes)
      (b.text ++ post.flatMap Block.bytes)
    rw [← hmiddle pre b post hbs] at h14 hids
    refine ⟨b, hb, hkb, rfl, ?_, ?_⟩
    · simpa using h14
    · simpa using hids
  have hblock : ∀ b ∈ bs, b.kind = .ctl → ∃ r ∈ blockItems 0 bs, r.kind = .ctl ∧
      r.flags = b.byte0 ∧
      mvsBe16 (ofBytes (bs.flatMap Block.bytes)) (r.off + 14) = mvsBe16 (ofBytes b.head) 14 ∧
      idLengths (ofBytes (bs.flatMap Block.bytes)) r.off = idLengths (ofBytes b.head) 0 := by
    intro b hb hkb
    obtain ⟨pre, post, hbs⟩ := List.append_of_mem hb
    have h14 := ctl_be16 (h b hb) hkb (pre.flatMap Block.bytes)
      (b.text ++ post.flatMap Block.bytes) (k := 14) (by omega)
    have hids := idLengths_middle (h b hb) hkb (pre.flatMap Block.bytes)
      (b.text ++ post.flatMap Block.bytes)
    rw [← hmiddle pre b post hbs] at h14 hids
    refine ⟨⟨b.kind, (pre.flatMap Block.bytes).length, b.head.length, b.flags⟩, ?_, hkb, ?_, h14, hids⟩
    · rw [hbs, blockItems_append]
      simp [blockItems, Block.items]
    · simp [Block.flags, hkb]
  constructor
  · intro hw
    constructor
    · have hclean := hw.clean
      by_contra hlast
      rw [Bool.not_eq_true] at hlast
      have hno : (blockItems 0 bs).any Item.isModend = false := by
        rw [List.any_eq_false]
        intro r hr hmod
        obtain ⟨hk, hflag⟩ : r.kind = .ctl ∧ ctlEnd r.flags = true := by
          simpa [Item.isModend] using hmod
        obtain ⟨pre, b, post, hbs, hkb, rfl⟩ := mem_blockItems hr hk
        have hends : b.ends = true := by simpa [Block.ends, hkb] using hflag
        rcases List.eq_nil_or_concat post with rfl | ⟨l, z, rfl⟩
        · rw [hbs] at hlast
          simp [hends] at hlast
        · have : b ∈ bs.dropLast := by
            rw [hbs, List.concat_eq_append, ← List.cons_append, ← List.append_assoc,
              List.dropLast_concat]
            simp
          rw [hend b this] at hends
          exact absurd hends (by simp)
      rw [scan, hwalk] at hclean
      simp [hno, Anomalies.none] at hclean
    · intro b hb hkb htext
      obtain ⟨r, hr, hkr, hflags, h14, hids⟩ := hblock b hb hkb
      have hr' : r ∈ (walkMember (ofBytes (bs.flatMap Block.bytes))
          (bs.flatMap Block.bytes).length).items := by rw [hwalk]; exact hr
      rw [← h14, ← hids]
      exact ⟨hw.announced r hr' hkr (by rw [hflags]; exact htext),
        hw.lists r hr' hkr (by rw [hflags]; exact htext)⟩
  · rintro ⟨hlast, hall⟩
    obtain ⟨z, hz, hzend⟩ : ∃ z, bs.getLast? = some z ∧ z.ends = true := by
      cases hg : bs.getLast? with
      | none => simp [hg] at hlast
      | some z => exact ⟨z, rfl, by simpa [hg] using hlast⟩
    obtain ⟨l, hl⟩ := List.getLast?_eq_some_iff.mp hz
    obtain ⟨hzk, hzflag⟩ : z.kind = .ctl ∧ ctlEnd z.byte0 = true := by
      simpa [Block.ends] using hzend
    have hitem : (⟨.ctl, (l.flatMap Block.bytes).length, z.head.length, z.byte0⟩ : Item) ∈
        blockItems 0 bs := by
      rw [hl, blockItems_append]
      simp [blockItems, Block.items, Block.flags, hzk]
    refine ⟨?_, ?_, ?_, ?_⟩
    · have hany : (blockItems 0 bs).any Item.isModend = true :=
        List.any_eq_true.mpr ⟨_, hitem, by simp [Item.isModend, hzflag]⟩
      rw [scan, hwalk]
      simp [hany]
    · refine ⟨(blockItems 0 l).filter fun r => r.kind = .ctl,
        ⟨.ctl, (l.flatMap Block.bytes).length, z.head.length, z.byte0⟩, ?_, ?_, ?_⟩
      · rw [hwalk, hl, blockItems_append, List.filter_append]
        by_cases ht : z.text = [] <;> simp [blockItems, Block.items, Block.flags, hzk, ht]
      · simp [Item.isModend, hzflag]
      · intro r hr
        obtain ⟨hr, hk⟩ := List.mem_filter.mp hr
        obtain ⟨pre, b, post, hlb, hkb, rfl⟩ := mem_blockItems hr (by simpa using hk)
        have hb : b ∈ bs.dropLast := by
          rw [hl, List.dropLast_concat, hlb]
          simp
        have := hend b hb
        simpa [Item.isModend, Block.ends, hkb] using this
    · intro r hr hk htext
      rw [hwalk] at hr
      obtain ⟨b, hb, hkb, hflags, h14, -⟩ := hctl r hr hk
      rw [h14]
      exact (hall b hb hkb (by rw [← hflags]; exact htext)).1
    · intro r hr hk htext
      rw [hwalk] at hr
      obtain ⟨b, hb, hkb, hflags, h14, hids⟩ := hctl r hr hk
      rw [h14, hids]
      exact (hall b hb hkb (by rw [← hflags]; exact htext)).2

end Lmod

end Cc370
