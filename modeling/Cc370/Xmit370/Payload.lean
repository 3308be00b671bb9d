import Cc370.Lib.Reads
import Cc370.Directory

namespace Cc370.Xmit370

open Reads

structure Geom where
  startCc : ℕ
  startHh : ℕ
  trkpercyl : ℕ
deriving DecidableEq

/-- An entry of the directory, with the user data that is kept. -/
structure Dirent where
  name : Name
  tt : ℕ
  r : ℕ
  cbyte : UInt8
  ud : List UInt8
deriving DecidableEq

section Read

variable (u : Buffer) (ulen : ℕ)

def readGeom : Geom :=
  ⟨mvsBe16 u 74, mvsBe16 u 76, if mvsBe16 u 26 < 1 then mvsTrkpercyl3350 else mvsBe16 u 26⟩

/-- Eight bytes X'FF' end the entries of a block. -/
def endsBlock (e : ℕ) : Bool := (List.range 8).all fun k => u (e + k) = 0xFF

def keptLen (e : ℕ) : ℕ := min 64 ((u (e + 11)).toNat % 32 * 2)

def dirent (e : ℕ) : Dirent :=
  ⟨nameAt u e, mvsBe16 u (e + 8), (u (e + 10)).toNat, u (e + 11), (List.range (keptLen u e)).map fun k => u (e + 12 + k)⟩

/-- Where the entries of the directory blocks stand, and the first record that is no directory block. -/
def directoryWalk : ℕ → ℕ → List ℕ × ℕ
  | 0, p => ([], p)
  | fuel + 1, p =>
    if p + 12 ≤ ulen ∧ u (p + 9) = 8 ∧ mvsBe16 u (p + 10) = 256 ∧ p + 12 + 8 + 256 ≤ ulen then
      let q := p + 12 + 8
      let used := mvsBe16 u q
      let rest := directoryWalk fuel (q + 256)
      ((entryWalk (endsBlock u) u q used used 2).1 ++ rest.1, rest.2)
    else ([], p)

/-- The records without key, data and address end the directory. -/
def skipEod : ℕ → ℕ → ℕ
  | 0, p => p
  | fuel + 1, p =>
    if p + 12 ≤ ulen ∧ u (p + 9) = 0 ∧ mvsBe16 u (p + 10) = 0 ∧ mvsBe16 u (p + 4) = 0 ∧ mvsBe16 u (p + 6) = 0 ∧ u (p + 8) = 0 then
      skipEod fuel (p + 12)
    else p

def readDirectory (hdrlen : ℕ) : List Dirent × ℕ :=
  let w := directoryWalk u ulen (ulen + 1) hdrlen
  (w.1.map (dirent u), skipEod u ulen (ulen + 1) w.2)

/-- Relative track and record of the data record at an offset. -/
def hereAt (g : Geom) (p : ℕ) : ℤ :=
  (((mvsBe16 u (p + 4) : ℤ) - g.startCc) * g.trkpercyl + ((mvsBe16 u (p + 6) : ℤ) - g.startHh)) * 256 + (u (p + 8)).toNat

def memberLoop (g : Geom) (want : ℤ) : ℕ → ℕ → Bool → List UInt8
  | 0, _, _ => []
  | fuel + 1, p, started =>
    if p + 12 ≤ ulen then
      let dl := mvsBe16 u (p + 10)
      let kl := (u (p + 9)).toNat
      let started := started ∨ want ≤ hereAt u g p
      if started then
        if dl = 0 then []
        else (List.range dl).map (fun k => u (p + 12 + kl + k)) ++ memberLoop g want fuel (p + 12 + kl + dl) true
      else memberLoop g want fuel (p + 12 + kl + dl) false
    else []

/-- The bytes of a member, from the first record that its TTR comes to. -/
def readMemberBytes (dataOff : ℕ) (g : Geom) (tt r : ℕ) : List UInt8 := memberLoop u ulen g (tt * 256 + r) (ulen + 1) dataOff false

/-- Of each data record the head is read, and of those that the member has the data. -/
def memberReads (g : Geom) (want : ℤ) : ℕ → ℕ → Bool → List Span
  | 0, _, _ => []
  | fuel + 1, p, started =>
    if p + 12 ≤ ulen then
      let dl := mvsBe16 u (p + 10)
      let kl := (u (p + 9)).toNat
      let started := started ∨ want ≤ hereAt u g p
      ⟨p + 4, 8⟩ ::
        if started then
          if dl = 0 then [] else ⟨p + 12 + kl, dl⟩ :: memberReads g want fuel (p + 12 + kl + dl) true
        else memberReads g want fuel (p + 12 + kl + dl) false
    else []

/-- Where the records with the member's data stand. -/
def memberRecords (g : Geom) (want : ℤ) : ℕ → ℕ → Bool → List ℕ
  | 0, _, _ => []
  | fuel + 1, p, started =>
    if p + 12 ≤ ulen then
      let dl := mvsBe16 u (p + 10)
      let kl := (u (p + 9)).toNat
      if started ∨ want ≤ hereAt u g p then
        if dl = 0 then [] else p :: memberRecords g want fuel (p + 12 + kl + dl) true
      else memberRecords g want fuel (p + 12 + kl + dl) false
    else []

def geomReads : List Span := [⟨26, 2⟩, ⟨74, 2⟩, ⟨76, 2⟩]

def direntReads (e : ℕ) : List Span := [⟨e + 8, 3⟩, ⟨e + 12, keptLen u e⟩]

def directoryReads : ℕ → ℕ → List Span
  | 0, _ => []
  | fuel + 1, p =>
    if p + 12 ≤ ulen then
      [⟨p + 9, 1⟩, ⟨p + 10, 2⟩] ++
        if u (p + 9) = 8 ∧ mvsBe16 u (p + 10) = 256 ∧ p + 12 + 8 + 256 ≤ ulen then
          let q := p + 12 + 8
          let used := mvsBe16 u q
          ⟨q, 2⟩ :: (entryReads (endsBlock u) 8 u q used used 2 ++
            (entryWalk (endsBlock u) u q used used 2).1.flatMap (direntReads u) ++ directoryReads fuel (q + 256))
        else []
    else []

def skipReads : ℕ → ℕ → List Span
  | 0, _ => []
  | fuel + 1, p =>
    if p + 12 ≤ ulen then
      ⟨p + 4, 8⟩ ::
        if u (p + 9) = 0 ∧ mvsBe16 u (p + 10) = 0 ∧ mvsBe16 u (p + 4) = 0 ∧ mvsBe16 u (p + 6) = 0 ∧ u (p + 8) = 0 then
          skipReads fuel (p + 12)
        else []
    else []

end Read

/-- The bytes that `read_directory` reads. -/
def readDirectoryReads (u : Buffer) (ulen hdrlen : ℕ) : List Span :=
  directoryReads u ulen (ulen + 1) hdrlen ++ skipReads u ulen (ulen + 1) (directoryWalk u ulen (ulen + 1) hdrlen).2

/-- The bytes that `member_bytes` reads. -/
def memberBytesReads (u : Buffer) (ulen dataOff : ℕ) (g : Geom) (tt r : ℕ) : List Span :=
  memberReads u ulen g (tt * 256 + r) (ulen + 1) dataOff false

/-- What `do_extract` reads of the payload. -/
def extractReads (u : Buffer) (ulen hdrlen : ℕ) : List Span :=
  if ulen < 16 then []
  else
    let d := readDirectory u ulen hdrlen
    [⟨10, 1⟩, ⟨8, 2⟩] ++ geomReads ++ readDirectoryReads u ulen hdrlen ++
      d.1.flatMap fun e => memberBytesReads u ulen d.2 (readGeom u) e.tt e.r

def DirectoryFits (u : Buffer) (ulen hdrlen : ℕ) : Prop := ∀ e ∈ (directoryWalk u ulen (ulen + 1) hdrlen).1, e + 12 + keptLen u e ≤ ulen

def RecordsFit (u : Buffer) (ulen dataOff : ℕ) (g : Geom) (tt r : ℕ) : Prop :=
  ∀ p ∈ memberRecords u ulen g (tt * 256 + r) (ulen + 1) dataOff false, p + 12 + (u (p + 9)).toNat + mvsBe16 u (p + 10) ≤ ulen

def ExtractFits (u : Buffer) (ulen hdrlen : ℕ) : Prop := ulen < 16 ∨ 78 ≤ ulen ∧ DirectoryFits u ulen hdrlen ∧
  ∀ e ∈ (readDirectory u ulen hdrlen).1, RecordsFit u ulen (readDirectory u ulen hdrlen).2 (readGeom u) e.tt e.r

section Within

variable {u : Buffer} {ulen : ℕ}

theorem geomReads_within : Within ulen geomReads ↔ 78 ≤ ulen := by
  simp only [geomReads, within_cons, within_nil, and_true]
  omega

theorem skipReads_within (fuel p : ℕ) : Within ulen (skipReads u ulen fuel p) := by
  induction fuel generalizing p with
  | zero => exact within_nil
  | succ fuel ih =>
    rw [skipReads]
    by_cases hroom : p + 12 ≤ ulen
    · rw [if_pos hroom, within_cons]
      refine ⟨.inr (by dsimp only; omega), ?_⟩
      split_ifs
      · exact ih _
      · exact within_nil
    · rw [if_neg hroom]
      exact within_nil

theorem memberReads_within (g : Geom) (want : ℤ) (fuel p : ℕ) (started : Bool) : Within ulen (memberReads u ulen g want fuel p started) ↔
    ∀ r ∈ memberRecords u ulen g want fuel p started, r + 12 + (u (r + 9)).toNat + mvsBe16 u (r + 10) ≤ ulen := by
  induction fuel generalizing p started with
  | zero => exact iff_of_true within_nil fun _ h => absurd h List.not_mem_nil
  | succ fuel ih =>
    rw [memberReads, memberRecords]
    by_cases hroom : p + 12 ≤ ulen
    · rw [if_pos hroom, if_pos hroom, within_cons, and_iff_right (.inr (by dsimp only; omega))]
      dsimp only
      by_cases hgo : started ∨ want ≤ hereAt u g p
      · rw [if_pos hgo, if_pos hgo]
        by_cases hdl : mvsBe16 u (p + 10) = 0
        · rw [if_pos hdl, if_pos hdl]
          exact iff_of_true within_nil fun _ h => absurd h List.not_mem_nil
        · rw [if_neg hdl, if_neg hdl, within_cons, ih, List.forall_mem_cons]
          exact and_congr_left' (or_iff_right hdl)
      · rw [if_neg hgo, if_neg hgo, ih]
    · rw [if_neg hroom, if_neg hroom]
      exact iff_of_true within_nil fun _ h => absurd h List.not_mem_nil

/-- Behind the end there are no bytes X'FF', so a walk that goes on there comes to an entry. -/
theorem entries_within (hz : ∀ k, ulen ≤ k → u k ≠ 0xFF) {dir used : ℕ} (fuel q : ℕ) :
    Within ulen (entryReads (endsBlock u) 8 u dir used fuel q) ∧ Within ulen ((entryWalk (endsBlock u) u dir used fuel q).1.flatMap (direntReads u)) ↔
      ∀ e ∈ (entryWalk (endsBlock u) u dir used fuel q).1, e + 12 + keptLen u e ≤ ulen := by
  induction fuel generalizing q with
  | zero => exact iff_of_true ⟨within_nil, within_nil⟩ fun _ h => absurd h List.not_mem_nil
  | succ fuel ih =>
    rw [entryReads, entryWalk]
    by_cases hgo : q + 12 ≤ used
    · rw [if_pos hgo, if_pos hgo]
      by_cases hs : endsBlock u (dir + q) = true
      · rw [if_pos hs, if_pos hs]
        have h7 : u (dir + q + 7) = 0xFF := by simpa using List.all_eq_true.mp hs 7 (by decide)
        have hin : dir + q + 8 ≤ ulen := by
          by_contra hout
          exact hz _ (by omega) h7
        refine iff_of_true ⟨?_, within_nil⟩ fun _ h => absurd h List.not_mem_nil
        rw [within_cons]
        exact ⟨.inr hin, within_nil⟩
      · rw [if_neg hs, if_neg hs, List.flatMap_cons, within_cons, within_cons, within_append, List.forall_mem_cons, ← ih,
          direntReads, within_cons, within_cons]
        dsimp only
        constructor
        · rintro ⟨⟨h8, h11, hreads⟩, ⟨h10, hud, -⟩, hbodies⟩
          exact ⟨by omega, hreads, hbodies⟩
        · rintro ⟨hud, hreads, hbodies⟩
          exact ⟨⟨by omega, by omega, hreads⟩, ⟨by omega, by omega, within_nil⟩, hbodies⟩
    · rw [if_neg hgo, if_neg hgo]
      exact iff_of_true ⟨within_nil, within_nil⟩ fun _ h => absurd h List.not_mem_nil

theorem directoryReads_within (hz : ∀ k, ulen ≤ k → u k ≠ 0xFF) (fuel p : ℕ) : Within ulen (directoryReads u ulen fuel p) ↔
    ∀ e ∈ (directoryWalk u ulen fuel p).1, e + 12 + keptLen u e ≤ ulen := by
  induction fuel generalizing p with
  | zero => exact iff_of_true within_nil fun _ h => absurd h List.not_mem_nil
  | succ fuel ih =>
    rw [directoryReads, directoryWalk]
    by_cases hroom : p + 12 ≤ ulen
    · rw [if_pos hroom, within_append, and_iff_right (by simp only [within_cons, within_nil, and_true]; omega)]
      by_cases hblk : u (p + 9) = 8 ∧ mvsBe16 u (p + 10) = 256 ∧ p + 12 + 8 + 256 ≤ ulen
      · rw [if_pos hblk, if_pos ⟨hroom, hblk⟩]
        dsimp only
        rw [within_cons, and_iff_right (.inr (by dsimp only; omega)), within_append, within_append, entries_within hz, ih, List.forall_mem_append]
      · rw [if_neg hblk, if_neg fun h => hblk h.2]
        exact iff_of_true within_nil fun _ h => absurd h List.not_mem_nil
    · rw [if_neg hroom, if_neg fun h => hroom h.1]
      exact iff_of_true within_nil fun _ h => absurd h List.not_mem_nil

theorem readDirectoryReads_within (hz : ∀ k, ulen ≤ k → u k ≠ 0xFF) (hdrlen : ℕ) :
    Within ulen (readDirectoryReads u ulen hdrlen) ↔ DirectoryFits u ulen hdrlen := by
  rw [readDirectoryReads, within_append, directoryReads_within hz]
  exact and_iff_left (skipReads_within _ _)

theorem extractReads_within (hz : ∀ k, ulen ≤ k → u k ≠ 0xFF) (hdrlen : ℕ) :
    Within ulen (extractReads u ulen hdrlen) ↔ ExtractFits u ulen hdrlen := by
  rw [extractReads, ExtractFits]
  by_cases hshort : ulen < 16
  · rw [if_pos hshort]
    exact iff_of_true within_nil (.inl hshort)
  · rw [if_neg hshort, or_iff_right hshort]
    dsimp only
    have hdcb : Within ulen [⟨10, 1⟩, ⟨8, 2⟩] := by
      simp only [within_cons, within_nil, and_true]
      omega
    rw [within_append, within_append, within_append, and_iff_right hdcb, geomReads_within, readDirectoryReads_within hz, within_flatMap, and_assoc]
    simp only [memberBytesReads, memberReads_within, RecordsFit]

end Within

end Cc370.Xmit370
