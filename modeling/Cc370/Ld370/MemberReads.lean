import Cc370.Lib.Reads
import Cc370.Ld370.Iebcopy

namespace Cc370.Ld370

open Reads

section Reads

variable (b : Buffer) (ulen : ℕ)

/-- The bytes that the walk over the directory blocks reads. -/
def dirReads : ℕ → ℕ → List Span
  | 0, _ => []
  | fuel + 1, p =>
    if p + 12 + 8 + 256 ≤ ulen then
      [⟨p + 9, 1⟩, ⟨p + 10, 2⟩] ++
        if b (p + 9) = 8 ∧ mvsBe16 b (p + 10) = 256 then
          ⟨p + 20, 2⟩ ::
            if mvsBe16 b (p + 20) ≤ 256 then
              entryReads (fun e => b e = 0xFF) 1 b (p + 20) (mvsBe16 b (p + 20)) 22 2 ++
                if (entryWalk (fun e => b e = 0xFF) b (p + 20) (mvsBe16 b (p + 20)) 22 2).2 then []
                else dirReads fuel (p + 12 + 8 + 256)
            else []
        else []
    else []

/-- The bytes of an alias entry, which is first held against the member's. -/
def aliasReads (main e : ℕ) : List Span :=
  [⟨e + 8, 3⟩, ⟨main + 8, 3⟩] ++
    if slice b (e + 8) 3 ≠ slice b (main + 8) 3 then []
    else [⟨e, 8⟩, ⟨e + 12 + 15, 3⟩] ++ if halfwords b e * 2 = aliasUdLen then [⟨e + 12, aliasUdLen⟩] else []

def mainReads (main : ℕ) : List Span :=
  [⟨main, 8⟩, ⟨main + 12 + 10, 3⟩, ⟨main + 12 + 15, 3⟩] ++ if 12 ≤ halfwords b main then [⟨main + 12, 24⟩] else []

def dataReads : ℕ → ℕ → List Span
  | 0, _ => []
  | fuel + 1, p =>
    if p + 12 ≤ ulen then
      let kl := (b (p + 9)).toNat
      let dl := mvsBe16 b (p + 10)
      [⟨p + 9, 1⟩, ⟨p + 10, 2⟩] ++ if dl = 0 then [] else ⟨p + 12 + kl, dl⟩ :: dataReads fuel (p + 12 + kl + dl)
    else []

/-- The bytes that `read_iebcopy_member` reads. -/
def memberReads : List Span :=
  if ulen < mvsEnvHdrLen + 12 + 8 + 256 + 12 then []
  else
    let w := dirWalk b ulen ulen mvsEnvHdrLen
    dirReads b ulen ulen mvsEnvHdrLen ++
      match w.1.filter fun e => !isAlias b e, w.2 with
      | [main], some p =>
        if ulen < p + 12 then []
        else
          let aliases := w.1.filter (isAlias b)
          aliases.flatMap (aliasReads b main) ++
            if aliases.any fun e => slice b (e + 8) 3 ≠ slice b (main + 8) 3 then []
            else mainReads b main ++ dataReads b ulen ulen (p + 12)
      | _, _ => []

/-- Where the records with data of the member stand, up to the one without any. -/
def dataRecords : ℕ → ℕ → List ℕ
  | 0, _ => []
  | fuel + 1, p =>
    if p + 12 ≤ ulen ∧ mvsBe16 b (p + 10) ≠ 0 then p :: dataRecords fuel (p + 12 + (b (p + 9)).toNat + mvsBe16 b (p + 10)) else []

/-- Where the data of the member begins, if the directory is one of a single member. -/
def dataStart : Option ℕ :=
  if ulen < mvsEnvHdrLen + 12 + 8 + 256 + 12 then none
  else
    let w := dirWalk b ulen ulen mvsEnvHdrLen
    match w.1.filter fun e => !isAlias b e, w.2 with
    | [main], some p =>
      if ulen < p + 12 ∨ (w.1.filter (isAlias b)).any fun e => slice b (e + 8) 3 ≠ slice b (main + 8) 3 then none else some (p + 12)
    | _, _ => none

/-- The records of the member lie in the image with key and data. -/
def MemberFits : Prop := ∀ p ∈ dataStart b ulen, ∀ r ∈ dataRecords b ulen ulen p, r + 12 + (b (r + 9)).toNat + mvsBe16 b (r + 10) ≤ ulen

end Reads

section Within

variable {b : Buffer} {ulen : ℕ}

theorem dirReads_within (fuel p : ℕ) : Within ulen (dirReads b ulen fuel p) := by
  induction fuel generalizing p with
  | zero => exact within_nil
  | succ fuel ih =>
    rw [dirReads]
    by_cases hroom : p + 12 + 8 + 256 ≤ ulen
    · rw [if_pos hroom, within_append]
      refine ⟨by simp only [within_cons, within_nil, and_true]; omega, ?_⟩
      by_cases hblk : b (p + 9) = 8 ∧ mvsBe16 b (p + 10) = 256
      · rw [if_pos hblk, within_cons]
        refine ⟨.inr (by dsimp only; omega), ?_⟩
        by_cases hused : mvsBe16 b (p + 20) ≤ 256
        · rw [if_pos hused, within_append]
          refine ⟨entryReads_within (by decide) (by omega) _ _, ?_⟩
          split_ifs
          · exact within_nil
          · exact ih _
        · rw [if_neg hused]
          exact within_nil
      · rw [if_neg hblk]
        exact within_nil
    · rw [if_neg hroom]
      exact within_nil

/-- Behind the entries there are the end of the block, and the record that ends the directory. -/
theorem mem_dirWalk {fuel p q e : ℕ} (hend : (dirWalk b ulen fuel p).2 = some q) (he : e ∈ (dirWalk b ulen fuel p).1) :
    e + 30 ≤ q + 12 ∧ e + entryLen b e ≤ q := by
  have hlen : entryLen b e ≤ 74 := by
    rw [entryLen]
    omega
  have hle (fuel p q : ℕ) (h : (dirWalk b ulen fuel p).2 = some q) : p + 276 ≤ q := by
    induction fuel generalizing p with
    | zero => cases h
    | succ fuel ih =>
      rw [dirWalk] at h
      dsimp only at h
      split_ifs at h
      · have := Option.some.inj h
        omega
      · have := ih _ h
        omega
  induction fuel generalizing p with
  | zero => exact absurd he List.not_mem_nil
  | succ fuel ih =>
    rw [dirWalk] at hend he
    by_cases hgo : p + 12 + 8 + 256 ≤ ulen ∧ b (p + 9) = 8 ∧ mvsBe16 b (p + 10) = 256 ∧ mvsBe16 b (p + 20) ≤ 256
    · rw [if_pos hgo] at hend he
      obtain ⟨-, -, -, hused⟩ := hgo
      dsimp only at hend he
      by_cases hlast : (entryWalk (fun e => b e = 0xFF) b (p + 20) (mvsBe16 b (p + 20)) 22 2).2 = true
      · rw [if_pos hlast] at hend he
        have hq := Option.some.inj hend
        have := (mem_entryWalk he).2 hlast
        have h12 : 12 ≤ entryLen b e := Nat.le_add_right _ _
        omega
      · rw [if_neg hlast] at hend he
        have := hle _ _ _ hend
        rcases List.mem_append.mp he with he | he
        · have := (mem_entryWalk he).1
          omega
        · exact ih hend he
    · rw [if_neg hgo] at he
      exact absurd he List.not_mem_nil

theorem aliasReads_within {main e : ℕ} (he : e + 30 ≤ ulen ∧ e + entryLen b e ≤ ulen) (hmain : main + 30 ≤ ulen) :
    Within ulen (aliasReads b main e) := by
  obtain ⟨h30, hlen⟩ := he
  have hud : halfwords b e * 2 = aliasUdLen → e + 12 + aliasUdLen ≤ ulen := by
    intro h
    rw [entryLen] at hlen
    rw [halfwords] at h
    omega
  rw [aliasReads]
  split_ifs with hne hal
  · simp only [List.append_nil, within_cons, within_nil, and_true]
    omega
  · simp only [List.cons_append, List.nil_append, within_cons, within_nil, and_true]
    have := hud hal
    omega
  · simp only [List.cons_append, List.nil_append, within_cons, within_nil, and_true]
    omega

theorem mainReads_within {main : ℕ} (hmain : main + 30 ≤ ulen ∧ main + entryLen b main ≤ ulen) : Within ulen (mainReads b main) := by
  obtain ⟨h30, hlen⟩ := hmain
  rw [entryLen] at hlen
  rw [mainReads, halfwords]
  split_ifs with hud
  · simp only [List.cons_append, List.nil_append, within_cons, within_nil, and_true]
    omega
  · simp only [List.append_nil, within_cons, within_nil, and_true]
    omega

theorem dataReads_within (fuel p : ℕ) : Within ulen (dataReads b ulen fuel p) ↔
    ∀ r ∈ dataRecords b ulen fuel p, r + 12 + (b (r + 9)).toNat + mvsBe16 b (r + 10) ≤ ulen := by
  induction fuel generalizing p with
  | zero => exact iff_of_true within_nil fun _ h => absurd h List.not_mem_nil
  | succ fuel ih =>
    rw [dataReads, dataRecords]
    by_cases hroom : p + 12 ≤ ulen
    · rw [if_pos hroom, within_append, and_iff_right (by simp only [within_cons, within_nil, and_true]; omega)]
      by_cases hdl : mvsBe16 b (p + 10) = 0
      · rw [if_pos hdl, if_neg (by simp [hdl])]
        exact iff_of_true within_nil fun _ h => absurd h List.not_mem_nil
      · rw [if_neg hdl, if_pos ⟨hroom, hdl⟩, within_cons, ih, List.forall_mem_cons]
        exact and_congr_left' (or_iff_right hdl)
    · rw [if_neg hroom, if_neg (by simp [hroom])]
      exact iff_of_true within_nil fun _ h => absurd h List.not_mem_nil

/-- The directory of an image can be anything: the reader leaves the image with a record of the member only. -/
theorem memberReads_within : Within ulen (memberReads b ulen) ↔ MemberFits b ulen := by
  rw [memberReads, MemberFits, dataStart]
  by_cases hshort : ulen < mvsEnvHdrLen + 12 + 8 + 256 + 12
  · rw [if_pos hshort, if_pos hshort]
    exact iff_of_true within_nil fun _ h => absurd h nofun
  rw [if_neg hshort, if_neg hshort]
  dsimp only
  rw [within_append, and_iff_right (dirReads_within _ _)]
  have hnone : Within ulen [] ↔ ∀ p ∈ (none : Option ℕ), ∀ r ∈ dataRecords b ulen ulen p,
      r + 12 + (b (r + 9)).toNat + mvsBe16 b (r + 10) ≤ ulen := iff_of_true within_nil fun _ h => absurd h nofun
  cases hmain : (dirWalk b ulen ulen mvsEnvHdrLen).1.filter fun e => !isAlias b e with
  | nil => exact hnone
  | cons main others =>
    cases others with
    | cons _ _ => exact hnone
    | nil =>
      cases hend : (dirWalk b ulen ulen mvsEnvHdrLen).2 with
      | none => exact hnone
      | some p =>
        dsimp only
        by_cases hroom : ulen < p + 12
        · rw [if_pos hroom, if_pos (.inl hroom)]
          exact hnone
        have hentry (e : ℕ) (he : e ∈ (dirWalk b ulen ulen mvsEnvHdrLen).1) : e + 30 ≤ ulen ∧ e + entryLen b e ≤ ulen := by
          have := mem_dirWalk hend he
          omega
        have hin : main ∈ (dirWalk b ulen ulen mvsEnvHdrLen).1 := by
          apply List.mem_of_mem_filter (p := fun e => !isAlias b e)
          rw [hmain]
          exact List.mem_cons_self
        have haliases : Within ulen (((dirWalk b ulen ulen mvsEnvHdrLen).1.filter (isAlias b)).flatMap (aliasReads b main)) := by
          rw [within_flatMap]
          intro e he
          exact aliasReads_within (hentry e (List.mem_of_mem_filter he)) (hentry main hin).1
        rw [if_neg hroom, within_append, and_iff_right haliases]
        by_cases hother : ((dirWalk b ulen ulen mvsEnvHdrLen).1.filter (isAlias b)).any (fun e => slice b (e + 8) 3 ≠ slice b (main + 8) 3) = true
        · rw [if_pos hother, if_pos (.inr hother)]
          exact hnone
        · rw [if_neg hother, if_neg (not_or.mpr ⟨hroom, hother⟩), within_append, and_iff_right (mainReads_within (hentry main hin)), dataReads_within]
          simp

end Within

end Cc370.Ld370
