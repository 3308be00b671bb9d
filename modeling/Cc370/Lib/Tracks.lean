import Mathlib.Data.List.Basic
import Mathlib.Algebra.Order.BigOperators.Group.List
import Mathlib.Algebra.Order.Ring.Nat
import Mathlib.Tactic.Common

namespace Cc370.Tracks

/-- A record in its place: the track, the number on it and the length. -/
structure Spot where
  tt : ℕ
  r : ℕ
  len : ℕ
deriving DecidableEq

/-- Where the next record goes, and what its track holds already. -/
structure Head where
  tt : ℕ
  r : ℕ
  used : ℕ
deriving DecidableEq

def Head.start : Head := ⟨0, 1, 0⟩

section Place

variable (ovh cap : ℕ)

/-- A record that does not fit behind others begins the next track. -/
def wrap (h : Head) (len : ℕ) : Head := if 1 < h.r ∧ cap < h.used + (ovh + len) then ⟨h.tt + 1, 1, 0⟩ else h

def spot (h : Head) (len : ℕ) : Spot := ⟨(wrap ovh cap h len).tt, (wrap ovh cap h len).r, len⟩

def next (h : Head) (len : ℕ) : Head :=
  ⟨(wrap ovh cap h len).tt, (wrap ovh cap h len).r + 1, (wrap ovh cap h len).used + (ovh + len)⟩

def layout : Head → List ℕ → List Spot
  | _, [] => []
  | h, len :: lens => spot ovh cap h len :: layout (next ovh cap h len) lens

def after (h : Head) (lens : List ℕ) : Head := lens.foldl (next ovh cap) h

end Place

def Spot.Before (a b : Spot) : Prop := a.tt < b.tt ∨ a.tt = b.tt ∧ a.r < b.r

def onTrack (t : ℕ) (l : List Spot) : List Spot := l.filter fun s => s.tt = t

def cost (ovh t : ℕ) (l : List Spot) : ℕ := ((onTrack t l).map fun s => ovh + s.len).sum

/-- The records can be written: in order, numbered from one on each track, and no track holds more than
its length. -/
structure Possible (ovh trk : ℕ) (l : List Spot) : Prop where
  increasing : l.Pairwise Spot.Before
  numbers : ∀ t, ∃ n < 256, (onTrack t l).map Spot.r = List.range' 1 n
  fits : ∀ t, cost ovh t l ≤ trk

theorem onTrack_append (t : ℕ) (l l' : List Spot) : onTrack t (l ++ l') = onTrack t l ++ onTrack t l' :=
  List.filter_append ..

theorem onTrack_same {t : ℕ} {s : Spot} (h : s.tt = t) : onTrack t [s] = [s] := by
  simp [onTrack, h]

theorem onTrack_other {t : ℕ} {s : Spot} (h : s.tt ≠ t) : onTrack t [s] = [] := by
  simp [onTrack, h]

theorem cost_append (ovh t : ℕ) (l l' : List Spot) : cost ovh t (l ++ l') = cost ovh t l + cost ovh t l' := by
  rw [cost, onTrack_append, List.map_append, List.sum_append]
  rfl

theorem cost_same {ovh t : ℕ} {s : Spot} (h : s.tt = t) : cost ovh t [s] = ovh + s.len := by
  simp [cost, onTrack_same h]

theorem cost_other {ovh t : ℕ} {s : Spot} (h : s.tt ≠ t) : cost ovh t [s] = 0 := by
  simp [cost, onTrack_other h]

theorem le_cost {ovh : ℕ} {l : List Spot} {s : Spot} (h : s ∈ l) : ovh + s.len ≤ cost ovh s.tt l := by
  apply List.le_sum_of_mem
  exact List.mem_map.mpr ⟨s, List.mem_filter.mpr ⟨h, by simp⟩, rfl⟩

section Layout

variable {ovh cap : ℕ}

theorem layout_append (h : Head) (l l' : List ℕ) :
    layout ovh cap h (l ++ l') = layout ovh cap h l ++ layout ovh cap (after ovh cap h l) l' := by
  induction l generalizing h with
  | nil => rfl
  | cons len l ih =>
    rw [List.cons_append, layout, layout, ih]
    rfl

theorem after_append (h : Head) (l l' : List ℕ) : after ovh cap h (l ++ l') = after ovh cap (after ovh cap h l) l' :=
  List.foldl_append ..

theorem layout_lens (ovh cap : ℕ) (h : Head) (l : List ℕ) : (layout ovh cap h l).map Spot.len = l := by
  induction l generalizing h with
  | nil => rfl
  | cons len l ih =>
    rw [layout, List.map_cons, ih]
    rfl

theorem tt_le_next (h : Head) (len : ℕ) : h.tt ≤ (next ovh cap h len).tt := by
  unfold next wrap
  split_ifs
  · exact Nat.le_succ h.tt
  · exact Nat.le_refl h.tt

theorem tt_mono (ovh cap : ℕ) (h : Head) (lens : List ℕ) : h.tt ≤ (after ovh cap h lens).tt := by
  induction lens generalizing h with
  | nil => exact Nat.le_refl h.tt
  | cons len lens ih => exact (tt_le_next h len).trans (ih _)

theorem tt_le_of_mem {h : Head} {lens : List ℕ} {s : Spot} (hs : s ∈ layout ovh cap h lens) : s.tt ≤ (after ovh cap h lens).tt := by
  induction lens generalizing h with
  | nil => exact absurd hs List.not_mem_nil
  | cons len lens ih =>
    rcases List.mem_cons.mp hs with rfl | hs
    · exact tt_mono ovh cap (next ovh cap h len) lens
    · exact ih hs

/-- What the records placed so far are to the head: it stands behind them, on the last track. -/
structure Filled (ovh cap : ℕ) (l : List Spot) (h : Head) : Prop where
  increasing : l.Pairwise Spot.Before
  before : ∀ s ∈ l, s.tt ≤ h.tt
  numbers : ∀ t, ∃ n, (onTrack t l).map Spot.r = List.range' 1 n ∧ n * ovh ≤ cap + ovh
  last : (onTrack h.tt l).map Spot.r = List.range' 1 (h.r - 1)
  used : h.used = cost ovh h.tt l
  first : 1 ≤ h.r
  fits : ∀ t, cost ovh t l ≤ cap ∨ ∃ s ∈ l, cost ovh t l = ovh + s.len

theorem Filled.nil (ovh cap : ℕ) : Filled ovh cap [] .start where
  increasing := List.Pairwise.nil
  before := nofun
  numbers t := ⟨0, rfl, by omega⟩
  last := rfl
  used := rfl
  first := Nat.le_refl 1
  fits t := .inl (Nat.zero_le cap)

/-- Behind the records of a track, the overhead of each is used. -/
theorem Filled.overhead {l : List Spot} {h : Head} (hf : Filled ovh cap l h) : (h.r - 1) * ovh ≤ h.used := by
  have hlen : (onTrack h.tt l).length = h.r - 1 := by
    rw [← List.length_map Spot.r, hf.last, List.length_range']
  rw [hf.used, ← hlen, cost]
  generalize onTrack h.tt l = m
  induction m with
  | nil => simp
  | cons s m ih =>
    rw [List.length_cons, List.map_cons, List.sum_cons, Nat.succ_mul]
    omega

/-- A record behind those of its track. -/
theorem Filled.stay {l : List Spot} {h : Head} (hf : Filled ovh cap l h) (len : ℕ) (hroom : h.r = 1 ∨ h.used + (ovh + len) ≤ cap) :
    Filled ovh cap (l ++ [⟨h.tt, h.r, len⟩]) ⟨h.tt, h.r + 1, h.used + (ovh + len)⟩ := by
  have hr := hf.first
  have hnumbers : (onTrack h.tt (l ++ [⟨h.tt, h.r, len⟩])).map Spot.r = List.range' 1 h.r := by
    rw [onTrack_append, onTrack_same (s := ⟨h.tt, h.r, len⟩) rfl, List.map_append, hf.last]
    obtain ⟨k, hk⟩ := Nat.exists_eq_add_of_le hr
    rw [hk, Nat.add_sub_cancel_left, Nat.add_comm 1 k, List.range'_concat]
    simp [Nat.add_comm]
  have hcost : cost ovh h.tt (l ++ [⟨h.tt, h.r, len⟩]) = h.used + (ovh + len) := by
    rw [cost_append, cost_same (s := ⟨h.tt, h.r, len⟩) rfl, hf.used]
  refine ⟨?_, ?_, ?_, hnumbers, hcost.symm, Nat.le_add_left 1 h.r, ?_⟩
  · rw [List.pairwise_append]
    refine ⟨hf.increasing, List.pairwise_singleton _ _, ?_⟩
    intro a ha b hb
    rw [List.mem_singleton.mp hb]
    rcases Nat.lt_or_eq_of_le (hf.before a ha) with hlt | heq
    · exact .inl hlt
    · refine .inr ⟨heq, ?_⟩
      have hmem : a.r ∈ (onTrack h.tt l).map Spot.r :=
        List.mem_map.mpr ⟨a, List.mem_filter.mpr ⟨ha, by simp [heq]⟩, rfl⟩
      rw [hf.last, List.mem_range'_1] at hmem
      dsimp only
      omega
  · intro s hs
    rcases List.mem_append.mp hs with hs | hs
    · exact hf.before s hs
    · rw [List.mem_singleton.mp hs]
  · intro t
    by_cases ht : h.tt = t
    · subst ht
      refine ⟨h.r, hnumbers, ?_⟩
      rcases hroom with hone | hroom
      · rw [hone]
        omega
      · have hover := hf.overhead
        obtain ⟨k, hk⟩ := Nat.exists_eq_add_of_le hr
        rw [hk, Nat.add_sub_cancel_left] at hover
        rw [hk, Nat.add_mul]
        omega
    · obtain ⟨n, hn, hle⟩ := hf.numbers t
      refine ⟨n, ?_, hle⟩
      rw [onTrack_append, onTrack_other (fun h' => ht h'), List.append_nil, hn]
  · intro t
    by_cases ht : h.tt = t
    · subst ht
      rw [hcost]
      rcases hroom with hone | hroom
      · right
        have hzero : h.used = 0 := by
          rw [hf.used, cost]
          have hnil : onTrack h.tt l = [] := by
            rw [← List.map_eq_nil_iff (f := Spot.r), hf.last, hone]
            rfl
          rw [hnil]
          rfl
        exact ⟨⟨h.tt, h.r, len⟩, by simp, by rw [hzero, Nat.zero_add]⟩
      · exact .inl hroom
    · rw [cost_append, cost_other (fun h' => ht h'), Nat.add_zero]
      refine (hf.fits t).imp_right ?_
      rintro ⟨s, hs, heq⟩
      exact ⟨s, List.mem_append_left _ hs, heq⟩

/-- The head moves to a new track. -/
theorem Filled.turn {l : List Spot} {h : Head} (hf : Filled ovh cap l h) : Filled ovh cap l ⟨h.tt + 1, 1, 0⟩ := by
  have hnone : onTrack (h.tt + 1) l = [] := by
    refine List.filter_eq_nil_iff.mpr fun s hs => ?_
    have hle := hf.before s hs
    simp only [decide_eq_true_eq]
    omega
  refine ⟨hf.increasing, ?_, hf.numbers, ?_, ?_, Nat.le_refl 1, hf.fits⟩
  · intro s hs
    exact Nat.le_succ_of_le (hf.before s hs)
  · rw [hnone]
    rfl
  · rw [cost, hnone]
    rfl

theorem Filled.next {l : List Spot} {h : Head} (hf : Filled ovh cap l h) (len : ℕ) :
    Filled ovh cap (l ++ [spot ovh cap h len]) (next ovh cap h len) := by
  unfold spot Tracks.next wrap
  split_ifs with hfull
  · exact hf.turn.stay len (.inl rfl)
  · refine hf.stay len ?_
    have hr := hf.first
    omega

theorem Filled.layout {l : List Spot} {h : Head} (hf : Filled ovh cap l h) (lens : List ℕ) :
    Filled ovh cap (l ++ layout ovh cap h lens) (after ovh cap h lens) := by
  induction lens generalizing l h with
  | nil => simpa [Tracks.layout, after] using hf
  | cons len lens ih =>
    have hstep := ih (hf.next len)
    rwa [List.append_assoc] at hstep

theorem filled (ovh cap : ℕ) (lens : List ℕ) : Filled ovh cap (layout ovh cap .start lens) (after ovh cap .start lens) := by
  simpa using (Filled.nil ovh cap).layout lens

/-- The records can be written when none is too long for a track by itself. -/
theorem possible_iff (ovh cap : ℕ) {trk : ℕ} (hcap : cap ≤ trk) (hrec : cap + ovh < 256 * ovh) (lens : List ℕ) :
    Possible ovh trk (layout ovh cap .start lens) ↔ ∀ len ∈ lens, ovh + len ≤ trk := by
  have hf := filled ovh cap lens
  constructor
  · intro h len hlen
    rw [← layout_lens ovh cap .start lens] at hlen
    obtain ⟨s, hs, rfl⟩ := List.mem_map.mp hlen
    exact (le_cost hs).trans (h.fits s.tt)
  · intro h
    refine ⟨hf.increasing, ?_, ?_⟩
    · intro t
      obtain ⟨n, hn, hle⟩ := hf.numbers t
      refine ⟨n, ?_, hn⟩
      exact Nat.lt_of_mul_lt_mul_right (hle.trans_lt hrec)
    · intro t
      rcases hf.fits t with hle | ⟨s, hs, heq⟩
      · exact hle.trans hcap
      · rw [heq]
        apply h
        rw [← layout_lens ovh cap .start lens]
        exact List.mem_map_of_mem hs

theorem exists_last (ovh cap : ℕ) {lens : List ℕ} (h : lens ≠ []) : ∃ s ∈ layout ovh cap .start lens, s.tt = (after ovh cap .start lens).tt := by
  obtain ⟨ls, len, rfl⟩ := List.eq_nil_or_concat lens |>.resolve_left h
  rw [List.concat_eq_append, layout_append, after_append]
  exact ⟨_, List.mem_append_right _ (List.mem_singleton_self _), rfl⟩

end Layout

/-- How many tracks the records take. -/
def tracks (ovh cap : ℕ) (lens : List ℕ) : ℕ := (after ovh cap .start lens).tt + 1

end Cc370.Tracks
