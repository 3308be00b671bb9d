import Mathlib.Data.List.Sublists
import Mathlib.Order.Bounds.Basic
import Mathlib.Tactic.Linarith

namespace Cc370

variable {α : Type*}

/-- So many insertions and deletions turn one list into another. -/
inductive Edits : List α → List α → ℕ → Prop
  | nil : Edits [] [] 0
  | keep (a : α) {xs ys : List α} {d : ℕ} : Edits xs ys d → Edits (a :: xs) (a :: ys) d
  | delete (a : α) {xs ys : List α} {d : ℕ} : Edits xs ys d → Edits (a :: xs) ys (d + 1)
  | insert (b : α) {xs ys : List α} {d : ℕ} : Edits xs ys d → Edits xs (b :: ys) (d + 1)

namespace Edits

variable {xs ys l : List α} {d : ℕ}

theorem all_deleted (xs : List α) : Edits xs [] xs.length := by
  induction xs with
  | nil => exact nil
  | cons a xs ih => exact delete a ih

theorem all_inserted (ys : List α) : Edits [] ys ys.length := by
  induction ys with
  | nil => exact nil
  | cons b ys ih => exact insert b ih

/-- What is kept is a common subsequence. -/
theorem exists_sublist (h : Edits xs ys d) : ∃ l : List α, l.Sublist xs ∧ l.Sublist ys ∧ d + 2 * l.length = xs.length + ys.length := by
  induction h with
  | nil => exact ⟨[], List.Sublist.refl _, List.Sublist.refl _, rfl⟩
  | keep a _ ih =>
    obtain ⟨l, hx, hy, hlength⟩ := ih
    refine ⟨a :: l, hx.cons_cons a, hy.cons_cons a, ?_⟩
    simp only [List.length_cons]
    omega
  | delete a _ ih =>
    obtain ⟨l, hx, hy, hlength⟩ := ih
    refine ⟨l, hx.cons a, hy, ?_⟩
    simp only [List.length_cons]
    omega
  | insert b _ ih =>
    obtain ⟨l, hx, hy, hlength⟩ := ih
    refine ⟨l, hx, hy.cons b, ?_⟩
    simp only [List.length_cons]
    omega

theorem of_sublist (hx : l.Sublist xs) (hy : l.Sublist ys) : ∃ d, Edits xs ys d ∧ d + 2 * l.length = xs.length + ys.length := by
  induction hx generalizing ys with
  | slnil => exact ⟨ys.length, all_inserted ys, by simp⟩
  | cons a _ ih =>
    obtain ⟨d, hd, hlength⟩ := ih hy
    refine ⟨d + 1, delete a hd, ?_⟩
    rw [List.length_cons]
    omega
  | cons_cons a _ ih =>
    rename_i l' xs' hx'
    generalize hl : a :: l' = l'' at hy
    induction hy with
    | slnil => exact absurd hl nofun
    | cons b _ ihy =>
      obtain ⟨d, hd, hlength⟩ := ihy hl
      refine ⟨d + 1, insert b hd, ?_⟩
      rw [List.length_cons (a := b)]
      omega
    | cons_cons b hy' _ =>
      obtain ⟨rfl, rfl⟩ := List.cons.inj hl
      obtain ⟨d, hd, hlength⟩ := ih hy'
      refine ⟨d, keep a hd, ?_⟩
      simp only [List.length_cons]
      omega

/-- The fewest edits leave a longest common subsequence. -/
theorem longest_of_least (h : IsLeast {d | Edits xs ys d} d) {n : ℕ} (hn : d + 2 * n = xs.length + ys.length) :
    IsGreatest {k | ∃ l : List α, l.Sublist xs ∧ l.Sublist ys ∧ l.length = k} n := by
  constructor
  · obtain ⟨l, hx, hy, hlength⟩ := exists_sublist h.1
    exact ⟨l, hx, hy, by omega⟩
  · rintro k ⟨l, hx, hy, rfl⟩
    obtain ⟨d', hd', hlength⟩ := of_sublist hx hy
    have hle : d ≤ d' := h.2 hd'
    omega

theorem keep_last (a : α) (h : Edits xs ys d) : Edits (xs ++ [a]) (ys ++ [a]) d := by
  induction h with
  | nil => exact keep a nil
  | keep b _ ih => exact keep b ih
  | delete b _ ih => exact delete b ih
  | insert b _ ih => exact insert b ih

theorem delete_last (a : α) (h : Edits xs ys d) : Edits (xs ++ [a]) ys (d + 1) := by
  induction h with
  | nil => exact delete a nil
  | keep b _ ih => exact keep b ih
  | delete b _ ih => exact delete b ih
  | insert b _ ih => exact insert b ih

theorem insert_last (a : α) (h : Edits xs ys d) : Edits xs (ys ++ [a]) (d + 1) := by
  induction h with
  | nil => exact insert a nil
  | keep b _ ih => exact keep b ih
  | delete b _ ih => exact delete b ih
  | insert b _ ih => exact insert b ih

end Edits

/-- The two lists have the same element at these places. -/
def Same (A B : List α) (x y : ℕ) : Prop := ∃ a, A[x]? = some a ∧ B[y]? = some a

/-- The points of the edit graph that are reached in so many edits; a path may leave the rectangle of the two lists. -/
inductive Reach (A B : List α) : ℕ → ℕ → ℕ → Prop
  | start : Reach A B 0 0 0
  | keep {d x y : ℕ} : Reach A B d x y → Same A B x y → Reach A B d (x + 1) (y + 1)
  | delete {d x y : ℕ} : Reach A B d x y → Reach A B (d + 1) (x + 1) y
  | insert {d x y : ℕ} : Reach A B d x y → Reach A B (d + 1) x (y + 1)

namespace Reach

variable {A B : List α} {d x y : ℕ}

theorem diagonal (h : Reach A B d x y) : x ≤ y + d ∧ y ≤ x + d ∧ (x + y + d) % 2 = 0 := by
  induction h <;> omega

/-- The part of a path that is in the rectangle. -/
theorem clip (h : Reach A B d x y) :
    ∃ d', Reach A B d' (min x A.length) (min y B.length) ∧ d' + (x - A.length) + (y - B.length) = d := by
  induction h with
  | start => exact ⟨0, by simpa using start, by simp⟩
  | @keep d x y _ hsame ih =>
    obtain ⟨d', hreach, hcost⟩ := ih
    obtain ⟨a, hx, hy⟩ := hsame
    have hx' : x < A.length := (List.getElem?_eq_some_iff.mp hx).1
    have hy' : y < B.length := (List.getElem?_eq_some_iff.mp hy).1
    rw [Nat.min_eq_left hx'.le, Nat.min_eq_left hy'.le] at hreach
    refine ⟨d', ?_, by omega⟩
    rw [Nat.min_eq_left hx', Nat.min_eq_left hy']
    exact hreach.keep ⟨a, hx, hy⟩
  | @delete d x y _ ih =>
    obtain ⟨d', hreach, hcost⟩ := ih
    by_cases hx : x < A.length
    · rw [Nat.min_eq_left hx.le] at hreach
      refine ⟨d' + 1, ?_, by omega⟩
      rw [Nat.min_eq_left hx]
      exact hreach.delete
    · rw [Nat.min_eq_right (not_lt.mp hx)] at hreach
      refine ⟨d', ?_, by omega⟩
      rwa [Nat.min_eq_right (by omega)]
  | @insert d x y _ ih =>
    obtain ⟨d', hreach, hcost⟩ := ih
    by_cases hy : y < B.length
    · rw [Nat.min_eq_left hy.le] at hreach
      refine ⟨d' + 1, ?_, by omega⟩
      rw [Nat.min_eq_left hy]
      exact hreach.insert
    · rw [Nat.min_eq_right (not_lt.mp hy)] at hreach
      refine ⟨d', ?_, by omega⟩
      rwa [Nat.min_eq_right (b := B.length) (by omega)]

/-- A point past the end of both lists is not reached before the end itself. -/
theorem end_of_past (h : Reach A B d x y) (hx : A.length ≤ x) (hy : B.length ≤ y) (hno : ∀ e < d, ¬ Reach A B e A.length B.length) :
    Reach A B d A.length B.length := by
  obtain ⟨d', hreach, hcost⟩ := h.clip
  rw [Nat.min_eq_right hx, Nat.min_eq_right hy] at hreach
  have hsame : d' = d := by
    by_contra hne
    exact hno d' (by omega) hreach
  rwa [hsame] at hreach

theorem edits (h : Reach A B d x y) (hx : x ≤ A.length) (hy : y ≤ B.length) : Edits (A.take x) (B.take y) d := by
  induction h with
  | start => exact Edits.nil
  | @keep d x y _ hsame ih =>
    obtain ⟨a, ha, hb⟩ := hsame
    rw [List.take_add_one, List.take_add_one, ha, hb]
    exact (ih (by omega) (by omega)).keep_last a
  | @delete d x y _ ih =>
    rw [List.take_add_one, List.getElem?_eq_getElem (by omega)]
    exact (ih (by omega) hy).delete_last _
  | @insert d x y _ ih =>
    rw [List.take_add_one (l := B), List.getElem?_eq_getElem (by omega)]
    exact (ih hx (by omega)).insert_last _

end Reach

theorem drop_eq_cons {A xs : List α} {x : ℕ} {a : α} (h : A.drop x = a :: xs) : A[x]? = some a ∧ A.drop (x + 1) = xs := by
  constructor
  · have hget := congrArg (fun l => l[0]?) h
    simpa using hget
  · have htail := congrArg List.tail h
    simpa using htail

/-- What is left to edit is a path to the end. -/
theorem reach_of_edits {A B xs ys : List α} {d e x y : ℕ} (h : Edits xs ys e) (hr : Reach A B d x y) (hx : A.drop x = xs) (hy : B.drop y = ys)
    (hxle : x ≤ A.length) (hyle : y ≤ B.length) : Reach A B (d + e) A.length B.length := by
  induction h generalizing d x y with
  | nil =>
    have hxe : A.length = x := le_antisymm (List.drop_eq_nil_iff.mp hx) hxle
    have hye : B.length = y := le_antisymm (List.drop_eq_nil_iff.mp hy) hyle
    rwa [hxe, hye]
  | keep a _ ih =>
    obtain ⟨ha, hxs⟩ := drop_eq_cons hx
    obtain ⟨hb, hys⟩ := drop_eq_cons hy
    exact ih (hr.keep ⟨a, ha, hb⟩) hxs hys (List.getElem?_eq_some_iff.mp ha).1 (List.getElem?_eq_some_iff.mp hb).1
  | delete a _ ih =>
    obtain ⟨ha, hxs⟩ := drop_eq_cons hx
    have hrest := ih hr.delete hxs hy (List.getElem?_eq_some_iff.mp ha).1 hyle
    rwa [Nat.add_right_comm] at hrest
  | insert b _ ih =>
    obtain ⟨hb, hys⟩ := drop_eq_cons hy
    have hrest := ih hr.insert hx hys hxle (List.getElem?_eq_some_iff.mp hb).1
    rwa [Nat.add_right_comm] at hrest

theorem reach_iff_edits (A B : List α) (d : ℕ) : Reach A B d A.length B.length ↔ Edits A B d := by
  constructor
  · intro h
    have hedits := h.edits le_rfl le_rfl
    rwa [List.take_length, List.take_length] at hedits
  · intro h
    have hreach := reach_of_edits h Reach.start (List.drop_zero (l := A)) (List.drop_zero (l := B)) (Nat.zero_le _) (Nat.zero_le _)
    rwa [Nat.zero_add] at hreach

theorem same_drop {A B : List α} {x y i j : ℕ} : Same (A.drop x) (B.drop y) i j ↔ Same A B (x + i) (y + j) := by
  rw [Same, Same, List.getElem?_drop, List.getElem?_drop]

/-- The point of a diagonal that is the furthest of those reached in so many edits. -/
structure Furthest (A B : List α) (d : ℕ) (k : ℤ) (x y : ℕ) : Prop where
  on : (x : ℤ) - y = k
  reach : Reach A B d x y
  most : ∀ x' y' : ℕ, Reach A B d x' y' → (x' : ℤ) - y' = k → x' ≤ x

section Snake

variable [DecidableEq α]

/-- The steps down a diagonal that the two lists have the same elements for. -/
def snake : List α → List α → ℕ
  | a :: as, b :: bs => if a = b then snake as bs + 1 else 0
  | _, _ => 0

theorem snake_same {A B : List α} {i : ℕ} (h : i < snake A B) : Same A B i i := by
  induction A generalizing B i with
  | nil => exact absurd h (Nat.not_lt_zero i)
  | cons a A ih =>
    cases B with
    | nil => exact absurd h (Nat.not_lt_zero i)
    | cons b B =>
      rw [snake] at h
      split at h
      · rename_i hab
        cases i with
        | zero => exact ⟨a, rfl, congrArg some hab.symm⟩
        | succ i => exact ih (Nat.lt_of_succ_lt_succ h)
      · exact absurd h (Nat.not_lt_zero i)

theorem snake_stop (A B : List α) : ¬ Same A B (snake A B) (snake A B) := by
  induction A generalizing B with
  | nil =>
    rintro ⟨a, ha, -⟩
    exact absurd ha nofun
  | cons a A ih =>
    cases B with
    | nil =>
      rintro ⟨b, -, hb⟩
      exact absurd hb nofun
    | cons b B =>
      rw [snake]
      split
      · exact ih B
      · rename_i hab
        rintro ⟨c, ha, hb⟩
        exact hab (Option.some.inj (ha.trans hb.symm))

variable {A B : List α} {d x y : ℕ}

theorem Reach.slide (h : Reach A B d x y) {i : ℕ} (hi : i ≤ snake (A.drop x) (B.drop y)) : Reach A B d (x + i) (y + i) := by
  induction i with
  | zero => exact h
  | succ i ih => exact (ih (Nat.le_of_succ_le hi)).keep (same_drop.mp (snake_same hi))

/-- The furthest point is at the end of a snake, and the snake begins where the furthest points of the edits before lead. -/
theorem furthest_slide {k : ℤ} (hk : (x : ℤ) - y = k) (h : Reach A B d x y)
    (hdelete : ∀ d' x' y' : ℕ, d = d' + 1 → Reach A B d' x' y' → (x' : ℤ) - y' = k - 1 → x' + 1 ≤ x)
    (hinsert : ∀ d' x' y' : ℕ, d = d' + 1 → Reach A B d' x' y' → (x' : ℤ) - y' = k + 1 → x' ≤ x) :
    Furthest A B d k (x + snake (A.drop x) (B.drop y)) (y + snake (A.drop x) (B.drop y)) where
  on := by omega
  reach := h.slide le_rfl
  most := by
    intro x' y' hr hk'
    induction hr with
    | start => exact Nat.zero_le _
    | @keep d x' y' _ hsame ih =>
      have hle := ih h hdelete hinsert (by omega)
      refine lt_of_le_of_ne hle ?_
      intro hend
      have hend' : y' = y + snake (A.drop x) (B.drop y) := by omega
      rw [hend, hend'] at hsame
      exact snake_stop _ _ (same_drop.mpr hsame)
    | @delete d x' y' hr _ =>
      have hle := hdelete d x' y' rfl hr (by omega)
      omega
    | @insert d x' y' hr _ =>
      have hle := hinsert d x' y' rfl hr (by omega)
      omega

theorem Furthest.insert {k : ℤ} (h : Furthest A B d (k + 1) x y)
    (hother : ∀ x' y' : ℕ, Reach A B d x' y' → (x' : ℤ) - y' = k - 1 → x' + 1 ≤ x) :
    Furthest A B (d + 1) k (x + snake (A.drop x) (B.drop (y + 1))) (y + 1 + snake (A.drop x) (B.drop (y + 1))) := by
  have hon := h.on
  apply furthest_slide (by omega) h.reach.insert
  · intro d' x' y' hd hr hk
    rw [← Nat.succ.inj hd] at hr
    exact hother x' y' hr hk
  · intro d' x' y' hd hr hk
    rw [← Nat.succ.inj hd] at hr
    exact h.most x' y' hr hk

theorem Furthest.delete {k : ℤ} (h : Furthest A B d (k - 1) x y)
    (hother : ∀ x' y' : ℕ, Reach A B d x' y' → (x' : ℤ) - y' = k + 1 → x' ≤ x + 1) :
    Furthest A B (d + 1) k (x + 1 + snake (A.drop (x + 1)) (B.drop y)) (y + snake (A.drop (x + 1)) (B.drop y)) := by
  have hon := h.on
  apply furthest_slide (by omega) h.reach.delete
  · intro d' x' y' hd hr hk
    rw [← Nat.succ.inj hd] at hr
    exact Nat.succ_le_succ (h.most x' y' hr hk)
  · intro d' x' y' hd hr hk
    rw [← Nat.succ.inj hd] at hr
    exact hother x' y' hr hk

theorem furthest_zero (A B : List α) : Furthest A B 0 0 (snake A B) (snake A B) := by
  have hslide := furthest_slide (A := A) (B := B) (x := 0) (y := 0) (k := 0) (by decide) Reach.start (by omega) (by omega)
  simpa using hslide

end Snake

theorem Furthest.unique {A B : List α} {d x y : ℕ} {k : ℤ} {x' y' : ℕ} (h : Furthest A B d k x y) (h' : Furthest A B d k x' y') : x = x' ∧ y = y' := by
  have hle := h.most x' y' h'.reach h'.on
  have hge := h'.most x y h.reach h.on
  have hon := h.on
  have hon' := h'.on
  omega

end Cc370
