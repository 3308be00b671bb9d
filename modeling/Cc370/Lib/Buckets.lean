import Mathlib.Data.List.DropRight
import Mathlib.Order.Lattice
import Mathlib.Tactic.Common

/-! Insertion from the back of a list, by a key of few values. -/

namespace Cc370.Buckets

variable {α κ : Type*} [LinearOrder κ] (key : α → κ)

/-- An element goes past those at the back whose keys are smaller. -/
def insertBack (a : α) (l : List α) : List α :=
  l.rdropWhile (fun b => key b < key a) ++ a :: l.rtakeWhile fun b => key b < key a

def sortBack (l : List α) : List α := l.foldl (fun s a => insertBack key a s) []

variable {key} {a : α} {as bs l : List α}

theorem insertBack_append (ha : ∀ b ∈ as, key a ≤ key b) (hb : ∀ b ∈ bs, key b < key a) : insertBack key a (as ++ bs) = as ++ a :: bs := by
  have hdrop : as.reverse.dropWhile (fun b => decide (key b < key a)) = as.reverse := by
    apply List.dropWhile_eq_self_iff.mpr
    intro hpos
    have hmem : as.reverse[0] ∈ as := List.mem_reverse.mp (List.getElem_mem hpos)
    simpa using ha _ hmem
  have htake : as.reverse.takeWhile (fun b => decide (key b < key a)) = [] := by
    apply List.takeWhile_eq_nil_iff.mpr
    intro hpos
    have hmem : as.reverse[0] ∈ as := List.mem_reverse.mp (List.getElem_mem hpos)
    simpa using ha _ hmem
  have hbs : ∀ b ∈ bs.reverse, decide (key b < key a) = true := fun b hm => decide_eq_true (hb b (List.mem_reverse.mp hm))
  rw [insertBack, List.rdropWhile, List.rtakeWhile, List.reverse_append, List.dropWhile_append_of_pos hbs, hdrop,
    List.takeWhile_append_of_pos hbs, htake, List.append_nil, List.reverse_reverse, List.reverse_reverse]

theorem sortBack_append_singleton (l : List α) (a : α) : sortBack key (l ++ [a]) = insertBack key a (sortBack key l) := by
  rw [sortBack, List.foldl_append]
  rfl

variable (key l) in
/-- The list is the classes one after the other, each in the order of the input. -/
theorem sortBack_eq {cs : List κ} (hcs : cs.Pairwise (· > ·)) (hl : ∀ a ∈ l, key a ∈ cs) :
    sortBack key l = cs.flatMap fun c => l.filter fun a => key a = c := by
  induction l using List.reverseRecOn with
  | nil => simp [sortBack]
  | append_singleton l a ih =>
    have hrest := ih fun b hb => hl b (List.mem_append_left _ hb)
    obtain ⟨before, after, rfl⟩ := List.append_of_mem (hl a (by simp))
    obtain ⟨-, hafter, hacross⟩ := List.pairwise_append.mp hcs
    have hgt : ∀ c ∈ before, key a < c := fun c hc => hacross c hc (key a) List.mem_cons_self
    have hlt : ∀ c ∈ after, c < key a := fun c hc => (List.pairwise_cons.mp hafter).1 c hc
    have hkeep {cs : List κ} (hne : ∀ c ∈ cs, key a ≠ c) :
        (cs.flatMap fun c => (l ++ [a]).filter fun b => key b = c) = cs.flatMap fun c => l.filter fun b => key b = c := by
      apply List.flatMap_congr
      intro c hc
      simp [List.filter_append, hne c hc]
    rw [sortBack_append_singleton, hrest, List.flatMap_append, List.flatMap_cons, ← List.append_assoc, insertBack_append,
      List.flatMap_append, List.flatMap_cons, hkeep fun c hc => (hgt c hc).ne, hkeep fun c hc => (hlt c hc).ne']
    · simp [List.filter_append]
    · intro b hb
      rw [List.mem_append, List.mem_flatMap] at hb
      obtain ⟨c, hc, hb⟩ | hb := hb
      · rw [of_decide_eq_true (List.mem_filter.mp hb).2]
        exact (hgt c hc).le
      · exact (of_decide_eq_true (List.mem_filter.mp hb).2).ge
    · intro b hb
      obtain ⟨c, hc, hb⟩ := List.mem_flatMap.mp hb
      rw [of_decide_eq_true (List.mem_filter.mp hb).2]
      exact hlt c hc

theorem sortBack_congr {key' : α → κ} {cs : List κ} (hcs : cs.Pairwise (· > ·)) (hl : ∀ a ∈ l, key a ∈ cs) (h : ∀ a ∈ l, key' a = key a) :
    sortBack key' l = sortBack key l := by
  rw [sortBack_eq _ l hcs hl, sortBack_eq _ l hcs fun a ha => (h a ha).symm ▸ hl a ha]
  apply List.flatMap_congr
  intro c _
  apply List.filter_congr
  intro a ha
  rw [h a ha]

theorem insertBack_perm (a : α) (l : List α) : (insertBack key a l).Perm (a :: l) := by
  have hsplit : l.rdropWhile (fun b => key b < key a) ++ l.rtakeWhile (fun b => key b < key a) = l := by
    rw [List.rdropWhile, List.rtakeWhile, ← List.reverse_append, List.takeWhile_append_dropWhile, List.reverse_reverse]
  rw [insertBack]
  apply List.perm_middle.trans
  rw [hsplit]

variable (key) in
theorem sortBack_perm (l : List α) : (sortBack key l).Perm l := by
  induction l using List.reverseRecOn with
  | nil => exact .refl _
  | append_singleton l a ih =>
    rw [sortBack_append_singleton]
    exact (insertBack_perm a _).trans ((ih.cons a).trans (List.perm_append_singleton a l).symm)

theorem sortBack_sorted {cs : List κ} (hcs : cs.Pairwise (· > ·)) (hl : ∀ a ∈ l, key a ∈ cs) :
    (sortBack key l).Pairwise fun a b => key b ≤ key a := by
  rw [sortBack_eq key l hcs hl, List.pairwise_flatMap]
  constructor
  · intro c _
    apply List.pairwise_of_forall_mem_list
    intro a ha b hb
    rw [of_decide_eq_true (List.mem_filter.mp ha).2, of_decide_eq_true (List.mem_filter.mp hb).2]
  · refine hcs.imp ?_
    intro c d hcd a ha b hb
    rw [of_decide_eq_true (List.mem_filter.mp ha).2, of_decide_eq_true (List.mem_filter.mp hb).2]
    exact hcd.le

end Cc370.Buckets
