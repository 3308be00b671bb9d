import Mathlib.Data.List.Basic
import Mathlib.Data.List.Induction
import Mathlib.Order.Interval.Finset.Nat

/-- A list that has room for so many entries, and counts those it turns away. -/
structure Capped (α : Type*) where
  kept : List α
  lost : ℕ

namespace Capped

variable {α : Type*}

def empty : Capped α := ⟨[], 0⟩

def seen (c : Capped α) : ℕ := c.kept.length + c.lost

def add (cap : ℕ) (c : Capped α) (a : α) : Capped α :=
  if c.kept.length < cap then { c with kept := c.kept ++ [a] } else { c with lost := c.lost + 1 }

variable {β : Type*}

/-- An entry that repeats a kept one is neither kept nor counted; `store` is what the list has room for of an entry. -/
def addNew (cap : ℕ) (same : β → α → Bool) (store : α → β) (c : Capped β) (a : α) : Capped β :=
  if c.kept.any (same · a) then c else c.add cap (store a)

/-- The entries that repeat none of the ones taken before them. -/
def firsts (same : β → α → Bool) (store : α → β) (l : List α) : List β :=
  l.foldl (fun m a => if m.any (same · a) then m else m ++ [store a]) []

variable {cap : ℕ} {same : β → α → Bool} {store : α → β}

theorem firsts_snoc (l : List α) (a : α) : firsts same store (l ++ [a]) =
    if (firsts same store l).any (same · a) then firsts same store l else firsts same store l ++ [store a] := by
  rw [firsts, List.foldl_append]
  rfl

theorem firsts_of_fresh (l : List α) (h : l.Pairwise fun a b => same (store a) b = false) : firsts same store l = l.map store := by
  induction l using List.reverseRecOn with
  | nil => rfl
  | append_singleton l a ih =>
    have hl := List.pairwise_append.mp h
    rw [firsts_snoc, ih hl.1, if_neg, List.map_append, List.map_singleton]
    intro hany
    obtain ⟨x, hx, hxa⟩ := List.any_eq_true.mp hany
    obtain ⟨b, hb, rfl⟩ := List.mem_map.mp hx
    have hfalse := hl.2.2 b hb a (List.mem_singleton_self a)
    rw [hfalse] at hxa
    exact absurd hxa nofun

/-- What is kept is the beginning of what would be kept with no cap. -/
theorem kept_addNew (l : List α) : (l.foldl (addNew cap same store) empty).kept = (firsts same store l).take cap := by
  induction l using List.reverseRecOn with
  | nil => exact List.take_nil.symm
  | append_singleton l a ih =>
    rw [List.foldl_append, List.foldl_cons, List.foldl_nil, firsts_snoc, addNew, ih]
    by_cases hany : ((firsts same store l).take cap).any (same · a) = true
    · have hall : (firsts same store l).any (same · a) = true := by
        obtain ⟨b, hb, hba⟩ := List.any_eq_true.mp hany
        exact List.any_eq_true.mpr ⟨b, List.mem_of_mem_take hb, hba⟩
      rw [if_pos hany, if_pos hall, ih]
    rw [if_neg hany, add, ih, List.length_take]
    by_cases hroom : (firsts same store l).length < cap
    · rw [List.take_of_length_le hroom.le] at hany ⊢
      rw [if_neg hany, if_pos (lt_of_le_of_lt (Nat.min_le_right _ _) hroom), List.take_of_length_le]
      rw [List.length_append]
      exact hroom
    · have hfull := not_lt.mp hroom
      rw [Nat.min_eq_left hfull, if_neg (lt_irrefl cap)]
      split
      · rfl
      · exact (List.take_append_of_le_length hfull).symm

theorem kept_length (l : List α) : (l.foldl (addNew cap same store) empty).kept.length = min cap (firsts same store l).length := by
  rw [kept_addNew, List.length_take]

theorem seen_add (c : Capped α) (a : α) : (c.add cap a).seen = c.seen + 1 := by
  rw [add]
  split
  · simp only [seen, List.length_append, List.length_singleton]
    omega
  · simp only [seen]
    omega

theorem seen_addNew_pos (c : Capped β) (a : α) : 0 < (c.addNew cap same store a).seen := by
  rw [addNew]
  split
  · rename_i hany
    obtain ⟨b, hb, -⟩ := List.any_eq_true.mp hany
    have hpos := List.length_pos_of_mem hb
    rw [seen]
    omega
  · rw [seen_add]
    omega

theorem kept_add_ne_nil (hcap : 0 < cap) (c : Capped α) (a : α) : (c.add cap a).kept ≠ [] := by
  rw [add]
  split
  · exact List.append_ne_nil_of_right_ne_nil _ (List.cons_ne_nil a [])
  · rename_i hfull
    intro hnil
    rw [hnil] at hfull
    exact hfull hcap

theorem kept_addNew_ne_nil (hcap : 0 < cap) (c : Capped β) (a : α) : (c.addNew cap same store a).kept ≠ [] := by
  rw [addNew]
  split
  · rename_i hany
    obtain ⟨b, hb, -⟩ := List.any_eq_true.mp hany
    exact List.ne_nil_of_mem hb
  · exact kept_add_ne_nil hcap c (store a)

end Capped
