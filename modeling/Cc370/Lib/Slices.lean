import Mathlib.Data.List.GetD
import Mathlib.Algebra.Order.Ring.Nat
import Mathlib.Algebra.BigOperators.Group.List.Basic
import Mathlib.Tactic.Common

namespace Cc370.Slices

variable {α : Type*} {b : ℕ → α} {p : ℕ} {l l₁ l₂ : List α}

/-- The values from `p` on are those of the list. -/
def At (b : ℕ → α) (p : ℕ) (l : List α) : Prop := ∀ k, ∀ h : k < l.length, b (p + k) = l[k]

theorem at_nil : At b p [] := fun _ h => absurd h (Nat.not_lt_zero _)

theorem at_append : At b p (l₁ ++ l₂) ↔ At b p l₁ ∧ At b (p + l₁.length) l₂ := by
  constructor
  · intro h
    constructor
    · intro k hk
      have hget := h k (by rw [List.length_append]; omega)
      rwa [List.getElem_append_left hk] at hget
    · intro k hk
      have hget := h (l₁.length + k) (by rw [List.length_append]; omega)
      rw [List.getElem_append_right (Nat.le_add_right _ _), ← add_assoc] at hget
      simpa using hget
  · rintro ⟨h₁, h₂⟩ k hk
    by_cases hlt : k < l₁.length
    · rw [List.getElem_append_left hlt]
      exact h₁ k hlt
    · rw [List.getElem_append_right (by omega)]
      have hget := h₂ (k - l₁.length) (by rw [List.length_append] at hk; omega)
      rwa [add_assoc, Nat.add_sub_cancel' (by omega)] at hget

theorem at_getD (l : List α) (d : α) : At (fun k => l.getD k d) 0 l := by
  intro k hk
  rw [Nat.zero_add]
  exact List.getD_eq_getElem _ _ hk

theorem At.left (h : At b p (l₁ ++ l₂)) : At b p l₁ := (at_append.mp h).1

theorem At.right (h : At b p (l₁ ++ l₂)) : At b (p + l₁.length) l₂ := (at_append.mp h).2

theorem at_cons {x : α} : At b p (x :: l) ↔ b p = x ∧ At b (p + 1) l := by
  have hsplit : At b p ([x] ++ l) ↔ At b p [x] ∧ At b (p + 1) l := at_append
  rw [List.singleton_append] at hsplit
  rw [hsplit]
  refine and_congr ⟨fun h => h 0 Nat.one_pos, ?_⟩ Iff.rfl
  intro h k hk
  obtain rfl : k = 0 := by simpa using hk
  exact h

/-- Reading as many values as the list has gives the list. -/
theorem At.map_range (h : At b p l) : (List.range l.length).map (fun k => b (p + k)) = l := by
  apply List.ext_getElem
  · simp
  · intro k hk hk'
    rw [List.getElem_map, List.getElem_range]
    exact h k hk'

/-- One of several pieces stands behind those before it. -/
theorem At.flatten {ls : List (List α)} (h : At b p ls.flatten) {i : ℕ} (hi : i < ls.length) :
    At b (p + ((ls.take i).map List.length).sum) ls[i] := by
  have hsplit : ls.flatten = (ls.take i).flatten ++ (ls[i] ++ (ls.drop (i + 1)).flatten) := by
    rw [← List.flatten_cons, ← List.drop_eq_getElem_cons hi, ← List.flatten_append, List.take_append_drop]
  rw [hsplit] at h
  have hr := h.right.left
  rwa [List.length_flatten] at hr

/-- The values from `p` on are replaced. -/
def put (l : List α) (p : ℕ) (new : List α) : List α := l.take p ++ new ++ l.drop (p + new.length)

theorem put_length {new : List α} (h : p + new.length ≤ l.length) : (put l p new).length = l.length := by
  simp only [put, List.length_append, List.length_take, List.length_drop]
  omega

theorem put_getElem? {new : List α} (h : p + new.length ≤ l.length) (k : ℕ) :
    (put l p new)[k]? = if p ≤ k ∧ k < p + new.length then new[k - p]? else l[k]? := by
  have hp : (l.take p).length = p := List.length_take_of_le (by omega)
  rw [put]
  split_ifs with hk
  · rw [List.append_assoc, List.getElem?_append_right (by omega), hp, List.getElem?_append_left (by omega)]
  · by_cases hlt : k < p
    · rw [List.append_assoc, List.getElem?_append_left (by omega), List.getElem?_take_of_lt hlt]
    · rw [List.getElem?_append_right (by simp only [List.length_append]; omega), List.getElem?_drop]
      simp only [List.length_append, hp]
      congr 1
      omega

theorem put_middle {pre old post new : List α} (h : old.length = new.length) (hp : p = pre.length) :
    put (pre ++ old ++ post) p new = pre ++ new ++ post := by
  have hdrop : p + new.length = (pre ++ old).length := by rw [List.length_append, hp, h]
  rw [put, hdrop, List.drop_left, hp, List.append_assoc pre old, List.take_left]

end Cc370.Slices
