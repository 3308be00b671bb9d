import Mathlib.Data.List.Flatten
import Mathlib.Tactic.Common

namespace Cc370.Reads

variable {α : Type*}

/-- A run of indices that are read. -/
structure Span where
  off : ℕ
  len : ℕ
deriving DecidableEq

def Span.shift (p : ℕ) (s : Span) : Span := ⟨p + s.off, s.len⟩

/-- Every index that is read is below `n`. -/
def Within (n : ℕ) (rs : List Span) : Prop := ∀ s ∈ rs, ∀ i < s.len, s.off + i < n

/-- The two agree on what is read. -/
def SameOn (b b' : ℕ → α) (rs : List Span) : Prop := ∀ s ∈ rs, ∀ i < s.len, b (s.off + i) = b' (s.off + i)

variable {n : ℕ} {b b' : ℕ → α} {s : Span} {rs rs' : List Span}

@[simp] theorem within_nil : Within n [] := fun _ h => absurd h List.not_mem_nil

@[simp] theorem sameOn_nil : SameOn b b' [] := fun _ h => absurd h List.not_mem_nil

theorem within_append : Within n (rs ++ rs') ↔ Within n rs ∧ Within n rs' := List.forall_mem_append

theorem sameOn_append : SameOn b b' (rs ++ rs') ↔ SameOn b b' rs ∧ SameOn b b' rs' := List.forall_mem_append

theorem within_cons : Within n (s :: rs) ↔ (s.len = 0 ∨ s.off + s.len ≤ n) ∧ Within n rs := by
  have hspan : (∀ i < s.len, s.off + i < n) ↔ s.len = 0 ∨ s.off + s.len ≤ n := by
    constructor
    · intro h
      by_cases h0 : s.len = 0
      · exact .inl h0
      · have := h (s.len - 1) (by omega)
        omega
    · rintro (h | h) i hi
      · omega
      · omega
  rw [← hspan]
  exact List.forall_mem_cons

theorem sameOn_cons : SameOn b b' (s :: rs) ↔ (∀ i < s.len, b (s.off + i) = b' (s.off + i)) ∧ SameOn b b' rs := List.forall_mem_cons

theorem within_flatMap {β : Type*} {l : List β} {f : β → List Span} : Within n (l.flatMap f) ↔ ∀ x ∈ l, Within n (f x) := by
  simp only [Within, List.mem_flatMap]
  constructor
  · exact fun h x hx s hs => h s ⟨x, hx, hs⟩
  · exact fun h s ⟨x, hx, hs⟩ => h x hx s hs

theorem sameOn_flatMap {β : Type*} {l : List β} {f : β → List Span} : SameOn b b' (l.flatMap f) ↔ ∀ x ∈ l, SameOn b b' (f x) := by
  simp only [SameOn, List.mem_flatMap]
  constructor
  · exact fun h x hx s hs => h s ⟨x, hx, hs⟩
  · exact fun h s ⟨x, hx, hs⟩ => h x hx s hs

theorem within_shift {p : ℕ} : Within n (rs.map (Span.shift p)) ↔ Within (n - p) rs := by
  simp only [Within, List.forall_mem_map, Span.shift]
  apply forall₂_congr
  intro s _
  apply forall₂_congr
  intro i _
  omega

theorem sameOn_shift {p : ℕ} : SameOn b b' (rs.map (Span.shift p)) ↔ SameOn (fun k => b (p + k)) (fun k => b' (p + k)) rs := by
  simp only [SameOn, List.forall_mem_map, Span.shift, Nat.add_assoc]

/-- What reads below `n` only does not see what lies from there on. -/
theorem Within.sameOn (h : Within n rs) (hb : ∀ k < n, b k = b' k) : SameOn b b' rs := fun s hs i hi => hb _ (h s hs i hi)

end Cc370.Reads
