import Mathlib.Data.List.Basic
import Mathlib.Logic.Function.Iterate
import Mathlib.Tactic.Common

/-! Traversals that mark what they visit and remember what is left to visit. -/

namespace Cc370.Worklist

section Run

variable {σ β : Type*} {step : σ → σ}

/-- A run with a measure that every step makes smaller comes to an end, and what the steps keep holds there. -/
theorem exists_done (P done : σ → Prop) {r : β → β → Prop} (hr : WellFounded r) (μ : σ → β) (hμ : ∀ s, P s → ¬ done s → r (μ (step s)) (μ s))
    (hP : ∀ s, P s → P (step s)) {s : σ} (hs : P s) : ∃ n, done (step^[n] s) ∧ P (step^[n] s) := by
  induction hm : μ s using hr.induction generalizing s with
  | h m ih =>
    by_cases hd : done s
    · exact ⟨0, hd, hs⟩
    · obtain ⟨n, hn⟩ := ih (μ (step s)) (by rw [← hm]; exact hμ s hs hd) (hP s hs) rfl
      exact ⟨n + 1, hn⟩

end Run

variable {α : Type*}

/-- What the roots lead to. -/
inductive Reach (roots : α → Prop) (next : α → α → Prop) : α → Prop
  | root {a : α} : roots a → Reach roots next a
  | step {a b : α} : Reach roots next a → next a b → Reach roots next b

/-- Between two visits: what was visited, and what is left. -/
structure Traversed (roots : α → Prop) (next : α → α → Prop) (seen pending : α → Prop) : Prop where
  rooted : ∀ a, roots a → seen a ∨ pending a
  closed : ∀ a b, seen a → next a b → seen b ∨ pending b
  seen_reach : ∀ a, seen a → Reach roots next a
  pending_reach : ∀ a, pending a → Reach roots next a

namespace Traversed

variable {roots : α → Prop} {next : α → α → Prop} {seen seen' pending pending' : α → Prop}

theorem start (h : ∀ a, ¬ seen a) : Traversed roots next seen roots where
  rooted := fun _ ha => .inr ha
  closed := fun a _ ha => absurd ha (h a)
  seen_reach := fun a ha => absurd ha (h a)
  pending_reach := fun _ ha => .root ha

/-- What is left may be forgotten when it was visited before. -/
theorem forget (h : Traversed roots next seen pending) (hsub : ∀ a, pending' a → pending a) (hkeep : ∀ a, pending a → seen a ∨ pending' a) :
    Traversed roots next seen pending' := by
  have hmove : ∀ a, seen a ∨ pending a → seen a ∨ pending' a := fun a ha => ha.elim .inl (hkeep a)
  refine ⟨?_, ?_, h.seen_reach, ?_⟩
  · exact fun a ha => hmove a (h.rooted a ha)
  · exact fun a b ha hab => hmove b (h.closed a b ha hab)
  · exact fun a ha => h.pending_reach a (hsub a ha)

/-- One of those that are left is visited, and what it leads to is remembered. -/
theorem visit (h : Traversed roots next seen pending) {a : α} (ha : pending a) (hseen : ∀ b, seen' b ↔ b = a ∨ seen b)
    (hnew : ∀ b, pending' b → pending b ∨ next a b) (hkeep : ∀ b, pending b → seen' b ∨ pending' b) (hnext : ∀ b, next a b → seen' b ∨ pending' b) :
    Traversed roots next seen' pending' := by
  have hmove : ∀ b, seen b ∨ pending b → seen' b ∨ pending' b := by
    intro b hb
    cases hb with
    | inl hb => exact .inl ((hseen b).mpr (.inr hb))
    | inr hb => exact hkeep b hb
  have hreach := h.pending_reach a ha
  refine ⟨?_, ?_, ?_, ?_⟩
  · exact fun b hb => hmove b (h.rooted b hb)
  · intro b c hb hbc
    cases (hseen b).mp hb with
    | inl hba =>
      subst hba
      exact hnext c hbc
    | inr hb => exact hmove c (h.closed b c hb hbc)
  · intro b hb
    cases (hseen b).mp hb with
    | inl hba =>
      subst hba
      exact hreach
    | inr hb => exact h.seen_reach b hb
  · intro b hb
    cases hnew b hb with
    | inl hb => exact h.pending_reach b hb
    | inr hb => exact .step hreach hb

/-- When nothing is left, exactly what the roots lead to was visited. -/
theorem finish (h : Traversed roots next seen pending) (hempty : ∀ a, ¬ pending a) (a : α) : seen a ↔ Reach roots next a := by
  constructor
  · exact h.seen_reach a
  · intro ha
    induction ha with
    | root hr => exact (h.rooted _ hr).resolve_right (hempty _)
    | step _ hab ih => exact (h.closed _ _ ih hab).resolve_right (hempty _)

end Traversed

end Cc370.Worklist
