import Mathlib.Data.List.Basic
import Mathlib.Tactic.Common

namespace Cc370.Rounds

variable {σ α : Type*}

/-- Rounds that say whether they changed anything, up to one that did not. -/
def rounds (f : σ → σ × Bool) : ℕ → σ → Option σ
  | 0, _ => none
  | fuel + 1, s => if (f s).2 then rounds f fuel (f s).1 else some (f s).1

/-- If a round that changes something makes a measure smaller, there is a last one, and what every
round keeps holds before it. -/
theorem rounds_last {f : σ → σ × Bool} (m : σ → ℕ) (P : σ → Prop) (hm : ∀ s, (f s).2 = true → m (f s).1 < m s)
    (hP : ∀ s, P s → P (f s).1) {s : σ} (hs : P s) :
    ∃ t, P t ∧ (f t).2 = false ∧ ∀ fuel, m s < fuel → rounds f fuel s = some (f t).1 := by
  induction hn : m s using Nat.strongRecOn generalizing s with
  | ind n ih =>
    subst hn
    cases hc : (f s).2 with
    | false =>
      refine ⟨s, hs, hc, ?_⟩
      intro fuel hfuel
      obtain ⟨fuel, rfl⟩ := Nat.exists_eq_add_one_of_ne_zero (Nat.ne_of_gt (Nat.zero_lt_of_lt hfuel))
      rw [rounds, if_neg (by rw [hc]; simp)]
    | true =>
      have hlt := hm s hc
      obtain ⟨t, ht, hlast, hrun⟩ := ih _ hlt (hP s hs) rfl
      refine ⟨t, ht, hlast, ?_⟩
      intro fuel hfuel
      obtain ⟨fuel, rfl⟩ := Nat.exists_eq_add_one_of_ne_zero (Nat.ne_of_gt (Nat.zero_lt_of_lt hfuel))
      rw [rounds, if_pos hc]
      exact hrun fuel (by omega)

/-- A round that visits a list: each visit changes the state or leaves it. -/
def visit (g : σ → α → Option σ) (st : σ × Bool) (a : α) : σ × Bool :=
  match g st.1 a with
  | some s' => (s', true)
  | none => st

variable {g : σ → α → Option σ}

theorem visit_measure (m : σ → ℕ) (hm : ∀ s a s', g s a = some s' → m s' < m s) (l : List α) (st : σ × Bool) :
    m (l.foldl (visit g) st).1 ≤ m st.1 ∧
      ((l.foldl (visit g) st).2 = true → st.2 = true ∨ m (l.foldl (visit g) st).1 < m st.1) := by
  induction l generalizing st with
  | nil => exact ⟨Nat.le_refl _, fun h => .inl h⟩
  | cons a l ih =>
    rw [List.foldl_cons]
    obtain ⟨hle, hch⟩ := ih (visit g st a)
    cases hg : g st.1 a with
    | none =>
      have hv : visit g st a = st := by simp only [visit, hg]
      rw [hv] at hle hch ⊢
      exact ⟨hle, hch⟩
    | some s' =>
      have hv : visit g st a = (s', true) := by simp only [visit, hg]
      have hlt := hm st.1 a s' hg
      rw [hv] at hle hch ⊢
      exact ⟨by dsimp only at hle; omega, fun _ => .inr (by dsimp only at hle; omega)⟩

theorem visit_keeps (P : σ → Prop) (hP : ∀ s a s', P s → g s a = some s' → P s') (l : List α) (st : σ × Bool) (h : P st.1) :
    P (l.foldl (visit g) st).1 := by
  induction l generalizing st with
  | nil => exact h
  | cons a l ih =>
    rw [List.foldl_cons]
    apply ih
    cases hg : g st.1 a with
    | none => simpa only [visit, hg] using h
    | some s' => simpa only [visit, hg] using hP st.1 a s' h hg

/-- A round without a change has nothing to do anywhere. -/
theorem visit_done (l : List α) (st : σ × Bool) (h : (l.foldl (visit g) st).2 = false) :
    (l.foldl (visit g) st).1 = st.1 ∧ ∀ a ∈ l, g st.1 a = none := by
  induction l generalizing st with
  | nil => exact ⟨rfl, nofun⟩
  | cons a l ih =>
    rw [List.foldl_cons] at h ⊢
    cases hg : g st.1 a with
    | none =>
      have hv : visit g st a = st := by simp only [visit, hg]
      rw [hv] at h ⊢
      obtain ⟨hst, hall⟩ := ih st h
      refine ⟨hst, ?_⟩
      intro x hx
      rcases List.mem_cons.mp hx with rfl | hx
      · exact hg
      · exact hall x hx
    | some s' =>
      exfalso
      have hv : visit g st a = (s', true) := by simp only [visit, hg]
      rw [hv] at h
      -- once set, the flag stays
      have hflag : ∀ (l : List α) (st : σ × Bool), st.2 = true → (l.foldl (visit g) st).2 = true := by
        intro l
        induction l with
        | nil => exact fun _ h => h
        | cons b l ihl =>
          intro st hst
          rw [List.foldl_cons]
          apply ihl
          unfold visit
          split
          · rfl
          · exact hst
      rw [hflag l (s', true) rfl] at h
      exact absurd h (by simp)

end Cc370.Rounds
