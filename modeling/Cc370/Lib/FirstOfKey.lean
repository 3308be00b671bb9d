import Mathlib.Data.List.Induction
import Mathlib.Data.List.Nodup
import Mathlib.Tactic.Common

/-! A table that keeps the first entry of each key. -/

namespace Cc370.Lib.FirstOfKey

variable {α K : Type*} [DecidableEq K] (key : α → K)

def enter (t : List α) (x : α) : List α := if t.any (key · = key x) then t else x :: t

def kept (xs : List α) : List α := xs.foldl (enter key) []

variable {key} {t xs : List α} {x y : α}

theorem any_iff : t.any (key · = key x) = true ↔ ∃ y ∈ t, key y = key x := by
  simp

theorem kept_concat (xs : List α) (x : α) : kept key (xs ++ [x]) = enter key (kept key xs) x := List.foldl_concat ..

theorem enter_nodup (x : α) (h : (t.map key).Nodup) : ((enter key t x).map key).Nodup := by
  rw [enter]
  split
  · exact h
  · rename_i hnew
    rw [any_iff] at hnew
    rw [List.map_cons, List.nodup_cons]
    refine ⟨?_, h⟩
    intro hmem
    obtain ⟨y, hy, hkey⟩ := List.mem_map.mp hmem
    exact hnew ⟨y, hy, hkey⟩

theorem kept_nodup (xs : List α) : ((kept key xs).map key).Nodup := by
  induction xs using List.reverseRecOn with
  | nil => exact List.nodup_nil
  | append_singleton xs x ih =>
    rw [kept_concat]
    exact enter_nodup x ih

theorem kept_subset (xs : List α) : kept key xs ⊆ xs := by
  induction xs using List.reverseRecOn with
  | nil => exact List.nil_subset []
  | append_singleton xs x ih =>
    intro y hy
    rw [kept_concat, enter] at hy
    split at hy
    · exact List.mem_append_left _ (ih hy)
    · rcases List.mem_cons.mp hy with rfl | hy
      · exact List.mem_append_right _ List.mem_cons_self
      · exact List.mem_append_left _ (ih hy)

/-- Every key that occurred is in the table. -/
theorem key_kept (h : x ∈ xs) : ∃ y ∈ kept key xs, key y = key x := by
  induction xs using List.reverseRecOn with
  | nil => exact absurd h List.not_mem_nil
  | append_singleton xs z ih =>
    rw [kept_concat, enter]
    rcases List.mem_append.mp h with h | h
    · obtain ⟨y, hy, hkey⟩ := ih h
      split
      · exact ⟨y, hy, hkey⟩
      · exact ⟨y, List.mem_cons_of_mem z hy, hkey⟩
    · rw [List.mem_singleton.mp h]
      split
      · rename_i hold
        exact any_iff.mp hold
      · exact ⟨z, List.mem_cons_self, rfl⟩

theorem mem_kept_iff : y ∈ kept key xs ↔ ∃ pre post, xs = pre ++ y :: post ∧ ∀ z ∈ pre, key z ≠ key y := by
  induction xs using List.reverseRecOn with
  | nil => simp [kept]
  | append_singleton xs x ih =>
    rw [kept_concat, enter]
    constructor
    · intro h
      have hcases : y ∈ kept key xs ∨ y = x ∧ ¬ ∃ z ∈ kept key xs, key z = key x := by
        split at h
        · exact .inl h
        · rename_i hnew
          rw [any_iff] at hnew
          rcases List.mem_cons.mp h with rfl | h
          · exact .inr ⟨rfl, hnew⟩
          · exact .inl h
      rcases hcases with h | ⟨rfl, hnew⟩
      · obtain ⟨pre, post, rfl, hpre⟩ := ih.mp h
        exact ⟨pre, post ++ [x], by simp, hpre⟩
      · refine ⟨xs, [], rfl, fun z hz hkey => hnew ?_⟩
        rw [← hkey]
        exact key_kept hz
    · rintro ⟨pre, post, hsplit, hpre⟩
      rcases List.eq_nil_or_concat post with rfl | ⟨post, z, rfl⟩
      · obtain ⟨rfl, hx⟩ := List.append_inj' hsplit rfl
        obtain rfl : x = y := List.singleton_inj.mp hx
        rw [if_neg]
        · exact List.mem_cons_self
        · rw [any_iff]
          rintro ⟨z, hz, hkey⟩
          exact hpre z (kept_subset _ hz) hkey
      · rw [List.concat_eq_append, ← List.cons_append, ← List.append_assoc] at hsplit
        obtain ⟨rfl, -⟩ := List.append_inj' hsplit rfl
        have hy := ih.mpr ⟨pre, post, rfl, hpre⟩
        split
        · exact hy
        · exact List.mem_cons_of_mem _ hy

theorem find_none {k : K} : t.find? (key · = k) = none ↔ ∀ y ∈ t, key y ≠ k := by
  simp

theorem of_find {k : K} (h : t.find? (key · = k) = some y) : y ∈ t ∧ key y = k :=
  ⟨List.mem_of_find?_eq_some h, by simpa using List.find?_some h⟩

/-- With one entry for each key, the one that is found is the only one of its key. -/
theorem find_iff (hnodup : (t.map key).Nodup) {k : K} : t.find? (key · = k) = some y ↔ y ∈ t ∧ key y = k := by
  refine ⟨of_find, ?_⟩
  rintro ⟨hmem, hkey⟩
  cases hfind : t.find? (key · = k) with
  | none => exact absurd hkey (find_none.mp hfind y hmem)
  | some z =>
    obtain ⟨hz, hzk⟩ := of_find hfind
    rw [List.inj_on_of_nodup_map hnodup hz hmem (hzk.trans hkey.symm)]

end Cc370.Lib.FirstOfKey
