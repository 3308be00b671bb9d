import Cc370.Cmplmd370.Clusters
import Cc370.Cmplmd370.DifinFormat

namespace Cc370.Cmplmd370

section Chunks

theorem chunks_spec (o l : ℕ) : (∀ r ∈ chunks o l, o ≤ r.1 ∧ r.1 + r.2 ≤ o + l ∧ 0 < r.2 ∧ r.2 ≤ 255) ∧
    ∀ p, (∃ r ∈ chunks o l, r.1 ≤ p ∧ p < r.1 + r.2) ↔ o ≤ p ∧ p < o + l := by
  fun_induction chunks o l with
  | case1 o =>
    refine ⟨nofun, ?_⟩
    intro p
    simp
  | case2 o l h0 h255 ih =>
    obtain ⟨hw, hc⟩ := ih
    constructor
    · intro r hr
      rcases List.mem_cons.mp hr with rfl | hr
      · dsimp only
        omega
      · have := hw r hr
        omega
    · intro p
      simp only [List.mem_cons, exists_eq_or_imp]
      rw [hc]
      omega
  | case3 o l h0 h255 =>
    constructor
    · intro r hr
      rw [List.mem_singleton.mp hr]
      dsimp only
      omega
    · intro p
      simp

theorem chunks_short {o l : ℕ} (h : l ≤ 255) : chunks o l = if l = 0 then [] else [(o, l)] := by
  rw [chunks, if_neg (not_lt.mpr h)]

/-- The ranges of a section as they are written, from the clusters or the records of the last file. -/
def written (rs : List (ℕ × ℕ)) : List (ℕ × ℕ) := rs.flatMap fun r => chunks r.1 r.2

theorem written_covers (rs : List (ℕ × ℕ)) (p : ℕ) :
    (∃ r ∈ written rs, r.1 ≤ p ∧ p < r.1 + r.2) ↔ ∃ r ∈ rs, r.1 ≤ p ∧ p < r.1 + r.2 := by
  constructor
  · rintro ⟨r, hr, hp⟩
    obtain ⟨q, hq, hr⟩ := List.mem_flatMap.mp hr
    exact ⟨q, hq, ((chunks_spec q.1 q.2).2 p).mp ⟨r, hr, hp⟩⟩
  · rintro ⟨q, hq, hp⟩
    obtain ⟨r, hr, hp⟩ := ((chunks_spec q.1 q.2).2 p).mpr hp
    exact ⟨r, List.mem_flatMap.mpr ⟨q, hq, hr⟩, hp⟩

theorem written_good {rs : List (ℕ × ℕ)} (h : ∀ r ∈ rs, r.1 + r.2 ≤ 2 ^ 24 ∨ GoodRange r) : ∀ r ∈ written rs, GoodRange r := by
  intro r hr
  obtain ⟨q, hq, hr⟩ := List.mem_flatMap.mp hr
  obtain ⟨hlo, hhi, hpos, hle⟩ := (chunks_spec q.1 q.2).1 r hr
  rcases h q hq with hend | hgood
  · exact ⟨by omega, hle⟩
  · rw [chunks_short hgood.2] at hr
    split_ifs at hr
    · exact absurd hr List.not_mem_nil
    · rw [List.mem_singleton.mp hr]
      exact hgood

theorem written_written {rs : List (ℕ × ℕ)} : written (written rs) = written rs := by
  rw [written, written, List.flatMap_assoc]
  congr 1
  funext q
  have hsingle : ∀ r ∈ chunks q.1 q.2, chunks r.1 r.2 = [r] := by
    intro r hr
    obtain ⟨-, -, hpos, hle⟩ := (chunks_spec q.1 q.2).1 r hr
    rw [chunks_short hle, if_neg hpos.ne']
  rw [List.flatMap_congr hsingle, List.flatMap_singleton']

theorem emit_written {rs : List (ℕ × ℕ)} (h : ∀ r ∈ written rs, GoodRange r) :
    rs.flatMap emitRange = ((written rs).map rangeText).flatMap fun l => l ++ [0x0A] := by
  have hlines : (written rs).flatMap rangeLine = ((written rs).map rangeText).flatMap fun l => l ++ [0x0A] := by
    rw [List.flatMap_map]
    exact List.flatMap_congr fun r hr => rangeLine_eq (h r hr)
  rw [← hlines, written, List.flatMap_assoc]
  rfl

theorem block_written {n : Text} {rs : List (ℕ × ℕ)} (h : ∀ r ∈ written rs, GoodRange r) :
    headerLine n ++ rs.flatMap emitRange = blocksText [⟨n, written rs⟩] := by
  rw [emit_written h, blocksText, List.flatMap_singleton, blockLines, List.flatMap_cons]
  rfl

end Chunks

theorem mergeClusters_nil (c : List Clu) : mergeClusters c [] = c := by
  cases c with
  | nil => rw [mergeClusters]
  | cons x c =>
    rw [mergeClusters]
    simp

theorem mem_mergeClusters (c ic : List Clu) (x : Clu) : x ∈ mergeClusters c ic ↔ x ∈ c ∨ x ∈ ic := by
  fun_induction mergeClusters c ic with
  | case1 ic => simp
  | case2 c _ => simp
  | case3 y c z ic hle ih =>
    simp only [List.mem_cons, ih]
    tauto
  | case4 y c z ic hle ih =>
    simp only [List.mem_cons, ih]
    tauto

end Cc370.Cmplmd370
