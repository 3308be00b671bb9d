import Cc370.Ld370.Addresses

namespace Cc370.Ld370

theorem nextSect_snoc (S : List (ℕ × Lent)) (z : ℕ × Lent) (last : ℤ) : nextSect (S ++ [z]) last =
    if last < z.2.addr ∧ (nextSect S last).all (fun y => z.2.addr < y.2.addr) then some z else nextSect S last := by
  rw [nextSect, List.foldl_append]
  rfl

theorem nextSect_spec (S : List (ℕ × Lent)) (last : ℤ) :
    match nextSect S last with
    | none => ∀ y ∈ S, (y.2.addr : ℤ) ≤ last
    | some x => x ∈ S ∧ last < x.2.addr ∧ ∀ y ∈ S, last < (y.2.addr : ℤ) → x.2.addr ≤ y.2.addr := by
  induction S using List.reverseRecOn with
  | nil => simp [nextSect]
  | append_singleton S z ih =>
    rw [nextSect_snoc]
    cases hn : nextSect S last with
    | none =>
      rw [hn] at ih
      dsimp only at ih
      split_ifs with h
      · refine ⟨by simp, h.1, ?_⟩
        intro y hy hlt
        rcases List.mem_append.mp hy with hy | hy
        · exact absurd (ih y hy) (by omega)
        · rw [List.mem_singleton.mp hy]
      · intro y hy
        rcases List.mem_append.mp hy with hy | hy
        · exact ih y hy
        · rw [List.mem_singleton.mp hy]
          simpa using h
    | some x =>
      rw [hn] at ih
      obtain ⟨h1, h2, h3⟩ := ih
      split_ifs with h
      · have hzx : z.2.addr < x.2.addr := by simpa using h.2
        refine ⟨by simp, h.1, ?_⟩
        intro y hy hlt
        rcases List.mem_append.mp hy with hy | hy
        · exact hzx.le.trans (h3 y hy hlt)
        · rw [List.mem_singleton.mp hy]
      · refine ⟨List.mem_append_left _ h1, h2, ?_⟩
        intro y hy hlt
        rcases List.mem_append.mp hy with hy | hy
        · exact h3 y hy hlt
        · rw [List.mem_singleton.mp hy] at hlt ⊢
          by_contra hlt'
          exact h ⟨hlt, by simpa using hlt'⟩

theorem nextSect_some {S : List (ℕ × Lent)} {last : ℤ} {x : ℕ × Lent}
    (h : nextSect S last = some x) :
    x ∈ S ∧ last < x.2.addr ∧ ∀ y ∈ S, last < (y.2.addr : ℤ) → x.2.addr ≤ y.2.addr := by
  have hs := nextSect_spec S last
  rwa [h] at hs

theorem nextSect_none {S : List (ℕ × Lent)} {last : ℤ} (h : nextSect S last = none) :
    ∀ y ∈ S, (y.2.addr : ℤ) ≤ last := by
  have hs := nextSect_spec S last
  rwa [h] at hs

/-- What has been removed so far lies below every section still to come. -/
theorem compactLoop_nonneg (o : Obj) (dropped : ℕ → Bool) (fuel : ℕ) {last removed : ℤ}
    {newaddr : ℕ → ℤ} (hn : ∀ j, 0 ≤ newaddr j)
    (hr : ∀ x ∈ o.objSects, last < (x.2.addr : ℤ) → removed ≤ x.2.addr) (j : ℕ) :
    0 ≤ compactLoop o dropped fuel last removed newaddr j := by
  induction fuel generalizing last removed newaddr with
  | zero => exact hn j
  | succ fuel ih =>
    unfold compactLoop
    cases hx : nextSect o.objSects last with
    | none => exact hn j
    | some x =>
      obtain ⟨nx, e⟩ := x
      obtain ⟨hmem, hlt, -⟩ := nextSect_some hx
      have hre := hr _ hmem hlt
      dsimp only at hre ⊢
      apply ih
      · intro j'
        split_ifs
        · omega
        · exact hn j'
      · intro y hy hlty
        split_ifs
        · cases hy' : nextSect o.objSects e.addr with
          | none => exact absurd (nextSect_none hy' y hy) (by omega)
          | some z =>
            have hz := (nextSect_some hy').2.2 y hy hlty
            simp only [Option.elim_some]
            omega
        · omega

theorem newaddr_nonneg (o : Obj) (dropped : ℕ → Bool) (j : ℕ) : 0 ≤ o.newaddr dropped j := by
  have haddr : ∀ j, 0 ≤ o.addr j := by
    intro j
    unfold Obj.addr
    cases o.loc j <;> simp
  unfold Obj.newaddr
  split_ifs
  · exact compactLoop_nonneg o dropped _ haddr (fun x _ _ => by omega) j
  · exact haddr j

theorem osize_nonneg (o : Obj) (dropped : ℕ → Bool) : 0 ≤ o.osize dropped := by
  have h (l : List (ℕ × Lent)) (v : ℤ) (hv : 0 ≤ v) : 0 ≤ l.foldl (fun osize x =>
      if !dropped x.1 ∧ osize < o.newaddr dropped x.1 + x.2.len then o.newaddr dropped x.1 + x.2.len
      else osize) v := by
    induction l generalizing v with
    | nil => exact hv
    | cons x l ih =>
      rw [List.foldl_cons]
      apply ih
      split_ifs with hx
      · omega
      · exact hv
  exact h _ _ le_rfl

theorem objectBase_nonneg (L : List Placed) (i : ℕ) : 0 ≤ objectBase L i := by
  apply List.sum_nonneg
  intro v hv
  obtain ⟨o, -, rfl⟩ := List.mem_map.mp hv
  exact (osize_nonneg _ _).trans (roundup8_le _)

end Cc370.Ld370
