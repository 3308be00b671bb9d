import Cc370.Lib.Pairing
import Cc370.Ld370.Compaction
import Cc370.Ld370.FinalAddresses
import Cc370.Ld370.Image

namespace Cc370.Ld370

/-- What compaction needs of an object: sections that do not overlap, no empty duplicate among
them, and no text where its common areas are. -/
structure Compactable (o : Obj) (dropped : ℕ → Bool) : Prop where
  disjoint : ∀ x ∈ o.objSects, ∀ y ∈ o.objSects, x.1 ≠ y.1 → 0 < x.2.len → 0 < y.2.len →
    x.2.addr + x.2.len ≤ y.2.addr ∨ y.2.addr + y.2.len ≤ x.2.addr
  nonempty : ∀ x ∈ o.objSects, dropped x.1 = true → 0 < x.2.len
  common : ∀ j ∈ Obj.esdids, ∀ e, o.loc j = some e → e.type = .cm → o.textlen ≤ e.addr ∨ e.len = 0

section Compact

variable {o : Obj} {dropped : ℕ → Bool}

/-- The sections of origin `a` go to `v`. -/
def moveAt (o : Obj) (a v : ℤ) (newaddr : ℕ → ℤ) (j : ℕ) : ℤ :=
  if (o.loc j).any (fun e => isObjSect e.type ∧ (e.addr : ℤ) = a) then v else newaddr j

def span (o : Obj) (z : ℕ × Lent) : ℤ :=
  (nextSect o.objSects z.2.addr).elim (z.2.addr + z.2.len : ℤ) (fun x => (x.2.addr : ℤ)) - z.2.addr

theorem compactLoop_succ {fuel : ℕ} {last removed : ℤ} {newaddr : ℕ → ℤ} {z : ℕ × Lent}
    (h : nextSect o.objSects last = some z) :
    compactLoop o dropped (fuel + 1) last removed newaddr =
      compactLoop o dropped fuel z.2.addr (if dropped z.1 then removed + span o z else removed)
        (moveAt o z.2.addr (z.2.addr - removed) newaddr) := by
  rw [compactLoop, h]
  rfl

theorem compactLoop_stop {fuel : ℕ} {last removed : ℤ} {newaddr : ℕ → ℤ}
    (h : nextSect o.objSects last = none) :
    compactLoop o dropped (fuel + 1) last removed newaddr = newaddr := by
  rw [compactLoop, h]

theorem moveAt_self {x : ℕ × Lent} (hx : x ∈ o.objSects) (v : ℤ) (newaddr : ℕ → ℤ) :
    moveAt o x.2.addr v newaddr x.1 = v := by
  obtain ⟨-, hloc, ht⟩ := mem_objSects.mp hx
  simp [moveAt, hloc, ht]

theorem moveAt_ne {x : ℕ × Lent} (hx : x ∈ o.objSects) {a : ℤ} (h : (x.2.addr : ℤ) ≠ a) (v : ℤ)
    (newaddr : ℕ → ℤ) : moveAt o a v newaddr x.1 = newaddr x.1 := by
  obtain ⟨-, hloc, -⟩ := mem_objSects.mp hx
  simp only [moveAt, hloc, Option.any_some, h, and_false, decide_false, Bool.false_eq_true,
    ↓reduceIte]

theorem span_nonneg (z : ℕ × Lent) : 0 ≤ span o z := by
  unfold span
  cases hn : nextSect o.objSects z.2.addr with
  | none =>
    simp only [Option.elim_none]
    omega
  | some w =>
    have := (nextSect_some hn).2.1
    simp only [Option.elim_some]
    omega

/-- The sections that the loop has not come to are where they were. -/
def Unmoved (o : Obj) (last : ℤ) (newaddr : ℕ → ℤ) : Prop :=
  ∀ y ∈ o.objSects, last < (y.2.addr : ℤ) → newaddr y.1 = y.2.addr

theorem Unmoved.moveAt {last a : ℤ} {newaddr : ℕ → ℤ} (h : Unmoved o last newaddr) (ha : last ≤ a)
    (v : ℤ) : Unmoved o a (moveAt o a v newaddr) := by
  intro y hy hlt
  rw [moveAt_ne hy (by omega), h y hy (by omega)]

theorem compactLoop_before (fuel : ℕ) {last removed : ℤ} {newaddr : ℕ → ℤ} {x : ℕ × Lent}
    (hx : x ∈ o.objSects) (hle : (x.2.addr : ℤ) ≤ last) :
    compactLoop o dropped fuel last removed newaddr x.1 = newaddr x.1 := by
  induction fuel generalizing last removed newaddr with
  | zero => rfl
  | succ fuel ih =>
    cases hn : nextSect o.objSects last with
    | none => rw [compactLoop_stop hn]
    | some z =>
      have hz := (nextSect_some hn).2.1
      rw [compactLoop_succ hn, ih (by omega), moveAt_ne hx (by omega)]

/-- A section that lies past `f`, as do all duplicates still to come, does not move below what
becomes of `f`. -/
theorem compactLoop_after (fuel : ℕ) {last removed f : ℤ} {newaddr : ℕ → ℤ} (hr : 0 ≤ removed)
    (hnew : Unmoved o last newaddr)
    (hf : ∀ z ∈ o.objSects, last < (z.2.addr : ℤ) → dropped z.1 = true → f ≤ z.2.addr)
    {y : ℕ × Lent} (hy : y ∈ o.objSects) (hlt : last < (y.2.addr : ℤ)) (hfy : f ≤ y.2.addr) :
    f - removed ≤ compactLoop o dropped fuel last removed newaddr y.1 := by
  induction fuel generalizing last removed f newaddr with
  | zero =>
    have := hnew y hy hlt
    simp only [compactLoop]
    omega
  | succ fuel ih =>
    cases hn : nextSect o.objSects last with
    | none => exact absurd (nextSect_none hn y hy) (by omega)
    | some z =>
      obtain ⟨hzm, hzl, hzmin⟩ := nextSect_some hn
      have hnew' := hnew.moveAt hzl.le (z.2.addr - removed)
      rw [compactLoop_succ hn]
      rcases (hzmin y hy hlt).lt_or_eq with hlt' | heq
      · by_cases hd : dropped z.1 = true
        · cases hnx : nextSect o.objSects z.2.addr with
          | none => exact absurd (nextSect_none hnx y hy) (by omega)
          | some w =>
            obtain ⟨-, hwl, hwmin⟩ := nextSect_some hnx
            have hspan : span o z = w.2.addr - z.2.addr := by simp [span, hnx]
            have hfz := hf z hzm hzl hd
            have hr' : 0 ≤ removed + span o z := by omega
            have hw : ∀ v ∈ o.objSects, (z.2.addr : ℤ) < v.2.addr → dropped v.1 = true →
                (w.2.addr : ℤ) ≤ v.2.addr := fun v hv hvl _ => by exact_mod_cast hwmin v hv hvl
            have hih := ih hr' hnew' hw (by omega) (by exact_mod_cast hwmin y hy (by omega))
            rw [if_pos hd]
            omega
        · rw [if_neg hd]
          exact ih hr hnew' (fun v hv hvl => hf v hv (by omega)) (by omega) hfy
      · rw [compactLoop_before fuel hy (by omega), heq, moveAt_self hy]
        omega

theorem compactLoop_disjoint (hc : Compactable o dropped) (fuel : ℕ) {last removed : ℤ}
    {newaddr : ℕ → ℤ} (hr : 0 ≤ removed) (hnew : Unmoved o last newaddr) {x y : ℕ × Lent}
    (hx : x ∈ o.objSects) (hy : y ∈ o.objSects) (hdx : dropped x.1 = false) (hxl : 0 < x.2.len)
    (hyl : 0 < y.2.len) (hlt : last < (x.2.addr : ℤ)) (hxy : x.2.addr < y.2.addr) :
    compactLoop o dropped fuel last removed newaddr x.1 + x.2.len ≤
      compactLoop o dropped fuel last removed newaddr y.1 := by
  have hpast : ∀ z ∈ o.objSects, (x.2.addr : ℤ) < z.2.addr → 0 < z.2.len →
      (x.2.addr : ℤ) + x.2.len ≤ z.2.addr := by
    intro z hz hxz hzl
    have hne : x.1 ≠ z.1 := by
      intro h
      have h1 := (mem_objSects.mp hx).2.1
      rw [h, (mem_objSects.mp hz).2.1, Option.some.injEq] at h1
      rw [h1] at hxz
      omega
    rcases hc.disjoint x hx z hz hne hxl hzl with h | h <;> omega
  induction fuel generalizing last removed newaddr with
  | zero =>
    simp only [compactLoop]
    rw [hnew x hx hlt, hnew y hy (by omega)]
    exact hpast y hy (by omega) hyl
  | succ fuel ih =>
    cases hn : nextSect o.objSects last with
    | none => exact absurd (nextSect_none hn x hx) (by omega)
    | some z =>
      obtain ⟨hzm, hzl, hzmin⟩ := nextSect_some hn
      have hnew' := hnew.moveAt hzl.le (z.2.addr - removed)
      rw [compactLoop_succ hn]
      rcases (hzmin x hx hlt).lt_or_eq with hlt' | heq
      · have hsp := span_nonneg (o := o) z
        exact ih (by split_ifs <;> omega) hnew' (by omega)
      · -- the origin of `x`: a duplicate there would overlap it
        have hkeep : dropped z.1 = false := by
          by_contra hd
          rw [Bool.not_eq_false] at hd
          have hne : x.1 ≠ z.1 := by
            intro h
            rw [← h, hdx] at hd
            exact absurd hd (by simp)
          have hzl := hc.nonempty z hzm hd
          rcases hc.disjoint x hx z hzm hne hxl hzl with h | h <;> omega
        have hf : ∀ v ∈ o.objSects, (z.2.addr : ℤ) < v.2.addr → dropped v.1 = true →
            (x.2.addr : ℤ) + x.2.len ≤ v.2.addr := fun v hv hvl hd =>
          hpast v hv (by omega) (hc.nonempty v hv hd)
        have hafter := compactLoop_after fuel hr hnew' hf hy (by omega) (hpast y hy (by omega) hyl)
        rw [hkeep, if_neg (by simp), compactLoop_before fuel hx (by omega)]
        rw [heq] at hafter ⊢
        rw [moveAt_self hx]
        omega

/-- Kept sections stay apart. -/
theorem newaddr_disjoint (hc : Obj.esdids.any dropped = true → Compactable o dropped)
    (hdrop : Obj.esdids.any dropped = true) {x y : ℕ × Lent}
    (hx : x ∈ o.objSects) (hy : y ∈ o.objSects) (hdx : dropped x.1 = false)
    (hdy : dropped y.1 = false) (hne : x.1 ≠ y.1) (hxl : 0 < x.2.len) (hyl : 0 < y.2.len) :
    o.newaddr dropped x.1 + x.2.len ≤ o.newaddr dropped y.1 ∨
      o.newaddr dropped y.1 + y.2.len ≤ o.newaddr dropped x.1 := by
  have hun : Unmoved o (-1) o.addr := by
    intro y hy _
    simp [Obj.addr, (mem_objSects.mp hy).2.1]
  simp only [Obj.newaddr, hdrop, ↓reduceIte]
  have hsep := (hc hdrop).disjoint x hx y hy hne hxl hyl
  rcases lt_or_ge x.2.addr y.2.addr with h | h
  · exact .inl (compactLoop_disjoint (hc hdrop) _ le_rfl hun hx hy hdx hxl hyl (by omega) h)
  · exact .inr (compactLoop_disjoint (hc hdrop) _ le_rfl hun hy hx hdy hyl hxl (by omega) (by omega))

theorem le_osize {x : ℕ × Lent} (hx : x ∈ o.objSects) (hd : dropped x.1 = false) :
    o.newaddr dropped x.1 + x.2.len ≤ o.osize dropped := by
  have hmono (l : List (ℕ × Lent)) (v : ℤ) : v ≤ l.foldl (fun osize x =>
      if !dropped x.1 ∧ osize < o.newaddr dropped x.1 + x.2.len then o.newaddr dropped x.1 + x.2.len
      else osize) v := by
    induction l generalizing v with
    | nil => exact le_rfl
    | cons z l ih =>
      rw [List.foldl_cons]
      refine le_trans ?_ (ih _)
      split_ifs with h
      · exact h.2.le
      · exact le_rfl
  have hmem (l : List (ℕ × Lent)) (v : ℤ) (hx : x ∈ l) :
      o.newaddr dropped x.1 + x.2.len ≤ l.foldl (fun osize x =>
        if !dropped x.1 ∧ osize < o.newaddr dropped x.1 + x.2.len
        then o.newaddr dropped x.1 + x.2.len else osize) v := by
    induction l generalizing v with
    | nil => simp at hx
    | cons z l ih =>
      rw [List.foldl_cons]
      rcases List.mem_cons.mp hx with rfl | hx
      · refine le_trans ?_ (hmono _ _)
        split_ifs with h
        · exact le_rfl
        · simp only [hd, Bool.not_false, true_and, not_lt] at h
          exact h
      · exact ih _ hx
  exact hmem _ _ hx

end Compact

theorem objectBase_succ {L : List Placed} {i : ℕ} {o : Placed} (h : L[i]? = some o) :
    objectBase L (i + 1) = objectBase L i + roundup8 o.osize := by
  have hi := (List.getElem?_eq_some_iff.mp h).1
  simp only [objectBase, List.take_succ_eq_append_getElem hi, List.map_append, List.sum_append,
    (List.getElem?_eq_some_iff.mp h).2, List.map_cons, List.map_nil, List.sum_cons, List.sum_nil,
    add_zero]

theorem objectBase_mono (L : List Placed) {i j : ℕ} (h : i ≤ j) :
    objectBase L i ≤ objectBase L j := by
  have hnn : ∀ v ∈ ((L.take j).drop i).map (fun o => roundup8 o.osize), 0 ≤ v := by
    intro v hv
    obtain ⟨o, -, rfl⟩ := List.mem_map.mp hv
    exact (osize_nonneg _ _).trans (roundup8_le _)
  have hsplit : L.take j = L.take i ++ (L.take j).drop i := by
    conv_lhs => rw [← List.take_append_drop i (L.take j)]
    rw [List.take_take, min_eq_left h]
  unfold objectBase
  rw [hsplit, List.map_append, List.sum_append]
  have := List.sum_nonneg hnn
  omega

theorem objectBase_dvd (L : List Placed) (i : ℕ) : objectBase L i % 8 = 0 := by
  rw [objectBase]
  generalize L.take i = l
  induction l with
  | nil => rfl
  | cons o l ih =>
    rw [List.map_cons, List.sum_cons, roundup8]
    omega

/-- Objects are stacked one after the other. -/
theorem objectBase_lt {L : List Placed} {i j : ℕ} {o : Placed} (h : L[i]? = some o) (hij : i < j) :
    objectBase L i + o.osize ≤ objectBase L j := by
  have h1 := objectBase_succ h
  have h2 := objectBase_mono L (Nat.succ_le_of_lt hij)
  rw [Nat.succ_eq_add_one] at h2
  have h3 := roundup8_le o.osize
  omega

theorem placeCommons_end (G : List Gsym) (running : ℤ) : running ≤ (placeCommons G running).2 := by
  induction G generalizing running with
  | nil => exact le_rfl
  | cons g G ih =>
    unfold placeCommons
    split_ifs
    · have h1 := roundup8_le running
      have h2 := ih (roundup8 running + g.len)
      dsimp only
      omega
    · exact ih running

/-- The common areas lie one behind the other, up to where they end. -/
theorem placeCommons_ends (G : List Gsym) (running : ℤ) :
    (∀ g ∈ (placeCommons G running).1, g.isSect = true → g.type = .cm → g.inAddr + g.len ≤ (placeCommons G running).2) ∧
      ((placeCommons G running).2 = running ∨
        ∃ g ∈ (placeCommons G running).1, g.isSect = true ∧ g.type = .cm ∧ g.inAddr + g.len = (placeCommons G running).2) := by
  induction G generalizing running with
  | nil => exact ⟨nofun, .inl rfl⟩
  | cons g G ih =>
    rw [placeCommons]
    by_cases hcm : g.isSect = true ∧ g.type = .cm
    · rw [if_pos hcm]
      obtain ⟨hall, hex⟩ := ih (roundup8 running + g.len)
      have hend := placeCommons_end G (roundup8 running + g.len)
      dsimp only
      constructor
      · intro x hx hs ht
        rcases List.mem_cons.mp hx with rfl | hx
        · exact hend
        · exact hall x hx hs ht
      · right
        rcases hex with heq | ⟨x, hx, hs, ht, heq⟩
        · exact ⟨_, List.mem_cons_self, hcm.1, hcm.2, heq.symm⟩
        · exact ⟨x, List.mem_cons_of_mem _ hx, hs, ht, heq⟩
    · rw [if_neg hcm]
      obtain ⟨hall, hex⟩ := ih running
      dsimp only
      constructor
      · intro x hx hs ht
        rcases List.mem_cons.mp hx with rfl | hx
        · exact absurd ⟨hs, ht⟩ hcm
        · exact hall x hx hs ht
      · rcases hex with heq | ⟨x, hx, hs, ht, heq⟩
        · exact .inl heq
        · exact .inr ⟨x, List.mem_cons_of_mem _ hx, hs, ht, heq⟩

theorem placeCommons_aligned (G : List Gsym) (running : ℤ) :
    ∀ g ∈ (placeCommons G running).1, g.isSect = true → g.type = .cm → g.inAddr % 8 = 0 := by
  induction G generalizing running with
  | nil => exact nofun
  | cons g G ih =>
    intro x hx hs ht
    rw [placeCommons] at hx
    split_ifs at hx with hcm
    · rcases List.mem_cons.mp hx with rfl | hx
      · exact Int.mul_emod_left _ 8
      · exact ih _ x hx hs ht
    · rcases List.mem_cons.mp hx with rfl | hx
      · exact absurd ⟨hs, ht⟩ hcm
      · exact ih _ x hx hs ht

theorem placeCommons_apart (G : List Gsym) (running : ℤ) : (placeCommons G running).1.Pairwise fun (g g' : Gsym) =>
    g.isSect = true → g.type = .cm → g'.isSect = true → g'.type = .cm → g.inAddr + g.len ≤ g'.inAddr := by
  induction G generalizing running with
  | nil => exact .nil
  | cons g G ih =>
    rw [placeCommons]
    split_ifs with hcm
    · refine .cons ?_ (ih _)
      intro x hx _ _ hs ht
      obtain ⟨g', -, hsame, -, hafter⟩ := Pairing.exists_left (placeCommons_spec G (roundup8 running + g.len)) hx
      have hle := hafter ⟨hsame.isSect.symm.trans hs, hsame.type.symm.trans ht⟩
      exact (roundup8_le _).trans hle
    · refine .cons ?_ (ih _)
      intro x _ hs ht
      exact absurd ⟨hs, ht⟩ hcm

/-- The composite table with the common areas in their places. -/
def withCommons (O : List Obj) (s : Composite) : List Gsym × ℤ :=
  placeCommons (moveSections (placed O s) s.G) (objectBase (placed O s) (placed O s).length)

theorem numbered_at (O : List Obj) (s : Composite) : (withCommons O s).1.length = (assignAddresses O s).G.length ∧
    ∀ k < (withCommons O s).1.length, SameSymbol (gAt (withCommons O s).1 k) (gAt (assignAddresses O s).G k) ∧
      ((gAt (withCommons O s).1 k).isSect = true → (gAt (assignAddresses O s).G k).org =
        (gAt (withCommons O s).1 k).defObj.elim 0 (objectBase (placed O s)) + (gAt (withCommons O s).1 k).inAddr) := by
  have hn := numberSections_spec (objectBase (placed O s)) (withCommons O s).1 0
  have ho := numberOthers_spec (numberSections (objectBase (placed O s)) (withCommons O s).1 0).1
    (numberSections (objectBase (placed O s)) (withCommons O s).1 0).2
  refine ⟨hn.length_eq.trans ho.length_eq, ?_⟩
  intro k hk
  obtain ⟨n1, -, n3⟩ := gAt_of_forall₂ hn hk
  obtain ⟨o1, -, o3⟩ := gAt_of_forall₂ ho (hn.length_eq ▸ hk)
  exact ⟨n1.trans o1, fun hs => o3.trans (n3 hs)⟩

theorem textend_le_modlen (O : List Obj) : (linked O).textend ≤ (linked O).modlen :=
  roundup8_mono (placeCommons_end _ _)

/-- A kept section lies among the objects. -/
theorem section_end {O : List Obj} {i j : ℕ} {e : Lent} (hm : .sect i j e ∈ items O) (hobj' : isObjSect e.type = true)
    (hd : (pass2 O).dropped i j = false) : 0 ≤ (linked O).sectionAddr i j ∧
      (linked O).sectionAddr i j + e.len ≤ objectBase (linked O).objs (linked O).objs.length := by
  obtain ⟨o, ho, hj, he⟩ := mem_items_sect.mp hm
  have hobj : (linked O).objs[i]? = some ⟨o, (pass2 O).locG i, (pass2 O).dropped i⟩ := by rw [linked_objs, ho]; rfl
  have hx : (j, e) ∈ o.objSects := mem_objSects.mpr ⟨hj, he, hobj'⟩
  have haddr : (linked O).sectionAddr i j = objectBase (linked O).objs i + o.newaddr ((pass2 O).dropped i) j := by
    rw [Layout.sectionAddr, hobj]
    rfl
  have hle : o.newaddr ((pass2 O).dropped i) j + e.len ≤ o.osize ((pass2 O).dropped i) := le_osize hx hd
  have hlt := objectBase_lt hobj (List.getElem?_eq_some_iff.mp hobj).1
  have hnn := newaddr_nonneg o ((pass2 O).dropped i) j
  have hbase := objectBase_nonneg (linked O).objs i
  have hosize : (⟨o, (pass2 O).locG i, (pass2 O).dropped i⟩ : Placed).osize = o.osize ((pass2 O).dropped i) := rfl
  rw [hosize] at hlt
  rw [haddr]
  constructor
  · omega
  · omega

theorem linkLayout_some {O : List Obj} {opt : Options} {L : Layout}
    (h : linkLayout opt O = some L) : L = linked O ∧ L.modlen ≤ modArchMax ∧
      (opt.allowUnresolved = false → unresolved (pass2 O) = []) := by
  unfold linkLayout at h
  dsimp only at h
  split_ifs at h with h1 h2 h3 h4
  obtain rfl := Option.some.inj h
  refine ⟨rfl, not_lt.mp h4, ?_⟩
  intro hu
  simpa [hu] using h2

end Cc370.Ld370
