import Cc370.Lib.Gaps
import Cc370.Ld370.Extents

namespace Cc370.Ld370

/-- The sections of an object, one ending before the next begins. -/
def Obj.Separate (o : Obj) : Prop := ∀ x ∈ o.objSects, ∀ y ∈ o.objSects, x.1 ≠ y.1 →
  x.2.addr + x.2.len ≤ y.2.addr ∨ y.2.addr + y.2.len ≤ x.2.addr

instance (o : Obj) : Decidable o.Separate :=
  inferInstanceAs (Decidable (∀ x ∈ o.objSects, ∀ y ∈ o.objSects, x.1 ≠ y.1 →
    x.2.addr + x.2.len ≤ y.2.addr ∨ y.2.addr + y.2.len ≤ x.2.addr))

section Spans

variable (o : Obj) (dropped : ℕ → Bool)

/-- A byte in the span of a dropped section: not below its origin, and below the section that follows it. A
section of the same origin follows it unless it is empty. -/
def Freed (p : ℕ) : Prop := ∃ d ∈ o.objSects, dropped d.1 = true ∧ d.2.addr ≤ p ∧
  ∀ y ∈ o.objSects, y.1 ≠ d.1 → d.2.addr < y.2.addr ∨ d.2.addr = y.2.addr ∧ 0 < y.2.len → p < y.2.addr

instance : DecidablePred (Freed o dropped) := fun p =>
  inferInstanceAs (Decidable (∃ d ∈ o.objSects, dropped d.1 = true ∧ d.2.addr ≤ p ∧
    ∀ y ∈ o.objSects, y.1 ≠ d.1 → d.2.addr < y.2.addr ∨ d.2.addr = y.2.addr ∧ 0 < y.2.len → p < y.2.addr))

/-- The section of the lowest ESDID at an origin is a dropped one. -/
def FirstDropped (a : ℕ) : Prop := ((o.objSects.find? fun x => x.2.addr = a).any fun x => dropped x.1) = true

instance (a : ℕ) : Decidable (FirstDropped o dropped a) := inferInstanceAs (Decidable (_ = true))

/-- A dropped section has this origin, and no byte that is kept. -/
def SpanFree (a : ℕ) : Prop := (∃ d ∈ o.objSects, d.2.addr = a ∧ dropped d.1 = true) ∧
  ∀ y ∈ o.objSects, y.2.addr = a → dropped y.1 = false → y.2.len = 0

instance (a : ℕ) : Decidable (SpanFree o dropped a) :=
  inferInstanceAs (Decidable ((∃ d ∈ o.objSects, d.2.addr = a ∧ dropped d.1 = true) ∧
    ∀ y ∈ o.objSects, y.2.addr = a → dropped y.1 = false → y.2.len = 0))

def origins : Set ℕ := { a | ∃ x ∈ o.objSects, x.2.addr = a }

def keptOrigins : Set ℕ := { a | ∃ x ∈ o.objSects, dropped x.1 = false ∧ x.2.addr = a }

end Spans

theorem nextSect_first {S : List (ℕ × Lent)} {last : ℤ} {z : ℕ × Lent} (h : nextSect S last = some z) :
    S.find? (fun x => x.2.addr = z.2.addr) = some z := by
  induction S using List.reverseRecOn with
  | nil => simp [nextSect] at h
  | append_singleton S w ih =>
    rw [nextSect_snoc] at h
    split_ifs at h with hw
    · obtain rfl := Option.some.inj h
      have hnone : S.find? (fun x => x.2.addr = w.2.addr) = none := by
        rw [List.find?_eq_none]
        intro y hy heq
        have haddr : y.2.addr = w.2.addr := by simpa using heq
        cases hn : nextSect S last with
        | none =>
          have := nextSect_none hn y hy
          omega
        | some v =>
          have hle := (nextSect_some hn).2.2 y hy (by omega)
          have hlt : w.2.addr < v.2.addr := by simpa [hn] using hw.2
          omega
      rw [List.find?_append, hnone]
      simp
    · rw [List.find?_append, ih h, Option.some_or]

section Closed

open Gaps

variable {o : Obj} {dropped : ℕ → Bool}

theorem mem_keptOrigins {x : ℕ × Lent} (hx : x ∈ o.objSects) (hd : dropped x.1 = false) : x.2.addr ∈ keptOrigins o dropped :=
  ⟨x, hx, hd, rfl⟩

theorem find_origin {a : ℕ} (ha : a ∈ origins o) : ∃ z ∈ o.objSects, z.2.addr = a ∧ o.objSects.find? (fun x => x.2.addr = a) = some z := by
  cases hf : o.objSects.find? (fun x => x.2.addr = a) with
  | none =>
    obtain ⟨x, hx, rfl⟩ := ha
    exact absurd (List.find?_eq_none.mp hf x hx) (by simp)
  | some z => exact ⟨z, List.mem_of_find?_eq_some hf, by simpa using List.find?_some hf, rfl⟩

open scoped Classical in
/-- One turn of the loop: from the origin it stands at to the next one, either every byte goes or none. -/
theorem count_next {last : ℤ} {z w : ℕ × Lent} (hz : nextSect o.objSects last = some z) (hw : nextSect o.objSects z.2.addr = some w) :
    Nat.count (Cut (origins o) (FirstDropped o dropped)) w.2.addr =
      Nat.count (Cut (origins o) (FirstDropped o dropped)) z.2.addr + if dropped z.1 then w.2.addr - z.2.addr else 0 := by
  obtain ⟨hwm, hwl, hwmin⟩ := nextSect_some hw
  have hzm := (nextSect_some hz).1
  have hle : z.2.addr ≤ w.2.addr := by omega
  have hfirst : FirstDropped o dropped z.2.addr ↔ dropped z.1 = true := by
    rw [FirstDropped, nextSect_first hz, Option.any_some]
  have hunder : ∀ p, z.2.addr ≤ p → p < w.2.addr → Under (origins o) z.2.addr p := by
    intro p hzp hpw
    refine ⟨⟨z, hzm, rfl⟩, hzp, ?_⟩
    rintro b ⟨y, hy, rfl⟩ hle
    by_contra hlt
    have := hwmin y hy (by omega)
    omega
  split_ifs with hd
  · apply count_all hle
    intro p hzp hpw
    exact (hunder p hzp hpw).cut_iff.mpr (hfirst.mpr hd)
  · apply count_none hle
    intro p hzp hpw hcut
    exact hd (hfirst.mp ((hunder p hzp hpw).cut_iff.mp hcut))

open scoped Classical in
theorem compactLoop_eq (fuel : ℕ) {last removed : ℤ} {newaddr : ℕ → ℤ}
    (hfuel : (o.objSects.filter fun y => last < (y.2.addr : ℤ)).length ≤ fuel)
    (hr : ∀ z, nextSect o.objSects last = some z → removed = Nat.count (Cut (origins o) (FirstDropped o dropped)) z.2.addr)
    {x : ℕ × Lent} (hx : x ∈ o.objSects) (hlt : last < (x.2.addr : ℤ)) :
    compactLoop o dropped fuel last removed newaddr x.1 =
      x.2.addr - Nat.count (Cut (origins o) (FirstDropped o dropped)) x.2.addr := by
  induction fuel generalizing last removed newaddr with
  | zero =>
    have hmem : x ∈ o.objSects.filter fun y => last < (y.2.addr : ℤ) := by simp [hx, hlt]
    have := List.length_pos_of_mem hmem
    omega
  | succ fuel ih =>
    cases hn : nextSect o.objSects last with
    | none => exact absurd (nextSect_none hn x hx) (by omega)
    | some z =>
      obtain ⟨hzm, hzl, hzmin⟩ := nextSect_some hn
      rw [compactLoop_succ hn]
      rcases (hzmin x hx hlt).lt_or_eq with hlt' | heq
      · apply ih
        · have hshort : (o.objSects.filter fun y => (z.2.addr : ℤ) < (y.2.addr : ℤ)).length <
              (o.objSects.filter fun y => last < (y.2.addr : ℤ)).length := by
            have hfilter : o.objSects.filter (fun y => (z.2.addr : ℤ) < (y.2.addr : ℤ)) =
                (o.objSects.filter fun y => last < (y.2.addr : ℤ)).filter fun y => (z.2.addr : ℤ) < (y.2.addr : ℤ) := by
              rw [List.filter_filter]
              apply List.filter_congr
              intro y _
              simp only [eq_iff_iff, Bool.and_eq_decide, decide_eq_decide, decide_eq_true_eq]
              omega
            rw [hfilter, List.length_filter_lt_length_iff_exists]
            exact ⟨z, by simp [hzm, hzl], by simp⟩
          omega
        · intro w hw
          have hcount : Nat.count (Cut (origins o) (FirstDropped o dropped)) w.2.addr = _ := count_next hn hw
          have hwl := (nextSect_some hw).2.1
          have hspan : span o z = w.2.addr - z.2.addr := by simp [span, hw]
          rw [hr z hn, hspan, hcount]
          split_ifs
          · push_cast
            omega
          · simp
        · omega
      · rw [compactLoop_before fuel hx (by omega), heq, moveAt_self hx, hr z hn, heq]

open scoped Classical in
/-- Where compaction puts a section of an object. -/
theorem newaddr_eq {x : ℕ × Lent} (hx : x ∈ o.objSects) :
    o.newaddr dropped x.1 = x.2.addr - Nat.count (Cut (origins o) (FirstDropped o dropped)) x.2.addr := by
  unfold Obj.newaddr
  split_ifs with hdrop
  · apply compactLoop_eq _ _ _ hx (by omega)
    · exact List.length_filter_le _ _
    · intro z hz
      have hnone : Nat.count (Cut (origins o) (FirstDropped o dropped)) z.2.addr = 0 := by
        apply Nat.count_iff_forall_not.mpr
        rintro p hp ⟨a, ⟨⟨y, hy, rfl⟩, hle, -⟩, -⟩
        have := (nextSect_some hz).2.2 y hy (by omega)
        omega
      rw [hnone, Nat.cast_zero]
  · have hnone : Nat.count (Cut (origins o) (FirstDropped o dropped)) x.2.addr = 0 := by
      apply Nat.count_iff_forall_not.mpr
      rintro p hp ⟨a, ha, hfirst⟩
      obtain ⟨z, hz, -, hf⟩ := find_origin ha.mem
      rw [FirstDropped, hf, Option.any_some] at hfirst
      exact hdrop (List.any_eq_true.mpr ⟨z.1, (mem_objSects.mp hz).1, hfirst⟩)
    rw [hnone, Obj.addr, (mem_objSects.mp hx).2.1]
    simp

theorem objSect_eq {x y : ℕ × Lent} (hx : x ∈ o.objSects) (hy : y ∈ o.objSects) (h : x.1 = y.1) : x = y := by
  have hx' := (mem_objSects.mp hx).2.1
  have hy' := (mem_objSects.mp hy).2.1
  rw [h, hy'] at hx'
  exact Prod.ext h (Option.some.inj hx').symm

/-- The bytes of the dropped sections' spans are those behind the origins that they leave free. -/
theorem freed_iff (hsep : o.Separate) (p : ℕ) : Freed o dropped p ↔ Cut (origins o) (SpanFree o dropped) p := by
  constructor
  · rintro ⟨d, hd, hdrop, hle, hnext⟩
    refine ⟨d.2.addr, ⟨⟨d, hd, rfl⟩, hle, ?_⟩, ⟨d, hd, rfl, hdrop⟩, ?_⟩
    · rintro b ⟨y, hy, rfl⟩ hyp
      by_contra hlt
      have hne : y.1 ≠ d.1 := by
        intro h
        rw [objSect_eq hy hd h] at hlt
        exact hlt le_rfl
      have := hnext y hy hne (.inl (not_le.mp hlt))
      omega
    · intro y hy haddr hkept
      by_contra hlen
      have hne : y.1 ≠ d.1 := by
        intro h
        rw [h, hdrop] at hkept
        exact absurd hkept (by simp)
      have := hnext y hy hne (.inr ⟨haddr.symm, Nat.pos_of_ne_zero hlen⟩)
      omega
  · rintro ⟨a, ⟨-, hle, hlast⟩, ⟨d₀, hd₀, haddr₀, hdrop₀⟩, hempty⟩
    -- a section of this origin that is not empty is the only one, and dropped
    have hex : ∃ d ∈ o.objSects, d.2.addr = a ∧ dropped d.1 = true ∧ ∀ y ∈ o.objSects, y.1 ≠ d.1 → y.2.addr = a → y.2.len = 0 := by
      by_cases hfull : ∃ d ∈ o.objSects, d.2.addr = a ∧ 0 < d.2.len
      · obtain ⟨d, hd, haddr, hlen⟩ := hfull
        refine ⟨d, hd, haddr, ?_, ?_⟩
        · by_contra hkept
          have := hempty d hd haddr (by simpa using hkept)
          omega
        · intro y hy hne hyaddr
          have := hsep y hy d hd hne
          omega
      · refine ⟨d₀, hd₀, haddr₀, hdrop₀, ?_⟩
        intro y hy _ hyaddr
        by_contra hlen
        exact hfull ⟨y, hy, hyaddr, Nat.pos_of_ne_zero hlen⟩
    obtain ⟨d, hd, rfl, hdrop, halone⟩ := hex
    refine ⟨d, hd, hdrop, hle, ?_⟩
    intro y hy hne hnext
    rcases hnext with hlt | ⟨heq, hlen⟩
    · by_contra hle'
      have := hlast y.2.addr ⟨y, hy, rfl⟩ (not_lt.mp hle')
      omega
    · have := halone y hy hne heq.symm
      omega

theorem firstDropped_of_gone {a : ℕ} (ha : a ∈ origins o) (hk : a ∉ keptOrigins o dropped) : FirstDropped o dropped a := by
  obtain ⟨z, hz, haddr, hf⟩ := find_origin ha
  rw [FirstDropped, hf, Option.any_some]
  by_contra hd
  exact hk ⟨z, hz, by simpa using hd, haddr⟩

theorem spanFree_of_gone {a : ℕ} (ha : a ∈ origins o) (hk : a ∉ keptOrigins o dropped) : SpanFree o dropped a := by
  obtain ⟨x, hx, haddr⟩ := ha
  have hgone : ∀ y ∈ o.objSects, y.2.addr = a → dropped y.1 = true := by
    intro y hy hya
    by_contra hd
    exact hk ⟨y, hy, by simpa using hd, hya⟩
  refine ⟨⟨x, hx, haddr, hgone x hx haddr⟩, ?_⟩
  intro y hy hya hd
  rw [hgone y hy hya] at hd
  exact absurd hd (by simp)

/-- Compaction closes just the spans of the dropped sections. -/
def ClosesSpans (o : Obj) (dropped : ℕ → Bool) : Prop := ∀ x ∈ o.objSects, dropped x.1 = false →
  o.newaddr dropped x.1 = x.2.addr - Nat.count (Freed o dropped) x.2.addr

/-- At every origin with a kept section behind it, the first section is a dropped one just if the origin
keeps no byte. -/
def FirstTells (o : Obj) (dropped : ℕ → Bool) : Prop := ∀ a ∈ origins o, (∃ x ∈ keptOrigins o dropped, a < x) →
  (FirstDropped o dropped a ↔ SpanFree o dropped a)

open scoped Classical in
theorem closesSpans_iff (hsep : o.Separate) : ClosesSpans o dropped ↔ FirstTells o dropped := by
  have hfreed (a : ℕ) : Nat.count (Freed o dropped) a = Nat.count (Cut (origins o) (SpanFree o dropped)) a :=
    count_congr fun p _ => freed_iff hsep p
  rw [FirstTells, ← counts_agree_iff (fun a => firstDropped_of_gone) (fun a => spanFree_of_gone)]
  constructor
  · rintro h a ⟨x, hx, hd, rfl⟩
    have hx' := h x hx hd
    rw [newaddr_eq hx, hfreed] at hx'
    omega
  · intro h x hx hd
    rw [newaddr_eq hx, hfreed, h _ (mem_keptOrigins hx hd)]

theorem newaddr_le {x y : ℕ × Lent} (hx : x ∈ o.objSects) (hy : y ∈ o.objSects) (hle : x.2.addr ≤ y.2.addr) :
    o.newaddr dropped x.1 ≤ o.newaddr dropped y.1 := by
  classical
  have hcount : Nat.count (Cut (origins o) (FirstDropped o dropped)) y.2.addr ≤ _ := count_le_add hle
  rw [newaddr_eq hx, newaddr_eq hy]
  omega

/-- The bytes of a kept section are nobody's span. -/
theorem not_freed {x : ℕ × Lent} (hsep : o.Separate) (hx : x ∈ o.objSects) (hd : dropped x.1 = false) {p : ℕ}
    (hle : x.2.addr ≤ p) (hlt : p < x.2.addr + x.2.len) : ¬ Freed o dropped p := by
  rw [freed_iff hsep]
  have hunder : Under (origins o) x.2.addr p := by
    refine ⟨⟨x, hx, rfl⟩, hle, ?_⟩
    rintro b ⟨y, hy, rfl⟩ hyp
    by_cases hne : y.1 = x.1
    · rw [objSect_eq hy hx hne]
    · have := hsep y hy x hx hne
      omega
  intro hcut
  have := (hunder.cut_iff.mp hcut).2 x hx rfl hd
  omega

theorem ClosesSpans.disjoint (h : ClosesSpans o dropped) (hsep : o.Separate) {x y : ℕ × Lent} (hx : x ∈ o.objSects)
    (hy : y ∈ o.objSects) (hdx : dropped x.1 = false) (hdy : dropped y.1 = false) (hle : x.2.addr + x.2.len ≤ y.2.addr) :
    o.newaddr dropped x.1 + x.2.len ≤ o.newaddr dropped y.1 := by
  have hnone : Nat.count (Freed o dropped) (x.2.addr + x.2.len) = Nat.count (Freed o dropped) x.2.addr :=
    count_none (Nat.le_add_right _ _) fun p => not_freed hsep hx hdx
  have hrest : Nat.count (Freed o dropped) y.2.addr ≤ _ := count_le_add hle
  rw [h x hx hdx, h y hy hdy]
  omega

end Closed

end Cc370.Ld370
