import Cc370.Ld370.TextImage

namespace Cc370.Ld370

open BigEndian

namespace Placed

def sameField (r r' : Orld) : Bool := r'.addr = r.addr ∧ r'.adconLen = r.adconLen

/-- The items outside the dropped duplicates that relocate the field of an item. -/
def touching (o : Placed) (r : Orld) : List Orld :=
  o.obj.rld.filter fun r' => !o.rldDropped r' ∧ sameField r r'

/-- Final address of the target less its address in the object. -/
def shift (o : Placed) (G : List Gsym) (r : Orld) : ℤ :=
  (o.rldBase G r).elim 0 fun b => b - o.obj.addr r.R

def signedShift (o : Placed) (G : List Gsym) (r : Orld) : ℤ :=
  if r.negative then -o.shift G r else o.shift G r

def deckValue (o : Placed) (r : Orld) : ℤ := mvsRdval (fun a => o.obj.text a.toNat) r.addr r.adconLen

def negativeShift (o : Placed) (G : List Gsym) (r : Orld) : ℤ :=
  (((o.touching r).filter Orld.negative).map (o.shift G)).sum

end Placed

/-- The adcons of the module are what the decks hold, relocated with the sign of each item. -/
def AdconsRight (L : Layout) : Prop :=
  ∀ (i : ℕ) (o : Placed), L.objs[i]? = some o → ∀ r ∈ o.obj.rld, o.rldDropped r = false →
    mvsRdval L.relocated (o.rldModaddr (objectBase L.objs i) r) r.adconLen ≡
      o.deckValue r + ((o.touching r).map (o.signedShift L.G)).sum [ZMOD 256 ^ r.adconLen]

/-- Every adcon lies in its section, and two adcons of an object coincide or do not meet. -/
structure FieldsApart (O : List Obj) : Prop where
  within : ∀ o ∈ O, ∀ r ∈ o.rld, ∃ e, o.lookup r.P = some e ∧ isObjSect e.type = true ∧
    e.addr ≤ r.addr ∧ r.addr + r.adconLen ≤ e.addr + e.len
  apart : ∀ o ∈ O, ∀ r ∈ o.rld, ∀ r' ∈ o.rld, Placed.sameField r r' = true ∨
    r.addr + r.adconLen ≤ r'.addr ∨ r'.addr + r'.adconLen ≤ r.addr

theorem parseObject_blank (ds : List Deck) : Blank (ds.map parseObject) := by
  intro o ho
  obtain ⟨d, -, rfl⟩ := List.mem_map.mp ho
  apply parseObject_text (P := fun text _ textlen => ∀ a, textlen ≤ a → text a = 0)
  · intro a _
    rfl
  · intro c o ho a ha
    unfold parseTxt at ha ⊢
    dsimp only at ha ⊢
    split_ifs at ha ⊢ with hc
    · exact ho a ha
    · dsimp only at ha ⊢
      rw [if_neg (by omega), ho a (by omega)]

theorem adconLen_pos (r : Orld) : 0 < r.adconLen := Nat.succ_pos _

section Fields

variable {O : List Obj} {i : ℕ} {o : Placed} {r : Orld}

/-- Where the field of a kept item lies: in a kept section, at its offset in the deck. -/
theorem field_place (hf : FieldsApart O) (ho : (linked O).objs[i]? = some o) (hr : r ∈ o.obj.rld)
    (hd : o.rldDropped r = false) : ∃ x ∈ o.obj.objSects, o.dropped x.1 = false ∧ x.1 = r.P ∧
      x.2.addr ≤ r.addr ∧ r.addr + r.adconLen ≤ x.2.addr + x.2.len ∧
      ∀ base, o.rldModaddr base r = base + o.newaddr x.1 + (r.addr - x.2.addr) := by
  obtain ⟨hO, -⟩ := linked_obj ho
  obtain ⟨e, he, ht, hlo, hhi⟩ := hf.within o.obj (List.mem_of_getElem? hO) r hr
  obtain ⟨hj, hloc⟩ := lookup_mem he
  refine ⟨(r.P, e), mem_objSects.mpr ⟨hj, hloc, ht⟩, ?_, rfl, hlo, hhi, ?_⟩
  · simpa [Placed.rldDropped, he] using hd
  · intro base
    simp only [Placed.rldModaddr, he, Option.elim_some]
    ring

theorem read_modText (hb : Blank O) (hw : WellPlaced O) (hf : FieldsApart O)
    (ho : (linked O).objs[i]? = some o) (hr : r ∈ o.obj.rld) (hd : o.rldDropped r = false) :
    read (linked O).modText (o.rldModaddr (objectBase (linked O).objs i) r) r.adconLen =
      o.deckValue r := by
  obtain ⟨x, hx, hk, -, hlo, hhi, hmod⟩ := field_place hf ho hr hd
  apply read_congr
  intro k hkl
  have hsec := modText_section hb hw ho hx hk (k := r.addr - x.2.addr + k) (by omega)
  rw [hmod]
  convert hsec using 2
  · push_cast [hlo]
    ring
  · omega

/-- The fields of kept items of two objects do not meet. -/
theorem fields_of_objects (hf : FieldsApart O) (ho : (linked O).objs[i]? = some o)
    (hr : r ∈ o.obj.rld) (hd : o.rldDropped r = false) {i' : ℕ} {o' : Placed} {r' : Orld}
    (ho' : (linked O).objs[i']? = some o') (hr' : r' ∈ o'.obj.rld) (hd' : o'.rldDropped r' = false)
    (hlt : i < i') : o.rldModaddr (objectBase (linked O).objs i) r + r.adconLen ≤
      o'.rldModaddr (objectBase (linked O).objs i') r' := by
  obtain ⟨x, hx, hk, -, hlo, hhi, hmod⟩ := field_place hf ho hr hd
  obtain ⟨x', hx', hk', -, hlo', hhi', hmod'⟩ := field_place hf ho' hr' hd'
  have h1 : o.newaddr x.1 + x.2.len ≤ o.osize := le_osize hx hk
  have h2 : 0 ≤ o'.newaddr x'.1 := newaddr_nonneg _ _ _
  have h3 := objectBase_lt ho hlt
  rw [hmod, hmod']
  omega

/-- Two kept items of an object have the same field in the module when they have it in the
deck, and else do not meet there. -/
theorem fields_of_object (hw : WellPlaced O) (hf : FieldsApart O)
    (ho : (linked O).objs[i]? = some o) (hr : r ∈ o.obj.rld) (hd : o.rldDropped r = false)
    {r' : Orld} (hr' : r' ∈ o.obj.rld) (hd' : o.rldDropped r' = false) (base : ℤ) :
    Placed.sameField r r' = true ∧ o.rldModaddr base r' = o.rldModaddr base r ∨
      Placed.sameField r r' = false ∧ (o.rldModaddr base r + r.adconLen ≤ o.rldModaddr base r' ∨
        o.rldModaddr base r' + r'.adconLen ≤ o.rldModaddr base r) := by
  obtain ⟨hO, hdr, -⟩ := linked_obj ho
  obtain ⟨x, hx, hk, hxP, hlo, hhi, hmod⟩ := field_place hf ho hr hd
  obtain ⟨y, hy, hky, hyP, hlo', hhi', hmod'⟩ := field_place hf ho hr' hd'
  have hl := adconLen_pos r
  have hl' := adconLen_pos r'
  have hxy (h : x.1 = y.1) : y = x := by
    have h1 := (mem_objSects.mp hx).2.1
    rw [h, (mem_objSects.mp hy).2.1] at h1
    exact Prod.ext h.symm (Option.some.inj h1)
  rw [hmod, hmod']
  cases hs : Placed.sameField r r' with
  | true =>
    obtain ⟨ha, hlen⟩ : r'.addr = r.addr ∧ r'.adconLen = r.adconLen := by
      simpa [Placed.sameField] using hs
    refine .inl ⟨rfl, ?_⟩
    cases hdrop : o.hasDrop with
    | false =>
      rw [newaddr_no_drop hdrop hx, newaddr_no_drop hdrop hy, ha]
      ring
    | true =>
      have hP : x.1 = y.1 := by
        by_contra hne
        have := (hw.compactable i o.obj hO (hdr ▸ hdrop)).disjoint x hx y hy hne (by omega) (by omega)
        omega
      rw [hxy hP, ha]
  | false =>
    refine .inr ⟨rfl, ?_⟩
    have hap := (hf.apart o.obj (List.mem_of_getElem? hO) r hr r' hr').resolve_left (by simp [hs])
    cases hdrop : o.hasDrop with
    | false =>
      rw [newaddr_no_drop hdrop hx, newaddr_no_drop hdrop hy]
      omega
    | true =>
      by_cases hP : x.1 = y.1
      · rw [hxy hP]
        have := hxy hP
        subst this
        omega
      · have hsep : o.newaddr x.1 + x.2.len ≤ o.newaddr y.1 ∨
            o.newaddr y.1 + y.2.len ≤ o.newaddr x.1 :=
          newaddr_disjoint (fun h => hdr ▸ hw.compactable i o.obj hO (hdr ▸ h)) hdrop hx hy hk hky
            hP (by omega) (by omega)
        omega

theorem fixup_some {base : ℤ} {G : List Gsym} {f : Fixup} (h : o.fixup base G r = some f) :
    o.rldDropped r = false ∧ f = ⟨o.rldModaddr base r, r.adconLen, o.shift G r⟩ := by
  unfold Placed.fixup at h
  split_ifs at h with hd
  obtain ⟨b, hb, rfl⟩ := Option.map_eq_some_iff.mp h
  exact ⟨by simpa using hd, by simp [Placed.shift, hb]⟩

theorem shift_of_fixup_none {base : ℤ} {G : List Gsym} (h : o.fixup base G r = none)
    (hd : o.rldDropped r = false) : o.shift G r = 0 := by
  simp only [Placed.fixup, hd, Bool.false_eq_true, ↓reduceIte, Option.map_eq_none_iff] at h
  simp [Placed.shift, h]

theorem mem_fixups {L : Layout} {f : Fixup} (h : f ∈ L.fixups) :
    ∃ (i : ℕ) (o : Placed) (r : Orld), L.objs[i]? = some o ∧ r ∈ o.obj.rld ∧
      o.fixup (objectBase L.objs i) L.G r = some f := by
  obtain ⟨⟨o, i⟩, ho, hf⟩ := List.mem_flatMap.mp h
  obtain ⟨r, hr, hrf⟩ := List.mem_filterMap.mp hf
  exact ⟨i, o, r, by simpa using List.mem_zipIdx_iff_getElem?.mp ho, hr, hrf⟩

theorem on_or_off (hw : WellPlaced O) (hf : FieldsApart O) (ho : (linked O).objs[i]? = some o)
    (hr : r ∈ o.obj.rld) (hd : o.rldDropped r = false) {f : Fixup} (hm : f ∈ (linked O).fixups) :
    Fixup.OnField (o.rldModaddr (objectBase (linked O).objs i) r) r.adconLen f ∨
      Fixup.OffField (o.rldModaddr (objectBase (linked O).objs i) r) r.adconLen f := by
  obtain ⟨i', o', r', ho', hr', hfix⟩ := mem_fixups hm
  obtain ⟨hd', rfl⟩ := fixup_some hfix
  rcases lt_trichotomy i i' with h | rfl | h
  · exact .inr (.inl (fields_of_objects hf ho hr hd ho' hr' hd' h))
  · obtain rfl := Option.some.inj (ho.symm.trans ho')
    rcases fields_of_object hw hf ho hr hd hr' hd' (objectBase (linked O).objs i) with
      ⟨hs, ha⟩ | ⟨-, hoff⟩
    · refine .inl ⟨ha, ?_⟩
      simp only [Placed.sameField, decide_eq_true_eq] at hs
      exact hs.2
    · exact .inr hoff
  · exact .inr (.inr (fields_of_objects hf ho' hr' hd' ho hr hd h))

/-- The fixups of the item's own object add up to the shifts of the items on its field. -/
theorem total_own (hw : WellPlaced O) (hf : FieldsApart O) (ho : (linked O).objs[i]? = some o)
    (hr : r ∈ o.obj.rld) (hd : o.rldDropped r = false) (G : List Gsym) (base : ℤ) :
    Fixup.total (o.rldModaddr base r) r.adconLen (o.obj.rld.filterMap (o.fixup base G)) =
      ((o.touching r).map (o.shift G)).sum := by
  have h (l : List Orld) (hl : ∀ r' ∈ l, r' ∈ o.obj.rld) :
      Fixup.total (o.rldModaddr base r) r.adconLen (l.filterMap (o.fixup base G)) =
        ((l.filter fun r' => !o.rldDropped r' ∧ Placed.sameField r r').map (o.shift G)).sum := by
    induction l with
    | nil => rfl
    | cons r' l ih =>
      have ih := ih fun q hq => hl q (List.mem_cons_of_mem _ hq)
      cases hfix : o.fixup base G r' with
      | none =>
        rw [List.filterMap_cons_none hfix, ih]
        by_cases hk : (!o.rldDropped r') = true ∧ Placed.sameField r r' = true
        · rw [List.filter_cons_of_pos (by simpa using hk), List.map_cons, List.sum_cons,
            shift_of_fixup_none hfix (by simpa using hk.1), zero_add]
        · rw [List.filter_cons_of_neg (by simpa using hk)]
      | some f =>
        obtain ⟨hd', rfl⟩ := fixup_some hfix
        rw [List.filterMap_cons_some hfix]
        rcases fields_of_object hw hf ho hr hd (hl r' (by simp)) hd' base with
          ⟨hs, ha⟩ | ⟨hs, hoff⟩
        · have hlen : r'.adconLen = r.adconLen := by
            simp only [Placed.sameField, decide_eq_true_eq] at hs
            exact hs.2
          rw [Fixup.total_cons_of_on _ ⟨ha, hlen⟩, ih,
            List.filter_cons_of_pos (by simp [hd', hs]), List.map_cons, List.sum_cons]
        · have hoff : Fixup.OffField (o.rldModaddr base r) r.adconLen
              ⟨o.rldModaddr base r', r'.adconLen, o.shift G r'⟩ := hoff
          rw [Fixup.total_cons_of_not_on _ (Fixup.not_on_of_off (adconLen_pos r) hoff), ih,
            List.filter_cons_of_neg (by simp [hs])]
  exact h _ fun _ h => h

theorem total_fixups (hw : WellPlaced O) (hf : FieldsApart O) (ho : (linked O).objs[i]? = some o)
    (hr : r ∈ o.obj.rld) (hd : o.rldDropped r = false) :
    Fixup.total (o.rldModaddr (objectBase (linked O).objs i) r) r.adconLen (linked O).fixups =
      ((o.touching r).map (o.shift (linked O).G)).sum := by
  have hm : (o, i) ∈ (linked O).objs.zipIdx := by simpa [List.mem_zipIdx_iff_getElem?] using ho
  obtain ⟨A, B, hAB⟩ := List.append_of_mem hm
  have hlt := zipIdx_pairwise (linked O).objs
  rw [hAB, List.pairwise_append] at hlt
  obtain ⟨-, hB, hA⟩ := hlt
  have hother : ∀ a ∈ (linked O).objs.zipIdx, a.2 ≠ i → ∀ f ∈ a.1.obj.rld.filterMap
      (a.1.fixup (objectBase (linked O).objs a.2) (linked O).G),
        ¬ Fixup.OnField (o.rldModaddr (objectBase (linked O).objs i) r) r.adconLen f := by
    intro a ha hne f hfm
    obtain ⟨r', hr', hfix⟩ := List.mem_filterMap.mp hfm
    obtain ⟨hd', rfl⟩ := fixup_some hfix
    have hoa : (linked O).objs[a.2]? = some a.1 := by
      simpa using List.mem_zipIdx_iff_getElem?.mp ha
    apply Fixup.not_on_of_off (adconLen_pos r)
    rcases lt_or_gt_of_ne hne with h | h
    · exact .inr (fields_of_objects hf hoa hr' hd' ho hr hd h)
    · exact .inl (fields_of_objects hf ho hr hd hoa hr' hd' h)
  have hzero (C : List (Placed × ℕ)) (hC : ∀ a ∈ C, a ∈ (linked O).objs.zipIdx ∧ a.2 ≠ i) :
      Fixup.total (o.rldModaddr (objectBase (linked O).objs i) r) r.adconLen
        (C.flatMap fun a => a.1.obj.rld.filterMap
          (a.1.fixup (objectBase (linked O).objs a.2) (linked O).G)) = 0 := by
    apply Fixup.total_eq_zero
    intro f hfm
    obtain ⟨a, ha, hfa⟩ := List.mem_flatMap.mp hfm
    exact hother a (hC a ha).1 (hC a ha).2 f hfa
  have hfix : (linked O).fixups = (linked O).objs.zipIdx.flatMap fun a =>
      a.1.obj.rld.filterMap (a.1.fixup (objectBase (linked O).objs a.2) (linked O).G) := rfl
  rw [hfix, hAB, List.flatMap_append, List.flatMap_cons, Fixup.total_append, Fixup.total_append,
    hzero A, hzero B, total_own hw hf ho hr hd, zero_add, add_zero]
  · intro a ha
    have := (List.pairwise_cons.mp hB).1 a ha
    exact ⟨by rw [hAB]; simp [ha], this.ne'⟩
  · intro a ha
    have := hA a ha (o, i) (by simp)
    exact ⟨by rw [hAB]; simp [ha], this.ne⟩

/-- The relocation loop adds the shift of every item on a field, whatever its sign. -/
theorem read_relocated (hb : Blank O) (hw : WellPlaced O) (hf : FieldsApart O)
    (ho : (linked O).objs[i]? = some o) (hr : r ∈ o.obj.rld) (hd : o.rldDropped r = false) :
    mvsRdval (linked O).relocated (o.rldModaddr (objectBase (linked O).objs i) r) r.adconLen =
      (o.deckValue r + ((o.touching r).map (o.shift (linked O).G)).sum) % 256 ^ r.adconLen := by
  rw [mvsRdval, Layout.relocated,
    Fixup.read_foldl _ (fun f hm => on_or_off hw hf ho hr hd hm), read_modText hb hw hf ho hr hd,
    total_fixups hw hf ho hr hd]

end Fields

theorem shift_sub_signedShift (o : Placed) (G : List Gsym) (l : List Orld) :
    (l.map (o.shift G)).sum - (l.map (o.signedShift G)).sum =
      2 * ((l.filter Orld.negative).map (o.shift G)).sum := by
  induction l with
  | nil => rfl
  | cons r l ih =>
    cases hn : r.negative with
    | true =>
      rw [List.filter_cons_of_pos hn]
      simp only [List.map_cons, List.sum_cons, Placed.signedShift, hn, ↓reduceIte]
      linarith
    | false =>
      rw [List.filter_cons_of_neg (by simp [hn])]
      simp only [List.map_cons, List.sum_cons, Placed.signedShift, hn, Bool.false_eq_true,
        ↓reduceIte]
      linarith

theorem emod_modEq_iff (x y n : ℤ) : x % n ≡ y [ZMOD n] ↔ n ∣ x - y := by
  rw [← Int.modEq_iff_dvd]
  constructor
  · intro h
    exact h.symm.trans (Int.mod_modEq x n)
  · intro h
    exact (Int.mod_modEq x n).trans h.symm

/-- `DC A(Y+10)` in the section Y. -/
def plusAdcon : Deck :=
  .ofCards [Deck.esdCard 1 [Deck.esdItem (letterName 0xE8) 0x00 0 8],
    Deck.txtCard 0 1 [0, 0, 0, 10], Deck.rldCard [0, 1, 0, 1, 0x0C, 0, 0, 0], Deck.endCard]

/-- `DC A(10-Y)` in a section Y that another object puts at address 8. -/
def minusAdcon : List Deck :=
  [.ofCards [Deck.esdCard 1 [Deck.esdItem (letterName 0xE7) 0x00 0 8], Deck.endCard],
    .ofCards [Deck.esdCard 1 [Deck.esdItem (letterName 0xE8) 0x00 0 8],
      Deck.txtCard 0 1 [0, 0, 0, 10], Deck.rldCard [0, 1, 0, 1, 0x0E, 0, 0, 0], Deck.endCard]]

end Cc370.Ld370
