import Cc370.Ld370.Extents

namespace Cc370.Ld370

open BigEndian

/-- The decks place their text and adcons inside their sections, and an object from which a
duplicate is dropped can be compacted. -/
structure WellPlaced (O : List Obj) : Prop where
  text : ∀ o ∈ O, o.textlen = 0 ∨ ∃ x ∈ o.objSects, o.textlen ≤ x.2.addr + x.2.len
  compactable : ∀ i o, O[i]? = some o → Obj.esdids.any ((pass2 O).dropped i) = true →
    Compactable o ((pass2 O).dropped i)

def Blank (O : List Obj) : Prop := ∀ o ∈ O, ∀ a, o.textlen ≤ a → o.text a = 0

/-- What holds of the text of an empty object and is kept by every TXT card holds of the text
of every deck. -/
theorem parseObject_text {P : (ℕ → UInt8) → (ℕ → Bool) → ℕ → Prop}
    (h0 : P Obj.empty.text Obj.empty.defn Obj.empty.textlen)
    (htxt : ∀ c (o : Obj), P o.text o.defn o.textlen →
      P (parseTxt c o).text (parseTxt c o).defn (parseTxt c o).textlen) (d : Deck) :
    P (parseObject d).text (parseObject d).defn (parseObject d).textlen := by
  have hitem (c : Buffer) (first k : ℕ) (st : Obj × ℕ) :
      (parseEsdItem c first st k).1.text = st.1.text ∧
        (parseEsdItem c first st k).1.defn = st.1.defn ∧
        (parseEsdItem c first st k).1.textlen = st.1.textlen := by
    unfold parseEsdItem
    dsimp only
    split_ifs <;> exact ⟨rfl, rfl, rfl⟩
  have hesd (c : Buffer) (first : ℕ) (l : List ℕ) (st : Obj × ℕ)
      (h : P st.1.text st.1.defn st.1.textlen) :
      P (l.foldl (parseEsdItem c first) st).1.text (l.foldl (parseEsdItem c first) st).1.defn
        (l.foldl (parseEsdItem c first) st).1.textlen := by
    induction l generalizing st with
    | nil => exact h
    | cons k l ih =>
      obtain ⟨h1, h2, h3⟩ := hitem c first k st
      apply ih
      rwa [h1, h2, h3]
  have hcards (cs : List Buffer) (o : Obj) (ho : P o.text o.defn o.textlen) :
      P (cs.foldl parseCard o).text (cs.foldl parseCard o).defn (cs.foldl parseCard o).textlen := by
    induction cs generalizing o with
    | nil => exact ho
    | cons c cs ih =>
      apply ih
      unfold parseCard
      split_ifs
      · exact ho
      · exact hesd c _ _ _ ho
      · exact htxt c o ho
      · exact ho
      · unfold parseEnd
        split_ifs <;> exact ho
      · exact ho
  exact hcards _ _ h0

section Copy

variable {β : Type}

structure Piece (β : Type) where
  dst : ℤ
  src : ℕ → β
  a : ℕ
  n : ℕ

namespace Piece

def Covers (b : Piece β) (z : ℤ) : Prop := b.dst ≤ z ∧ z < b.dst + b.n

def byteAt (b : Piece β) (z : ℤ) : β := b.src (b.a + (z - b.dst).toNat)

end Piece

theorem foldl_copyInto (bs : List (Piece β)) (m : ℤ → β) (z : ℤ) (v : β)
    (hall : ∀ b ∈ bs, b.Covers z → b.byteAt z = v) (h : (∃ b ∈ bs, b.Covers z) ∨ m z = v) :
    bs.foldl (fun m b => copyInto m b.dst b.src b.a b.n) m z = v := by
  induction bs generalizing m with
  | nil => simpa using h
  | cons b bs ih =>
    rw [List.foldl_cons]
    apply ih _ fun c hc => hall c (List.mem_cons_of_mem _ hc)
    by_cases hb : b.Covers z
    · refine .inr ?_
      unfold Piece.Covers at hb
      rw [copyInto, if_pos hb]
      exact hall b (by simp) hb
    · rcases h with ⟨c, hc, hcz⟩ | hm
      · rcases List.mem_cons.mp hc with rfl | hc
        · exact absurd hcz hb
        · exact .inl ⟨c, hc, hcz⟩
      · refine .inr ?_
        unfold Piece.Covers at hb
        rw [copyInto, if_neg hb, hm]

end Copy

def Layout.pieces {β : Type} (src : Obj → ℕ → β) (L : Layout) : List (Piece β) :=
  L.objs.zipIdx.flatMap fun (o, i) =>
    (o.blocks (objectBase L.objs i)).map fun b => ⟨b.1, src o.obj, b.2.1, b.2.2⟩

theorem modText_eq (L : Layout) :
    L.modText = (L.pieces Obj.text).foldl (fun m b => copyInto m b.dst b.src b.a b.n) fun _ => 0 := by
  rw [Layout.pieces, List.foldl_flatMap, Layout.modText]
  congr 1
  funext m ⟨o, i⟩
  rw [List.foldl_map]
  rfl

theorem mem_pieces {β : Type} {src : Obj → ℕ → β} {L : Layout} {b : Piece β} :
    b ∈ L.pieces src ↔ ∃ (i : ℕ) (o : Placed) (d : ℤ) (a n : ℕ), L.objs[i]? = some o ∧
      (d, a, n) ∈ o.blocks (objectBase L.objs i) ∧ b = ⟨d, src o.obj, a, n⟩ := by
  simp only [Layout.pieces, List.mem_flatMap, List.mem_map, Prod.exists,
    List.mem_zipIdx_iff_getElem?]
  constructor
  · rintro ⟨o, i, ho, d, a, n, hb, rfl⟩
    exact ⟨i, o, d, a, n, by simpa using ho, hb, rfl⟩
  · rintro ⟨i, o, d, a, n, ho, hb, rfl⟩
    exact ⟨o, i, by simpa using ho, d, a, n, hb, rfl⟩

section Blocks

variable {O : List Obj} {i : ℕ} {o : Placed}

theorem linked_obj (ho : (linked O).objs[i]? = some o) :
    O[i]? = some o.obj ∧ o.dropped = (pass2 O).dropped i ∧ o.locG = (pass2 O).locG i := by
  rw [linked_objs, Option.map_eq_some_iff] at ho
  obtain ⟨o', ho', rfl⟩ := ho
  exact ⟨ho', rfl, rfl⟩

theorem kept_of_no_drop (hd : o.hasDrop = false) {j : ℕ} (hj : j ∈ Obj.esdids) :
    o.dropped j = false := by
  rw [Placed.hasDrop, List.any_eq_false] at hd
  simpa using hd j hj

theorem newaddr_no_drop (hd : o.hasDrop = false) {x : ℕ × Lent} (hx : x ∈ o.obj.objSects) :
    o.newaddr x.1 = x.2.addr :=
  newaddr_of_no_drop (by simpa [Placed.hasDrop] using hd) (mem_objSects.mp hx).2.1

/-- The blocks of an object are its whole text, or the texts of its kept sections. -/
theorem mem_blocks (hw : WellPlaced O) (ho : (linked O).objs[i]? = some o) {base d : ℤ} {a n : ℕ}
    (hb : (d, a, n) ∈ o.blocks base) (hn : 0 < n) :
    (o.hasDrop = false ∧ d = base ∧ a = 0 ∧ n = o.obj.textlen) ∨
      o.hasDrop = true ∧ ∃ x ∈ o.obj.objSects, o.dropped x.1 = false ∧ d = base + o.newaddr x.1 ∧
        a = x.2.addr ∧ n ≤ x.2.len := by
  obtain ⟨hO, hdr, -⟩ := linked_obj ho
  unfold Placed.blocks at hb
  split_ifs at hb with h1 h2
  · simp at hb
  · left
    obtain ⟨rfl, rfl, rfl⟩ : d = base ∧ a = 0 ∧ n = o.obj.textlen := by simpa using hb
    exact ⟨by simpa using h2, rfl, rfl, rfl⟩
  · right
    have hdrop : o.hasDrop = true := by simpa using h2
    refine ⟨hdrop, ?_⟩
    obtain ⟨j, hj, hbj⟩ := List.mem_filterMap.mp hb
    obtain ⟨e, he, hbe⟩ := Option.bind_eq_some_iff.mp hbj
    split_ifs at hbe with h3 h4
    all_goals
      obtain ⟨rfl, rfl, rfl⟩ : base + o.newaddr j = d ∧ e.addr = a ∧ _ = n := by simpa using hbe
      obtain ⟨ht, hk, hlt⟩ := h3
      have hobj : isObjSect e.type = true := by
        simp only [isSectType, decide_eq_true_eq] at ht
        rcases ht with ht | ht | ht
        · simp [isObjSect, ht]
        · simp [isObjSect, ht]
        · have hc := (hw.compactable i o.obj hO (hdr ▸ hdrop)).common j hj e he ht
          omega
      exact ⟨(j, e), mem_objSects.mpr ⟨hj, he, hobj⟩, by simpa using hk, rfl, rfl, by dsimp only; omega⟩

theorem blocks_within (hw : WellPlaced O) (ho : (linked O).objs[i]? = some o) {base d : ℤ} {a n : ℕ}
    (hb : (d, a, n) ∈ o.blocks base) (hn : 0 < n) : base ≤ d ∧ d + n ≤ base + o.osize := by
  obtain ⟨hO, hdr, -⟩ := linked_obj ho
  rcases mem_blocks hw ho hb hn with ⟨hd, rfl, -, rfl⟩ | ⟨-, x, hx, hk, rfl, -, hle⟩
  · refine ⟨le_rfl, ?_⟩
    rcases hw.text o.obj (List.mem_of_getElem? hO) with h0 | ⟨x, hx, hle⟩
    · omega
    · have h1 := le_osize hx (kept_of_no_drop hd (mem_objSects.mp hx).1)
      have h2 := newaddr_no_drop hd hx
      change o.newaddr x.1 + x.2.len ≤ o.osize at h1
      omega
  · have h1 : o.newaddr x.1 + x.2.len ≤ o.osize := le_osize hx hk
    have h2 : 0 ≤ o.newaddr x.1 := newaddr_nonneg _ _ _
    omega

/-- The module has at a kept section what the deck has there. -/
theorem modText_section (hb : Blank O) (hw : WellPlaced O) (ho : (linked O).objs[i]? = some o) {x : ℕ × Lent}
    (hx : x ∈ o.obj.objSects) (hd : o.dropped x.1 = false) {k : ℕ} (hk : k < x.2.len) :
    (linked O).modText (objectBase (linked O).objs i + o.newaddr x.1 + k) =
      o.obj.text (x.2.addr + k) := by
  obtain ⟨hO, hdr, -⟩ := linked_obj ho
  set base := objectBase (linked O).objs i
  have hin : o.newaddr x.1 + x.2.len ≤ o.osize := le_osize hx hd
  have hnn : 0 ≤ o.newaddr x.1 := newaddr_nonneg _ _ _
  rw [modText_eq]
  apply foldl_copyInto
  · intro b hbm hcov
    obtain ⟨i', o', d, a, n, ho', hb', rfl⟩ := mem_pieces.mp hbm
    obtain ⟨hc1, hc2⟩ := hcov
    dsimp only at hc1 hc2
    have hn : 0 < n := by omega
    obtain ⟨hlo, hhi⟩ := blocks_within hw ho' hb' hn
    have hii : i' = i := by
      rcases lt_trichotomy i' i with h | h | h
      · have := objectBase_lt ho' h
        omega
      · exact h
      · have := objectBase_lt ho h
        omega
    subst hii
    obtain rfl := Option.some.inj (ho.symm.trans ho')
    rcases mem_blocks hw ho hb' hn with ⟨hnd, rfl, rfl, rfl⟩ | ⟨hdrop, y, hy, hky, rfl, rfl, hle⟩
    · have := newaddr_no_drop hnd hx
      simp only [Piece.byteAt]
      congr 1
      omega
    · by_cases hxy : x.1 = y.1
      · have hyx : y = x := by
          have h1 := (mem_objSects.mp hx).2.1
          rw [hxy, (mem_objSects.mp hy).2.1] at h1
          exact Prod.ext hxy.symm (Option.some.inj h1)
        subst hyx
        simp only [Piece.byteAt]
        congr 1
        omega
      · exfalso
        have hsep : o.newaddr x.1 + x.2.len ≤ o.newaddr y.1 ∨
            o.newaddr y.1 + y.2.len ≤ o.newaddr x.1 :=
          newaddr_disjoint (fun h => hdr ▸ hw.compactable i' o.obj hO (hdr ▸ h)) hdrop hx hy hd hky
            hxy (by omega) (by omega)
        omega
  · by_cases htx : x.2.addr + k < o.obj.textlen
    · left
      cases hdrop : o.hasDrop with
      | false =>
        refine ⟨⟨base, o.obj.text, 0, o.obj.textlen⟩, mem_pieces.mpr ⟨i, o, base, 0, o.obj.textlen,
          ho, ?_, rfl⟩, ?_⟩
        · rw [Placed.blocks, if_neg (by omega), if_pos (by simp [hdrop])]
          simp [base]
        · have := newaddr_no_drop hdrop hx
          simp only [Piece.Covers]
          omega
      | true =>
        obtain ⟨hj, he, hobj⟩ := mem_objSects.mp hx
        have hst : isSectType x.2.type = true := by
          rcases (by simpa [isObjSect] using hobj : x.2.type = .sd ∨ x.2.type = .pc) with h | h <;>
            simp [isSectType, h]
        refine ⟨⟨base + o.newaddr x.1, o.obj.text, x.2.addr,
          if o.obj.textlen < x.2.addr + x.2.len then o.obj.textlen - x.2.addr else x.2.len⟩,
          mem_pieces.mpr ⟨i, o, _, _, _, ho, ?_, rfl⟩, ?_⟩
        · rw [Placed.blocks, if_neg (by omega), if_neg (by simp [hdrop])]
          refine List.mem_filterMap.mpr ⟨x.1, hj, ?_⟩
          have hlt : x.2.addr < o.obj.textlen := by omega
          simp [he, hst, hd, hlt, base]
        · simp only [Piece.Covers]
          split_ifs <;> omega
    · exact .inr (hb o.obj (List.mem_of_getElem? hO) _ (by omega)).symm

end Blocks

end Cc370.Ld370
