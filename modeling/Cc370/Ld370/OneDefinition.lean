import Cc370.Ld370.FinalAddresses

namespace Cc370.Ld370

variable {O : List Obj}

theorem private_injective {p : List EsdItem} (ho : p.Pairwise Before) (hc : NoClash p)
    {i j i' j' : ℕ} {e e' : Lent} (hm : .sect i j e ∈ p) (hm' : .sect i' j' e' ∈ p)
    (ht : e.type = .pc) (ht' : e'.type = .pc) (hk : (run p).locG i j = (run p).locG i' j') :
    i = i' ∧ j = j' := by
  induction p using List.reverseRecOn with
  | nil => simp at hm
  | append_singleton p x ih =>
    obtain ⟨hp, -⟩ := NoClash.snoc.mp hc
    obtain ⟨hop, -, hox⟩ := List.pairwise_append.mp ho
    have hE := entries_of_noClash hop hp
    have hox' : OrderedAt p x := orderedAt_of_before fun y hy => hox y hy x (by simp)
    rw [run_snoc] at hk
    -- the index of a section entered before `x` lies below that of `x` and is not changed by it
    have hold {a b : ℕ} {c : Lent} (hin : .sect a b c ∈ p) :
        ((run p).step x).locG a b = (run p).locG a b := by
      cases x with
      | label a' l w => exact congrFun (congrFun (passLabel_locG _ _ _ _).1 a) b
      | sect a' b' c' =>
        apply passSection_locG_of_ne
        rintro ⟨rfl, rfl⟩
        exact hox'.2 _ hin
    have hnew {i j : ℕ} {e : Lent} (hx : x = .sect i j e) (ht : e.type = .pc) :
        ((run p).step x).locG i j = (run p).G.length := by
      subst hx
      exact (passSection_private ht (run p) i j).2.1
    rcases mem_sect_snoc hm with hm | hx <;> rcases mem_sect_snoc hm' with hm' | hx'
    · rw [hold hm, hold hm'] at hk
      exact ih hop hp hm hm' hk
    · have hlt := (hE.privIndex i j e hm ht).1
      rw [hold hm, hnew hx' ht'] at hk
      omega
    · have hlt := (hE.privIndex i' j' e' hm' ht').1
      rw [hold hm', hnew hx ht] at hk
      omega
    · obtain ⟨rfl, rfl, -⟩ := EsdItem.sect.inj (hx.symm.trans hx')
      exact ⟨rfl, rfl⟩

theorem isObjSect_cases {t : EsdType} (h : isObjSect t = true) : t = .sd ∨ t = .pc := by
  simpa [isObjSect] using h

/-- A control section that a name stands for is placed by its own object. -/
theorem csect_org (hc : NoClash (items O)) {n : Name} {i j : ℕ} {e : Lent} {k : ℕ}
    (hd : (symbols (items O)).defs n = some (.sect i j e)) (hk : gFind (pass2 O).G n = some k) :
    (gAt (linked O).G k).org = (linked O).sectionAddr i j := by
  have hE := entries_of_noClash (items_pairwise O) hc
  obtain ⟨rfl, ht, l₁, l₂, hl, -⟩ := sect_first hc hd
  have hm : EsdItem.sect i j e ∈ items O := by rw [hl]; simp
  obtain ⟨g, hg, hr⟩ := hE.refines.defs _ _ hd
  have hgk : gAt (pass2 O).G k = g := by
    change look (pass2 O).G e.name = some g at hg
    simpa [look, hk] using hg
  obtain ⟨h1, h2, -, h4, h5, -⟩ := hgk ▸ hr
  have hloc : (pass2 O).locG i j = k := by
    have hf := hE.found i j e hm (by rw [ht]; decide)
    exact Option.some.inj (hf.symm.trans hk)
  refine section_org (gFind_lt hk) h1 (by rw [h2]; decide) h4 h5 hm (by simp [isObjSect, ht])
    ?_ hloc ?_
  · rw [← Bool.not_eq_true, dropped_iff_not_first hc hd hm ht rfl]
    simp
  · intro j' e' hm' hobj' hnd hk'
    rcases isObjSect_cases hobj' with ht' | ht'
    · have hf := hE.found i j' e' hm' (by rw [ht']; decide)
      have hn : e'.name = e.name := by
        have h1 := gFind_name hf
        have h2 := gFind_name hk
        change (gAt (pass2 O).G ((pass2 O).locG i j')).name = e'.name at h1
        rw [← h1, hk', h2]
      rw [← Bool.not_eq_true, dropped_iff_not_first hc hd hm' ht' hn, not_not] at hnd
      exact hnd.2
    · have hp := hE.priv i j' e' hm' ht'
      change RealizesPrivate (gAt (pass2 O).G ((pass2 O).locG i j')) i e' at hp
      rw [hk'] at hp
      exact absurd (h2.symm.trans hp.2.1) (by decide)

/-- Private code is placed by its own object. -/
theorem private_org (hc : NoClash (items O)) {i j : ℕ} {e : Lent} (hm : .sect i j e ∈ items O)
    (ht : e.type = .pc) :
    (gAt (linked O).G ((pass2 O).locG i j)).isSect = true ∧
      (gAt (linked O).G ((pass2 O).locG i j)).org = (linked O).sectionAddr i j := by
  have hE := entries_of_noClash (items_pairwise O) hc
  have hp : RealizesPrivate (gAt (pass2 O).G ((pass2 O).locG i j)) i e := hE.priv i j e hm ht
  have hlt : (pass2 O).locG i j < (pass2 O).G.length := (hE.privIndex i j e hm ht).1
  refine ⟨(assigned hlt).same.isSect.trans hp.1, ?_⟩
  refine section_org hlt hp.1 (by rw [hp.2.1]; decide) hp.2.2.2.1 hp.2.2.2.2.1 hm
    (by simp [isObjSect, ht]) (private_not_dropped hc hm (by rw [ht]; decide)) rfl ?_
  intro j' e' hm' hobj' hnd hk'
  rcases isObjSect_cases hobj' with ht' | ht'
  · obtain ⟨d, hd, hsect⟩ := ((Defined.of_noClash hc).csects e'.name).mp ⟨_, hm', rfl, ht'⟩
    obtain ⟨g, hg, hr⟩ := hE.refines.defs _ _ hd
    have hf : gFind (pass2 O).G e'.name = some ((pass2 O).locG i j') :=
      hE.found i j' e' hm' (by rw [ht']; decide)
    have hgk : gAt (pass2 O).G ((pass2 O).locG i j) = g := by
      change look (pass2 O).G e'.name = some g at hg
      rw [hk'] at hf
      simpa [look, hf] using hg
    cases d with
    | sect a b c => exact absurd (hp.2.1.symm.trans (hgk ▸ hr.2.1)) (by decide)
    | common m => exact absurd hsect (by simp [Definition.isSect])
    | label a b c => exact absurd hsect (by simp [Definition.isSect])
  · exact (private_injective (items_pairwise O) hc hm' hm ht' ht hk').2

theorem look_linked (n : Name) :
    gFind (linked O).G n = gFind (pass2 O).G n := by
  apply gFind_congr
  apply List.ext_getElem
  · simp [linked, assignAddresses_length]
  · intro k h1 h2
    have hk : k < (pass2 O).G.length := by simpa using h2
    have hk' : k < (linked O).G.length := by simpa using h1
    have hs : SameSymbol (gAt (pass2 O).G k) (gAt (linked O).G k) := (assigned hk).same
    have hn := hs.name
    rw [gAt_eq hk, gAt_eq hk'] at hn
    simpa using hn

theorem areaAddr_eq {n : Name} {k : ℕ} (hk : gFind (pass2 O).G n = some k) :
    (linked O).areaAddr n =
      if (gAt (linked O).G k).isSect then some (gAt (linked O).G k).org else none := by
  simp [Layout.areaAddr, look, look_linked, hk]

theorem label_unmoved (hc : NoClash (items O)) {n : Name} {k i : ℕ} {l : Ldent} {w : Lent}
    (hd : (symbols (items O)).defs n = some (.label i l w)) (hk : gFind (pass2 O).G n = some k) :
    (gAt (linked O).G k).isSect = false ∧ (gAt (linked O).G k).type = .lr ∧
      (gAt (linked O).G k).owner = some ((pass2 O).locG i l.ownerLocal) ∧
      (gAt (linked O).G k).inAddr = l.addr - w.addr := by
  have hE := entries_of_noClash (items_pairwise O) hc
  obtain ⟨g, hg, hr⟩ := hE.refines.defs _ _ hd
  have hgk : gAt (pass2 O).G k = g := by
    change look (pass2 O).G n = some g at hg
    simpa [look, hk] using hg
  obtain ⟨h1, h2, h3, h4⟩ := hgk ▸ hr
  have ha : Assigned (placed O (pass2 O)) (gAt (pass2 O).G k) (gAt (linked O).G k) k :=
    assigned (gFind_lt hk)
  refine ⟨ha.same.isSect.trans h1, ha.same.type.trans h2, ha.same.owner.trans h3, ?_⟩
  rcases ha.place fun h => absurd h.1 (by simp [h1]) with ⟨hin, -⟩ | ⟨m, hm, hmk, -, -⟩
  · exact hin.trans h4
  · obtain ⟨o, j, e, -, hmem, hobj, -, -, hloc, -⟩ := mem_moves.mp hm
    exfalso
    rcases isObjSect_cases hobj with ht | ht
    · have hf : gFind (pass2 O).G e.name = some ((pass2 O).locG m.2.1 j) :=
        hE.found m.2.1 j e hmem (by rw [ht]; decide)
      have hn : e.name = n := by
        rw [← hloc, hmk] at hf
        rw [← gFind_name hf, gFind_name hk]
      obtain ⟨d, hd', hsect⟩ := ((Defined.of_noClash hc).csects n).mp ⟨_, hmem, hn, ht⟩
      rw [hd] at hd'
      obtain rfl := Option.some.inj hd'
      exact absurd hsect (by simp [Definition.isSect])
    · have hp : RealizesPrivate (gAt (pass2 O).G ((pass2 O).locG m.2.1 j)) m.2.1 e :=
        hE.priv m.2.1 j e hmem ht
      rw [← hloc, hmk] at hp
      exact absurd (h2.symm.trans hp.2.1) (by decide)

theorem ownerAddr_eq (hc : NoClash (items O)) {i : ℕ} {l : Ldent} {w : Lent}
    (hm : .sect i l.ownerLocal w ∈ items O) :
    (linked O).ownerAddr (symbols (items O)) i l w =
      if (gAt (linked O).G ((pass2 O).locG i l.ownerLocal)).isSect
      then some (gAt (linked O).G ((pass2 O).locG i l.ownerLocal)).org else none := by
  have hE := entries_of_noClash (items_pairwise O) hc
  by_cases hpc : w.type = .pc
  · obtain ⟨h1, h2⟩ := private_org hc hm hpc
    rw [Layout.ownerAddr, if_pos hpc, if_pos h1, h2]
  · rw [Layout.ownerAddr, if_neg hpc]
    have hf : gFind (pass2 O).G w.name = some ((pass2 O).locG i l.ownerLocal) :=
      hE.found i l.ownerLocal w hm hpc
    have harea := areaAddr_eq hf
    cases hd : (symbols (items O)).defs w.name with
    | none => exact harea
    | some d =>
      cases d with
      | sect a b c =>
        obtain ⟨g, hg, hr⟩ := hE.refines.defs _ _ hd
        have hgk : gAt (pass2 O).G ((pass2 O).locG i l.ownerLocal) = g := by
          change look (pass2 O).G w.name = some g at hg
          simpa [look, hf] using hg
        have hs : (gAt (linked O).G ((pass2 O).locG i l.ownerLocal)).isSect = true :=
          (assigned (gFind_lt hf)).same.isSect.trans (hgk ▸ hr.1)
        rw [if_pos hs]
        exact congrArg some (csect_org hc hd hf).symm
      | common m => exact harea
      | label a b c => exact harea

theorem address_of_noClash (hc : NoClash (items O)) {i j : ℕ} {e : Lent} {d : Definition}
    (hm : .sect i j e ∈ items O) (hpc : e.type ≠ .pc)
    (hd : (symbols (items O)).defs e.name = some d) :
    symbolAddr (linked O).G (gAt (linked O).G ((pass2 O).locG i j)) =
      (linked O).definitionAddr (symbols (items O)) e.name d := by
  have hE := entries_of_noClash (items_pairwise O) hc
  have hf : gFind (pass2 O).G e.name = some ((pass2 O).locG i j) := hE.found i j e hm hpc
  obtain ⟨g, hg, hr⟩ := hE.refines.defs _ _ hd
  have hgk : gAt (pass2 O).G ((pass2 O).locG i j) = g := by
    change look (pass2 O).G e.name = some g at hg
    simpa [look, hf] using hg
  have hsame : SameSymbol (gAt (pass2 O).G ((pass2 O).locG i j))
      (gAt (linked O).G ((pass2 O).locG i j)) := (assigned (gFind_lt hf)).same
  cases d with
  | sect a b c =>
    have hs := hsame.isSect.trans (hgk ▸ hr.1)
    rw [symbolAddr, if_pos hs, csect_org hc hd hf]
    rfl
  | common n =>
    have hs := hsame.isSect.trans (hgk ▸ hr.1)
    rw [symbolAddr, if_pos hs, Layout.definitionAddr, areaAddr_eq hf, if_pos hs]
  | label a l w =>
    obtain ⟨h1, h2, h3, h4⟩ := label_unmoved hc hd hf
    obtain ⟨o, ho, -, hlk⟩ := mem_items_label.mp ((Defined.of_noClash hc).labelMem _ _ _ _ hd)
    obtain ⟨hj, hloc⟩ := lookup_mem hlk.symm
    have how := ownerAddr_eq hc (l := l) (mem_items_sect.mpr ⟨o, ho, hj, hloc⟩)
    simp only [symbolAddr, h1, Bool.false_eq_true, ↓reduceIte, h3, h2, true_and, h4,
      Layout.definitionAddr, how]
    split_ifs <;> rfl

/-- PASS 2 resolves every name to its first definition exactly when no label has the name of a
section and nothing is entered under a name that private code took first. -/
theorem resolves_to_first_iff (O : List Obj) : ResolvesToFirst O ↔ NoClash (items O) := by
  constructor
  · intro h
    exact noClash_of_refines (items_pairwise O) h.table
  · intro hc
    exact ⟨refines_of_noClash (items_pairwise O) hc,
      fun _ _ _ _ hm hpc hd => address_of_noClash hc hm hpc hd⟩

/-- CSECT X, and a second object with the label X at offset 4 of its CSECT Y. -/
def labelAfterCsect : List Deck :=
  [.ofCards [Deck.esdCard 1 [Deck.esdItem (letterName 0xE7) 0x00 0 8], Deck.endCard],
    .ofCards [Deck.esdCard 1 [Deck.esdItem (letterName 0xE8) 0x00 0 8,
      Deck.esdItem (letterName 0xE7) 0x01 4 1], Deck.endCard]]

theorem label_after_csect_not_first : (∀ d ∈ labelAfterCsect, notADeck d = none) ∧
    ¬ ResolvesToFirst (labelAfterCsect.map parseObject) := by
  constructor
  · decide +kernel
  · intro h
    let x : Lent := ⟨letterName 0xE7, .sd, 0, 8⟩
    let y : Lent := ⟨letterName 0xE8, .sd, 0, 8⟩
    have hitems : items (labelAfterCsect.map parseObject) =
        [.sect 0 1 x, .sect 1 1 y] ++ .label 1 ⟨letterName 0xE7, 4, 1⟩ (some y) :: [] := by
      decide +kernel
    apply noClash_of_refines (items_pairwise _) h.table _ _ _ hitems
    refine ⟨?_, .inl ⟨.sect 0 1 x, by simp, rfl, .inl rfl⟩⟩
    rintro - ⟨l₁, e, l₂, hl, -, z, hz, hs⟩
    -- the owner Y is the only section of its name
    cases l₁ with
    | nil => simp at hz
    | cons a l₁ =>
      cases l₁ with
      | nil =>
        obtain ⟨rfl, he⟩ := List.cons.inj hl
        obtain ⟨-, -, rfl⟩ := EsdItem.sect.inj (List.cons.inj he).1
        obtain rfl : z = .sect 0 1 x := by simpa using hz
        exact absurd hs.1 (by decide)
      | cons b l₁ => simpa using congrArg List.length hl

end Cc370.Ld370
