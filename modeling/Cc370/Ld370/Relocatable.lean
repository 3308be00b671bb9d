import Cc370.Ld370.Extents
import Cc370.Ld370.LiveItems

namespace Cc370.Ld370

/-- No object defines the name: no CSECT, no common area and no label outside the duplicates. -/
def Undefined (q : List EsdItem) (n : Name) : Prop :=
  ∀ x ∈ q, x.name = n → ∃ i j e, x = .sect i j e ∧ e.type ≠ .sd ∧ e.type ≠ .cm

/-- Every RLD item outside the dropped duplicates was relocated, or points at a weak external
that stays undefined. -/
def AllRelocated (O : List Obj) (L : Layout) : Prop :=
  ∀ (i : ℕ) (o : Placed), L.objs[i]? = some o → ∀ r ∈ o.obj.rld, o.rldDropped r = false →
    (o.fixup (objectBase L.objs i) L.G r).isSome ∨
      ∃ e, o.obj.lookup r.R = some e ∧ e.type = .wx ∧ Undefined (liveItems O) e.name

/-- The name is no section's, and what brings it up is not known to the linker: a label whose
owner is no section, a label without an owner, or an item that is neither ER nor WX. -/
def Stray (q : List EsdItem) (e : Lent) : Prop :=
  e.type ≠ .pc ∧ ¬ Sectioned q e.name ∧
    match firstLabel q e.name with
    | some (_, _, w) => w.type ≠ .pc ∧ ¬ Sectioned q w.name
    | none => (∃ x ∈ q, x.unownedLabel e.name = true) ∨
        ∃ x, firstEntry q e.name = some x ∧ x.type ≠ .er ∧ x.type ≠ .wx

/-- No label lies before its owner. -/
def LabelsWithin (O : List Obj) : Prop :=
  ∀ o ∈ O, ∀ l ∈ o.ld, ∀ w, o.lookup l.ownerLocal = some w → w.addr ≤ l.addr

variable {O : List Obj}

theorem isSect_linked (k : ℕ) : (gAt (linked O).G k).isSect = (gAt (pass2 O).G k).isSect := by
  by_cases hk : k < (pass2 O).G.length
  · exact (assigned hk).same.isSect
  · have hk' : ¬ k < (linked O).G.length := by rwa [linked, assignAddresses_length]
    simp [gAt, hk, hk']

theorem mem_liveItems {i j : ℕ} {e : Lent} :
    .sect i j e ∈ liveItems O ↔ .sect i j e ∈ items O := by
  simp [liveItems, EsdItem.live]

namespace Held

variable {s : Composite} {q : List EsdItem} {i j : ℕ} {e : Lent}

theorem look_found (h : Held s q) (hm : .sect i j e ∈ q) (hpc : e.type ≠ .pc) :
    look s.G e.name = some (gAt s.G (s.locG i j)) := by
  simp [look, h.found i j e hm hpc]

theorem index_lt (h : Held s q) (hm : .sect i j e ∈ q) : s.locG i j < s.G.length := by
  by_cases hpc : e.type = .pc
  · exact (h.priv i j e hm hpc).1
  · exact h.found_lt hm hpc

theorem isSect_iff (h : Held s q) (hm : .sect i j e ∈ q) :
    (gAt s.G (s.locG i j)).isSect = true ↔ e.type = .pc ∨ Sectioned q e.name := by
  by_cases hpc : e.type = .pc
  · simp [hpc, (h.priv i j e hm hpc).2]
  · rw [h.sect _ _ (h.look_found hm hpc)]
    simp [hpc]

end Held

theorem label_owner_mem {i : ℕ} {l : Ldent} {w : Lent} {n : Name}
    (h : firstLabel (liveItems O) n = some (i, l, w)) : .sect i l.ownerLocal w ∈ liveItems O := by
  obtain ⟨o, ho, -, hlk⟩ := mem_items_label.mp (List.mem_filter.mp (firstLabel_mem h).1).1
  obtain ⟨hj, hloc⟩ := lookup_mem hlk.symm
  exact mem_liveItems.mpr (mem_items_sect.mpr ⟨o, ho, hj, hloc⟩)

/-- When the relocation loop finds an address for an item of an object's table. -/
theorem symbolAddr_isSome {i j : ℕ} {e : Lent} (hm : .sect i j e ∈ liveItems O) :
    (symbolAddr (linked O).G (gAt (linked O).G ((pass2 O).locG i j))).isSome = true ↔
      e.type = .pc ∨ Sectioned (liveItems O) e.name ∨
        ∃ i' l w, firstLabel (liveItems O) e.name = some (i', l, w) ∧
          (w.type = .pc ∨ Sectioned (liveItems O) w.name) := by
  have hH := held O
  rw [← or_assoc, ← hH.isSect_iff hm]
  cases hs : (gAt (pass2 O).G ((pass2 O).locG i j)).isSect with
  | true => simp [symbolAddr, isSect_linked, hs]
  | false =>
    have hpc : e.type ≠ .pc := by
      intro hpc
      have := (hH.priv i j e hm hpc).2
      simp [hs] at this
    have hr := hH.reference _ _ (hH.look_found hm hpc) hs
    have hsame : SameSymbol (gAt (pass2 O).G ((pass2 O).locG i j))
        (gAt (linked O).G ((pass2 O).locG i j)) := (assigned (hH.index_lt hm)).same
    unfold ReferenceOk at hr
    simp only [symbolAddr, isSect_linked, hs, Bool.false_eq_true, ↓reduceIte, hsame.owner,
      hsame.type, false_or]
    cases hl : firstLabel (liveItems O) e.name with
    | none =>
      rw [hl] at hr
      simp [hr.1]
    | some a =>
      obtain ⟨i', l, w⟩ := a
      rw [hl] at hr
      dsimp only at hr
      have how := hH.isSect_iff (label_owner_mem hl)
      simp only [hr.2, hr.1, true_and, Option.some.injEq, Prod.mk.injEq]
      by_cases hw : (gAt (pass2 O).G ((pass2 O).locG i' l.ownerLocal)).isSect = true
      · simp only [hw, ↓reduceIte, Option.isSome_some, true_iff]
        exact ⟨i', l, w, ⟨rfl, rfl, rfl⟩, how.mp hw⟩
      · simp only [hw, Bool.false_eq_true, ↓reduceIte, Option.isSome_none, false_iff]
        rintro ⟨_, _, _, ⟨rfl, rfl, rfl⟩, h⟩
        exact hw (how.mpr h)

def AtNonneg (G : List Gsym) : Prop := ∀ g ∈ G, 0 ≤ g.inAddr

namespace AtNonneg

theorem gAt {G : List Gsym} (h : AtNonneg G) (k : ℕ) : 0 ≤ (gAt G k).inAddr := by
  by_cases hk : k < G.length
  · rw [gAt_eq hk]
    exact h _ (List.getElem_mem hk)
  · simp [Ld370.gAt, hk, Gsym.fresh]

theorem set {G : List Gsym} (h : AtNonneg G) {g : Gsym} (hg : 0 ≤ g.inAddr) (k : ℕ) :
    AtNonneg (G.set k g) := by
  intro g' hg'
  rcases List.mem_or_eq_of_mem_set hg' with hg' | rfl
  · exact h g' hg'
  · exact hg

theorem append {G : List Gsym} (h : AtNonneg G) {g : Gsym} (hg : 0 ≤ g.inAddr) :
    AtNonneg (G ++ [g]) := by
  intro g' hg'
  rcases List.mem_append.mp hg' with hg' | hg'
  · exact h g' hg'
  · rwa [List.mem_singleton.mp hg']

theorem gIntern {G : List Gsym} (h : AtNonneg G) (n : Name) (t : EsdType) :
    AtNonneg (gIntern G n t).1 := by
  unfold Ld370.gIntern
  cases hf : gFind G n with
  | none => exact h.append le_rfl
  | some k =>
    have hk := gFind_lt hf
    dsimp only
    rw [List.modify_eq_set_get _ hk]
    apply h.set
    have hget := h _ (List.get_mem G ⟨k, hk⟩)
    split_ifs
    · exact hget
    · exact hget

theorem intern {G : List Gsym} (h : AtNonneg G) (e : Lent) : AtNonneg (e.intern G).1 := by
  unfold Lent.intern
  split_ifs
  · exact h.append le_rfl
  · exact h.gIntern _ _

theorem define {g : Gsym} (h : 0 ≤ g.inAddr) (i : ℕ) (e : Lent) : 0 ≤ (g.define i e).inAddr := by
  unfold Gsym.define Gsym.mergeCommon
  dsimp only
  split_ifs <;> first | exact h | positivity

theorem label {g : Gsym} (h : 0 ≤ g.inAddr) {l : Ldent} {owner : Option Lent}
    (hl : ∀ w, owner = some w → w.addr ≤ l.addr) (k : ℕ) : 0 ≤ (g.label l owner k).inAddr := by
  unfold Gsym.label
  split_ifs
  · exact h
  · cases owner with
    | none => simp
    | some w =>
      have := hl w rfl
      simpa using this

theorem run {p : List EsdItem}
    (hp : ∀ i l w, EsdItem.label i l (some w) ∈ p → w.addr ≤ l.addr) : AtNonneg (run p).G := by
  induction p using List.reverseRecOn with
  | nil => simp [AtNonneg, Ld370.run, Composite.empty]
  | append_singleton p x ih =>
    have h := ih fun i l w hm => hp i l w (List.mem_append_left _ hm)
    rw [run_snoc]
    cases x with
    | sect i j e => exact (h.intern e).set (define ((h.intern e).gAt _) i e) _
    | label i l owner =>
      change AtNonneg (passLabel _ i l owner).G
      unfold passLabel
      split_ifs
      · exact h
      · refine (h.gIntern _ _).set (label ((h.gIntern _ _).gAt _) ?_ _) _
        rintro w rfl
        exact hp i l w (by simp)

end AtNonneg

theorem pass2_nonneg (h : LabelsWithin O) : AtNonneg (pass2 O).G := by
  apply AtNonneg.run
  intro i l w hm
  obtain ⟨o, ho, hl, hw⟩ := mem_items_label.mp hm
  exact h o (List.mem_of_getElem? ho) l hl w hw.symm

theorem linked_nonneg (h : LabelsWithin O) {k : ℕ} (hk : k < (pass2 O).G.length) :
    0 ≤ (gAt (linked O).G k).inAddr := by
  have ha : Assigned (placed O (pass2 O)) (gAt (pass2 O).G k) (gAt (linked O).G k) k := assigned hk
  by_cases hcm : (gAt (pass2 O).G k).isSect = true ∧ (gAt (pass2 O).G k).type = .cm
  · have h0 := objectBase_nonneg (placed O (pass2 O)) (placed O (pass2 O)).length
    exact (h0.trans (roundup8_le _)).trans (ha.common hcm)
  · rcases ha.place hcm with ⟨hp, -⟩ | ⟨m, hm, -, -, hp⟩
    · rw [hp]
      exact (pass2_nonneg h).gAt k
    · obtain ⟨o, j, e, -, -, -, -, -, -, hv⟩ := mem_moves.mp hm
      rw [hp, hv]
      exact newaddr_nonneg o _ j

theorem org_nonneg (h : LabelsWithin O) {k : ℕ} (hk : k < (pass2 O).G.length)
    (hs : (gAt (pass2 O).G k).isSect = true) : 0 ≤ (gAt (linked O).G k).org := by
  have ha : Assigned (placed O (pass2 O)) (gAt (pass2 O).G k) (gAt (linked O).G k) k := assigned hk
  have hbase : 0 ≤ (gAt (pass2 O).G k).defObj.elim 0 (objectBase (placed O (pass2 O))) := by
    cases (gAt (pass2 O).G k).defObj with
    | none => exact le_rfl
    | some i => exact objectBase_nonneg _ i
  rw [ha.org hs]
  exact add_nonneg hbase (linked_nonneg h hk)

theorem symbolAddr_nonneg (h : LabelsWithin O) {i j : ℕ} {e : Lent}
    (hm : .sect i j e ∈ liveItems O) {a : ℤ}
    (ha : symbolAddr (linked O).G (gAt (linked O).G ((pass2 O).locG i j)) = some a) : 0 ≤ a := by
  have hk := (held O).index_lt hm
  unfold symbolAddr at ha
  split_ifs at ha with hs
  · rw [isSect_linked] at hs
    rw [← Option.some.inj ha]
    exact org_nonneg h hk hs
  · cases how : (gAt (linked O).G ((pass2 O).locG i j)).owner with
    | none => simp [how] at ha
    | some k' =>
      simp only [how] at ha
      split_ifs at ha with hown
      rw [isSect_linked] at hown
      have hk' : k' < (pass2 O).G.length := by
        by_contra hk'
        simp [gAt, hk', Gsym.fresh] at hown
      have h1 := org_nonneg h hk' hown.2
      have h2 := linked_nonneg h hk
      rw [← Option.some.inj ha]
      omega

/-- The entry of an undefined name that something other than a WX refers to is an ER, which ends the link. -/
theorem weakOnly_of_resolved (hu : unresolved (pass2 O) = []) {i j : ℕ} {e : Lent}
    (hm : .sect i j e ∈ liveItems O) (hpc : e.type ≠ .pc)
    (hs : ¬ Sectioned (liveItems O) e.name) (hl : firstLabel (liveItems O) e.name = none)
    (hun : ¬ ∃ x ∈ liveItems O, x.unownedLabel e.name = true) {x : EsdItem}
    (hx : firstEntry (liveItems O) e.name = some x) (hxt : x.type = .er ∨ x.type = .wx) :
    WeakOnly (liveItems O) e.name := by
  have hH := held O
  set g := gAt (pass2 O).G ((pass2 O).locG i j) with hg
  have hlook := hH.look_found hm hpc
  have hsg : g.isSect = false := by
    rw [← Bool.not_eq_true, hH.sect _ _ hlook]
    exact hs
  have hne : g.type ≠ .er := by
    intro ht
    have hmem : g ∈ unresolved (pass2 O) := by
      have hin : g ∈ (pass2 O).G := by
        rw [hg, gAt_eq (hH.index_lt hm)]
        exact List.getElem_mem _
      exact List.mem_filter.mpr ⟨hin, by simp [hsg, ht]⟩
    rw [hu] at hmem
    simp at hmem
  have hr := hH.reference _ _ hlook hsg
  unfold ReferenceOk at hr
  rw [hl] at hr
  obtain ⟨-, hr⟩ := hr
  rcases hr with hr | ⟨-, y, hy, h1, h2⟩
  · exact absurd hr.1 hun
  · obtain rfl : x = y := Option.some.inj (hx.symm.trans hy)
    rcases hxt with hxt | hxt
    · exact absurd ((h2 (by rw [hxt]; decide)).trans hxt) hne
    · rcases h1 hxt with hw | hw
      · exact hw.1
      · exact absurd hw.2 hne

theorem undefined_iff {q : List EsdItem} {n : Name} : Undefined q n ↔
    (¬ ∃ x ∈ q, x.name = n ∧ (x.type = .sd ∨ x.type = .cm)) ∧ firstLabel q n = none ∧
      ¬ ∃ x ∈ q, x.unownedLabel n = true := by
  constructor
  · intro h
    refine ⟨?_, ?_, ?_⟩
    · rintro ⟨x, hx, hn, ht⟩
      obtain ⟨i, j, e, rfl, h1, h2⟩ := h x hx hn
      rcases ht with ht | ht
      · exact h1 ht
      · exact h2 ht
    · cases hl : firstLabel q n with
      | none => rfl
      | some a =>
        obtain ⟨hm, hn⟩ := firstLabel_mem (i := a.1) (l := a.2.1) (w := a.2.2) hl
        obtain ⟨i, j, e, hx, -⟩ := h _ hm hn
        simp at hx
    · rintro ⟨x, hx, hux⟩
      obtain ⟨i, j, e, rfl, -⟩ := h x hx (unownedLabel_name hux)
      simp [EsdItem.unownedLabel] at hux
  · rintro ⟨h1, h2, h3⟩ x hx hn
    cases x with
    | sect i j e =>
      refine ⟨i, j, e, rfl, fun ht => h1 ⟨_, hx, hn, .inl ht⟩, fun ht => h1 ⟨_, hx, hn, .inr ht⟩⟩
    | label i l w =>
      exfalso
      cases w with
      | none => exact h3 ⟨_, hx, decide_eq_true hn⟩
      | some w =>
        have := List.findSome?_eq_none_iff.mp h2 _ hx
        simp only [EsdItem.ownedLabel, ite_eq_right_iff, reduceCtorEq, imp_false] at this
        exact this hn

theorem placed_item {i : ℕ} {o : Placed} (ho : (linked O).objs[i]? = some o) {r : ℕ} {e : Lent}
    (he : o.obj.lookup r = some e) :
    .sect i r e ∈ liveItems O ∧ o.locG = (pass2 O).locG i := by
  rw [linked_objs] at ho
  obtain ⟨o', ho', rfl⟩ := Option.map_eq_some_iff.mp ho
  obtain ⟨hj, hloc⟩ := lookup_mem he
  exact ⟨mem_liveItems.mpr (mem_items_sect.mpr ⟨o', ho', hj, hloc⟩), rfl⟩

theorem fixup_eq {o : Placed} {base : ℤ} {G : List Gsym} {r : Orld} (hd : o.rldDropped r = false) :
    (o.fixup base G r).isSome = true ↔ ∃ e, o.obj.lookup r.R = some e ∧
      ∃ a, symbolAddr G (gAt G (o.locG r.R)) = some a ∧ 0 ≤ a := by
  simp only [Placed.fixup, hd, Bool.false_eq_true, ↓reduceIte, Option.isSome_map, Placed.rldBase,
    Placed.localToG]
  cases o.obj.lookup r.R with
  | none => simp
  | some e => cases h : symbolAddr G (gAt G (o.locG r.R)) <;> simp [h, Option.filter]


/-- What an item of a table points at has an address, is weak and undefined, or is astray. -/
theorem address_or_stray (hu : unresolved (pass2 O) = []) {i j : ℕ} {e : Lent}
    (hm : .sect i j e ∈ liveItems O) :
    (symbolAddr (linked O).G (gAt (linked O).G ((pass2 O).locG i j))).isSome = true ∨
      e.type = .wx ∧ Undefined (liveItems O) e.name ∨ Stray (liveItems O) e := by
  rw [symbolAddr_isSome hm]
  by_cases hpc : e.type = .pc
  · exact .inl (.inl hpc)
  by_cases hs : Sectioned (liveItems O) e.name
  · exact .inl (.inr (.inl hs))
  cases hl : firstLabel (liveItems O) e.name with
  | some a =>
    obtain ⟨i', l, w⟩ := a
    by_cases hw : w.type = .pc ∨ Sectioned (liveItems O) w.name
    · exact .inl (.inr (.inr ⟨i', l, w, rfl, hw⟩))
    · refine .inr (.inr ⟨hpc, hs, ?_⟩)
      rw [hl]
      exact not_or.mp hw
  | none =>
    by_cases hun : ∃ x ∈ liveItems O, x.unownedLabel e.name = true
    · refine .inr (.inr ⟨hpc, hs, ?_⟩)
      rw [hl]
      exact .inl hun
    obtain ⟨x, hx⟩ : ∃ x, firstEntry (liveItems O) e.name = some x := by
      rw [← Option.ne_none_iff_exists', Ne, firstEntry_none]
      exact fun h => h _ hm rfl
    by_cases hxt : x.type = .er ∨ x.type = .wx
    · have hweak := weakOnly_of_resolved hu hm hpc hs hl hun hx hxt
      refine .inr (.inl ⟨(hweak _ hm rfl).resolve_right hpc, undefined_iff.mpr ⟨?_, hl, hun⟩⟩)
      exact fun h => hs (.inl h)
    · refine .inr (.inr ⟨hpc, hs, ?_⟩)
      rw [hl]
      exact .inr ⟨x, hx, not_or.mp hxt⟩

def plainOptions : Options := ⟨false, false, 15040, none⟩

/-- A CSECT whose fullword points at itself. -/
def selfPointer : Deck :=
  .ofCards [Deck.esdCard 1 [Deck.esdItem (letterName 0xE7) 0x00 0 8],
    Deck.txtCard 0 1 [0, 0, 0, 4], Deck.rldCard [0, 1, 0, 1, 0x0C, 0, 0, 0], Deck.endCard]

/-- A CSECT with a Q-type constant for an external dummy section. -/
def dummySection : List Deck :=
  [.ofCards [Deck.esdCard 1 [Deck.esdItem (letterName 0xE8) 0x06 0 4,
      Deck.esdItem (letterName 0xE7) 0x00 0 8],
    Deck.txtCard 0 2 [0, 0, 0, 0], Deck.rldCard [0, 1, 0, 2, 0x2C, 0, 0, 0], Deck.endCard]]

end Cc370.Ld370
