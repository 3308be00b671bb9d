import Cc370.Ld370.Spans
import Cc370.Ld370.CommonAreas

namespace Cc370.Ld370

def Layout.sectionRange (L : Layout) (i j : ℕ) (e : Lent) : Set ℤ := Set.Ico (L.sectionAddr i j) (L.sectionAddr i j + e.len)

def Gsym.range (g : Gsym) : Set ℤ := Set.Ico g.org (g.org + g.len)

/-- The kept sections lie apart inside the module, those of an object in its order, moved down by just the
spans of its dropped sections. The composite entry that is a section's own names the same place. -/
structure PlacesSections (O : List Obj) : Prop where
  inside : ∀ i j e, KeptSect (pass2 O) (items O) i j e →
    0 ≤ (linked O).sectionAddr i j ∧ (linked O).sectionAddr i j + e.len ≤ (linked O).modlen
  apart : ∀ i j e i' j' e', KeptSect (pass2 O) (items O) i j e → KeptSect (pass2 O) (items O) i' j' e' → ¬ (i = i' ∧ j = j') →
    Disjoint ((linked O).sectionRange i j e) ((linked O).sectionRange i' j' e')
  order : ∀ i j e j' e', KeptSect (pass2 O) (items O) i j e → KeptSect (pass2 O) (items O) i j' e' → e.addr ≤ e'.addr →
    (linked O).sectionAddr i j ≤ (linked O).sectionAddr i j'
  spans : ∀ i o, O[i]? = some o → ClosesSpans o ((pass2 O).dropped i)
  origin : ∀ i j e, KeptSect (pass2 O) (items O) i j e → Stands (pass2 O) i j e →
    (∀ j' e', KeptSect (pass2 O) (items O) i j' e' → (pass2 O).locG i j' = (pass2 O).locG i j → j' = j) →
      (gAt (linked O).G ((pass2 O).locG i j)).org = (linked O).sectionAddr i j

/-- The common areas lie apart on doublewords between the text and the end of the module, each as long as its
longest contribution; a name to which only common areas contribute is one. -/
structure PlacesCommons (O : List Obj) : Prop where
  behind : ∀ i j e, KeptSect (pass2 O) (items O) i j e → (linked O).sectionAddr i j + e.len ≤ (linked O).textend
  inside : ∀ g ∈ (linked O).G, g.isSect = true → g.type = .cm →
    g.org % 8 = 0 ∧ (linked O).textend ≤ g.org ∧ g.org + g.len ≤ (linked O).modlen
  apart : (linked O).G.Pairwise fun g g' => g.isSect = true → g.type = .cm → g'.isSect = true → g'.type = .cm →
    Disjoint g.range g'.range
  longest : ∀ g ∈ (linked O).G, g.isSect = true → g.type = .cm →
    g.len ∈ contributions (items O) g.name ∧ ∀ c ∈ contributions (items O) g.name, c ≤ g.len
  present : ∀ n, contributions (items O) n ≠ [] → (∀ x ∈ items O, x.csect n = false) →
    ∃ g ∈ (linked O).G, g.name = n ∧ g.isSect = true ∧ g.type = .cm

/-- Unless a control section of the name stands since its last label, there is a common area since then that
is as long as any, if there is one since then or no control section at all. -/
def LongestStands (O : List Obj) : Prop := ∀ n, (∀ x ∈ sinceLabel (liveItems O) n, x.csect n = false) →
  contributions (sinceLabel (liveItems O) n) n ≠ [] ∨ (∀ x ∈ items O, x.csect n = false) →
    ∀ c ∈ contributions (items O) n, ∃ c' ∈ contributions (sinceLabel (liveItems O) n) n, c ≤ c'

section Sections

variable {O : List Obj} {i j : ℕ} {e : Lent}

theorem sectionAddr_eq {o : Obj} (ho : O[i]? = some o) (j : ℕ) : (linked O).sectionAddr i j =
    objectBase (linked O).objs i + o.newaddr ((pass2 O).dropped i) j := by
  rw [Layout.sectionAddr, linked_objs, ho]
  rfl

theorem KeptSect.sect (h : KeptSect (pass2 O) (items O) i j e) : ∃ o, O[i]? = some o ∧ (j, e) ∈ o.objSects := by
  obtain ⟨o, ho, hj, he⟩ := mem_items_sect.mp h.mem
  exact ⟨o, ho, mem_objSects.mpr ⟨hj, he, h.obj⟩⟩

theorem KeptSect.end_le (h : KeptSect (pass2 O) (items O) i j e) : (linked O).sectionAddr i j + e.len ≤ (linked O).textend :=
  (section_end h.mem h.obj h.kept).2.trans (roundup8_le _)

theorem ico_disjoint {a b c d : ℤ} (h : b ≤ c ∨ d ≤ a) : Disjoint (Set.Ico a b) (Set.Ico c d) := by
  rw [Set.Ico_disjoint_Ico]
  omega

/-- Sections of different objects lie apart, as the objects do. -/
theorem sections_apart_objects {i' j' : ℕ} {e' : Lent} (h : KeptSect (pass2 O) (items O) i j e)
    (h' : KeptSect (pass2 O) (items O) i' j' e') (hlt : i < i') :
    (linked O).sectionAddr i j + e.len ≤ (linked O).sectionAddr i' j' := by
  obtain ⟨o, ho, hx⟩ := h.sect
  obtain ⟨o', ho', -⟩ := h'.sect
  have hobj : (linked O).objs[i]? = some ⟨o, (pass2 O).locG i, (pass2 O).dropped i⟩ := by rw [linked_objs, ho]; rfl
  have hstack := objectBase_lt hobj hlt
  have hsize : o.newaddr ((pass2 O).dropped i) j + e.len ≤ o.osize ((pass2 O).dropped i) := le_osize hx h.kept
  have hnn := newaddr_nonneg o' ((pass2 O).dropped i') j'
  have hosize : (⟨o, (pass2 O).locG i, (pass2 O).dropped i⟩ : Placed).osize = o.osize ((pass2 O).dropped i) := rfl
  rw [sectionAddr_eq ho, sectionAddr_eq ho']
  omega

theorem sections_apart {i' j' : ℕ} {e' : Lent} (hsep : ∀ o ∈ O, o.Separate)
    (hspans : ∀ i o, O[i]? = some o → ClosesSpans o ((pass2 O).dropped i)) (h : KeptSect (pass2 O) (items O) i j e)
    (h' : KeptSect (pass2 O) (items O) i' j' e') (hne : ¬ (i = i' ∧ j = j')) :
    Disjoint ((linked O).sectionRange i j e) ((linked O).sectionRange i' j' e') := by
  apply ico_disjoint
  rcases lt_trichotomy i i' with hlt | rfl | hlt
  · exact .inl (sections_apart_objects h h' hlt)
  · obtain ⟨o, ho, hx⟩ := h.sect
    obtain ⟨o', ho', hx'⟩ := h'.sect
    obtain rfl := Option.some.inj (ho.symm.trans ho')
    have hso := hsep o (List.mem_of_getElem? ho)
    have hcl := hspans i o ho
    rw [sectionAddr_eq ho, sectionAddr_eq ho]
    rcases hso _ hx _ hx' (fun heq => hne ⟨rfl, heq⟩) with hle | hle
    · have := hcl.disjoint hso hx hx' h.kept h'.kept hle
      dsimp only at this
      omega
    · have := hcl.disjoint hso hx' hx h'.kept h.kept hle
      dsimp only at this
      omega
  · exact .inr (sections_apart_objects h' h hlt)

theorem sections_order {j' : ℕ} {e' : Lent} (h : KeptSect (pass2 O) (items O) i j e) (h' : KeptSect (pass2 O) (items O) i j' e')
    (hle : e.addr ≤ e'.addr) : (linked O).sectionAddr i j ≤ (linked O).sectionAddr i j' := by
  obtain ⟨o, ho, hx⟩ := h.sect
  obtain ⟨o', ho', hx'⟩ := h'.sect
  obtain rfl := Option.some.inj (ho.symm.trans ho')
  rw [sectionAddr_eq ho, sectionAddr_eq ho]
  exact (Int.add_le_add_iff_left _).mpr (newaddr_le hx hx' hle)

theorem placesSections_iff (hsep : ∀ o ∈ O, o.Separate) :
    PlacesSections O ↔ ∀ i o, O[i]? = some o → FirstTells o ((pass2 O).dropped i) := by
  have hiff : (∀ i o, O[i]? = some o → ClosesSpans o ((pass2 O).dropped i)) ↔
      ∀ i o, O[i]? = some o → FirstTells o ((pass2 O).dropped i) := by
    apply forall_congr'
    intro i
    apply forall_congr'
    intro o
    apply imp_congr_right
    intro ho
    exact closesSpans_iff (hsep o (List.mem_of_getElem? ho))
  rw [← hiff]
  constructor
  · intro h
    exact h.spans
  · intro h
    refine ⟨?_, ?_, ?_, h, ?_⟩
    · intro i j e hk
      exact ⟨(section_end hk.mem hk.obj hk.kept).1, hk.end_le.trans (textend_le_modlen O)⟩
    · intro i j e i' j' e' hk hk' hne
      exact sections_apart hsep h hk hk' hne
    · intro i j e j' e' hk hk' hle
      exact sections_order hk hk' hle
    · intro i j e hk hst halone
      apply section_org hst.lt hst.isSect _ hst.defObj hst.inAddr hk.mem hk.obj hk.kept rfl
      · intro j' e' hm hobj hd hloc
        exact halone j' e' ⟨hm, hobj, hd⟩ hloc
      · intro hcm
        have hobj := hk.obj
        rw [← hst.type, hcm] at hobj
        exact absurd hobj (by decide)

end Sections

section Commons

variable {O : List Obj}

/-- A common area of the module, as the walk over the table left it. -/
theorem common_at {k : ℕ} (hk : k < (linked O).G.length) (hs : (gAt (linked O).G k).isSect = true)
    (ht : (gAt (linked O).G k).type = .cm) : ∃ hk' : k < (withCommons O (pass2 O)).1.length,
      (withCommons O (pass2 O)).1[k].isSect = true ∧ (withCommons O (pass2 O)).1[k].type = .cm ∧
        (gAt (linked O).G k).org = (withCommons O (pass2 O)).1[k].inAddr ∧
          (gAt (linked O).G k).len = (withCommons O (pass2 O)).1[k].len := by
  obtain ⟨hlen, hat⟩ := numbered_at O (pass2 O)
  have hk' : k < (withCommons O (pass2 O)).1.length := hlen.symm ▸ hk
  have hsame := (hat k hk').1
  have horg := common_org hk hs ht
  rw [gAt_eq hk'] at hsame horg
  exact ⟨hk', hsame.isSect.symm.trans hs, hsame.type.symm.trans ht, horg, hsame.len⟩

theorem common_inside {g : Gsym} (hg : g ∈ (linked O).G) (hs : g.isSect = true) (ht : g.type = .cm) :
    g.org % 8 = 0 ∧ (linked O).textend ≤ g.org ∧ g.org + g.len ≤ (linked O).modlen := by
  obtain ⟨k, hk, rfl⟩ := mem_gAt hg
  obtain ⟨hk', hs', ht', horg, hlen⟩ := common_at hk hs ht
  have hmem := List.getElem_mem hk'
  have hkp : k < (pass2 O).G.length := assignAddresses_length O (pass2 O) ▸ hk
  have hassigned : Assigned (placed O (pass2 O)) (gAt (pass2 O).G k) (gAt (linked O).G k) k := assigned hkp
  have hcm : (gAt (pass2 O).G k).isSect = true ∧ (gAt (pass2 O).G k).type = .cm :=
    ⟨hassigned.same.isSect.symm.trans hs, hassigned.same.type.symm.trans ht⟩
  refine ⟨?_, ?_, ?_⟩
  · rw [horg]
    exact placeCommons_aligned _ _ _ hmem hs' ht'
  · have hafter := hassigned.common hcm
    have horg' := hassigned.org hcm.1
    rw [common_defObj hkp hcm.1 hcm.2, Option.elim_none, zero_add] at horg'
    rw [horg']
    exact hafter
  · rw [horg, hlen]
    exact ((placeCommons_ends _ _).1 _ hmem hs' ht').trans (roundup8_le _)

theorem commons_apart (O : List Obj) : (linked O).G.Pairwise fun g g' => g.isSect = true → g.type = .cm →
    g'.isSect = true → g'.type = .cm → Disjoint g.range g'.range := by
  rw [List.pairwise_iff_getElem]
  intro k k' hk hk' hlt hs ht hs' ht'
  rw [← gAt_eq hk] at hs ht ⊢
  rw [← gAt_eq hk'] at hs' ht' ⊢
  obtain ⟨hc, hcs, hct, horg, hlen⟩ := common_at hk hs ht
  obtain ⟨hc', hcs', hct', horg', -⟩ := common_at hk' hs' ht'
  have happart := List.pairwise_iff_getElem.mp (placeCommons_apart (moveSections (placed O (pass2 O)) (pass2 O).G)
    (objectBase (placed O (pass2 O)) (placed O (pass2 O)).length)) k k' hc hc' hlt hcs hct hcs' hct'
  apply ico_disjoint
  left
  rw [horg, hlen, horg']
  exact happart

theorem mem_contributions {q : List EsdItem} {n : Name} {c : ℕ} :
    c ∈ contributions q n ↔ ∃ i j e, .sect i j e ∈ q ∧ e.name = n ∧ e.type = .cm ∧ e.len = c := by
  rw [contributions, List.mem_filterMap]
  constructor
  · rintro ⟨x, hx, hc⟩
    cases x with
    | label i l w => cases hc
    | sect i j e =>
      rw [EsdItem.contribution] at hc
      split_ifs at hc with he
      exact ⟨i, j, e, hx, he.1, he.2, Option.some.inj hc⟩
  · rintro ⟨i, j, e, hx, hn, ht, rfl⟩
    exact ⟨.sect i j e, hx, if_pos ⟨hn, ht⟩⟩

theorem mem_contributions_since {n : Name} {c : ℕ} (h : c ∈ contributions (sinceLabel (liveItems O) n) n) :
    c ∈ contributions (items O) n := by
  obtain ⟨i, j, e, hm, hn, ht, hlen⟩ := mem_contributions.mp h
  have hsuffix := (List.rtakeWhile_suffix (fun x => !EsdItem.labels n x) (liveItems O)).subset hm
  exact mem_contributions.mpr ⟨i, j, e, mem_liveItems_sect.mp hsuffix, hn, ht, hlen⟩

theorem csect_since {n : Name} (h : ∀ x ∈ items O, x.csect n = false) : ∀ x ∈ sinceLabel (liveItems O) n, x.csect n = false := by
  intro x hx
  have hsuffix := (List.rtakeWhile_suffix (fun x => !EsdItem.labels n x) (liveItems O)).subset hx
  exact h x (List.mem_filter.mp hsuffix).1

/-- The common areas of the module are those of the composite table. -/
theorem linked_common {g : Gsym} (hg : g ∈ (linked O).G) (hs : g.isSect = true) (ht : g.type = .cm) :
    ∃ g', look (pass2 O).G g.name = some g' ∧ g'.isSect = true ∧ g'.type = .cm ∧ g'.len = g.len := by
  obtain ⟨k, hk, rfl⟩ := mem_gAt hg
  have hkp : k < (pass2 O).G.length := assignAddresses_length O (pass2 O) ▸ hk
  have hsame : SameSymbol (gAt (pass2 O).G k) (gAt (linked O).G k) := (assigned hkp).same
  have hs' := hsame.isSect.symm.trans hs
  have ht' := hsame.type.symm.trans ht
  obtain ⟨-, hfind⟩ := (areas O).common k hkp hs' ht'
  refine ⟨gAt (pass2 O).G k, ?_, hs', ht', hsame.len.symm⟩
  rw [hsame.name, look, hfind]
  rfl

theorem common_linked {n : Name} {g : Gsym} (h : look (pass2 O).G n = some g) (hs : g.isSect = true) (ht : g.type = .cm) :
    ∃ g' ∈ (linked O).G, g'.name = n ∧ g'.isSect = true ∧ g'.type = .cm ∧ g'.len = g.len := by
  have hname := look_name h
  obtain ⟨k, hk, rfl⟩ := look_lt h
  have hsame : SameSymbol (gAt (pass2 O).G k) (gAt (linked O).G k) := (assigned hk).same
  have hk' : k < (linked O).G.length := (assignAddresses_length O (pass2 O)).symm ▸ hk
  exact ⟨_, gAt_mem hk', hsame.name.trans hname, hsame.isSect.trans hs, hsame.type.trans ht, hsame.len⟩

theorem longestStands_of_placed (h : PlacesCommons O) : LongestStands O := by
  intro n hno hsome c hc
  have hn := (areas O).names n
  have hex : ∃ g, look (pass2 O).G n = some g ∧ g.isSect = true ∧ g.type = .cm := by
    rcases hsome with hne | hnone
    · obtain ⟨c', hc'⟩ := List.exists_mem_of_ne_nil _ hne
      obtain ⟨g, hg, hs, ht, -⟩ := hn.area hno c' hc'
      exact ⟨g, hg, hs, ht⟩
    · obtain ⟨g, hg, rfl, hs, ht⟩ := h.present n (List.ne_nil_of_mem hc) hnone
      obtain ⟨g', hg', hs', ht', -⟩ := linked_common hg hs ht
      exact ⟨g', hg', hs', ht'⟩
  obtain ⟨g, hg, hs, ht⟩ := hex
  obtain ⟨g', hg', rfl, hs', ht', hlen⟩ := common_linked hg hs ht
  refine ⟨g.len, (hn.reached g hg hs ht).2, ?_⟩
  rw [← hlen]
  exact (h.longest g' hg' hs' ht').2 c hc

theorem placesCommons_of_longest (h : LongestStands O) : PlacesCommons O := by
  refine ⟨fun i j e hk => hk.end_le, fun g => common_inside, commons_apart O, ?_, ?_⟩
  · intro g hg hs ht
    obtain ⟨g', hlook, hs', ht', hlen⟩ := linked_common hg hs ht
    have hn := (areas O).names g.name
    obtain ⟨hno, hmem⟩ := hn.reached g' hlook hs' ht'
    rw [hlen] at hmem
    refine ⟨mem_contributions_since hmem, ?_⟩
    intro c hc
    obtain ⟨c', hc', hle⟩ := h g.name hno (.inl (List.ne_nil_of_mem hmem)) c hc
    obtain ⟨g'', hlook', -, -, hle'⟩ := hn.area hno c' hc'
    obtain rfl := Option.some.inj (hlook.symm.trans hlook')
    omega
  · intro n hne hnone
    obtain ⟨c, hc⟩ := List.exists_mem_of_ne_nil _ hne
    have hno := csect_since hnone
    obtain ⟨c', hc', -⟩ := h n hno (.inr hnone) c hc
    obtain ⟨g, hlook, hs, ht, -⟩ := ((areas O).names n).area hno c' hc'
    obtain ⟨g', hg', hname, hs', ht', -⟩ := common_linked hlook hs ht
    exact ⟨g', hg', hname, hs', ht'⟩

end Commons

theorem addresses_assigned_iff {O : List Obj} (hsep : ∀ o ∈ O, o.Separate) : PlacesSections O ∧ PlacesCommons O ↔
    (∀ i o, O[i]? = some o → FirstTells o ((pass2 O).dropped i)) ∧ LongestStands O := by
  rw [placesSections_iff hsep]
  constructor
  · rintro ⟨hfirst, hcommons⟩
    exact ⟨hfirst, longestStands_of_placed hcommons⟩
  · rintro ⟨hfirst, hlongest⟩
    exact ⟨hfirst, placesCommons_of_longest hlongest⟩


section Decks

def csectDeck (es : List (List UInt8)) : Deck := .ofCards [Deck.esdCard 1 es, Deck.endCard]

def nameA : Name := letterName 0xC1

def nameB : Name := letterName 0xC2

def nameC : Name := letterName 0xC3

/-- A second CSECT A, in front of B, and a common area that both objects have. -/
def secondFull : List Deck :=
  [csectDeck [Deck.esdItem nameA 0x00 0 8, Deck.esdItem nameC 0x05 0 4],
    csectDeck [Deck.esdItem nameA 0x00 0 8, Deck.esdItem nameB 0x00 8 8, Deck.esdItem nameC 0x05 0 12]]

/-- A second CSECT A without a byte, at the origin of B. -/
def secondEmpty : List Deck :=
  [csectDeck [Deck.esdItem nameA 0x00 0 8],
    csectDeck [Deck.esdItem nameA 0x00 0 0, Deck.esdItem nameB 0x00 0 8, Deck.esdItem nameC 0x00 8 8]]

theorem secondFull_assigned : (∀ o ∈ secondFull.map parseObject, o.Separate) ∧
    PlacesSections (secondFull.map parseObject) ∧ PlacesCommons (secondFull.map parseObject) := by
  have hsep : ∀ o ∈ secondFull.map parseObject, o.Separate := by decide +kernel
  refine ⟨hsep, (addresses_assigned_iff hsep).mpr ⟨?_, ?_⟩⟩
  · have hfirst : ∀ k < 2, ∀ o ∈ (secondFull.map parseObject)[k]?, ∀ x ∈ o.objSects,
        (FirstDropped o ((pass2 (secondFull.map parseObject)).dropped k) x.2.addr ↔
          SpanFree o ((pass2 (secondFull.map parseObject)).dropped k) x.2.addr) := by decide +kernel
    rintro k o ho a ⟨x, hx, rfl⟩ -
    exact hfirst k (List.getElem?_eq_some_iff.mp ho).1 o ho x hx
  · -- without a label every common area stands
    have hlabels : ∀ x ∈ liveItems (secondFull.map parseObject), ∃ i j e, x = .sect i j e := by
      have hitems : liveItems (secondFull.map parseObject) = [.sect 0 1 ⟨nameA, .sd, 0, 8⟩, .sect 0 2 ⟨nameC, .cm, 0, 4⟩,
        .sect 1 1 ⟨nameA, .sd, 0, 8⟩, .sect 1 2 ⟨nameB, .sd, 8, 8⟩, .sect 1 3 ⟨nameC, .cm, 0, 12⟩] := by decide +kernel
      rw [hitems]
      simp
    intro n _ _ c hc
    have hsince : sinceLabel (liveItems (secondFull.map parseObject)) n = liveItems (secondFull.map parseObject) := by
      rw [sinceLabel, List.rtakeWhile_eq_self_iff]
      intro x hx
      obtain ⟨i, j, e, rfl⟩ := hlabels x hx
      rfl
    obtain ⟨i, j, e, hm, hn, ht, hlen⟩ := mem_contributions.mp hc
    rw [hsince]
    exact ⟨c, mem_contributions.mpr ⟨i, j, e, mem_liveItems_sect.mpr hm, hn, ht, hlen⟩, le_rfl⟩

/-- C goes to where B is. -/
theorem secondEmpty_overlaid : (∀ d ∈ secondEmpty, notADeck d = none) ∧ (∀ o ∈ secondEmpty.map parseObject, o.Separate) ∧
    (∀ o ∈ secondEmpty.map parseObject, ∀ x ∈ o.objSects, x.2.addr % 8 = 0) ∧
      ¬ (PlacesSections (secondEmpty.map parseObject) ∧ PlacesCommons (secondEmpty.map parseObject)) := by
  refine ⟨by decide +kernel, by decide +kernel, by decide +kernel, ?_⟩
  rintro ⟨h, -⟩
  have hB : KeptSect (pass2 (secondEmpty.map parseObject)) (items (secondEmpty.map parseObject)) 1 2 ⟨nameB, .sd, 0, 8⟩ :=
    ⟨by decide +kernel, rfl, by decide +kernel⟩
  have hC : KeptSect (pass2 (secondEmpty.map parseObject)) (items (secondEmpty.map parseObject)) 1 3 ⟨nameC, .sd, 8, 8⟩ :=
    ⟨by decide +kernel, rfl, by decide +kernel⟩
  have hplaceB : (linked (secondEmpty.map parseObject)).sectionAddr 1 2 = 8 := by decide +kernel
  have hplaceC : (linked (secondEmpty.map parseObject)).sectionAddr 1 3 = 8 := by decide +kernel
  have hdis := h.apart 1 2 _ 1 3 _ hB hC (by simp)
  rw [Layout.sectionRange, Layout.sectionRange, hplaceB, hplaceC, Set.Ico_disjoint_Ico] at hdis
  exact absurd hdis (by decide)

end Decks

end Cc370.Ld370
