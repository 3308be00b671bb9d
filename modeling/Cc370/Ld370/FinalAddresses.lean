import Cc370.Ld370.FirstDefinitionWins
import Cc370.Ld370.Addresses

namespace Cc370.Ld370

namespace Layout

def sectionAddr (L : Layout) (i j : ℕ) : ℤ :=
  objectBase L.objs i + L.objs[i]?.elim 0 fun o => o.newaddr j

/-- The place of the section that the table holds under a name. -/
def areaAddr (L : Layout) (n : Name) : Option ℤ :=
  (look L.G n).bind fun g => if g.isSect then some g.org else none

def ownerAddr (L : Layout) (t : Symbols) (i : ℕ) (l : Ldent) (w : Lent) : Option ℤ :=
  if w.type = .pc then some (L.sectionAddr i l.ownerLocal)
  else
    match t.defs w.name with
    | some (.sect i' j' _) => some (L.sectionAddr i' j')
    | _ => L.areaAddr w.name

/-- The final address of a definition: of a control section where its object and the sections
before it put it, of a common area where it was allocated, of a label its owner's and the offset. -/
def definitionAddr (L : Layout) (t : Symbols) (n : Name) : Definition → Option ℤ
  | .sect i j _ => some (L.sectionAddr i j)
  | .common _ => L.areaAddr n
  | .label i l w => (L.ownerAddr t i l w).map fun a => a + (l.addr - w.addr)

end Layout

def linked (O : List Obj) : Layout := assignAddresses O (pass2 O)

/-- Every name resolves to one definition, the first: the table has its entry from the step
that defines it to the end, and every reference by the name gets its final address. -/
structure ResolvesToFirst (O : List Obj) : Prop where
  table : ∀ p, p <+: items O → Refines p (run p) (symbols p)
  address : ∀ i j e d, .sect i j e ∈ items O → e.type ≠ .pc →
    (symbols (items O)).defs e.name = some d →
      symbolAddr (linked O).G (gAt (linked O).G ((pass2 O).locG i j)) =
        (linked O).definitionAddr (symbols (items O)) e.name d

theorem mem_items_sect {O : List Obj} {i j : ℕ} {e : Lent} :
    .sect i j e ∈ items O ↔ ∃ o, O[i]? = some o ∧ j ∈ Obj.esdids ∧ o.loc j = some e := by
  rw [items, List.mem_flatMap]
  constructor
  · rintro ⟨⟨o, i'⟩, ho, hm⟩
    obtain rfl : i = i' := mem_objItems hm
    rcases List.mem_append.mp hm with hm | hm
    · obtain ⟨j', hj, he⟩ := List.mem_filterMap.mp hm
      obtain ⟨e', he', heq⟩ := Option.map_eq_some_iff.mp he
      obtain ⟨-, rfl, rfl⟩ := EsdItem.sect.inj heq
      exact ⟨o, by simpa using List.mem_zipIdx_iff_getElem?.mp ho, hj, he'⟩
    · obtain ⟨l, -, hl⟩ := List.mem_map.mp hm
      exact absurd hl (by simp)
  · rintro ⟨o, ho, hj, he⟩
    refine ⟨(o, i), List.mem_zipIdx_iff_getElem?.mpr ho, List.mem_append_left _ ?_⟩
    exact List.mem_filterMap.mpr ⟨j, hj, by simp [he]⟩

theorem mem_items_label {O : List Obj} {i : ℕ} {l : Ldent} {w : Option Lent} :
    .label i l w ∈ items O ↔ ∃ o, O[i]? = some o ∧ l ∈ o.ld ∧ w = o.lookup l.ownerLocal := by
  rw [items, List.mem_flatMap]
  constructor
  · rintro ⟨⟨o, i'⟩, ho, hm⟩
    obtain rfl : i = i' := mem_objItems hm
    rcases List.mem_append.mp hm with hm | hm
    · obtain ⟨j', -, he⟩ := List.mem_filterMap.mp hm
      obtain ⟨e', -, heq⟩ := Option.map_eq_some_iff.mp he
      exact absurd heq (by simp)
    · obtain ⟨l', hl, heq⟩ := List.mem_map.mp hm
      obtain ⟨-, rfl, rfl⟩ := EsdItem.label.inj heq
      exact ⟨o, by simpa using List.mem_zipIdx_iff_getElem?.mp ho, hl, rfl⟩
  · rintro ⟨o, ho, hl, rfl⟩
    refine ⟨(o, i), List.mem_zipIdx_iff_getElem?.mpr ho, List.mem_append_right _ ?_⟩
    exact List.mem_map.mpr ⟨l, hl, rfl⟩

theorem mem_items_unique {O : List Obj} {i j : ℕ} {e e' : Lent} (h : .sect i j e ∈ items O)
    (h' : .sect i j e' ∈ items O) : e = e' := by
  obtain ⟨o, ho, -, he⟩ := mem_items_sect.mp h
  obtain ⟨o', ho', -, he'⟩ := mem_items_sect.mp h'
  obtain rfl := Option.some.inj (ho.symm.trans ho')
  exact Option.some.inj (he.symm.trans he')

theorem lookup_mem {o : Obj} {id : ℕ} {w : Lent} (h : o.lookup id = some w) :
    id ∈ Obj.esdids ∧ o.loc id = some w := by
  unfold Obj.lookup at h
  split_ifs at h with hid
  refine ⟨?_, h⟩
  simp only [Obj.esdids, List.mem_range'_1]
  omega

section Linked

variable {O : List Obj}

theorem split_before {l₁ l₂ l₃ l₄ : List EsdItem} {x y : EsdItem}
    (h : l₁ ++ x :: l₂ = l₃ ++ y :: l₄) : (l₁ = l₃ ∧ x = y) ∨ x ∈ l₃ ∨ y ∈ l₁ := by
  rcases List.append_eq_append_iff.mp h with ⟨m, rfl, hm⟩ | ⟨m, rfl, hm⟩
  · cases m with
    | nil => exact .inl ⟨by simp, (List.cons.inj hm).1⟩
    | cons z m => exact .inr (.inl (by rw [(List.cons.inj hm).1]; simp))
  · cases m with
    | nil => exact .inl ⟨by simp, (List.cons.inj hm).1.symm⟩
    | cons z m => exact .inr (.inr (by rw [(List.cons.inj hm).1]; simp))

/-- The control section that a name stands for is the first of its name. -/
theorem sect_first {p : List EsdItem} (hc : NoClash p) {n : Name} {i j : ℕ} {e : Lent}
    (hd : (symbols p).defs n = some (.sect i j e)) :
    e.name = n ∧ e.type = .sd ∧ ∃ l₁ l₂, p = l₁ ++ .sect i j e :: l₂ ∧
      ¬ ∃ x ∈ l₁, x.DefinesCsect n := by
  induction p using List.reverseRecOn with
  | nil => simp [symbols, Symbols.empty] at hd
  | append_singleton p x ih =>
    obtain ⟨hp, hx⟩ := NoClash.snoc.mp hc
    have hD := Defined.of_noClash hp
    have hkeep (h : (symbols p).defs n = some (.sect i j e)) :
        e.name = n ∧ e.type = .sd ∧ ∃ l₁ l₂, p ++ [x] = l₁ ++ .sect i j e :: l₂ ∧
          ¬ ∃ x ∈ l₁, x.DefinesCsect n := by
      obtain ⟨h1, h2, l₁, l₂, h3, h4⟩ := ih hp h
      exact ⟨h1, h2, l₁, l₂ ++ [x], by simp [h3], h4⟩
    rw [symbols_snoc] at hd
    cases x with
    | label i' l w =>
      by_cases hs : w.isSome → (symbols p).dropped i' l.ownerLocal = true
      · rw [step_label_skip hs] at hd
        exact hkeep hd
      · rw [Classical.not_imp, Bool.not_eq_true] at hs
        obtain ⟨w, rfl⟩ := Option.isSome_iff_exists.mp hs.1
        rw [step_label_defs w hs.2] at hd
        split_ifs at hd with hn
        · apply hkeep
          revert hd
          cases (symbols p).defs n with
          | none => simp [Definition.followedBy]
          | some d => cases d <;> simp [Definition.followedBy]
        · exact hkeep hd
    | sect i' j' e' =>
      rw [step_sect_defs] at hd
      split_ifs at hd with hn
      · subst hn
        have hnew : (¬ ∃ d, (symbols p).defs e'.name = some d ∧ d.isSect = true) →
            ¬ ∃ x ∈ p, x.DefinesCsect e'.name := fun h hx => h ((hD.csects _).mp hx)
        unfold sectThen at hd
        cases hdd : (symbols p).defs e'.name with
        | none =>
          rw [hdd] at hd
          split_ifs at hd with h1 h2
          · obtain ⟨rfl, rfl, rfl⟩ := Definition.sect.inj (Option.some.inj hd)
            exact ⟨rfl, h1, p, [], rfl, hnew (by simp [hdd])⟩
          · exact absurd (Option.some.inj hd) (by simp [Definition.followedBy])
        | some d =>
          rw [hdd] at hd
          cases d with
          | sect i'' j'' e'' =>
            have : (symbols p).defs e'.name = some (.sect i j e) := by
              rw [hdd]
              split_ifs at hd <;> simpa [Definition.followedBy] using hd
            exact hkeep this
          | label i'' l w =>
            split_ifs at hd <;> simp [Definition.followedBy] at hd
          | common m =>
            split_ifs at hd with h1 h2
            · obtain ⟨rfl, rfl, rfl⟩ := Definition.sect.inj (Option.some.inj hd)
              exact ⟨rfl, h1, p, [], rfl, hnew (by simp [hdd, Definition.isSect])⟩
            · exact absurd (Option.some.inj hd) (by simp [Definition.followedBy])
            · exact absurd (Option.some.inj hd) (by simp)
      · exact hkeep hd

/-- Of two control sections of one name, the one that the name does not stand for is dropped. -/
theorem dropped_iff_not_first (hc : NoClash (items O)) {i j i' j' : ℕ} {e e' : Lent}
    (hd : (symbols (items O)).defs e.name = some (.sect i j e)) (hm : .sect i' j' e' ∈ items O)
    (ht : e'.type = .sd) (hn : e'.name = e.name) :
    (pass2 O).dropped i' j' = true ↔ ¬ (i' = i ∧ j' = j) := by
  have hE := entries_of_noClash (items_pairwise O) hc
  have hD := Defined.of_noClash hc
  obtain ⟨-, -, l₁, l₂, hl, hfirst⟩ := sect_first hc hd
  change (run (items O)).dropped i' j' = true ↔ _
  rw [hE.dropped, hD.dropped]
  constructor
  · rintro ⟨l₃, e'', l₄, hl', -, hx⟩ ⟨rfl, rfl⟩
    obtain rfl : e'' = e' := by
      refine mem_items_unique ?_ hm
      rw [hl']
      simp
    rw [hn] at hx
    rcases split_before (hl.symm.trans hl') with ⟨rfl, -⟩ | h | h
    · exact hfirst hx
    · have hb := items_pairwise O
      rw [hl', List.pairwise_append] at hb
      have hbx := hb.2.2 _ h (.sect i' j' e'') (by simp)
      exact hbx.2 _ rfl
    · exact hfirst ⟨_, h, hn, ht⟩
  · intro hne
    obtain ⟨l₃, l₄, hl'⟩ := List.append_of_mem hm
    refine ⟨l₃, e', l₄, hl', ht, .sect i j e, ?_, hn.symm, ?_⟩
    · rcases split_before (hl.symm.trans hl') with ⟨-, heq⟩ | h | h
      · obtain ⟨rfl, rfl, -⟩ := EsdItem.sect.inj heq
        exact absurd ⟨rfl, rfl⟩ hne
      · exact h
      · exact absurd ⟨_, h, hn, ht⟩ hfirst
    · exact (sect_first hc hd).2.1

theorem private_not_dropped (hc : NoClash (items O)) {i j : ℕ} {e : Lent}
    (hm : .sect i j e ∈ items O) (ht : e.type ≠ .sd) : (pass2 O).dropped i j = false := by
  have hE := entries_of_noClash (items_pairwise O) hc
  cases hv : (pass2 O).dropped i j with
  | false => rfl
  | true =>
    change (run (items O)).dropped i j = true at hv
    rw [hE.dropped, (Defined.of_noClash hc).dropped] at hv
    obtain ⟨l₃, e', l₄, hl, ht', -⟩ := hv
    have hm' : EsdItem.sect i j e' ∈ items O := by rw [hl]; simp
    exact absurd (mem_items_unique hm hm' ▸ ht') ht

theorem placed_getElem? (s : Composite) (i : ℕ) :
    (placed O s)[i]? = O[i]?.map fun o => ⟨o, s.locG i, s.dropped i⟩ := by
  simp [placed, List.getElem?_zipIdx, Function.comp_def]

theorem linked_objs (O : List Obj) (i : ℕ) : (linked O).objs[i]? =
    O[i]?.map fun o => ⟨o, (pass2 O).locG i, (pass2 O).dropped i⟩ := placed_getElem? _ i

theorem mem_objSects {o : Obj} {x : ℕ × Lent} :
    x ∈ o.objSects ↔ x.1 ∈ Obj.esdids ∧ o.loc x.1 = some x.2 ∧ isObjSect x.2.type = true := by
  simp only [Obj.objSects, List.mem_filterMap, Option.bind_eq_some_iff]
  constructor
  · rintro ⟨j, hj, e, he, hx⟩
    split_ifs at hx with ht
    obtain rfl := Option.some.inj hx
    exact ⟨hj, he, ht⟩
  · rintro ⟨hj, he, ht⟩
    exact ⟨x.1, hj, x.2, he, by simp [ht]⟩

theorem mem_moves {s : Composite} {m : ℕ × ℕ × ℤ} :
    m ∈ moves (placed O s) ↔ ∃ o j e, O[m.2.1]? = some o ∧ .sect m.2.1 j e ∈ items O ∧
      isObjSect e.type = true ∧ Obj.esdids.any (s.dropped m.2.1) = true ∧
      s.dropped m.2.1 j = false ∧ m.1 = s.locG m.2.1 j ∧ m.2.2 = o.newaddr (s.dropped m.2.1) j := by
  rw [moves, List.mem_flatMap]
  constructor
  · rintro ⟨⟨o, i⟩, ho, hm⟩
    rw [List.mem_zipIdx_iff_getElem?, placed_getElem?, Option.map_eq_some_iff] at ho
    dsimp only at hm ho
    obtain ⟨o, ho, rfl⟩ := ho
    split_ifs at hm with hdrop
    · obtain ⟨x, hx, heq⟩ := List.mem_filterMap.mp hm
      split_ifs at heq with hd
      obtain rfl := Option.some.inj heq
      obtain ⟨hj, he, ht⟩ := mem_objSects.mp hx
      exact ⟨o, x.1, x.2, ho, mem_items_sect.mpr ⟨o, ho, hj, he⟩, ht, hdrop,
        by simpa using hd, rfl, rfl⟩
    · simp at hm
  · rintro ⟨o, j, e, ho, hm, ht, hdrop, hd, h1, h2⟩
    obtain ⟨o', ho', hj, he⟩ := mem_items_sect.mp hm
    obtain rfl := Option.some.inj (ho.symm.trans ho')
    refine ⟨(⟨o, s.locG m.2.1, s.dropped m.2.1⟩, m.2.1), ?_, ?_⟩
    · rw [List.mem_zipIdx_iff_getElem?, placed_getElem?, ho]
      rfl
    · have hdrop' : (⟨o, s.locG m.2.1, s.dropped m.2.1⟩ : Placed).hasDrop = true := hdrop
      simp only [hdrop', ↓reduceIte]
      refine List.mem_filterMap.mpr ⟨(j, e), mem_objSects.mpr ⟨hj, he, ht⟩, ?_⟩
      simp only [hd, Bool.not_false, ↓reduceIte, Option.some.injEq]
      exact Prod.ext h1.symm (Prod.ext rfl h2.symm)

theorem newaddr_of_no_drop {o : Obj} {dropped : ℕ → Bool} {j : ℕ} {e : Lent}
    (h : ¬ Obj.esdids.any dropped = true) (he : o.loc j = some e) : o.newaddr dropped j = e.addr := by
  simp [Obj.newaddr, h, Obj.addr, he]

/-- A kept section whose composite entry is as it was defined, and no other section's, ends
up where its object puts it. -/
theorem section_org {k i j : ℕ} {e : Lent} (hk : k < (pass2 O).G.length)
    (hs : (gAt (pass2 O).G k).isSect = true) (ht : (gAt (pass2 O).G k).type ≠ .cm)
    (hdef : (gAt (pass2 O).G k).defObj = some i) (hin : (gAt (pass2 O).G k).inAddr = e.addr)
    (hm : .sect i j e ∈ items O) (hobj : isObjSect e.type = true)
    (hd : (pass2 O).dropped i j = false) (hloc : (pass2 O).locG i j = k)
    (huniq : ∀ j' e', .sect i j' e' ∈ items O → isObjSect e'.type = true →
      (pass2 O).dropped i j' = false → (pass2 O).locG i j' = k → j' = j) :
    (gAt (linked O).G k).org = (linked O).sectionAddr i j := by
  have ha : Assigned (placed O (pass2 O)) (gAt (pass2 O).G k) (gAt (linked O).G k) k := assigned hk
  obtain ⟨o, ho, -, he⟩ := mem_items_sect.mp hm
  have hplace : (gAt (linked O).G k).inAddr = o.newaddr ((pass2 O).dropped i) j := by
    rcases ha.place fun h => ht h.2 with ⟨h1, h2⟩ | ⟨m, hmv, hmk, hmd, h1⟩
    · rw [h1, hin]
      by_cases hdrop : Obj.esdids.any ((pass2 O).dropped i) = true
      · exfalso
        refine h2 (k, i, o.newaddr ((pass2 O).dropped i) j) ?_ rfl hdef
        exact mem_moves.mpr ⟨o, j, e, ho, hm, hobj, hdrop, hd, hloc.symm, rfl⟩
      · rw [newaddr_of_no_drop hdrop he]
    · obtain ⟨o', j', e', ho', hm', hobj', -, hd', hk', hv⟩ := mem_moves.mp hmv
      obtain rfl : i = m.2.1 := Option.some.inj (hdef.symm.trans hmd)
      obtain rfl := huniq j' e' hm' hobj' hd' (hk'.symm.trans hmk)
      obtain rfl := Option.some.inj (ho.symm.trans ho')
      rw [h1, hv]
  rw [ha.org hs, hdef, hplace]
  have hobjs : (linked O).objs = placed O (pass2 O) := rfl
  simp only [Option.elim_some, Layout.sectionAddr, hobjs, placed_getElem?, ho, Option.map_some]
  rfl

end Linked

end Cc370.Ld370
