import Cc370.Ld370.Autocall

namespace Cc370.Ld370

open Rounds

/-- The item has an ESDID of its own, within the local table. -/
def Numbered (d : Deck) (x : EsdEntry) : Prop :=
  1 ≤ x.id ∧ x.id < maxesd ∧ ∀ y ∈ esdEntries d, y.type ≠ .ld → y.id = x.id → y = x

theorem reference_of_numbered {st : Loaded} {d : Deck} (hd : d ∈ st.decks) {x : EsdEntry} (hn : Numbered d x)
    (hx : x ∈ esdEntries d) (her : x.type = .er) : x.name ∈ references st.objects := by
  obtain ⟨h1, h2, halone⟩ := hn
  have hne : x.type ≠ .ld := by rw [her]; decide
  have hlast : (esdEntries d).reverse.find? (fun y => y.type ≠ .ld ∧ y.id = x.id) = some x := by
    cases hf : (esdEntries d).reverse.find? (fun y => y.type ≠ .ld ∧ y.id = x.id) with
    | none =>
      have hno := List.find?_eq_none.mp hf x (List.mem_reverse.mpr hx)
      exact absurd (decide_eq_true ⟨hne, rfl⟩) hno
    | some y =>
      have hp : y.type ≠ .ld ∧ y.id = x.id := by simpa using List.find?_some hf
      rw [halone y (List.mem_reverse.mp (List.mem_of_find?_eq_some hf)) hp.1 hp.2]
  have hloc := (parseObject_holds d).loc x.id h1 h2
  rw [hlast, Option.map_some] at hloc
  obtain ⟨e, he, heq⟩ := Option.map_eq_some_iff.mp hloc
  obtain ⟨hname, htype⟩ := Prod.mk.inj heq
  have hid : x.id ∈ Obj.esdids := by
    have hmax : maxesd = 512 := rfl
    exact List.mem_range'_1.mpr ⟨h1, by omega⟩
  refine List.mem_flatMap.mpr ⟨parseObject d, List.mem_map_of_mem hd, List.mem_filterMap.mpr ⟨x.id, hid, ?_⟩⟩
  rw [he, Option.bind_some, if_pos (htype.trans her), hname]

/-- The entry is a section, or a label with an owner. -/
def Gsym.resolved (g : Gsym) : Bool := g.isSect ∨ g.type = .lr ∧ g.owner.isSome

/-- What resolves a name: a section or common area, private code that brings the name into the composite
table, or a label with an owner that is not dropped. -/
def Resolves (p : List EsdItem) (n : Name) : EsdItem → Prop
  | .sect _ _ e => e.name = n ∧ (e.type = .sd ∨ e.type = .cm ∨ e.type = .pc ∧ look (run p).G n = none)
  | .label i l owner => l.name = n ∧ owner.isSome = true ∧ (run p).dropped i l.ownerLocal = false

def Given (p : List EsdItem) (n : Name) : Prop := ∃ l₁ x l₂, p = l₁ ++ x :: l₂ ∧ Resolves l₁ n x

theorem given_snoc {p : List EsdItem} {x : EsdItem} {n : Name} : Given (p ++ [x]) n ↔ Given p n ∨ Resolves p n x := by
  constructor
  · rintro ⟨l₁, y, l₂, hl, hr⟩
    rcases snoc_eq_split hl with ⟨-, rfl, rfl⟩ | ⟨l₃, -, rfl⟩
    · exact .inr hr
    · exact .inl ⟨l₁, y, l₃, rfl, hr⟩
  · rintro (⟨l₁, y, l₂, rfl, hr⟩ | hr)
    · exact ⟨l₁, y, l₂ ++ [x], by simp, hr⟩
    · exact ⟨p, x, [], rfl, hr⟩

section Entry

theorem interned_resolved (o : Option Gsym) (n : Name) (t : EsdType) :
    (interned o n t).resolved = true ↔ ∃ g, o = some g ∧ g.resolved = true := by
  cases o with
  | none => simp [interned, Gsym.resolved, Gsym.fresh]
  | some g =>
    simp only [interned, Option.elim_some, Option.some.injEq, exists_eq_left']
    split_ifs with h
    · simp [Gsym.resolved, h.1]
    · rfl

theorem define_resolved (g : Gsym) (i : ℕ) {e : Lent} (hpc : e.type ≠ .pc) :
    (g.define i e).resolved = true ↔ g.resolved = true ∨ e.type = .sd ∨ e.type = .cm := by
  unfold Gsym.define
  split_ifs with hdup hcm hsect
  · have hs : g.isSect = true := by
      simp only [Gsym.duplicate, decide_eq_true_eq] at hdup
      exact hdup.2.1
    simp [Gsym.resolved, hs]
  · have hs : (g.mergeCommon e.len).isSect = true := by
      unfold Gsym.mergeCommon
      dsimp only
      split_ifs with h1 h2 h3 h4 <;> simp_all
    simp [Gsym.resolved, hs, hcm]
  · have ht : e.type = .sd := by
      simp only [isSectType, decide_eq_true_eq] at hsect
      rcases hsect with h | h | h
      · exact h
      · exact absurd h hpc
      · exact absurd h hcm
    simp [Gsym.resolved, ht]
  · have hsd : e.type ≠ .sd := by
      rintro h
      exact hsect (by simp [isSectType, h])
    simp [hsd, hcm]

theorem label_resolved (g : Gsym) (l : Ldent) (owner : Option Lent) (k : ℕ) :
    (g.label l owner k).resolved = true ↔ g.resolved = true ∨ owner.isSome = true := by
  unfold Gsym.label
  split_ifs with hd
  · have hr : g.resolved = true := by
      simp only [Gsym.doublyDefined, decide_eq_true_eq] at hd
      simp [Gsym.resolved, hd]
    simp [hr]
  · have hd' : ¬ (g.type = .lr ∧ g.owner.isSome = true) := by simpa [Gsym.doublyDefined] using hd
    simp only [Gsym.resolved, Option.isSome_map, true_and, decide_eq_true_eq]
    tauto

end Entry

def Resolved (G : List Gsym) (n : Name) : Prop := ∃ g, look G n = some g ∧ g.resolved = true

section Step

variable {p : List EsdItem} {n : Name} {i j : ℕ}

theorem private_resolved {e : Lent} (hpc : e.type = .pc) :
    Resolved (passSection (run p) i j e).G n ↔ Resolved (run p).G n ∨ Resolves p n (.sect i j e) := by
  obtain ⟨hG, -, -⟩ := passSection_private hpc (run p) i j
  have hres : ((Gsym.fresh e.name).define i e).resolved = true := by
    simp [Gsym.define, Gsym.duplicate, hpc, isSectType, Gsym.resolved]
  have hadds : Resolves p n (.sect i j e) ↔ e.name = n ∧ look (run p).G n = none := by
    simp [Resolves, hpc]
  rw [hadds, Resolved, Resolved, hG, look_append, define_name]
  cases hl : look (run p).G n with
  | some g => simp
  | none =>
    simp only [Option.none_or, reduceCtorEq, false_and, exists_false, false_or, and_true]
    constructor
    · rintro ⟨g, hg, -⟩
      split_ifs at hg with hname
      exact hname
    · intro hname
      exact ⟨_, if_pos hname, hres⟩

theorem section_resolved {e : Lent} (hpc : e.type ≠ .pc) :
    Resolved (passSection (run p) i j e).G n ↔ Resolved (run p).G n ∨ Resolves p n (.sect i j e) := by
  have hu := passSection_updates hpc (run p) i j
  have hadds : Resolves p n (.sect i j e) ↔ e.name = n ∧ (e.type = .sd ∨ e.type = .cm) := by
    simp [Resolves, hpc]
  rw [hadds]
  by_cases hname : n = e.name
  · subst hname
    have hself : Resolved (passSection (run p) i j e).G e.name ↔
        ((interned (look (run p).G e.name) e.name e.type).define i e).resolved = true := by
      rw [Resolved, hu.look_self]
      simp
    rw [hself, define_resolved _ i hpc, interned_resolved]
    simp only [Resolved, true_and]
  · rw [Resolved, hu.look_other hname]
    exact (or_iff_left fun h => hname h.1.symm).symm

theorem label_step_resolved {l : Ldent} {owner : Option Lent} :
    Resolved (passLabel (run p) i l owner).G n ↔ Resolved (run p).G n ∨ Resolves p n (.label i l owner) := by
  by_cases hskip : owner.isSome ∧ (run p).dropped i l.ownerLocal
  · rw [passLabel, if_pos hskip]
    refine (or_iff_left ?_).symm
    rintro ⟨-, -, hd⟩
    rw [hskip.2] at hd
    exact absurd hd (by simp)
  · obtain ⟨gi, hu⟩ := passLabel_updates hskip
    by_cases hname : n = l.name
    · subst hname
      have hself : Resolved (passLabel (run p) i l owner).G l.name ↔
          ((interned (look (run p).G l.name) l.name .ld).label l owner ((run p).locG i l.ownerLocal)).resolved = true := by
        rw [Resolved, hu.look_self]
        simp
      rw [hself, label_resolved, interned_resolved]
      refine or_congr Iff.rfl ⟨fun ho => ⟨rfl, ho, ?_⟩, fun h => h.2.1⟩
      rw [← Bool.not_eq_true]
      exact fun hd => hskip ⟨ho, hd⟩
    · rw [Resolved, hu.look_other hname]
      exact (or_iff_left fun h => hname h.1.symm).symm

end Step

/-- A name ends up resolved exactly when an item resolves it. -/
theorem resolved_iff (p : List EsdItem) (n : Name) : Resolved (run p).G n ↔ Given p n := by
  induction p using List.reverseRecOn with
  | nil =>
    constructor
    · rintro ⟨g, hg, -⟩
      exact absurd hg (by simp [run, Composite.empty, look, gFind])
    · rintro ⟨l₁, x, l₂, hl, -⟩
      exact absurd hl (by simp)
  | append_singleton p x ih =>
    rw [given_snoc, run_snoc, ← ih]
    cases x with
    | sect i j e =>
      by_cases hpc : e.type = .pc
      · exact private_resolved hpc
      · exact section_resolved hpc
    | label i l owner => exact label_step_resolved

/-- The name of an item that `is_defined` goes by. -/
def EsdItem.Names (n : Name) : EsdItem → Prop
  | .sect _ _ e => e.name = n ∧ isSectType e.type = true
  | .label _ l _ => l.name = n

theorem mem_items {O : List Obj} {x : EsdItem} : x ∈ items O ↔ ∃ i, ∃ o : Obj, O[i]? = some o ∧ x ∈ o.items i := by
  rw [items, List.mem_flatMap]
  constructor
  · rintro ⟨⟨o, i⟩, ho, hx⟩
    exact ⟨i, o, List.mk_mem_zipIdx_iff_getElem?.mp ho, hx⟩
  · rintro ⟨i, o, ho, hx⟩
    exact ⟨(o, i), List.mk_mem_zipIdx_iff_getElem?.mpr ho, hx⟩

theorem isDefined_iff (O : List Obj) (n : Name) : isDefined O n = true ↔ ∃ x ∈ items O, x.Names n := by
  rw [isDefined, List.any_eq_true]
  constructor
  · rintro ⟨o, ho, hd⟩
    obtain ⟨i, hi⟩ := List.mem_iff_getElem?.mp ho
    rw [Obj.defines, decide_eq_true_iff] at hd
    rcases hd with hd | hd
    · obtain ⟨j, hj, hany⟩ := List.any_eq_true.mp hd
      obtain ⟨e, he, hp⟩ := (Option.any_eq_true _ _).mp hany
      rw [decide_eq_true_iff] at hp
      refine ⟨.sect i j e, mem_items.mpr ⟨i, o, hi, List.mem_append_left _ ?_⟩, hp.2, hp.1⟩
      exact List.mem_filterMap.mpr ⟨j, hj, by rw [he]; rfl⟩
    · obtain ⟨l, hl, hname⟩ := List.any_eq_true.mp hd
      refine ⟨.label i l (o.lookup l.ownerLocal), mem_items.mpr ⟨i, o, hi, List.mem_append_right _ ?_⟩, ?_⟩
      · exact List.mem_map.mpr ⟨l, hl, rfl⟩
      · exact of_decide_eq_true (p := l.name = n) hname
  · rintro ⟨x, hx, hn⟩
    obtain ⟨i, o, hi, hx⟩ := mem_items.mp hx
    refine ⟨o, List.mem_of_getElem? hi, ?_⟩
    rw [Obj.defines, decide_eq_true_iff]
    rcases List.mem_append.mp hx with hx | hx
    · left
      obtain ⟨j, hj, he⟩ := List.mem_filterMap.mp hx
      obtain ⟨e, hloc, rfl⟩ := Option.map_eq_some_iff.mp he
      refine List.any_eq_true.mpr ⟨j, hj, ?_⟩
      rw [hloc]
      exact decide_eq_true ⟨hn.2, hn.1⟩
    · right
      obtain ⟨l, hl, rfl⟩ := List.mem_map.mp hx
      exact List.any_eq_true.mpr ⟨l, hl, decide_eq_true hn⟩

/-- The names of private code and labels: those that `is_defined` counts and PASS 2 may leave out. -/
def EsdItem.Doubtful (n : Name) : EsdItem → Prop
  | .sect _ _ e => e.name = n ∧ e.type = .pc
  | .label _ l _ => l.name = n

/-- A reference to the name of private code or a label has an item that resolves it. -/
def NoneLost (O : List Obj) : Prop := ∀ n ∈ references O, (∃ x ∈ items O, x.Doubtful n) → Given (items O) n

theorem given_of_section {p : List EsdItem} {x : EsdItem} {n : Name} (hx : x ∈ p) (hd : x.DefinesSection n) : Given p n := by
  obtain ⟨l₁, l₂, rfl⟩ := List.append_of_mem hx
  refine ⟨l₁, x, l₂, rfl, ?_⟩
  cases x with
  | sect i j e => exact ⟨hd.1, hd.2.imp_right .inl⟩
  | label i l owner => exact hd.elim

theorem defined_resolved_iff (O : List Obj) :
    (∀ n ∈ references O, isDefined O n = true → Resolved (pass2 O).G n) ↔ NoneLost O := by
  have hrun : pass2 O = run (items O) := rfl
  constructor
  · intro h n hn hd
    obtain ⟨x, hx, hdoubt⟩ := hd
    rw [← resolved_iff, ← hrun]
    apply h n hn
    refine (isDefined_iff O n).mpr ⟨x, hx, ?_⟩
    cases x with
    | sect i j e => exact ⟨hdoubt.1, by simp [isSectType, hdoubt.2]⟩
    | label i l owner => exact hdoubt
  · intro h n hn hd
    obtain ⟨x, hx, hname⟩ := (isDefined_iff O n).mp hd
    rw [hrun, resolved_iff]
    cases x with
    | label i l owner => exact h n hn ⟨_, hx, hname⟩
    | sect i j e =>
      by_cases hpc : e.type = .pc
      · exact h n hn ⟨_, hx, hname.1, hpc⟩
      · refine given_of_section hx ⟨hname.1, ?_⟩
        have hs : e.type = .sd ∨ e.type = .pc ∨ e.type = .cm := by simpa [isSectType] using hname.2
        rcases hs with hs | hs | hs
        · exact .inl hs
        · exact absurd hs hpc
        · exact .inr hs

theorem autocall_nil (st : Loaded) : autocall [] 1 st = some st := by
  have hnone : ∀ s n, reference [] s n = none := by
    intro s n
    rw [reference]
    split_ifs
    · rfl
    · rfl
  have hpass : autocallPass [] st = (st, false) := by
    unfold autocallPass
    induction references st.objects with
    | nil => rfl
    | cons n l ih =>
      rw [List.foldl_cons, visit, hnone]
      exact ih
  rw [autocall, rounds, hpass]
  rfl

/-- A deck with the section A and a reference to X, and one that defines A again, with the entry X. -/
def entryOfDuplicate : List Deck := [
  .ofCards [Deck.esdCard 1 [Deck.esdItem (letterName 0xC1) 0x00 0 8, Deck.esdItem (letterName 0xE7) 0x02 0 0], Deck.endCard],
  .ofCards [Deck.esdCard 1 [Deck.esdItem (letterName 0xC1) 0x00 0 8, Deck.esdItem (letterName 0xE7) 0x01 0 1], Deck.endCard]]

end Cc370.Ld370
