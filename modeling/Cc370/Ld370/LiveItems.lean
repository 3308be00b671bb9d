import Cc370.Ld370.FirstDefinitionWins

namespace Cc370.Ld370

namespace EsdItem

def name : EsdItem → Name
  | .sect _ _ e => e.name
  | .label _ l _ => l.name

def type : EsdItem → EsdType
  | .sect _ _ e => e.type
  | .label .. => .ld

/-- What PASS 2 enters: all but the labels of dropped duplicates. -/
def live (dropped : ℕ → ℕ → Bool) : EsdItem → Bool
  | .sect .. => true
  | .label i l owner => !(owner.isSome && dropped i l.ownerLocal)

def ownedLabel (n : Name) : EsdItem → Option (ℕ × Ldent × Lent)
  | .label i l (some w) => if l.name = n then some (i, l, w) else none
  | _ => none

def unownedLabel (n : Name) : EsdItem → Bool
  | .label _ l none => l.name = n
  | _ => false

end EsdItem

def liveItems (O : List Obj) : List EsdItem := (items O).filter (EsdItem.live (pass2 O).dropped)

/-- The first of the items that bring up the name. -/
def firstEntry (q : List EsdItem) (n : Name) : Option EsdItem := q.find? fun x => x.name = n

def firstLabel (q : List EsdItem) (n : Name) : Option (ℕ × Ldent × Lent) :=
  q.findSome? (EsdItem.ownedLabel n)

/-- The name is that of a CSECT, of a common area or of the private code that brought it up. -/
def Sectioned (q : List EsdItem) (n : Name) : Prop :=
  (∃ x ∈ q, x.name = n ∧ (x.type = .sd ∨ x.type = .cm)) ∨
    ∃ x, firstEntry q n = some x ∧ x.type = .pc

def WeakOnly (q : List EsdItem) (n : Name) : Prop :=
  ∀ x ∈ q, x.name = n → x.type = .wx ∨ x.type = .pc

section Snoc

variable {q : List EsdItem} {x : EsdItem} {n : Name}

theorem firstEntry_snoc :
    firstEntry (q ++ [x]) n = (firstEntry q n).or (if x.name = n then some x else none) := by
  by_cases h : x.name = n <;> simp [firstEntry, List.find?_append, h]

theorem firstLabel_snoc :
    firstLabel (q ++ [x]) n = (firstLabel q n).or (x.ownedLabel n) := by
  simp only [firstLabel, List.findSome?_append, List.findSome?_cons, List.findSome?_nil]
  cases x.ownedLabel n <;> rfl

theorem firstEntry_none : firstEntry q n = none ↔ ∀ x ∈ q, x.name ≠ n := by
  simp [firstEntry]

theorem firstEntry_name (h : firstEntry q n = some x) : x ∈ q ∧ x.name = n :=
  ⟨List.mem_of_find?_eq_some h, by simpa using List.find?_some h⟩

theorem sectioned_snoc : Sectioned (q ++ [x]) n ↔ Sectioned q n ∨
    x.name = n ∧ (x.type = .sd ∨ x.type = .cm ∨ firstEntry q n = none ∧ x.type = .pc) := by
  simp only [Sectioned, firstEntry_snoc, exists_mem_snoc]
  by_cases hn : x.name = n
  · cases firstEntry q n with
    | none => simp [hn, or_assoc]
    | some y =>
      simp only [hn, true_and, Option.some_or, Option.some.injEq, exists_eq_left', reduceCtorEq,
        false_and, or_false]
      exact or_right_comm
  · simp [hn]

theorem sectioned_other (h : x.name ≠ n) : Sectioned (q ++ [x]) n ↔ Sectioned q n := by
  simp [sectioned_snoc, h]

theorem weakOnly_snoc : WeakOnly (q ++ [x]) n ↔
    WeakOnly q n ∧ (x.name = n → x.type = .wx ∨ x.type = .pc) := by
  constructor
  · intro h
    exact ⟨fun y hy => h y (List.mem_append_left _ hy), h x (by simp)⟩
  · rintro ⟨h, hx⟩ y hy
    rcases List.mem_append.mp hy with hy | hy
    · exact h y hy
    · rw [List.mem_singleton.mp hy]
      exact hx

theorem ownedLabel_none (h : x.name ≠ n) : x.ownedLabel n = none := by
  cases x with
  | sect i j e => rfl
  | label i l w =>
    cases w with
    | none => rfl
    | some w => exact if_neg h

theorem unownedLabel_name (h : x.unownedLabel n = true) : x.name = n := by
  cases x with
  | sect i j e => simp [EsdItem.unownedLabel] at h
  | label i l w =>
    cases w with
    | none => exact of_decide_eq_true h
    | some w => simp [EsdItem.unownedLabel] at h

end Snoc

/-- What an entry that is no section says about the items of its name. -/
def ReferenceOk (s : Composite) (q : List EsdItem) (n : Name) (g : Gsym) : Prop :=
  match firstLabel q n with
  | some (i, l, _) => g.type = .lr ∧ g.owner = some (s.locG i l.ownerLocal)
  | none => g.owner = none ∧
      ((∃ x ∈ q, x.unownedLabel n = true) ∧ g.type = .lr ∨
        (¬ ∃ x ∈ q, x.unownedLabel n = true) ∧ ∃ x, firstEntry q n = some x ∧
          (x.type = .wx → WeakOnly q n ∧ g.type = .wx ∨ ¬ WeakOnly q n ∧ g.type = .er) ∧
          (x.type ≠ .wx → g.type = x.type))

/-- The composite table against the items entered so far, whatever their names. -/
structure Held (s : Composite) (q : List EsdItem) : Prop where
  absent : ∀ n, look s.G n = none ↔ firstEntry q n = none
  sect : ∀ n g, look s.G n = some g → (g.isSect = true ↔ Sectioned q n)
  reference : ∀ n g, look s.G n = some g → g.isSect = false → ReferenceOk s q n g
  found : ∀ i j e, .sect i j e ∈ q → e.type ≠ .pc → gFind s.G e.name = some (s.locG i j)
  priv : ∀ i j e, .sect i j e ∈ q → e.type = .pc →
    s.locG i j < s.G.length ∧ (gAt s.G (s.locG i j)).isSect = true

section Entries

variable {g : Gsym} {e : Lent}

theorem define_isSect (hpc : e.type ≠ .pc) (i : ℕ) :
    (g.define i e).isSect = true ↔ g.isSect = true ∨ e.type = .sd ∨ e.type = .cm := by
  unfold Gsym.define Gsym.duplicate Gsym.mergeCommon isSectType
  dsimp only
  split_ifs with h1 h2 h3 h4 h5 h6 <;> simp_all

theorem interned_isSect (o : Option Gsym) (n : Name) (t : EsdType) :
    (interned o n t).isSect = true ↔ ∃ g, o = some g ∧ g.isSect = true := by
  cases o with
  | none => simp [interned, Gsym.fresh]
  | some g =>
    simp only [interned, Option.elim_some]
    split_ifs <;> simp

theorem label_isSect (l : Ldent) (owner : Option Lent) (k : ℕ) :
    (g.label l owner k).isSect = g.isSect := by
  unfold Gsym.label
  split_ifs <;> rfl

theorem isSect_mono {G G' : List Gsym} {n : Name} {gi k : ℕ} (h : Updates G G' n gi g)
    (hg : ∀ g', look G n = some g' → g'.isSect = true → g.isSect = true) (hk : k < G.length)
    (hs : (gAt G k).isSect = true) : (gAt G' k).isSect = true := by
  by_cases hki : k = gi
  · subst hki
    rw [h.entry]
    exact hg _ (by simp [look, h.find_of_lt hk]) hs
  · rwa [h.atOther k hk hki]

end Entries

theorem firstLabel_mem {q : List EsdItem} {n : Name} {i : ℕ} {l : Ldent} {w : Lent}
    (h : firstLabel q n = some (i, l, w)) : .label i l (some w) ∈ q ∧ l.name = n := by
  obtain ⟨x, hx, hl⟩ := List.exists_of_findSome?_eq_some h
  cases x with
  | sect i j e => simp [EsdItem.ownedLabel] at hl
  | label i' l' w' =>
    cases w' with
    | none => simp [EsdItem.ownedLabel] at hl
    | some w' =>
      simp only [EsdItem.ownedLabel] at hl
      split_ifs at hl with hn
      obtain ⟨rfl, rfl, rfl⟩ : i' = i ∧ l' = l ∧ w' = w := by simpa using hl
      exact ⟨hx, hn⟩

theorem firstLabel_none_of_absent {q : List EsdItem} {n : Name} (h : firstEntry q n = none) :
    firstLabel q n = none := by
  cases hl : firstLabel q n with
  | none => rfl
  | some a =>
    obtain ⟨hm, hn⟩ := firstLabel_mem (i := a.1) (l := a.2.1) (w := a.2.2) hl
    exact absurd hn (firstEntry_none.mp h _ hm)

namespace ReferenceOk

variable {s s' : Composite} {q : List EsdItem} {x : EsdItem} {n : Name} {g : Gsym}

theorem congr (h : ReferenceOk s q n g)
    (hloc : ∀ i l w, .label i l w ∈ q → s'.locG i l.ownerLocal = s.locG i l.ownerLocal) :
    ReferenceOk s' q n g := by
  unfold ReferenceOk at h ⊢
  cases hl : firstLabel q n with
  | none => rwa [hl] at h
  | some a =>
    obtain ⟨i, l, w⟩ := a
    rw [hl] at h
    dsimp only at h ⊢
    rwa [hloc i l _ (firstLabel_mem hl).1]

theorem other (h : ReferenceOk s q n g) (hn : x.name ≠ n) : ReferenceOk s (q ++ [x]) n g := by
  have hu : (∃ y ∈ q ++ [x], y.unownedLabel n = true) ↔ ∃ y ∈ q, y.unownedLabel n = true := by
    rw [exists_mem_snoc]
    exact or_iff_left fun hx => hn (unownedLabel_name hx)
  have hw : WeakOnly (q ++ [x]) n ↔ WeakOnly q n := by
    rw [weakOnly_snoc]
    exact and_iff_left fun hx => absurd hx hn
  unfold ReferenceOk at h ⊢
  rw [firstLabel_snoc, ownedLabel_none hn, Option.or_none, firstEntry_snoc, if_neg hn,
    Option.or_none]
  simpa only [hu, hw] using h

/-- A reference to the name: an ER or WX, or an item of a type the linker does not know. -/
theorem refer {o : Option Gsym} (ho : o = none ↔ firstEntry q n = none)
    (h : ∀ g, o = some g → ReferenceOk s q n g) {i j : ℕ} {e : Lent} (hn : e.name = n)
    (hpc : e.type ≠ .pc) : ReferenceOk s (q ++ [.sect i j e]) n (interned o n e.type) := by
  have hu : (∃ y ∈ q ++ [EsdItem.sect i j e], y.unownedLabel n = true) ↔
      ∃ y ∈ q, y.unownedLabel n = true := by
    rw [exists_mem_snoc]
    exact or_iff_left (by simp [EsdItem.unownedLabel])
  have hw : WeakOnly (q ++ [.sect i j e]) n ↔ WeakOnly q n ∧ e.type = .wx := by
    simp [weakOnly_snoc, EsdItem.name, EsdItem.type, hn, hpc]
  have hol : (EsdItem.sect i j e).ownedLabel n = none := rfl
  unfold ReferenceOk
  rw [firstLabel_snoc, hol, Option.or_none, firstEntry_snoc]
  simp only [hu, hw]
  cases o with
  | none =>
    have hnone := ho.mp rfl
    have hno : ¬ ∃ y ∈ q, y.unownedLabel n = true := by
      rintro ⟨y, hy, hyn⟩
      exact firstEntry_none.mp hnone y hy (unownedLabel_name hyn)
    have hweak : WeakOnly q n := fun y hy hyn => absurd hyn (firstEntry_none.mp hnone y hy)
    rw [firstLabel_none_of_absent hnone, hnone]
    refine ⟨rfl, .inr ⟨hno, .sect i j e, by simp [EsdItem.name, hn], ?_, fun _ => rfl⟩⟩
    intro ht
    exact .inl ⟨⟨hweak, ht⟩, ht⟩
  | some g =>
    have hg := h g rfl
    have hne : firstEntry q n ≠ none := fun hf => absurd (ho.mpr hf) (by simp)
    obtain ⟨y, hy⟩ := Option.ne_none_iff_exists'.mp hne
    have hkeep (hx : g.type ≠ .wx) : interned (some g) n e.type = g := by simp [interned, hx]
    rw [hy, Option.some_or]
    unfold ReferenceOk at hg
    cases hl : firstLabel q n with
    | some a =>
      rw [hl] at hg
      dsimp only at hg ⊢
      rwa [hkeep (by rw [hg.1]; decide)]
    | none =>
      rw [hl] at hg
      dsimp only at hg ⊢
      have howner : (interned (some g) n e.type).owner = g.owner := by
        simp only [interned, Option.elim_some]
        split_ifs <;> rfl
      refine ⟨howner.trans hg.1, ?_⟩
      rcases hg.2 with ⟨h1, h2⟩ | ⟨h1, y', hy', h2, h3⟩
      · rw [hkeep (by rw [h2]; decide)]
        exact .inl ⟨h1, h2⟩
      · obtain rfl : y = y' := Option.some.inj (hy.symm.trans hy')
        refine .inr ⟨h1, y, rfl, ?_, ?_⟩
        · intro hyw
          rcases h2 hyw with ⟨h4, h5⟩ | ⟨h4, h5⟩
          · by_cases he : e.type = .wx
            · exact .inl ⟨⟨h4, he⟩, by simp [interned, he, h5]⟩
            · exact .inr ⟨fun h => he h.2, by simp [interned, he, h5]⟩
          · rw [hkeep (by rw [h5]; decide)]
            exact .inr ⟨fun h => h4 h.1, h5⟩
        · intro hyw
          rw [hkeep (by rw [h3 hyw]; exact hyw)]
          exact h3 hyw

/-- Private code has an entry of its own. -/
theorem privately (h : ReferenceOk s q n g) (hf : firstEntry q n ≠ none) {i j : ℕ} {e : Lent}
    (hpc : e.type = .pc) : ReferenceOk s (q ++ [.sect i j e]) n g := by
  have hu : (∃ y ∈ q ++ [EsdItem.sect i j e], y.unownedLabel n = true) ↔
      ∃ y ∈ q, y.unownedLabel n = true := by
    rw [exists_mem_snoc]
    exact or_iff_left (by simp [EsdItem.unownedLabel])
  have hw : WeakOnly (q ++ [.sect i j e]) n ↔ WeakOnly q n := by
    simp [weakOnly_snoc, EsdItem.type, hpc]
  have hol : (EsdItem.sect i j e).ownedLabel n = none := rfl
  obtain ⟨y, hy⟩ := Option.ne_none_iff_exists'.mp hf
  unfold ReferenceOk at h ⊢
  rw [firstLabel_snoc, hol, Option.or_none, firstEntry_snoc, hy, Option.some_or]
  rw [hy] at h
  simpa only [hu, hw] using h

/-- A label of the name takes an entry that has no owner yet. -/
theorem labelled {o : Option Gsym} (ho : o = none ↔ firstEntry q n = none)
    (h : ∀ g, o = some g → ReferenceOk s q n g) {i : ℕ} {l : Ldent} {owner : Option Lent}
    (hn : l.name = n) : ReferenceOk s (q ++ [.label i l owner]) n
      ((interned o n .ld).label l owner (s.locG i l.ownerLocal)) := by
  have hnew (g : Gsym) (hg : g.owner = none) (hf : firstLabel q n = none) :
      ReferenceOk s (q ++ [.label i l owner]) n (g.label l owner (s.locG i l.ownerLocal)) := by
    unfold ReferenceOk
    rw [firstLabel_snoc, hf, Option.none_or]
    cases owner with
    | some w => simp [EsdItem.ownedLabel, hn, Gsym.label, Gsym.doublyDefined, hg]
    | none =>
      simp only [EsdItem.ownedLabel, Gsym.label, Gsym.doublyDefined, hg, Option.isSome_none,
        Bool.false_eq_true, and_false, decide_false, ↓reduceIte, Option.map_none, true_and]
      exact .inl ⟨⟨_, List.mem_append_right _ (List.mem_singleton.mpr rfl),
        by simp [EsdItem.unownedLabel, hn]⟩, trivial⟩
  cases o with
  | none => exact hnew _ rfl (firstLabel_none_of_absent (ho.mp rfl))
  | some g =>
    have hg := h g rfl
    cases hl : firstLabel q n with
    | none =>
      apply hnew _ _ hl
      unfold ReferenceOk at hg
      rw [hl] at hg
      simp only [interned, Option.elim_some]
      split_ifs
      · exact hg.1
      · exact hg.1
    | some a =>
      unfold ReferenceOk at hg ⊢
      rw [hl] at hg
      rw [firstLabel_snoc, hl, Option.some_or]
      obtain ⟨i', l', w'⟩ := a
      dsimp only at hg ⊢
      have hx : g.type ≠ .wx := by rw [hg.1]; decide
      simp [interned, hx, Gsym.label, Gsym.doublyDefined, hg]

end ReferenceOk

namespace Held

variable {s : Composite} {q : List EsdItem}

theorem nil : Held .empty [] := by
  have hl (n : Name) : look Composite.empty.G n = none := rfl
  refine ⟨fun n => by simp [hl, firstEntry], ?_, ?_, by simp, by simp⟩
  · intro n g hg
    simp [hl] at hg
  · intro n g hg
    simp [hl] at hg

theorem found_lt (h : Held s q) {i j : ℕ} {e : Lent} (hm : .sect i j e ∈ q) (hpc : e.type ≠ .pc) :
    s.locG i j < s.G.length := gFind_lt (h.found i j e hm hpc)

theorem sect_iff (h : Held s q) {o : Option Gsym} {n : Name} (ho : look s.G n = o) :
    (∃ g, o = some g ∧ g.isSect = true) ↔ Sectioned q n := by
  cases o with
  | none =>
    have hn := firstEntry_none.mp ((h.absent n).mp ho)
    constructor
    · simp
    · rintro (⟨x, hx, hxn, -⟩ | ⟨x, hx, -⟩)
      · exact absurd hxn (hn x hx)
      · rw [(h.absent n).mp ho] at hx
        simp at hx
  | some g => simpa using h.sect n g ho

theorem snoc_sect (h : Held s q) {i j : ℕ} {e : Lent} (hpc : e.type ≠ .pc)
    (hord : OrderedAt q (.sect i j e)) : Held (passSection s i j e) (q ++ [.sect i j e]) := by
  have hu := passSection_updates hpc s i j
  have hname : (EsdItem.sect i j e).name = e.name := rfl
  have hloc {i' j' : ℕ} {e' : Lent} (hm : .sect i' j' e' ∈ q) :
      (passSection s i j e).locG i' j' = s.locG i' j' := by
    apply passSection_locG_of_ne
    rintro ⟨rfl, rfl⟩
    exact hord.2 _ hm
  have hlab (i' : ℕ) (l : Ldent) (w : Option Lent) (hm : .label i' l w ∈ q) :
      (passSection s i j e).locG i' l.ownerLocal = s.locG i' l.ownerLocal := by
    apply passSection_locG_of_ne
    rintro ⟨rfl, -⟩
    exact hord.1 _ _ hm
  have hsect : ((interned (look s.G e.name) e.name e.type).define i e).isSect = true ↔
      Sectioned q e.name ∨ e.type = .sd ∨ e.type = .cm := by
    rw [define_isSect hpc, interned_isSect, h.sect_iff rfl]
  have hsect' : Sectioned (q ++ [.sect i j e]) e.name ↔
      Sectioned q e.name ∨ e.type = .sd ∨ e.type = .cm := by
    simp [sectioned_snoc, hname, EsdItem.type, hpc]
  constructor
  · intro n
    by_cases hn : e.name = n
    · subst hn
      rw [hu.look_self, firstEntry_snoc]
      cases firstEntry q e.name <;> simp [hname]
    · rw [hu.look_other (Ne.symm hn), h.absent, firstEntry_snoc, hname, if_neg hn, Option.or_none]
  · intro n g hg
    by_cases hn : e.name = n
    · subst hn
      rw [hu.look_self, Option.some.injEq] at hg
      rw [← hg, hsect, hsect']
    · rw [hu.look_other (Ne.symm hn)] at hg
      rw [h.sect n g hg, sectioned_other (by exact hn)]
  · intro n g hg hs
    by_cases hn : e.name = n
    · subst hn
      rw [hu.look_self, Option.some.injEq] at hg
      have hns : ¬ (Sectioned q e.name ∨ e.type = .sd ∨ e.type = .cm) := by
        rw [← hsect, hg, hs]
        simp
      rw [not_or, not_or] at hns
      rw [← hg, define_reference hns.2.1 hns.2.2 hpc]
      refine (ReferenceOk.refer (s := s) (h.absent _) ?_ rfl hpc).congr ?_
      · intro g' hg'
        apply h.reference _ _ hg'
        rw [← Bool.not_eq_true, h.sect _ _ hg']
        exact hns.1
      · intro i' l w hm
        rcases List.mem_append.mp hm with hm | hm
        · exact hlab i' l w hm
        · simp at hm
    · rw [hu.look_other (Ne.symm hn)] at hg
      exact ((h.reference n g hg hs).congr hlab).other (by exact hn)
  · intro i' j' e' hm hpc'
    rcases mem_sect_snoc hm with hm | hx
    · rw [hloc hm]
      exact hu.find_le (h.found i' j' e' hm hpc')
    · obtain ⟨rfl, rfl, rfl⟩ := EsdItem.sect.inj hx
      exact hu.find
  · intro i' j' e' hm hpc'
    rcases mem_sect_snoc hm with hm | hx
    · obtain ⟨hlt, hs⟩ := h.priv i' j' e' hm hpc'
      rw [hloc hm]
      refine ⟨hlt.trans_le hu.length, isSect_mono hu ?_ hlt hs⟩
      intro g' hg' hs'
      rw [hsect]
      exact .inl ((h.sect _ _ hg').mp hs')
    · obtain ⟨rfl, rfl, rfl⟩ := EsdItem.sect.inj hx
      exact absurd hpc' hpc

theorem snoc_private (h : Held s q) {i j : ℕ} {e : Lent} (hpc : e.type = .pc)
    (hord : OrderedAt q (.sect i j e)) : Held (passSection s i j e) (q ++ [.sect i j e]) := by
  obtain ⟨hG, hlocG, -⟩ := passSection_private hpc s i j
  have hname : (EsdItem.sect i j e).name = e.name := rfl
  have hnew : ((Gsym.fresh e.name).define i e).isSect = true := by
    simp [Gsym.define, Gsym.duplicate, hpc, isSectType]
  have hloc {i' j' : ℕ} {e' : Lent} (hm : .sect i' j' e' ∈ q) :
      (passSection s i j e).locG i' j' = s.locG i' j' := by
    apply passSection_locG_of_ne
    rintro ⟨rfl, rfl⟩
    exact hord.2 _ hm
  have hlab (i' : ℕ) (l : Ldent) (w : Option Lent) (hm : .label i' l w ∈ q) :
      (passSection s i j e).locG i' l.ownerLocal = s.locG i' l.ownerLocal := by
    apply passSection_locG_of_ne
    rintro ⟨rfl, -⟩
    exact hord.1 _ _ hm
  have hlook (n : Name) : look (passSection s i j e).G n = (look s.G n).or
      (if e.name = n then some ((Gsym.fresh e.name).define i e) else none) := by
    rw [hG, look_append, define_name]
    rfl
  have hsect (n : Name) : Sectioned (q ++ [.sect i j e]) n ↔
      Sectioned q n ∨ e.name = n ∧ firstEntry q n = none := by
    simp [sectioned_snoc, hname, EsdItem.type, hpc]
  constructor
  · intro n
    rw [hlook, firstEntry_snoc, hname, Option.or_eq_none_iff, Option.or_eq_none_iff, h.absent]
    by_cases hn : e.name = n <;> simp [hn]
  · intro n g hg
    rw [hlook] at hg
    rw [hsect]
    cases hl : look s.G n with
    | some g' =>
      rw [hl, Option.some_or, Option.some.injEq] at hg
      subst hg
      rw [h.sect n _ hl, ← h.absent, hl]
      simp
    | none =>
      rw [hl, Option.none_or] at hg
      split_ifs at hg with hn
      subst hn
      rw [← Option.some.inj hg]
      simp [hnew, (h.absent _).mp hl]
  · intro n g hg hs
    rw [hlook] at hg
    cases hl : look s.G n with
    | none =>
      rw [hl, Option.none_or] at hg
      split_ifs at hg with hn
      rw [← Option.some.inj hg, hnew] at hs
      exact absurd hs (by simp)
    | some g' =>
      rw [hl, Option.some_or, Option.some.injEq] at hg
      subst hg
      exact ((h.reference n _ hl hs).congr hlab).privately (by rw [Ne, ← h.absent, hl]; simp) hpc
  · intro i' j' e' hm hpc'
    rcases mem_sect_snoc hm with hm | hx
    · rw [hloc hm, hG, gFind_append, h.found i' j' e' hm hpc']
      rfl
    · obtain ⟨rfl, rfl, rfl⟩ := EsdItem.sect.inj hx
      exact absurd hpc hpc'
  · intro i' j' e' hm hpc'
    rw [hG]
    rcases mem_sect_snoc hm with hm | hx
    · obtain ⟨hlt, hs⟩ := h.priv i' j' e' hm hpc'
      rw [hloc hm, gAt_append_lt _ hlt]
      exact ⟨by rw [List.length_append]; omega, hs⟩
    · obtain ⟨rfl, rfl, rfl⟩ := EsdItem.sect.inj hx
      rw [hlocG, gAt_append_length]
      exact ⟨by simp, hnew⟩

theorem snoc_label (h : Held s q) {i : ℕ} {l : Ldent} {owner : Option Lent}
    (hlive : ¬ (owner.isSome ∧ s.dropped i l.ownerLocal)) :
    Held (passLabel s i l owner) (q ++ [.label i l owner]) := by
  obtain ⟨gi, hu⟩ := passLabel_updates hlive
  have hlocG : (passLabel s i l owner).locG = s.locG := (passLabel_locG s i l owner).1
  have hname : (EsdItem.label i l owner).name = l.name := rfl
  have hsect : ((interned (look s.G l.name) l.name .ld).label l owner
      (s.locG i l.ownerLocal)).isSect = true ↔ Sectioned q l.name := by
    rw [label_isSect, interned_isSect, h.sect_iff rfl]
  have hsect' (n : Name) : Sectioned (q ++ [.label i l owner]) n ↔ Sectioned q n := by
    simp [sectioned_snoc, EsdItem.type]
  constructor
  · intro n
    by_cases hn : l.name = n
    · subst hn
      rw [hu.look_self, firstEntry_snoc]
      cases firstEntry q l.name <;> simp [hname]
    · rw [hu.look_other (Ne.symm hn), h.absent, firstEntry_snoc, hname, if_neg hn, Option.or_none]
  · intro n g hg
    rw [hsect']
    by_cases hn : l.name = n
    · subst hn
      rw [hu.look_self, Option.some.injEq] at hg
      rw [← hg, hsect]
    · rw [hu.look_other (Ne.symm hn)] at hg
      exact h.sect n g hg
  · intro n g hg hs
    have hlab (i' : ℕ) (l' : Ldent) (w : Option Lent) (_ : .label i' l' w ∈ q ++ [.label i l owner]) :
        (passLabel s i l owner).locG i' l'.ownerLocal = s.locG i' l'.ownerLocal := by rw [hlocG]
    refine ReferenceOk.congr ?_ hlab
    by_cases hn : l.name = n
    · subst hn
      rw [hu.look_self, Option.some.injEq] at hg
      rw [← hg]
      refine ReferenceOk.labelled (h.absent _) ?_ rfl
      intro g' hg'
      apply h.reference _ _ hg'
      rw [← Bool.not_eq_true, h.sect _ _ hg', ← hsect, hg, hs]
      simp
    · rw [hu.look_other (Ne.symm hn)] at hg
      exact (h.reference n g hg hs).other (by exact hn)
  · intro i' j' e' hm hpc'
    rcases mem_sect_snoc hm with hm | hx
    · rw [hlocG]
      exact hu.find_le (h.found i' j' e' hm hpc')
    · simp at hx
  · intro i' j' e' hm hpc'
    rcases mem_sect_snoc hm with hm | hx
    · obtain ⟨hlt, hs⟩ := h.priv i' j' e' hm hpc'
      rw [hlocG]
      refine ⟨hlt.trans_le hu.length, isSect_mono hu ?_ hlt hs⟩
      intro g' hg' hs'
      rw [hsect]
      exact (h.sect _ _ hg').mp hs'
    · simp at hx

end Held

theorem step_dropped {x : EsdItem} {i j : ℕ} (h : ∀ e, x ≠ .sect i j e) (s : Composite) :
    (s.step x).dropped i j = s.dropped i j := by
  cases x with
  | label i' l w => exact congrFun (congrFun (passLabel_locG s i' l w).2 i) j
  | sect i' j' e =>
    have hne : ¬ (i = i' ∧ j = j') := by
      rintro ⟨rfl, rfl⟩
      exact h e rfl
    simp only [Composite.step, passSection, ite_eq_right_iff]
    rintro ⟨h1, h2, -⟩
    exact absurd ⟨h1, h2⟩ hne

theorem foldl_step_dropped {q : List EsdItem} {i j : ℕ} (h : ∀ e, .sect i j e ∉ q)
    (s : Composite) : (q.foldl Composite.step s).dropped i j = s.dropped i j := by
  induction q generalizing s with
  | nil => rfl
  | cons x q ih =>
    rw [List.foldl_cons, ih fun e hm => h e (List.mem_cons_of_mem _ hm), step_dropped]
    rintro e rfl
    exact h e (by simp)

/-- When PASS 2 comes to a label, the fate of its owner is settled. -/
theorem dropped_settled {p q : List EsdItem} {i : ℕ} {l : Ldent} {w : Option Lent}
    (ho : (p ++ .label i l w :: q).Pairwise Before) :
    (run (p ++ .label i l w :: q)).dropped i l.ownerLocal = (run p).dropped i l.ownerLocal := by
  rw [run, List.foldl_append]
  apply foldl_step_dropped
  intro e hm
  rcases List.mem_cons.mp hm with hm | hm
  · simp at hm
  · have hb := (List.pairwise_cons.mp (List.pairwise_append.mp ho).2.1).1 _ hm
    exact hb.1 l w rfl

/-- What holds of the empty table, and stays when the next of the live items is entered, holds of the
composite table and the live items. -/
theorem live_induction {O : List Obj} {P : Composite → List EsdItem → Prop} (hnil : P .empty [])
    (hsect : ∀ s q r i j e, liveItems O = q ++ .sect i j e :: r → OrderedAt q (.sect i j e) → s.dropped i j = false →
      P s q → P (passSection s i j e) (q ++ [.sect i j e]))
    (hlabel : ∀ s q r i l owner, liveItems O = q ++ .label i l owner :: r → ¬ (owner.isSome ∧ s.dropped i l.ownerLocal) →
      P s q → P (passLabel s i l owner) (q ++ [.label i l owner])) : P (pass2 O) (liveItems O) := by
  have ho := items_pairwise O
  have hrun (p r : List EsdItem) (hL : items O = p ++ r) : P (run p) (p.filter (EsdItem.live (pass2 O).dropped)) := by
    induction p using List.reverseRecOn generalizing r with
    | nil => exact hnil
    | append_singleton p x ih =>
      have hL' : items O = p ++ x :: r := by simpa using hL
      have hp := ih _ hL'
      have hbefore : ∀ y ∈ p, Before y x := by
        intro y hy
        rw [hL'] at ho
        exact (List.pairwise_append.mp ho).2.2 y hy x (by simp)
      have hsplit : EsdItem.live (pass2 O).dropped x = true → liveItems O =
          p.filter (EsdItem.live (pass2 O).dropped) ++ x :: r.filter (EsdItem.live (pass2 O).dropped) := by
        intro hlive
        rw [liveItems, hL', List.filter_append, List.filter_cons_of_pos hlive]
      rw [run_snoc, List.filter_append]
      cases x with
      | sect i j e =>
        have hf : [EsdItem.sect i j e].filter (EsdItem.live (pass2 O).dropped) = [.sect i j e] := rfl
        have hd : (run p).dropped i j = false := by
          rw [run, foldl_step_dropped]
          · rfl
          · intro e' hm
            exact (hbefore _ hm).2 e' rfl
        rw [hf]
        exact hsect _ _ _ i j e (hsplit rfl) (orderedAt_of_before fun y hy => hbefore y (List.mem_filter.mp hy).1) hd hp
      | label i l owner =>
        have hd : (pass2 O).dropped i l.ownerLocal = (run p).dropped i l.ownerLocal := by
          rw [hL'] at ho
          have hsettled := dropped_settled ho
          rwa [← hL'] at hsettled
        by_cases hskip : owner.isSome ∧ (run p).dropped i l.ownerLocal
        · have hf : [EsdItem.label i l owner].filter (EsdItem.live (pass2 O).dropped) = [] := by
            simp [EsdItem.live, hd, hskip]
          rw [hf, List.append_nil]
          change P (passLabel _ i l owner) _
          rwa [passLabel, if_pos hskip]
        · have hlive : EsdItem.live (pass2 O).dropped (.label i l owner) = true := by
            cases owner with
            | none => rfl
            | some w => simpa [EsdItem.live, hd] using hskip
          rw [List.filter_cons_of_pos hlive, List.filter_nil]
          exact hlabel _ _ _ i l owner (hsplit hlive) hskip hp
  exact hrun (items O) [] (List.append_nil _).symm

theorem held (O : List Obj) : Held (pass2 O) (liveItems O) := by
  apply live_induction Held.nil
  · intro s q r i j e _ hord _ h
    by_cases hpc : e.type = .pc
    · exact h.snoc_private hpc hord
    · exact h.snoc_sect hpc hord
  · intro s q r i l owner _ hlive h
    exact h.snoc_label hlive

theorem mem_liveItems_sect {O : List Obj} {i j : ℕ} {e : Lent} : .sect i j e ∈ liveItems O ↔ .sect i j e ∈ items O := by
  simp [liveItems, EsdItem.live]

end Cc370.Ld370
