import Cc370.Ld370.LiveItems
import Cc370.Ld370.Extents

namespace Cc370.Ld370

/-- An item that takes the composite entry of a control section or of private code away from it. -/
def Displaces (q : List EsdItem) : EsdItem → Prop
  | .sect _ _ e => (e.type = .sd ∨ e.type = .cm) ∧ ∃ x, firstEntry q e.name = some x ∧ x.type = .pc
  | .label _ l _ => (∃ x ∈ q, x.name = l.name ∧ x.type = .sd) ∨ ∃ x, firstEntry q l.name = some x ∧ x.type = .pc

/-- No label comes after a control section of its name, and nothing is defined under a name that private
code has brought up. -/
def SectionsStand (O : List Obj) : Prop := ∀ q x r, liveItems O = q ++ x :: r → ¬ Displaces q x

/-- The composite entry of a section is the section's. -/
structure Stands (s : Composite) (i j : ℕ) (e : Lent) : Prop where
  lt : s.locG i j < s.G.length
  name : (gAt s.G (s.locG i j)).name = e.name
  isSect : (gAt s.G (s.locG i j)).isSect = true
  type : (gAt s.G (s.locG i j)).type = e.type
  len : (gAt s.G (s.locG i j)).len = e.len
  defObj : (gAt s.G (s.locG i j)).defObj = some i
  inAddr : (gAt s.G (s.locG i j)).inAddr = e.addr

/-- A section with storage in its object that is no dropped duplicate. -/
structure KeptSect (s : Composite) (q : List EsdItem) (i j : ℕ) (e : Lent) : Prop where
  mem : .sect i j e ∈ q
  obj : isObjSect e.type = true
  kept : s.dropped i j = false

structure Standing (s : Composite) (q : List EsdItem) : Prop where
  stands : ∀ i j e, KeptSect s q i j e → Stands s i j e
  only : ∀ k < s.G.length, (gAt s.G k).isSect = true → isObjSect (gAt s.G k).type = true → ∃ i j e, KeptSect s q i j e ∧ s.locG i j = k
  common : ∀ k < s.G.length, (gAt s.G k).isSect = true → (gAt s.G k).type = .cm → (gAt s.G k).defObj = none
  kinds : ∀ k < s.G.length, isSectType (gAt s.G k).type = true → (gAt s.G k).isSect = true
  priv : ∀ n g, look s.G n = some g → g.type = .pc → ∃ x, firstEntry q n = some x ∧ x.type = .pc
  inj : ∀ i j e i' j' e', KeptSect s q i j e → KeptSect s q i' j' e' → s.locG i j = s.locG i' j' → i = i' ∧ j = j'

theorem isObjSect_iff {t : EsdType} : isObjSect t = true ↔ t = .sd ∨ t = .pc := by
  simp [isObjSect]

theorem isSectType_iff {t : EsdType} : isSectType t = true ↔ t = .sd ∨ t = .pc ∨ t = .cm := by
  simp [isSectType]

theorem gIntern_length (G : List Gsym) (n : Name) (t : EsdType) :
    ∀ k < (gIntern G n t).1.length, k < G.length ∨ k = (gIntern G n t).2 := by
  unfold gIntern
  cases gFind G n with
  | some i =>
    intro k hk
    left
    simpa using hk
  | none =>
    intro k hk
    dsimp only at hk ⊢
    rw [List.length_append, List.length_singleton] at hk
    omega

theorem look_lt {G : List Gsym} {n : Name} {g : Gsym} (h : look G n = some g) : ∃ k < G.length, gAt G k = g := by
  obtain ⟨k, hk, rfl⟩ := Option.map_eq_some_iff.mp h
  exact ⟨k, gFind_lt hk, rfl⟩

theorem interned_eq (o : Option Gsym) (n : Name) (t : EsdType) :
    (o = none ∧ interned o n t = { Gsym.fresh n with type := t }) ∨
      (∃ g, o = some g ∧ g.type = .wx ∧ interned o n t = { g with type := .er }) ∨ o = some (interned o n t) := by
  cases o with
  | none => exact .inl ⟨rfl, rfl⟩
  | some g =>
    simp only [interned, Option.elim_some]
    split_ifs with hw
    · exact .inr (.inl ⟨g, rfl, hw.1, rfl⟩)
    · exact .inr (.inr rfl)

theorem passSection_G {s : Composite} {i j : ℕ} {e : Lent} (hpc : e.type ≠ .pc) : (passSection s i j e).G =
    (gIntern s.G e.name e.type).1.set (gIntern s.G e.name e.type).2 ((interned (look s.G e.name) e.name e.type).define i e) ∧
      (passSection s i j e).locG i j = (gIntern s.G e.name e.type).2 := by
  have hg := (gIntern_updates s.G e.name e.type).entry
  simp only [passSection, Lent.intern, hpc, ↓reduceIte, and_self, hg]

theorem passLabel_G {s : Composite} {i : ℕ} {l : Ldent} {owner : Option Lent} (hlive : ¬ (owner.isSome ∧ s.dropped i l.ownerLocal)) :
    (passLabel s i l owner).G = (gIntern s.G l.name .ld).1.set (gIntern s.G l.name .ld).2
      ((interned (look s.G l.name) l.name .ld).label l owner (s.locG i l.ownerLocal)) := by
  have hg := (gIntern_updates s.G l.name .ld).entry
  rw [passLabel, if_neg hlive]
  simp only [hg]

theorem label_type (g : Gsym) (l : Ldent) (owner : Option Lent) (k : ℕ) : (g.label l owner k).type = .lr := by
  unfold Gsym.label
  split_ifs with hd
  · simp only [Gsym.doublyDefined, decide_eq_true_eq] at hd
    exact hd.1
  · rfl

namespace Standing

theorem nil : Standing .empty [] := by
  refine ⟨?_, ?_, ?_, ?_, ?_, ?_⟩
  · rintro i j e ⟨hm, -, -⟩
    exact absurd hm List.not_mem_nil
  · intro k hk
    exact absurd hk (Nat.not_lt_zero _)
  · intro k hk
    exact absurd hk (Nat.not_lt_zero _)
  · intro k hk
    exact absurd hk (Nat.not_lt_zero _)
  · intro n g hg
    simp [Composite.empty, look, gFind] at hg
  · rintro i j e i' j' e' ⟨hm, -, -⟩
    exact absurd hm List.not_mem_nil

variable {s s' : Composite} {q : List EsdItem} {x : EsdItem}

/-- What a step leaves alone of the sections met before it. -/
structure Leaves (s s' : Composite) (q : List EsdItem) (x : EsdItem) : Prop where
  locG : ∀ i j e, .sect i j e ∈ q → s'.locG i j = s.locG i j
  dropped : ∀ i j e, .sect i j e ∈ q → s'.dropped i j = s.dropped i j

theorem Leaves.kept (h : Leaves s s' q x) {i j : ℕ} {e : Lent} (hm : .sect i j e ∈ q) (hk : KeptSect s' (q ++ [x]) i j e) :
    KeptSect s q i j e := ⟨hm, hk.obj, by rw [← h.dropped i j e hm]; exact hk.kept⟩

theorem Leaves.kept' (h : Leaves s s' q x) {i j : ℕ} {e : Lent} (hk : KeptSect s q i j e) : KeptSect s' (q ++ [x]) i j e :=
  ⟨List.mem_append_left _ hk.mem, hk.obj, by rw [h.dropped i j e hk.mem]; exact hk.kept⟩

/-- A step that replaces or adds one entry. -/
theorem update (h : Standing s q) {gi : ℕ} {g : Gsym} (hentry : gAt s'.G gi = g) (hother : ∀ k < s.G.length, k ≠ gi → gAt s'.G k = gAt s.G k)
    (hlength : s.G.length ≤ s'.G.length) (hl : Leaves s s' q x) (hlen : ∀ k < s'.G.length, k < s.G.length ∨ k = gi)
    (hold : gi < s.G.length → (gAt s.G gi).isSect = true → isObjSect (gAt s.G gi).type = true → g = gAt s.G gi)
    (hnew : g.isSect = true → isObjSect g.type = true → (gi < s.G.length ∧ g = gAt s.G gi) ∨
      ∃ i j e, KeptSect s' (q ++ [x]) i j e ∧ s'.locG i j = gi)
    (hfresh : ∀ i j e, x = .sect i j e → isObjSect e.type = true → s'.dropped i j = false → Stands s' i j e ∧
      ∀ i' j' e', KeptSect s q i' j' e' → s.locG i' j' ≠ s'.locG i j)
    (hcm : g.isSect = true → g.type = .cm → g.defObj = none) (hkind : isSectType g.type = true → g.isSect = true)
    (hpriv : ∀ n g, look s'.G n = some g → g.type = .pc → ∃ y, firstEntry (q ++ [x]) n = some y ∧ y.type = .pc) : Standing s' (q ++ [x]) := by
  have hcase : ∀ i j e, KeptSect s' (q ++ [x]) i j e → KeptSect s q i j e ∨ x = .sect i j e := by
    intro i j e hk
    rcases mem_sect_snoc hk.mem with hm | hx
    · exact .inl (hl.kept hm hk)
    · exact .inr hx
  refine ⟨?_, ?_, ?_, ?_, ?_, ?_⟩
  · intro i j e hk
    rcases hcase i j e hk with hk' | hx
    · have hs := h.stands i j e hk'
      have hloc := hl.locG i j e hk'.mem
      have hsame : gAt s'.G (s.locG i j) = gAt s.G (s.locG i j) := by
        by_cases hgi : s.locG i j = gi
        · rw [hgi, hentry]
          apply hold (hgi ▸ hs.lt)
          · rw [← hgi]
            exact hs.isSect
          · rw [← hgi, hs.type]
            exact hk'.obj
        · exact hother _ hs.lt hgi
      exact ⟨by rw [hloc]; exact hs.lt.trans_le hlength, by rw [hloc, hsame]; exact hs.name, by rw [hloc, hsame]; exact hs.isSect,
        by rw [hloc, hsame]; exact hs.type, by rw [hloc, hsame]; exact hs.len, by rw [hloc, hsame]; exact hs.defObj,
        by rw [hloc, hsame]; exact hs.inAddr⟩
    · exact (hfresh i j e hx hk.obj hk.kept).1
  · intro k hk hs ht
    have hprev : k < s.G.length → gAt s'.G k = gAt s.G k → ∃ i j e, KeptSect s' (q ++ [x]) i j e ∧ s'.locG i j = k := by
      intro hlt hsame
      rw [hsame] at hs ht
      obtain ⟨i, j, e, hkept, hloc⟩ := h.only k hlt hs ht
      exact ⟨i, j, e, hl.kept' hkept, by rw [hl.locG i j e hkept.mem]; exact hloc⟩
    by_cases hgi : k = gi
    · subst hgi
      rw [hentry] at hs ht
      rcases hnew hs ht with ⟨hlt, hsame⟩ | hex
      · exact hprev hlt (hentry.trans hsame)
      · exact hex
    · have hlt := (hlen k hk).resolve_right hgi
      exact hprev hlt (hother k hlt hgi)
  · intro k hk
    by_cases hgi : k = gi
    · rw [hgi, hentry]
      exact hcm
    · have hlt := (hlen k hk).resolve_right hgi
      rw [hother k hlt hgi]
      exact h.common k hlt
  · intro k hk
    by_cases hgi : k = gi
    · rw [hgi, hentry]
      exact hkind
    · have hlt := (hlen k hk).resolve_right hgi
      rw [hother k hlt hgi]
      exact h.kinds k hlt
  · exact hpriv
  · intro i j e i' j' e' hk hk' heq
    rcases hcase i j e hk with h₁ | h₁ <;> rcases hcase i' j' e' hk' with h₂ | h₂
    · rw [hl.locG i j e h₁.mem, hl.locG i' j' e' h₂.mem] at heq
      exact h.inj i j e i' j' e' h₁ h₂ heq
    · rw [hl.locG i j e h₁.mem] at heq
      exact absurd heq ((hfresh i' j' e' h₂ hk'.obj hk'.kept).2 i j e h₁)
    · rw [hl.locG i' j' e' h₂.mem] at heq
      exact absurd heq.symm ((hfresh i j e h₁ hk.obj hk.kept).2 i' j' e' h₂)
    · obtain ⟨rfl, rfl, -⟩ := EsdItem.sect.inj (h₁.symm.trans h₂)
      exact ⟨rfl, rfl⟩

/-- Private code has an entry of its own. -/
theorem snoc_private (h : Standing s q) (hh : Held s q) {i j : ℕ} {e : Lent} (hpc : e.type = .pc) (ho : OrderedAt q (.sect i j e))
    (hd : s.dropped i j = false) : Standing (passSection s i j e) (q ++ [.sect i j e]) := by
  obtain ⟨hG, hloc, hdrop⟩ := passSection_private hpc s i j
  have hnew : (Gsym.fresh e.name).define i e = ⟨e.name, .pc, true, 0, 0, e.len, some i, e.addr, none⟩ := by
    simp [Gsym.define, Gsym.duplicate, Gsym.fresh, isSectType, hpc]
  have hentry : gAt (passSection s i j e).G s.G.length = ⟨e.name, .pc, true, 0, 0, e.len, some i, e.addr, none⟩ := by
    rw [hG, gAt_append_length, hnew]
  have hl : Leaves s (passSection s i j e) q (.sect i j e) := by
    refine ⟨?_, fun i' j' e' _ => by rw [hdrop]⟩
    intro i' j' e' hm
    apply passSection_locG_of_ne
    rintro ⟨rfl, rfl⟩
    exact ho.2 e' hm
  have hst : Stands (passSection s i j e) i j e := by
    refine ⟨?_, ?_, ?_, ?_, ?_, ?_, ?_⟩
    · rw [hloc, hG, List.length_append]
      exact Nat.lt_succ_self _
    all_goals rw [hloc, hentry]
    exact hpc.symm
  refine h.update hentry ?_ (by rw [hG, List.length_append]; omega) hl ?_ (fun hlt => absurd hlt (lt_irrefl _)) ?_ ?_ (by simp) (fun _ => rfl) ?_
  · intro k hk _
    rw [hG, gAt_append_lt _ hk]
  · intro k hk
    rw [hG, List.length_append, List.length_singleton] at hk
    omega
  · intro _ _
    refine .inr ⟨i, j, e, ⟨by simp, by simp [isObjSect, hpc], ?_⟩, hloc⟩
    rw [hdrop]
    exact hd
  · intro i' j' e' hx _ _
    obtain ⟨rfl, rfl, rfl⟩ := EsdItem.sect.inj hx
    refine ⟨hst, ?_⟩
    intro i' j' e' hk heq
    have hlt := (h.stands i' j' e' hk).lt
    omega
  · intro n g hg ht
    rw [hG, look_append, hnew] at hg
    rw [firstEntry_snoc]
    cases hlook : look s.G n with
    | some g' =>
      rw [hlook] at hg
      obtain rfl := Option.some.inj hg
      obtain ⟨y, hy, hty⟩ := h.priv n g' hlook ht
      exact ⟨y, by rw [hy]; rfl, hty⟩
    | none =>
      rw [hlook] at hg
      have habs := (hh.absent n).mp hlook
      rw [Option.none_or] at hg
      split_ifs at hg with hn
      refine ⟨.sect i j e, ?_, hpc⟩
      rw [habs, Option.none_or]
      exact if_pos hn

/-- A symbol that is entered by its name, with what its entry becomes. -/
theorem snoc_interned (h : Standing s q) {n : Name} {t : EsdType} {g : Gsym}
    (hG : s'.G = (gIntern s.G n t).1.set (gIntern s.G n t).2 g) (hname : g.name = n) (hl : Leaves s s' q x)
    (hold : ∀ g', look s.G n = some g' → g'.isSect = true → isObjSect g'.type = true → g = g')
    (hnew : g.isSect = true → isObjSect g.type = true → look s.G n = some g ∨
      ∃ i j e, KeptSect s' (q ++ [x]) i j e ∧ s'.locG i j = (gIntern s.G n t).2)
    (hfresh : ∀ i j e, x = .sect i j e → isObjSect e.type = true → s'.dropped i j = false → Stands s' i j e ∧
      ∀ i' j' e', KeptSect s q i' j' e' → s.locG i' j' ≠ s'.locG i j)
    (hcm : g.isSect = true → g.type = .cm → g.defObj = none) (hkind : isSectType g.type = true → g.isSect = true)
    (hpc : g.type = .pc → look s.G n = some g) : Standing s' (q ++ [x]) := by
  have hu : Updates s.G s'.G n (gIntern s.G n t).2 g := by
    rw [hG]
    exact (gIntern_updates s.G n t).set hname
  have hat : (gIntern s.G n t).2 < s.G.length → look s.G n = some (gAt s.G (gIntern s.G n t).2) := by
    intro hlt
    rw [look, hu.find_of_lt hlt]
    rfl
  refine h.update hu.entry hu.atOther hu.length hl ?_ (fun hlt => hold _ (hat hlt)) ?_ hfresh hcm hkind ?_
  · intro k hk
    apply gIntern_length s.G n t k
    rw [hG, List.length_set] at hk
    exact hk
  · intro hs ho
    rcases hnew hs ho with hlook | hex
    · obtain ⟨k, hk, hentry⟩ := Option.map_eq_some_iff.mp hlook
      have hkk := hu.mono k hk
      exact .inl ⟨hkk ▸ gFind_lt hk, by rw [← hkk]; exact hentry.symm⟩
    · exact .inr hex
  · intro m g' hg' hpriv
    have hprev : look s.G m = some g' := by
      by_cases hm : m = n
      · subst hm
        rw [hu.look_self] at hg'
        obtain rfl := Option.some.inj hg'
        exact hpc hpriv
      · rwa [hu.look_other hm] at hg'
    obtain ⟨y, hy, hty⟩ := h.priv m g' hprev hpriv
    exact ⟨y, by rw [firstEntry_snoc, hy]; rfl, hty⟩

/-- An entry that is a section, or of one of their types, is the entry that was there. -/
theorem look_interned (h : Standing s q) {n : Name} {t : EsdType} :
    ((interned (look s.G n) n t).isSect = true → (interned (look s.G n) n t).type ≠ .er → look s.G n = some (interned (look s.G n) n t)) ∧
      (∀ g, look s.G n = some g → g.type ≠ .wx → interned (look s.G n) n t = g) := by
  constructor
  · intro hs ht
    rcases interned_eq (look s.G n) n t with ⟨-, heq⟩ | ⟨g, -, -, heq⟩ | heq
    · rw [heq] at hs
      exact absurd hs (by simp [Gsym.fresh])
    · rw [heq] at ht
      exact absurd rfl ht
    · exact heq
  · intro g hg hw
    rw [hg, interned_of_ne_wx hw]

section Section

variable {i j : ℕ} {e : Lent}

theorem leaves_section (ho : OrderedAt q (.sect i j e)) : Leaves s (passSection s i j e) q (.sect i j e) := by
  have hne : ∀ i' j' e', EsdItem.sect i' j' e' ∈ q → ¬ (i' = i ∧ j' = j) := by
    rintro i' j' e' hm ⟨rfl, rfl⟩
    exact ho.2 e' hm
  refine ⟨fun i' j' e' hm => passSection_locG_of_ne s e (hne i' j' e' hm), ?_⟩
  intro i' j' e' hm
  apply step_dropped (x := .sect i j e)
  intro e'' heq
  obtain ⟨rfl, rfl, -⟩ := EsdItem.sect.inj heq
  exact hne i j e' hm ⟨rfl, rfl⟩

theorem snoc_csect (h : Standing s q) (ht : e.type = .sd) (ho : OrderedAt q (.sect i j e)) (hd : s.dropped i j = false)
    (hdis : ¬ Displaces q (.sect i j e)) : Standing (passSection s i j e) (q ++ [.sect i j e]) := by
  have hpc : e.type ≠ .pc := by rw [ht]; decide
  obtain ⟨hG, hloc⟩ := passSection_G (s := s) (i := i) (j := j) hpc
  have hl := leaves_section (s := s) ho
  have hdrop := congrFun (congrFun (passSection_dropped hpc s i j) i) j
  simp only [true_and] at hdrop
  obtain ⟨hback, hsame⟩ := h.look_interned (n := e.name) (t := e.type)
  have hname : ((interned (look s.G e.name) e.name e.type).define i e).name = e.name := (define_name _ _ _).trans (interned_name _)
  generalize hg0 : interned (look s.G e.name) e.name e.type = g0 at *
  -- a section that stands where this one goes is an SD of its name, for private code is ruled out
  have hat : ∀ g, look s.G e.name = some g → g.isSect = true → isObjSect g.type = true → g.type = .sd := by
    intro g hg _ hobj
    rcases isObjSect_iff.mp hobj with hsd | hpriv
    · exact hsd
    · exact absurd ⟨.inl ht, h.priv e.name g hg hpriv⟩ hdis
  by_cases hdup : g0.duplicate e = true
  · have hgd : g0.define i e = g0 := by rw [Gsym.define, if_pos hdup]
    obtain ⟨-, hs, hsd⟩ : e.type = .sd ∧ g0.isSect = true ∧ g0.type = .sd := by simpa [Gsym.duplicate] using hdup
    have hlook := hback hs (by rw [hsd]; decide)
    rw [hgd] at hG
    refine h.snoc_interned hG (by rw [← hgd]; exact hname) hl ?_ (fun _ _ => .inl hlook) ?_ ?_ (fun _ => hs) ?_
    · intro g hg _ _
      exact Option.some.inj (hlook.symm.trans hg)
    · intro i' j' e' hx _ hkept
      obtain ⟨rfl, rfl, rfl⟩ := EsdItem.sect.inj hx
      rw [hdrop, if_pos hdup] at hkept
      exact absurd hkept (by simp)
    · intro _ hcm
      exact absurd (hsd.symm.trans hcm) (by decide)
    · intro hp
      exact absurd (hsd.symm.trans hp) (by decide)
  · have hgd := define_new (by simpa using hdup) ht i
    have hnone : ∀ g, look s.G e.name = some g → g.isSect = true → isObjSect g.type = true → False := by
      intro g hg hs hobj
      have hsd := hat g hg hs hobj
      have heq := hsame g hg (by rw [hsd]; decide)
      exact hdup (by simp [Gsym.duplicate, ht, heq, hs, hsd])
    have hentry : gAt (passSection s i j e).G (gIntern s.G e.name e.type).2 = g0.define i e := by
      rw [hG]
      exact gAt_set_self _ (gIntern_updates s.G e.name e.type).lt
    have hst : Stands (passSection s i j e) i j e := by
      refine ⟨?_, ?_, ?_, ?_, ?_, ?_, ?_⟩
      · rw [hloc, hG, List.length_set]
        exact (gIntern_updates s.G e.name e.type).lt
      · rw [hloc, hentry]
        exact hname
      all_goals rw [hloc, hentry, hgd]
      exact ht.symm
    refine h.snoc_interned hG hname hl (fun g hg hs hobj => absurd (hnone g hg hs hobj) id) ?_ ?_ ?_ ?_ ?_
    · intro _ _
      refine .inr ⟨i, j, e, ⟨by simp, by simp [isObjSect, ht], ?_⟩, hloc⟩
      rw [hdrop, if_neg hdup]
      exact hd
    · intro i' j' e' hx _ _
      obtain ⟨rfl, rfl, rfl⟩ := EsdItem.sect.inj hx
      refine ⟨hst, ?_⟩
      intro i' j' e' hk heq
      have hs' := h.stands i' j' e' hk
      rw [hloc] at heq
      have hlook : look s.G e.name = some (gAt s.G (s.locG i' j')) := by
        have hlt := hs'.lt
        rw [heq] at hlt ⊢
        rw [look, (gIntern_updates s.G e.name e.type).find_of_lt hlt]
        rfl
      exact hnone _ hlook hs'.isSect (by rw [hs'.type]; exact hk.obj)
    · rw [hgd]
      simp
    · intro _
      rw [hgd]
    · rw [hgd]
      simp

theorem snoc_common (h : Standing s q) (ht : e.type = .cm) (ho : OrderedAt q (.sect i j e)) (hdis : ¬ Displaces q (.sect i j e)) :
    Standing (passSection s i j e) (q ++ [.sect i j e]) := by
  have hpc : e.type ≠ .pc := by rw [ht]; decide
  obtain ⟨hG, -⟩ := passSection_G (s := s) (i := i) (j := j) hpc
  have hl := leaves_section (s := s) ho
  obtain ⟨hback, hsame⟩ := h.look_interned (n := e.name) (t := e.type)
  have hname : ((interned (look s.G e.name) e.name e.type).define i e).name = e.name := (define_name _ _ _).trans (interned_name _)
  generalize interned (look s.G e.name) e.name e.type = g0 at *
  have hgd : g0.define i e = g0.mergeCommon e.len := by simp [Gsym.define, Gsym.duplicate, ht]
  -- a control section stays what it is, everything else becomes a common area
  have hcases : (g0.isSect = true ∧ g0.type = .sd ∧ g0.define i e = g0) ∨
      ((g0.define i e).isSect = true ∧ (g0.define i e).type = .cm ∧
        ((g0.define i e).defObj = none ∨ g0.isSect = true ∧ g0.type = .cm ∧ (g0.define i e).defObj = g0.defObj)) := by
    rw [hgd, Gsym.mergeCommon]
    by_cases hsd : g0.isSect = true ∧ g0.type = .sd
    · exact .inl ⟨hsd.1, hsd.2, if_pos hsd⟩
    · right
      rw [if_neg hsd]
      by_cases hcm : g0.isSect = true ∧ g0.type = .cm
      · rw [if_pos hcm]
        dsimp only
        split_ifs
        · exact ⟨hcm.1, hcm.2, .inr ⟨hcm.1, hcm.2, rfl⟩⟩
        · exact ⟨hcm.1, hcm.2, .inr ⟨hcm.1, hcm.2, rfl⟩⟩
      · rw [if_neg hcm]
        dsimp only
        split_ifs
        · exact ⟨rfl, rfl, .inl rfl⟩
        · exact ⟨rfl, rfl, .inl rfl⟩
  refine h.snoc_interned hG hname hl ?_ ?_ ?_ ?_ ?_ ?_
  · intro g hg hs hobj
    rcases isObjSect_iff.mp hobj with hsd | hpriv
    · have heq := hsame g hg (by rw [hsd]; decide)
      rw [hgd, Gsym.mergeCommon, if_pos ⟨heq ▸ hs, heq ▸ hsd⟩, heq]
    · exact absurd ⟨.inr ht, h.priv e.name g hg hpriv⟩ hdis
  · intro hs hobj
    rcases hcases with ⟨hs0, hsd, heq⟩ | ⟨-, hcm, -⟩
    · rw [heq]
      exact .inl (hback hs0 (by rw [hsd]; decide))
    · rw [hcm] at hobj
      exact absurd hobj (by decide)
  · intro i' j' e' hx hobj
    obtain ⟨rfl, rfl, rfl⟩ := EsdItem.sect.inj hx
    rw [ht] at hobj
    exact absurd hobj (by decide)
  · intro hs hcm
    rcases hcases with ⟨-, hsd, heq⟩ | ⟨-, -, hnone | ⟨hs0, hcm0, hdef⟩⟩
    · rw [heq, hsd] at hcm
      exact absurd hcm (by decide)
    · exact hnone
    · obtain ⟨k, hk, hentry⟩ := look_lt (hback hs0 (by rw [hcm0]; decide))
      rw [hdef, ← hentry]
      exact h.common k hk (by rw [hentry]; exact hs0) (by rw [hentry]; exact hcm0)
  · intro _
    rcases hcases with ⟨hs0, -, heq⟩ | ⟨hs, -, -⟩
    · rw [heq]
      exact hs0
    · exact hs
  · intro hp
    rcases hcases with ⟨-, hsd, heq⟩ | ⟨-, hcm, -⟩
    · rw [heq, hsd] at hp
      exact absurd hp (by decide)
    · rw [hcm] at hp
      exact absurd hp (by decide)

theorem snoc_reference (h : Standing s q) (hsect : isSectType e.type = false) (ho : OrderedAt q (.sect i j e)) :
    Standing (passSection s i j e) (q ++ [.sect i j e]) := by
  obtain ⟨hsd, hpc, hcm⟩ : e.type ≠ .sd ∧ e.type ≠ .pc ∧ e.type ≠ .cm := by simpa [isSectType, not_or] using hsect
  obtain ⟨hG, -⟩ := passSection_G (s := s) (i := i) (j := j) hpc
  obtain ⟨hback, hsame⟩ := h.look_interned (n := e.name) (t := e.type)
  have hcases := interned_eq (look s.G e.name) e.name e.type
  have hname : (interned (look s.G e.name) e.name e.type).name = e.name := interned_name _
  rw [define_reference hsd hcm hpc] at hG
  generalize interned (look s.G e.name) e.name e.type = g0 at *
  have hthere : isSectType g0.type = true → look s.G e.name = some g0 := by
    intro ht
    rcases hcases with ⟨-, heq⟩ | ⟨g, -, -, heq⟩ | heq
    · rw [heq] at ht
      exact absurd ht (by simp [hsect])
    · rw [heq] at ht
      exact absurd ht (by simp [isSectType])
    · exact heq
  have hobj : isObjSect g0.type = true → isSectType g0.type = true := by
    intro ho
    rcases isObjSect_iff.mp ho with h | h
    · simp [isSectType, h]
    · simp [isSectType, h]
  refine h.snoc_interned hG hname (leaves_section ho) ?_ (fun _ ho => .inl (hthere (hobj ho))) ?_ ?_ ?_ ?_
  · intro g hg _ ho
    apply hsame g hg
    intro hw
    rw [hw] at ho
    exact absurd ho (by decide)
  · intro i' j' e' hx hobj'
    obtain ⟨rfl, rfl, rfl⟩ := EsdItem.sect.inj hx
    rcases isObjSect_iff.mp hobj' with h | h
    · exact absurd h hsd
    · exact absurd h hpc
  · intro hs ht
    obtain ⟨k, hk, hentry⟩ := look_lt (hthere (by simp [isSectType, ht]))
    rw [← hentry]
    exact h.common k hk (by rw [hentry]; exact hs) (by rw [hentry]; exact ht)
  · intro ht
    obtain ⟨k, hk, hentry⟩ := look_lt (hthere ht)
    rw [← hentry]
    exact h.kinds k hk (by rw [hentry]; exact ht)
  · intro hp
    exact hthere (by simp [isSectType, hp])

end Section

theorem snoc_label (h : Standing s q) {i : ℕ} {l : Ldent} {owner : Option Lent} (hlive : ¬ (owner.isSome ∧ s.dropped i l.ownerLocal))
    (hdis : ¬ Displaces q (.label i l owner)) : Standing (passLabel s i l owner) (q ++ [.label i l owner]) := by
  have hG := passLabel_G hlive
  obtain ⟨hloc, hdrop⟩ := passLabel_locG s i l owner
  have hl : Leaves s (passLabel s i l owner) q (.label i l owner) := ⟨fun _ _ _ _ => by rw [hloc], fun _ _ _ _ => by rw [hdrop]⟩
  have hname : ((interned (look s.G l.name) l.name .ld).label l owner (s.locG i l.ownerLocal)).name = l.name :=
    (label_name _ _ _ _).trans (interned_name _)
  have hlr := label_type (interned (look s.G l.name) l.name .ld) l owner (s.locG i l.ownerLocal)
  generalize (interned (look s.G l.name) l.name .ld).label l owner (s.locG i l.ownerLocal) = g at *
  refine h.snoc_interned hG hname hl ?_ ?_ nofun ?_ ?_ ?_
  · intro g' hg' hs hobj
    refine absurd ?_ hdis
    rcases isObjSect_iff.mp hobj with hsd | hpriv
    · obtain ⟨k, hk, hentry⟩ := look_lt hg'
      obtain ⟨i', j', e', hkept, hk'⟩ := h.only k hk (by rw [hentry]; exact hs) (by rw [hentry]; exact hobj)
      have hn := (h.stands i' j' e' hkept).name
      have ht := (h.stands i' j' e' hkept).type
      rw [hk', hentry] at hn ht
      exact .inl ⟨.sect i' j' e', hkept.mem, hn.symm.trans (look_name hg'), ht.symm.trans hsd⟩
    · exact .inr (h.priv l.name g' hg' hpriv)
  · intro _ hobj
    rw [hlr] at hobj
    exact absurd hobj (by decide)
  · intro _ hcm
    exact absurd (hlr.symm.trans hcm) (by decide)
  · intro ht
    rw [hlr] at ht
    exact absurd ht (by decide)
  · intro hp
    exact absurd (hlr.symm.trans hp) (by decide)

end Standing

theorem standing {O : List Obj} (h : SectionsStand O) : Standing (pass2 O) (liveItems O) := by
  have hboth : Held (pass2 O) (liveItems O) ∧ Standing (pass2 O) (liveItems O) := by
    apply live_induction (P := fun s q => Held s q ∧ Standing s q) ⟨.nil, .nil⟩
    · rintro s q r i j e hsplit hord hd ⟨hheld, hst⟩
      have hdis := h q _ r hsplit
      by_cases hpc : e.type = .pc
      · exact ⟨hheld.snoc_private hpc hord, hst.snoc_private hheld hpc hord hd⟩
      · refine ⟨hheld.snoc_sect hpc hord, ?_⟩
        by_cases hsect : isSectType e.type = true
        · rcases isSectType_iff.mp hsect with ht | ht | ht
          · exact hst.snoc_csect ht hord hd hdis
          · exact absurd ht hpc
          · exact hst.snoc_common ht hord hdis
        · exact hst.snoc_reference (by simpa using hsect) hord
    · rintro s q r i l owner hsplit hlive ⟨hheld, hst⟩
      exact ⟨hheld.snoc_label hlive, hst.snoc_label hlive (h q _ r hsplit)⟩
  exact hboth.2

end Cc370.Ld370
