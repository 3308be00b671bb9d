import Cc370.Ld370.FirstDefinition

namespace Cc370.Ld370

theorem step_sect_defs (t : Symbols) (i j : ℕ) (e : Lent) (m : Name) :
    (t.step (.sect i j e)).defs m =
      if m = e.name then sectThen (t.defs m) i j e else t.defs m := by
  by_cases hm : m = e.name
  · subst hm
    simp only [Symbols.step, Symbols.define, sectThen]
    split_ifs <;> simp
  · simp only [Symbols.step, Symbols.define]
    split_ifs <;> simp [hm]

theorem step_sect_dropped (t : Symbols) (i j : ℕ) (e : Lent) (i' j' : ℕ) :
    (t.step (.sect i j e)).dropped i' j' = true ↔ t.dropped i' j' = true ∨
      i' = i ∧ j' = j ∧ e.type = .sd ∧ ∃ d, t.defs e.name = some d ∧ d.isSect = true := by
  have hany : (t.defs e.name).any Definition.isSect = true ↔
      ∃ d, t.defs e.name = some d ∧ d.isSect = true := by
    cases t.defs e.name <;> simp
  simp only [Symbols.step, Symbols.define]
  split_ifs with h1 h2
  · simp only [hany]
    split_ifs with h3
    · simp [h3, h1]
    · simp only [h1, true_and, h3, or_false]
  · simp [h1]
  · simp [h1]

theorem step_label_defs {t : Symbols} {i : ℕ} {l : Ldent} (w : Lent)
    (h : t.dropped i l.ownerLocal = false) (m : Name) :
    (t.step (.label i l (some w))).defs m =
      if m = l.name then some (Definition.followedBy (t.defs m) (.label i l w)) else t.defs m := by
  by_cases hm : m = l.name
  · subst hm; simp [Symbols.step, Symbols.define, h]
  · simp [Symbols.step, Symbols.define, h, hm]

theorem step_label_dropped (t : Symbols) (i : ℕ) (l : Ldent) (owner : Option Lent) :
    (t.step (.label i l owner)).dropped = t.dropped := by
  cases owner with
  | none => rfl
  | some w =>
    simp only [Symbols.step]
    split_ifs <;> rfl

theorem step_label_skip {t : Symbols} {i : ℕ} {l : Ldent} {owner : Option Lent}
    (h : owner.isSome → t.dropped i l.ownerLocal = true) : t.step (.label i l owner) = t := by
  cases owner with
  | none => rfl
  | some w => simp [Symbols.step, h rfl]

namespace Definition

theorem followedBy_sect_isLabel (d : Option Definition) (i j : ℕ) (e : Lent)
    (h : ∀ x, d = some x → x.isLabel = false) : (followedBy d (.sect i j e)).isLabel = false := by
  cases d with
  | none => rfl
  | some d =>
    cases d with
    | label i l w => exact absurd (h _ rfl) (by simp [isLabel])
    | sect i' j' e' => rfl
    | common n => rfl

theorem followedBy_sect_isSect (d : Option Definition) (i j : ℕ) (e : Lent)
    (h : ∀ x, d = some x → x.isLabel = false) : (followedBy d (.sect i j e)).isSect = true := by
  cases d with
  | none => rfl
  | some d =>
    cases d with
    | label i l w => exact absurd (h _ rfl) (by simp [isLabel])
    | sect i' j' e' => rfl
    | common n => rfl

theorem followedBy_common_isLabel (d : Option Definition) (n : ℕ)
    (h : ∀ x, d = some x → x.isLabel = false) : (followedBy d (.common n)).isLabel = false := by
  cases d with
  | none => rfl
  | some d =>
    cases d with
    | label i l w => exact absurd (h _ rfl) (by simp [isLabel])
    | sect i' j' e' => rfl
    | common m => rfl

theorem followedBy_common_isSect (d : Option Definition) (n : ℕ) :
    (followedBy d (.common n)).isSect = true ↔ ∃ x, d = some x ∧ x.isSect = true := by
  cases d with
  | none => simp [followedBy, isSect]
  | some d => cases d <;> simp [followedBy, isSect]

theorem followedBy_label (d : Option Definition) (i : ℕ) (l : Ldent) (w : Lent)
    (h : ∀ x, d = some x → x.isLabel = true) :
    (followedBy d (.label i l w)).isLabel = true ∧
      (d = none ∧ followedBy d (.label i l w) = .label i l w ∨
        d = some (followedBy d (.label i l w))) := by
  cases d with
  | none => exact ⟨rfl, .inl ⟨rfl, rfl⟩⟩
  | some d =>
    cases d with
    | label i' l' w' => exact ⟨rfl, .inr rfl⟩
    | sect i' j' e' => exact absurd (h _ rfl) (by simp [isLabel])
    | common m => exact absurd (h _ rfl) (by simp [isLabel])

end Definition

section SectThen

variable {d : Option Definition} {e : Lent} (i j : ℕ)

theorem sectThen_isSect (h : e.type = .sd ∨ e.type = .cm → ∀ x, d = some x → x.isLabel = false) :
    (∃ x, sectThen d i j e = some x ∧ x.isSect = true) ↔
      (∃ x, d = some x ∧ x.isSect = true) ∨ e.type = .sd := by
  unfold sectThen
  split_ifs with hs hc
  · simp [hs, Definition.followedBy_sect_isSect d i j e (h (.inl hs))]
  · simp [hs, Definition.followedBy_common_isSect]
  · simp [hs]

theorem sectThen_isLabel (h : e.type = .sd ∨ e.type = .cm → ∀ x, d = some x → x.isLabel = false) :
    (∃ x, sectThen d i j e = some x ∧ x.isLabel = false) ↔
      (∃ x, d = some x ∧ x.isLabel = false) ∨ e.type = .sd ∨ e.type = .cm := by
  unfold sectThen
  split_ifs with hs hc
  · simp [hs, Definition.followedBy_sect_isLabel d i j e (h (.inl hs))]
  · simp [hc, Definition.followedBy_common_isLabel d e.len (h (.inr hc))]
  · simp [hs, hc]

theorem sectThen_eq_label (h : e.type = .sd ∨ e.type = .cm → ∀ x, d = some x → x.isLabel = false)
    {x : Definition} (hx : x.isLabel = true) : sectThen d i j e = some x ↔ d = some x := by
  unfold sectThen
  split_ifs with hs hc
  · have h1 := Definition.followedBy_sect_isLabel d i j e (h (.inl hs))
    constructor
    · intro he
      obtain rfl := Option.some.inj he
      exact absurd hx (by simp [h1])
    · intro he
      exact absurd hx (by simp [h (.inl hs) x he])
  · have h1 := Definition.followedBy_common_isLabel d e.len (h (.inr hc))
    constructor
    · intro he
      obtain rfl := Option.some.inj he
      exact absurd hx (by simp [h1])
    · intro he
      exact absurd hx (by simp [h (.inr hc) x he])
  · rfl

end SectThen

theorem exists_mem_snoc {p : List EsdItem} {x : EsdItem} {q : EsdItem → Prop} :
    (∃ y ∈ p ++ [x], q y) ↔ (∃ y ∈ p, q y) ∨ q x := by
  simp only [List.mem_append, List.mem_singleton]
  constructor
  · rintro ⟨y, hy | rfl, hq⟩
    · exact .inl ⟨y, hy, hq⟩
    · exact .inr hq
  · rintro (⟨y, hy, hq⟩ | hq)
    · exact ⟨y, .inl hy, hq⟩
    · exact ⟨x, .inr rfl, hq⟩

/-- The outside view of a list of items without a clash, item by item. -/
structure Defined (p : List EsdItem) : Prop where
  dropped : ∀ i j, (symbols p).dropped i j = true ↔ DroppedIn p i j
  csects : ∀ n, (∃ x ∈ p, x.DefinesCsect n) ↔ ∃ d, (symbols p).defs n = some d ∧ d.isSect = true
  sections : ∀ n, (∃ x ∈ p, x.DefinesSection n) ↔
    ∃ d, (symbols p).defs n = some d ∧ d.isLabel = false
  labels : ∀ n, LabelIn p n ↔ ∃ d, (symbols p).defs n = some d ∧ d.isLabel = true
  labelMem : ∀ n i l w, (symbols p).defs n = some (.label i l w) → .label i l (some w) ∈ p

namespace Defined

theorem nil : Defined [] := by
  constructor
  · intro i j
    simp [symbols, Symbols.empty, DroppedIn]
  · simp [symbols, Symbols.empty]
  · simp [symbols, Symbols.empty]
  · simp [symbols, Symbols.empty, LabelIn]
  · simp [symbols, Symbols.empty]

variable {p : List EsdItem}

theorem notLabel (h : Defined p) {n : Name} (hn : ¬ LabelIn p n) :
    ∀ x, (symbols p).defs n = some x → x.isLabel = false := by
  intro x hx
  cases hl : x.isLabel with
  | false => rfl
  | true => exact absurd ((h.labels n).mpr ⟨x, hx, hl⟩) hn

theorem onlyLabel (h : Defined p) {n : Name} (hn : ¬ ∃ x ∈ p, x.DefinesSection n) :
    ∀ x, (symbols p).defs n = some x → x.isLabel = true := by
  intro x hx
  cases hl : x.isLabel with
  | true => rfl
  | false => exact absurd ((h.sections n).mpr ⟨x, hx, hl⟩) hn

theorem undefined (h : Defined p) {n : Name} (hn : NotEntered p n) : (symbols p).defs n = none := by
  cases hd : (symbols p).defs n with
  | none => rfl
  | some d =>
    exfalso
    cases hl : d.isLabel with
    | true =>
      obtain ⟨l₁, i, l, w, l₂, hp, hnm, hdr⟩ := (h.labels n).mpr ⟨d, hd, hl⟩
      exact hn l₁ _ l₂ hp ⟨hnm, fun _ => hdr⟩
    | false =>
      obtain ⟨x, hx, hs⟩ := (h.sections n).mpr ⟨d, hd, hl⟩
      obtain ⟨l₁, l₂, hp⟩ := List.append_of_mem hx
      cases x with
      | sect i j e => exact hn l₁ _ l₂ hp hs.1
      | label i l w => exact hs

theorem snoc_sect (h : Defined p) (i j : ℕ) (e : Lent)
    (hc : e.type = .sd ∨ e.type = .cm → ¬ LabelIn p e.name) : Defined (p ++ [.sect i j e]) := by
  have hnl (hs : e.type = .sd ∨ e.type = .cm) := h.notLabel (hc hs)
  constructor
  · intro i' j'
    rw [symbols_snoc, step_sect_dropped, h.dropped, droppedIn_snoc, ← h.csects]
    constructor
    · rintro (hd | ⟨rfl, rfl, hs, hx⟩)
      · exact .inl hd
      · exact .inr ⟨e, rfl, hs, hx⟩
    · rintro (hd | ⟨e', he, hs, hx⟩)
      · exact .inl hd
      · obtain ⟨rfl, rfl, rfl⟩ := EsdItem.sect.inj he
        exact .inr ⟨rfl, rfl, hs, hx⟩
  · intro n
    rw [exists_mem_snoc, symbols_snoc, step_sect_defs, h.csects]
    split_ifs with hn
    · subst hn
      rw [sectThen_isSect i j hnl]
      simp [EsdItem.DefinesCsect]
    · have hne : e.name ≠ n := fun he => hn he.symm
      simp [EsdItem.DefinesCsect, hne]
  · intro n
    rw [exists_mem_snoc, symbols_snoc, step_sect_defs, h.sections]
    split_ifs with hn
    · subst hn
      rw [sectThen_isLabel i j hnl]
      simp [EsdItem.DefinesSection]
    · have hne : e.name ≠ n := fun he => hn he.symm
      simp [EsdItem.DefinesSection, hne]
  · intro n
    rw [labelIn_snoc, symbols_snoc, step_sect_defs, h.labels]
    split_ifs with hn
    · subst hn
      constructor
      · rintro (⟨d, hd, hl⟩ | ⟨i', l, w, he, -⟩)
        · exact ⟨d, (sectThen_eq_label i j hnl hl).mpr hd, hl⟩
        · exact absurd he (by simp)
      · rintro ⟨d, hd, hl⟩
        exact .inl ⟨d, (sectThen_eq_label i j hnl hl).mp hd, hl⟩
    · simp
  · intro n i' l w hd
    rw [symbols_snoc, step_sect_defs] at hd
    apply List.mem_append_left
    split_ifs at hd with hn
    · subst hn
      exact h.labelMem _ _ _ _ ((sectThen_eq_label i j hnl rfl).mp hd)
    · exact h.labelMem _ _ _ _ hd

theorem snoc_skip (h : Defined p) {i : ℕ} {l : Ldent} {owner : Option Lent}
    (hs : owner.isSome → (symbols p).dropped i l.ownerLocal = true) :
    Defined (p ++ [.label i l owner]) := by
  have ht : symbols (p ++ [.label i l owner]) = symbols p := by
    rw [symbols_snoc, step_label_skip hs]
  constructor
  · intro i' j'
    rw [ht, h.dropped, droppedIn_snoc]
    simp
  · intro n
    rw [ht, exists_mem_snoc, h.csects]
    simp [EsdItem.DefinesCsect]
  · intro n
    rw [ht, exists_mem_snoc, h.sections]
    simp [EsdItem.DefinesSection]
  · intro n
    rw [ht, labelIn_snoc, h.labels]
    constructor
    · rintro (hd | ⟨i', l', w, he, -, hnd⟩)
      · exact hd
      · obtain ⟨rfl, rfl, rfl⟩ := EsdItem.label.inj he
        exact absurd ((h.dropped _ _).mp (hs rfl)) hnd
    · exact .inl
  · intro n i' l' w hd
    rw [ht] at hd
    exact List.mem_append_left _ (h.labelMem _ _ _ _ hd)

theorem snoc_label (h : Defined p) {i : ℕ} {l : Ldent} (w : Lent)
    (hd : (symbols p).dropped i l.ownerLocal = false)
    (hc : ¬ ∃ x ∈ p, x.DefinesSection l.name) : Defined (p ++ [.label i l (some w)]) := by
  have hl := Definition.followedBy_label _ i l w (h.onlyLabel hc)
  have hnd : ¬ DroppedIn p i l.ownerLocal := fun hx => by simp [(h.dropped _ _).mpr hx] at hd
  constructor
  · intro i' j'
    rw [symbols_snoc, step_label_dropped, h.dropped, droppedIn_snoc]
    simp
  · intro n
    rw [exists_mem_snoc, symbols_snoc, step_label_defs w hd]
    split_ifs with hn
    · subst hn
      have hns : ¬ ∃ x ∈ p, x.DefinesCsect l.name := by
        rintro ⟨x, hx, hs⟩
        apply hc
        cases x with
        | sect i' j' e => exact ⟨_, hx, hs.1, .inl hs.2⟩
        | label i' l' o => exact hs.elim
      have hlab : (Definition.followedBy ((symbols p).defs l.name) (.label i l w)).isSect = false := by
        rcases hl.2 with ⟨-, he⟩ | he
        · rw [he]; rfl
        · cases hv : (Definition.followedBy ((symbols p).defs l.name) (.label i l w)).isSect with
          | false => rfl
          | true => exact absurd ((h.csects _).mpr ⟨_, he, hv⟩) hns
      constructor
      · rintro (hx | hx)
        · exact absurd hx hns
        · exact hx.elim
      · rintro ⟨d, hd', hv⟩
        obtain rfl := Option.some.inj hd'
        exact absurd hv (by simp [hlab])
    · rw [h.csects]
      simp [EsdItem.DefinesCsect]
  · intro n
    rw [exists_mem_snoc, symbols_snoc, step_label_defs w hd]
    split_ifs with hn
    · subst hn
      constructor
      · rintro (hx | hx)
        · exact absurd hx hc
        · exact hx.elim
      · rintro ⟨d, hd', hv⟩
        obtain rfl := Option.some.inj hd'
        exact absurd hv (by simp [hl.1])
    · rw [h.sections]
      simp [EsdItem.DefinesSection]
  · intro n
    rw [labelIn_snoc, symbols_snoc, step_label_defs w hd]
    split_ifs with hn
    · subst hn
      constructor
      · intro _
        exact ⟨_, rfl, hl.1⟩
      · intro _
        exact .inr ⟨i, l, w, rfl, rfl, hnd⟩
    · rw [h.labels]
      constructor
      · rintro (hx | ⟨i', l', w', he, hn', -⟩)
        · exact hx
        · obtain ⟨-, rfl, -⟩ := EsdItem.label.inj he
          exact absurd hn'.symm hn
      · exact .inl
  · intro n i' l' w' hx
    rw [symbols_snoc, step_label_defs w hd] at hx
    split_ifs at hx with hn
    · subst hn
      rcases hl.2 with ⟨-, he⟩ | he
      · rw [he] at hx
        obtain ⟨rfl, rfl, rfl⟩ := Definition.label.inj (Option.some.inj hx)
        simp
      · rw [hx] at he
        exact List.mem_append_left _ (h.labelMem _ _ _ _ he)
    · exact List.mem_append_left _ (h.labelMem _ _ _ _ hx)

theorem snoc (h : Defined p) {x : EsdItem} (hc : ¬ Clash p x) : Defined (p ++ [x]) := by
  cases x with
  | sect i j e => exact h.snoc_sect i j e fun hs hl => hc ⟨hs, .inl hl⟩
  | label i l owner =>
    by_cases hs : owner.isSome → (symbols p).dropped i l.ownerLocal = true
    · exact h.snoc_skip hs
    · rw [Classical.not_imp, Bool.not_eq_true] at hs
      obtain ⟨w, rfl⟩ := Option.isSome_iff_exists.mp hs.1
      apply h.snoc_label w hs.2
      intro hx
      refine hc ⟨fun _ hd => ?_, .inl hx⟩
      simp [(h.dropped _ _).mpr hd] at hs

theorem of_noClash (h : NoClash p) : Defined p := by
  induction p using List.reverseRecOn with
  | nil => exact nil
  | append_singleton p x ih =>
    obtain ⟨hp, hx⟩ := NoClash.snoc.mp h
    exact (ih hp).snoc hx

end Defined

end Cc370.Ld370
