import Cc370.As370.Sections

namespace Cc370.As370

namespace Pass1

section Fields

variable (σ : Pass1) (nm : SymName) (s : SectSym) (role : EsdRole) (id : ℕ)

@[simp] theorem park_find : σ.park.find = σ.find := by
  unfold park
  split_ifs <;> rfl

@[simp] theorem park_nsym : σ.park.nsym = σ.nsym := by
  unfold park
  split_ifs <;> rfl

@[simp] theorem park_sectid : σ.park.sectid = σ.sectid := by
  unfold park
  split_ifs <;> rfl

@[simp] theorem park_esdord : σ.park.esdord = σ.esdord := by
  unfold park
  split_ifs <;> rfl

@[simp] theorem park_dsectSect : σ.park.dsectSect = σ.dsectSect := by
  unfold park
  split_ifs <;> rfl

@[simp] theorem park_sectOrd : σ.park.sectOrd = σ.sectOrd := by
  unfold park
  split_ifs <;> rfl

@[simp] theorem setSym_find : (σ.setSym nm s).find = Function.update σ.find nm (some s) := rfl

@[simp] theorem setSect_find : (σ.setSect nm s).find = Function.update σ.find nm (some s) := rfl

@[simp] theorem esdAdd_find : (σ.esdAdd nm role).find = σ.find := by
  unfold esdAdd
  split_ifs <;> rfl

@[simp] theorem esdAdd_sectid : (σ.esdAdd nm role).sectid = σ.sectid := by
  unfold esdAdd
  split_ifs <;> rfl

@[simp] theorem esdAdd_dsectSect : (σ.esdAdd nm role).dsectSect = σ.dsectSect := by
  unfold esdAdd
  split_ifs <;> rfl

@[simp] theorem esdAdd_curSect : (σ.esdAdd nm role).curSect = σ.curSect := by
  unfold esdAdd
  split_ifs <;> rfl

@[simp] theorem esdAdd_inDsect : (σ.esdAdd nm role).inDsect = σ.inDsect := by
  unfold esdAdd
  split_ifs <;> rfl

theorem mem_esdAdd {e : SymName × EsdRole} : e ∈ (σ.esdAdd nm role).esdord ↔ e ∈ σ.esdord ∨ e = (nm, role) := by
  unfold esdAdd
  split_ifs with h
  · constructor
    · exact .inl
    · rintro (h' | rfl)
      · exact h'
      · exact h
  · simp

@[simp] theorem chainSect_find : (σ.chainSect id).find = σ.find := by
  unfold chainSect
  split_ifs <;> rfl

@[simp] theorem chainSect_sectid : (σ.chainSect id).sectid = σ.sectid := by
  unfold chainSect
  split_ifs <;> rfl

@[simp] theorem chainSect_esdord : (σ.chainSect id).esdord = σ.esdord := by
  unfold chainSect
  split_ifs <;> rfl

@[simp] theorem chainSect_dsectSect : (σ.chainSect id).dsectSect = σ.dsectSect := by
  unfold chainSect
  split_ifs <;> rfl

@[simp] theorem chainSect_curSect : (σ.chainSect id).curSect = σ.curSect := by
  unfold chainSect
  split_ifs <;> rfl

@[simp] theorem chainSect_inDsect : (σ.chainSect id).inDsect = σ.inDsect := by
  unfold chainSect
  split_ifs <;> rfl

@[simp] theorem mark_find : (σ.mark id).find = σ.find := by
  unfold mark
  split_ifs <;> rfl

@[simp] theorem mark_sectid : (σ.mark id).sectid = σ.sectid := by
  unfold mark
  split_ifs <;> rfl

@[simp] theorem mark_esdord : (σ.mark id).esdord = σ.esdord := by
  unfold mark
  split_ifs <;> rfl

@[simp] theorem mark_curSect : (σ.mark id).curSect = σ.curSect := by
  unfold mark
  split_ifs <;> rfl

@[simp] theorem mark_inDsect : (σ.mark id).inDsect = σ.inDsect := by
  unfold mark
  split_ifs <;> rfl

theorem mark_dsectSect (d : ℕ) :
    (σ.mark id).dsectSect d = true ↔ σ.dsectSect d = true ∨ d < 256 ∧ id = d := by
  unfold mark
  split_ifs with h
  · by_cases hd : d = id
    · subst hd
      simp [h]
    · simp [Function.update_of_ne hd, Ne.symm hd]
  · constructor
    · exact .inl
    · rintro (h' | ⟨h', rfl⟩)
      · exact h'
      · exact absurd h' h

end Fields

section Flags

variable (σ : Pass1) (i : ℕ)

/-- One statement marks the dummy section that it opens, when its number is below 256. -/
theorem step_dsectSect (stmt : SectStmt) (d : ℕ) : (σ.step i stmt).dsectSect d = true ↔
    σ.dsectSect d = true ∨ d < 256 ∧ σ.dummyOf i stmt = some d := by
  cases stmt with
  | csect lbl start =>
    have hsame : (σ.csect lbl start).dsectSect = σ.dsectSect := by
      simp only [csect]
      split_ifs <;> simp [setSect, setSym]
    simp [step, hsame, dummyOf]
  | com lbl =>
    have hsame : (σ.com lbl).dsectSect = σ.dsectSect := by
      simp only [com]
      split_ifs <;> simp [setSect, setSym]
    simp [step, hsame, dummyOf]
  | dxd lbl =>
    simp only [step, dxd, dummyOf]
    by_cases h1 : lbl = []
    · simp [h1]
    · by_cases h2 : (σ.symGet (σ.labelName i lbl)).defined = true
      · simp [h1, h2]
      · simp [h1, h2, mark_dsectSect, setSect, setSym]
  | dsect lbl =>
    simp only [step, dsect, dummyOf, Option.some.injEq]
    rw [mark_dsectSect]
    simp [setSect, setSym, openSym]
  | extrn nm =>
    have hsame : (σ.extrn nm).dsectSect = σ.dsectSect := by
      simp only [extrn]
      split_ifs <;> simp [setSym]
    simp [step, hsame, dummyOf]
  | place lbl algn len =>
    have hsame : (σ.place i lbl algn len).dsectSect = σ.dsectSect := by
      simp only [place, openPrivate]
      split_ifs <;> simp [setSect, setSym]
    simp [step, hsame, dummyOf]

/-- The flags of a whole pass: those of the dummy sections below 256. -/
theorem run_dsectSect (prog : List SectStmt) (d : ℕ) : (run i σ prog).dsectSect d = true ↔
    σ.dsectSect d = true ∨ d < 256 ∧ d ∈ dummies i σ prog := by
  induction prog generalizing i σ with
  | nil => simp [run, dummies]
  | cons stmt rest ih =>
    rw [run, ih, step_dsectSect, dummies, List.mem_append, Option.mem_toList]
    tauto

end Flags

/-- The roles of the ESD entries that a section's number is looked up under. -/
def IsSection (role : EsdRole) : Prop := role = .sect ∨ role = .cm

/-- Numbers are given once, and every number belongs to a dummy section or to an entry of the ESD. -/
structure Owned (find : SymName → Option SectSym) (sectid : ℕ) (esd : List (SymName × EsdRole))
    (D : List ℕ) : Prop where
  le : ∀ nm s, find nm = some s → s.sect ≤ sectid
  defined : ∀ nm s, find nm = some s → (s.defined = true ↔ s.sect ≠ 0)
  own : ∀ nm role, (nm, role) ∈ esd → IsSection role → ∃ s, find nm = some s ∧ s.defined = true
  unique : ∀ nm nm' role role' s s', (nm, role) ∈ esd → (nm', role') ∈ esd → IsSection role →
    IsSection role' → find nm = some s → find nm' = some s' → s.sect = s'.sect → nm = nm'
  covered : ∀ id, 0 < id → id ≤ sectid → id ∈ D ∨
    ∃ nm role s, (nm, role) ∈ esd ∧ IsSection role ∧ find nm = some s ∧ s.sect = id
  typed : ∀ nm s, find nm = some s → s.type = .sd ∨ s.type = .pc ∨ s.type = .cm →
    ∃ role, IsSection role ∧ (nm, role) ∈ esd
  dummy : ∀ nm s, find nm = some s → s.type = .xd → s.defined = true ∧ s.sect ∈ D
  types : ∀ nm s, find nm = some s → s.type ≠ .abs ∧ s.type ≠ .ld

section Owned

variable {find : SymName → Option SectSym} {sectid sectid' : ℕ} {esd esd' : List (SymName × EsdRole)}
  {D D' : List ℕ} {nm : SymName} {s' : SectSym}

/-- A symbol is entered or changed, and may be given the next number with an entry of its own. -/
theorem Owned.update (h : Owned find sectid esd D) (hle : sectid ≤ sectid') (hs' : s'.sect ≤ sectid')
    (hdef : s'.defined = true ↔ s'.sect ≠ 0) (hkeep : ∀ s, find nm = some s → s.sect ≠ 0 → s'.sect = s.sect)
    (hD : ∀ d ∈ D, d ∈ D') (hesd : ∀ e ∈ esd, e ∈ esd')
    (hnew : ∀ e ∈ esd', IsSection e.2 → e ∈ esd ∨ e.1 = nm ∧ s'.sect = sectid + 1)
    (hcov : ∀ id, sectid < id → id ≤ sectid' → id ∈ D' ∨
      id = s'.sect ∧ ∃ role, IsSection role ∧ (nm, role) ∈ esd')
    (htyped : s'.type = .sd ∨ s'.type = .pc ∨ s'.type = .cm → ∃ role, IsSection role ∧ (nm, role) ∈ esd')
    (hdummy : s'.type = .xd → s'.defined = true ∧ s'.sect ∈ D') (htypes : s'.type ≠ .abs ∧ s'.type ≠ .ld) :
    Owned (Function.update find nm (some s')) sectid' esd' D' := by
  have hat : Function.update find nm (some s') nm = some s' := Function.update_self ..
  have hother {nm0 : SymName} (hne : nm0 ≠ nm) : Function.update find nm (some s') nm0 = find nm0 :=
    Function.update_of_ne hne ..
  have hcases {nm0 : SymName} {s : SectSym} (hs : Function.update find nm (some s') nm0 = some s) :
      nm0 = nm ∧ s = s' ∨ nm0 ≠ nm ∧ find nm0 = some s := by
    by_cases hne : nm0 = nm
    · subst hne
      rw [hat] at hs
      exact .inl ⟨rfl, (Option.some.inj hs).symm⟩
    · rw [hother hne] at hs
      exact .inr ⟨hne, hs⟩
  -- an entry that was there keeps its number
  have hold {nm0 : SymName} {role : EsdRole} {s : SectSym} (he : (nm0, role) ∈ esd) (hr : IsSection role)
      (hs : Function.update find nm (some s') nm0 = some s) : ∃ s0, find nm0 = some s0 ∧ s0.sect = s.sect := by
    obtain ⟨s0, hs0, hd0⟩ := h.own nm0 role he hr
    rcases hcases hs with ⟨rfl, rfl⟩ | ⟨-, hs⟩
    · exact ⟨s0, hs0, (hkeep s0 hs0 ((h.defined nm0 s0 hs0).mp hd0)).symm⟩
    · exact ⟨s, hs, rfl⟩
  refine ⟨?_, ?_, ?_, ?_, ?_, ?_, ?_, ?_⟩
  · intro nm0 s hs
    rcases hcases hs with ⟨-, rfl⟩ | ⟨-, hs⟩
    · exact hs'
    · exact (h.le nm0 s hs).trans hle
  · intro nm0 s hs
    rcases hcases hs with ⟨-, rfl⟩ | ⟨-, hs⟩
    · exact hdef
    · exact h.defined nm0 s hs
  · intro nm0 role he hr
    by_cases hne : nm0 = nm
    · subst hne
      refine ⟨s', hat, hdef.mpr ?_⟩
      rcases hnew _ he hr with hin | ⟨-, hnum⟩
      · obtain ⟨s0, hs0, hd0⟩ := h.own nm0 role hin hr
        have hne0 := (h.defined nm0 s0 hs0).mp hd0
        rw [hkeep s0 hs0 hne0]
        exact hne0
      · rw [hnum]
        exact Nat.succ_ne_zero _
    · rcases hnew _ he hr with hin | ⟨heq, -⟩
      · rw [hother hne]
        exact h.own nm0 role hin hr
      · exact absurd heq hne
  · intro nm1 nm2 role1 role2 s1 s2 he1 he2 hr1 hr2 hs1 hs2 hsect
    rcases hnew _ he1 hr1 with hin1 | ⟨heq1, hnum1⟩ <;> rcases hnew _ he2 hr2 with hin2 | ⟨heq2, hnum2⟩
    · obtain ⟨t1, ht1, hst1⟩ := hold hin1 hr1 hs1
      obtain ⟨t2, ht2, hst2⟩ := hold hin2 hr2 hs2
      exact h.unique nm1 nm2 role1 role2 t1 t2 hin1 hin2 hr1 hr2 ht1 ht2 (by rw [hst1, hst2, hsect])
    · obtain ⟨t1, ht1, hst1⟩ := hold hin1 hr1 hs1
      subst heq2
      rw [hat] at hs2
      obtain rfl := Option.some.inj hs2
      have hle1 := h.le nm1 t1 ht1
      omega
    · obtain ⟨t2, ht2, hst2⟩ := hold hin2 hr2 hs2
      subst heq1
      rw [hat] at hs1
      obtain rfl := Option.some.inj hs1
      have hle2 := h.le nm2 t2 ht2
      omega
    · exact heq1.trans heq2.symm
  · intro id hpos hid
    by_cases hin : id ≤ sectid
    · rcases h.covered id hpos hin with hd | ⟨nm0, role, s, he, hr, hs, hsect⟩
      · exact .inl (hD id hd)
      · right
        by_cases hne : nm0 = nm
        · subst hne
          exact ⟨nm0, role, s', hesd _ he, hr, hat, by rw [hkeep s hs (by omega), hsect]⟩
        · exact ⟨nm0, role, s, hesd _ he, hr, by rw [hother hne, hs], hsect⟩
    · rcases hcov id (by omega) hid with hd | ⟨rfl, role, hr, he⟩
      · exact .inl hd
      · exact .inr ⟨nm, role, s', he, hr, hat, rfl⟩
  · intro nm0 s hs ht
    rcases hcases hs with ⟨rfl, rfl⟩ | ⟨-, hs⟩
    · exact htyped ht
    · obtain ⟨role, hr, he⟩ := h.typed nm0 s hs ht
      exact ⟨role, hr, hesd _ he⟩
  · intro nm0 s hs ht
    rcases hcases hs with ⟨-, rfl⟩ | ⟨-, hs⟩
    · exact hdummy ht
    · obtain ⟨hd, hin⟩ := h.dummy nm0 s hs ht
      exact ⟨hd, hD _ hin⟩
  · intro nm0 s hs
    rcases hcases hs with ⟨-, rfl⟩ | ⟨-, hs⟩
    · exact htypes
    · exact h.types nm0 s hs

end Owned

section Steps

variable {σ : Pass1} {D D' : List ℕ} {nm : SymName}

theorem symGet_some {s : SectSym} (h : σ.find nm = some s) : σ.symGet nm = s := by
  rw [symGet, h]
  rfl

theorem symGet_cases (σ : Pass1) (nm : SymName) : σ.find nm = some (σ.symGet nm) ∨
    σ.find nm = none ∧ σ.symGet nm = ⟨σ.nsym, 0, .rel, false, false, 0, 0, 0⟩ := by
  rw [symGet]
  cases h : σ.find nm with
  | none => exact .inr ⟨rfl, rfl⟩
  | some s => exact .inl rfl

theorem allot_pos (σ : Pass1) (nm : SymName) : 0 < σ.allot nm := by
  unfold allot
  split_ifs with h
  · exact Nat.succ_pos _
  · exact Nat.pos_of_ne_zero h

theorem Owned.symGet_defined (h : Owned σ.find σ.sectid σ.esdord D) (nm : SymName) :
    (σ.symGet nm).defined = true ↔ (σ.symGet nm).sect ≠ 0 := by
  rcases symGet_cases σ nm with hs | ⟨-, hs⟩
  · exact h.defined nm _ hs
  · rw [hs]
    simp

theorem Owned.symGet_type (h : Owned σ.find σ.sectid σ.esdord D) (nm : SymName) :
    (σ.symGet nm).type ≠ .abs ∧ (σ.symGet nm).type ≠ .ld := by
  rcases symGet_cases σ nm with hs | ⟨-, hs⟩
  · exact h.types nm _ hs
  · rw [hs]
    simp

theorem Owned.symGet_typed (h : Owned σ.find σ.sectid σ.esdord D) (nm : SymName)
    (ht : (σ.symGet nm).type = .sd ∨ (σ.symGet nm).type = .pc ∨ (σ.symGet nm).type = .cm) :
    ∃ role, IsSection role ∧ (nm, role) ∈ σ.esdord := by
  rcases symGet_cases σ nm with hs | ⟨-, hs⟩
  · exact h.typed nm _ hs ht
  · rw [hs] at ht
    simp at ht

theorem Owned.symGet_dummy (h : Owned σ.find σ.sectid σ.esdord D) (nm : SymName)
    (ht : (σ.symGet nm).type = .xd) : (σ.symGet nm).defined = true ∧ (σ.symGet nm).sect ∈ D := by
  rcases symGet_cases σ nm with hs | ⟨-, hs⟩
  · exact h.dummy nm _ hs ht
  · rw [hs] at ht
    simp at ht

def nextId (σ : Pass1) (nm : SymName) : ℕ := if (σ.symGet nm).sect = 0 then σ.sectid + 1 else σ.sectid

theorem le_nextId (σ : Pass1) (nm : SymName) : σ.sectid ≤ σ.nextId nm := by
  unfold nextId
  split_ifs <;> omega

theorem allot_le (h : Owned σ.find σ.sectid σ.esdord D) : σ.allot nm ≤ σ.nextId nm := by
  unfold allot nextId
  split_ifs with h0
  · exact le_rfl
  · rcases symGet_cases σ nm with hs | ⟨-, hs⟩
    · exact h.le nm _ hs
    · rw [hs] at h0
      exact absurd rfl h0

theorem allot_of_ne {s : SectSym} (hs : σ.find nm = some s) (h0 : s.sect ≠ 0) : σ.allot nm = s.sect := by
  rw [allot, symGet_some hs, if_neg h0]

/-- A statement opens the section of a symbol. -/
theorem Owned.opened (h : Owned σ.find σ.sectid σ.esdord D) {s' : SectSym} {esd' : List (SymName × EsdRole)}
    (hsect : s'.sect = σ.allot nm) (hdef : s'.defined = true) (hD : ∀ d ∈ D, d ∈ D')
    (hesd : ∀ e ∈ σ.esdord, e ∈ esd')
    (hnew : ∀ e ∈ esd', IsSection e.2 → e ∈ σ.esdord ∨ e.1 = nm ∧ (σ.symGet nm).sect = 0)
    (hcov : (σ.symGet nm).sect = 0 → σ.allot nm ∈ D' ∨ ∃ role, IsSection role ∧ (nm, role) ∈ esd')
    (htyped : s'.type = .sd ∨ s'.type = .pc ∨ s'.type = .cm → ∃ role, IsSection role ∧ (nm, role) ∈ esd')
    (hdummy : s'.type = .xd → σ.allot nm ∈ D') (htypes : s'.type ≠ .abs ∧ s'.type ≠ .ld) :
    Owned (Function.update σ.find nm (some s')) (σ.nextId nm) esd' D' := by
  have hpos := allot_pos σ nm
  apply h.update
  · exact le_nextId σ nm
  · rw [hsect]
    exact allot_le h
  · rw [hsect, hdef]
    simp [hpos.ne']
  · intro s hs h0
    rw [hsect, allot_of_ne hs h0]
  · exact hD
  · exact hesd
  · intro e he hr
    rcases hnew e he hr with hin | ⟨heq, h0⟩
    · exact .inl hin
    · exact .inr ⟨heq, by rw [hsect, allot, if_pos h0]⟩
  · intro id hid hid'
    have h0 : (σ.symGet nm).sect = 0 := by
      by_contra hne
      rw [nextId, if_neg hne] at hid'
      omega
    have heq : id = σ.allot nm := by
      rw [nextId, if_pos h0] at hid'
      rw [allot, if_pos h0]
      omega
    rw [hsect, heq]
    rcases hcov h0 with hin | hrole
    · exact .inl hin
    · exact .inr ⟨rfl, hrole⟩
  · exact htyped
  · intro ht
    exact ⟨hdef, hsect ▸ hdummy ht⟩
  · exact htypes

/-- A section statement whose symbol gets a type and an entry when it is new. -/
theorem Owned.openedAs (h : Owned σ.find σ.sectid σ.esdord D) {s' : SectSym} {esd' : List (SymName × EsdRole)}
    {role : EsdRole} (hr : IsSection role) (hsect : s'.sect = σ.allot nm) (hdef : s'.defined = true)
    (htype : (σ.symGet nm).defined = true → s'.type = (σ.symGet nm).type)
    (htype' : (σ.symGet nm).defined = false → s'.type = .sd ∨ s'.type = .pc ∨ s'.type = .cm)
    (hesd : ∀ e, e ∈ esd' ↔ e ∈ σ.esdord ∨ (σ.symGet nm).defined = false ∧ e = (nm, role)) :
    Owned (Function.update σ.find nm (some s')) (σ.nextId nm) esd' D := by
  have hd := h.symGet_defined nm
  apply h.opened hsect hdef (fun d hd => hd)
  · exact fun e he => (hesd e).mpr (.inl he)
  · intro e he _
    rcases (hesd e).mp he with hin | ⟨hnd, rfl⟩
    · exact .inl hin
    · refine .inr ⟨rfl, ?_⟩
      by_contra h0
      rw [hd.mpr h0] at hnd
      exact absurd hnd (by simp)
  · intro h0
    have hnd : (σ.symGet nm).defined = false := by
      rw [← Bool.not_eq_true, hd]
      exact not_not.mpr h0
    exact .inr ⟨role, hr, (hesd _).mpr (.inr ⟨hnd, rfl⟩)⟩
  · intro ht
    cases hnd : (σ.symGet nm).defined with
    | true =>
      rw [htype hnd] at ht
      obtain ⟨role', hr', he⟩ := h.symGet_typed _ ht
      exact ⟨role', hr', (hesd _).mpr (.inl he)⟩
    | false => exact ⟨role, hr, (hesd _).mpr (.inr ⟨hnd, rfl⟩)⟩
  · intro ht
    cases hnd : (σ.symGet nm).defined with
    | true =>
      rw [htype hnd] at ht
      rw [allot, if_neg (hd.mp hnd)]
      exact (h.symGet_dummy _ ht).2
    | false =>
      have hty := htype' hnd
      rw [ht] at hty
      simp at hty
  · cases hnd : (σ.symGet nm).defined with
    | true =>
      rw [htype hnd]
      exact h.symGet_type nm
    | false => rcases htype' hnd with ht | ht | ht <;> rw [ht] <;> simp

structure Sound (σ : Pass1) (D : List ℕ) : Prop where
  owned : Owned σ.find σ.sectid σ.esdord D
  cur : σ.curSect ≤ σ.sectid
  start : σ.curSect = 0 → σ.find .privateCode = none ∧ σ.inDsect = false

theorem sound_initial : Sound initial [] := by
  refine ⟨⟨?_, ?_, ?_, ?_, ?_, ?_, ?_, ?_⟩, le_rfl, fun _ => ⟨rfl, rfl⟩⟩ <;> simp [initial]
  omega

/-- What a section's symbol is after a statement that types it. -/
def typedSym (σ : Pass1) (nm : SymName) (t : SymType) : SectSym :=
  if (σ.openSym nm).defined then σ.openSym nm else { σ.openSym nm with type := t, val := 0, defined := true }

theorem typedSym_sect (t : SymType) : (σ.typedSym nm t).sect = σ.allot nm := by
  unfold typedSym
  split_ifs <;> rfl

theorem typedSym_defined (t : SymType) : (σ.typedSym nm t).defined = true := by
  unfold typedSym
  split_ifs with h
  · exact h
  · rfl

theorem typedSym_type (t : SymType) :
    ((σ.symGet nm).defined = true → (σ.typedSym nm t).type = (σ.symGet nm).type) ∧
    ((σ.symGet nm).defined = false → (σ.typedSym nm t).type = t) := by
  constructor
  · intro h
    simp [typedSym, openSym, h]
  · intro h
    simp [typedSym, openSym, h]

def csectType (σ : Pass1) (lbl : List Char) : SymType := if σ.sectName lbl = .privateCode then .pc else .sd

theorem csect_find (lbl : List Char) (start : Option ℤ) : (σ.csect lbl start).find =
    Function.update σ.find (σ.sectName lbl) (some (σ.typedSym (σ.sectName lbl) (σ.csectType lbl))) := by
  simp [Pass1.csect, apply_ite Pass1.find, setSect, setSym, typedSym, csectType]

theorem csect_curSect (lbl : List Char) (start : Option ℤ) :
    (σ.csect lbl start).curSect = σ.allot (σ.sectName lbl) := by
  simp [Pass1.csect, apply_ite Pass1.curSect, openSym]

theorem setSect_sectid {τ : Pass1} {s : SectSym} (hfind : τ.find = σ.find) (hnsym : τ.nsym = σ.nsym)
    (hid : τ.sectid = σ.sectid) : (τ.setSect nm s).sectid = σ.nextId nm := by
  have hget : τ.symGet nm = σ.symGet nm := by rw [symGet, symGet, hfind, hnsym]
  change (if (τ.symGet nm).sect = 0 then τ.sectid + 1 else τ.sectid) = _
  rw [hget, hid, nextId]

theorem csect_sectid (lbl : List Char) (start : Option ℤ) :
    (σ.csect lbl start).sectid = σ.nextId (σ.sectName lbl) := by
  simp only [Pass1.csect, apply_ite Pass1.sectid, chainSect_sectid, esdAdd_sectid, ite_self]
  exact setSect_sectid (park_find σ) (park_nsym σ) (park_sectid σ)

theorem mem_csect_esdord (lbl : List Char) (start : Option ℤ) (e : SymName × EsdRole) :
    e ∈ (σ.csect lbl start).esdord ↔
      e ∈ σ.esdord ∨ (σ.symGet (σ.sectName lbl)).defined = false ∧ e = (σ.sectName lbl, .sect) := by
  by_cases hd : (σ.symGet (σ.sectName lbl)).defined = true
  · simp [Pass1.csect, openSym, hd, apply_ite Pass1.esdord, setSect, setSym]
  · simp [Pass1.csect, openSym, hd, mem_esdAdd, apply_ite Pass1.esdord, setSect, setSym]

theorem Sound.csect (h : Sound σ D) (lbl : List Char) (start : Option ℤ) : Sound (σ.csect lbl start) D := by
  have hpos := allot_pos σ (σ.sectName lbl)
  refine ⟨?_, ?_, ?_⟩
  · rw [csect_find, csect_sectid]
    apply h.owned.openedAs (.inl rfl) (typedSym_sect _) (typedSym_defined _) (typedSym_type _).1
    · intro hnd
      rw [(typedSym_type _).2 hnd, csectType]
      split_ifs <;> simp
    · exact mem_csect_esdord lbl start
  · rw [csect_curSect, csect_sectid]
    exact allot_le h.owned
  · intro h0
    rw [csect_curSect] at h0
    omega

theorem Sound.com (h : Sound σ D) (lbl : List Char) : Sound (σ.com lbl) D := by
  by_cases hl : lbl = []
  · rw [Pass1.com, if_pos hl]
    exact ⟨h.owned, h.cur, h.start⟩
  · have hpos := allot_pos σ (.src lbl)
    have hfind : (σ.com lbl).find = Function.update σ.find (.src lbl) (some (σ.typedSym (.src lbl) .cm)) := by
      simp [Pass1.com, hl, apply_ite Pass1.find, setSect, setSym, typedSym]
    have hcur : (σ.com lbl).curSect = σ.allot (.src lbl) := by
      simp [Pass1.com, hl, apply_ite Pass1.curSect, openSym]
    have hid : (σ.com lbl).sectid = σ.nextId (.src lbl) := by
      simp only [Pass1.com, hl, apply_ite Pass1.sectid, esdAdd_sectid, ite_self, ↓reduceIte]
      exact setSect_sectid (park_find σ) (park_nsym σ) (park_sectid σ)
    refine ⟨?_, ?_, ?_⟩
    · rw [hfind, hid]
      apply h.owned.openedAs (.inr rfl) (typedSym_sect _) (typedSym_defined _) (typedSym_type _).1
      · intro hnd
        rw [(typedSym_type _).2 hnd]
        exact .inr (.inr rfl)
      · intro e
        by_cases hd : (σ.symGet (.src lbl)).defined = true
        · simp [Pass1.com, hl, openSym, hd, apply_ite Pass1.esdord, setSect, setSym]
        · simp [Pass1.com, hl, openSym, hd, mem_esdAdd, apply_ite Pass1.esdord, setSect, setSym]
    · rw [hcur, hid]
      exact allot_le h.owned
    · intro h0
      rw [hcur] at h0
      omega

theorem Sound.mono (h : Sound σ D) (hD : ∀ d ∈ D, d ∈ D') : Sound σ D' := by
  refine ⟨?_, h.cur, h.start⟩
  obtain ⟨h1, h2, h3, h4, h5, h6, h7, h8⟩ := h.owned
  refine ⟨h1, h2, h3, h4, ?_, h6, ?_, h8⟩
  · intro id h0 hid
    exact (h5 id h0 hid).imp_left (hD id)
  · intro nm s hs ht
    obtain ⟨hd, hin⟩ := h7 nm s hs ht
    exact ⟨hd, hD _ hin⟩

theorem Sound.dsect (h : Sound σ D) (lbl : List Char) :
    Sound (σ.dsect lbl) (D ++ [σ.allot (if lbl = [] then SymName.unnamedDsect else .src lbl)]) := by
  generalize hnm : (if lbl = [] then SymName.unnamedDsect else .src lbl) = nm
  have hpos := allot_pos σ nm
  have hfind : (σ.dsect lbl).find =
      Function.update σ.find nm (some { σ.openSym nm with val := 0, defined := true }) := by
    simp [Pass1.dsect, hnm, setSect, setSym]
  have hcur : (σ.dsect lbl).curSect = σ.allot nm := by
    simp [Pass1.dsect, hnm, openSym]
  have hid : (σ.dsect lbl).sectid = σ.nextId nm := by
    simp only [Pass1.dsect, hnm, mark_sectid]
    exact setSect_sectid (park_find σ) (park_nsym σ) (park_sectid σ)
  have hesd : (σ.dsect lbl).esdord = σ.esdord := by
    simp [Pass1.dsect, hnm, setSect, setSym]
  refine ⟨?_, ?_, ?_⟩
  · rw [hfind, hid, hesd]
    apply h.owned.opened
    · rfl
    · rfl
    · exact fun d hd => List.mem_append_left _ hd
    · exact fun e he => he
    · exact fun e he _ => .inl he
    · exact fun _ => .inl (by simp)
    · exact h.owned.symGet_typed nm
    · exact fun _ => by simp
    · exact h.owned.symGet_type nm
  · rw [hcur, hid]
    exact allot_le h.owned
  · intro h0
    rw [hcur] at h0
    omega

theorem labelName_ne (i : ℕ) (lbl : List Char) : σ.labelName i lbl ≠ .privateCode := by
  unfold labelName
  split_ifs <;> simp

theorem Sound.dxd (h : Sound σ D) (i : ℕ) (lbl : List Char) :
    Sound (σ.dxd i lbl) (D ++ (σ.dummyOf i (.dxd lbl)).toList) := by
  rw [dummyOf]
  by_cases hl : lbl = []
  · rw [Pass1.dxd, if_pos hl, if_pos (.inl hl)]
    simpa using h
  · by_cases hd : (σ.symGet (σ.labelName i lbl)).defined = true
    · rw [Pass1.dxd, if_neg hl, if_pos hd, if_pos (.inr hd)]
      exact ⟨by simpa using h.owned, h.cur, h.start⟩
    · have hne := labelName_ne (σ := σ) i lbl
      rw [if_neg (not_or.mpr ⟨hl, hd⟩), Option.toList_some]
      have hdxd : σ.dxd i lbl = ((({ σ with diags := σ.diags ++ σ.duplicate lbl } : Pass1).setSect
          (σ.labelName i lbl) { σ.symGet (σ.labelName i lbl) with
            type := .xd, val := 0, defined := true, len := 1, sect := σ.allot (σ.labelName i lbl) }).esdAdd
              (σ.labelName i lbl) .xd).mark (σ.allot (σ.labelName i lbl)) := by
        rw [Pass1.dxd, if_neg hl, if_neg hd]
      rw [hdxd]
      generalize σ.labelName i lbl = nm at hd hne ⊢
      refine ⟨?_, ?_, ?_⟩
      · rw [mark_find, mark_sectid, mark_esdord, esdAdd_find, esdAdd_sectid, setSect_sectid rfl rfl rfl]
        apply h.owned.opened
        · rfl
        · rfl
        · exact fun d hd => List.mem_append_left _ hd
        · exact fun e he => (mem_esdAdd ..).mpr (.inl he)
        · intro e he hr
          rcases (mem_esdAdd ..).mp he with hin | rfl
          · exact .inl hin
          · rcases hr with hr | hr <;> exact absurd hr (by simp)
        · exact fun _ => .inl (by simp)
        · intro ht
          simp at ht
        · exact fun _ => by simp
        · exact ⟨by simp, by simp⟩
      · rw [mark_curSect, mark_sectid, esdAdd_curSect, esdAdd_sectid]
        exact h.cur.trans (le_nextId σ nm)
      · intro h0
        rw [mark_curSect, esdAdd_curSect] at h0
        obtain ⟨hnone, hin⟩ := h.start h0
        rw [mark_find, esdAdd_find, mark_inDsect, esdAdd_inDsect]
        refine ⟨?_, hin⟩
        change Function.update σ.find nm _ SymName.privateCode = none
        rw [Function.update_of_ne (Ne.symm hne), hnone]

/-- A symbol that is no section's: a label of the current section or a reference. -/
theorem Owned.entered (h : Owned σ.find σ.sectid σ.esdord D) {s' : SectSym} {esd' : List (SymName × EsdRole)}
    (hs' : s'.sect ≤ σ.sectid) (hdef : s'.defined = true ↔ s'.sect ≠ 0)
    (hkeep : (σ.symGet nm).sect ≠ 0 → s'.sect = (σ.symGet nm).sect)
    (htype : s'.type = (σ.symGet nm).type ∨ s'.type = .er)
    (hesd : ∀ e ∈ σ.esdord, e ∈ esd') (hnew : ∀ e ∈ esd', IsSection e.2 → e ∈ σ.esdord) :
    Owned (Function.update σ.find nm (some s')) σ.sectid esd' D := by
  have hd := h.symGet_defined nm
  apply h.update le_rfl hs' hdef
  · intro s hs h0
    rw [← symGet_some hs] at h0 ⊢
    exact hkeep h0
  · exact fun d hd => hd
  · exact hesd
  · exact fun e he hr => .inl (hnew e he hr)
  · intro id h1 h2
    omega
  · intro ht
    rcases htype with hty | hty
    · rw [hty] at ht
      obtain ⟨role, hr, he⟩ := h.symGet_typed nm ht
      exact ⟨role, hr, hesd _ he⟩
    · rw [hty] at ht
      simp at ht
  · intro ht
    rcases htype with hty | hty
    · rw [hty] at ht
      obtain ⟨hdef', hin⟩ := h.symGet_dummy nm ht
      have hne := hd.mp hdef'
      rw [hkeep hne]
      exact ⟨hdef.mpr (by rw [hkeep hne]; exact hne), hin⟩
    · rw [hty] at ht
      simp at ht
  · rcases htype with hty | hty
    · rw [hty]
      exact h.symGet_type nm
    · rw [hty]
      simp

theorem Sound.extrn (h : Sound σ D) (nm : List Char) : Sound (σ.extrn nm) D := by
  have hd := h.owned.symGet_defined (.src nm)
  have hle : (σ.symGet (.src nm)).sect ≤ σ.sectid := by
    rcases symGet_cases σ (.src nm) with hs | ⟨-, hs⟩
    · exact h.owned.le _ _ hs
    · rw [hs]
      exact Nat.zero_le _
  by_cases hdef : (σ.symGet (.src nm)).defined = true
  · rw [Pass1.extrn, if_pos hdef]
    refine ⟨?_, h.cur, fun h0 => ⟨?_, (h.start h0).2⟩⟩
    · exact h.owned.entered hle hd (fun _ => rfl) (.inl rfl) (fun e he => he) (fun e he _ => he)
    · rw [setSym_find, Function.update_of_ne (by simp), (h.start h0).1]
  · rw [Pass1.extrn, if_neg hdef]
    refine ⟨?_, ?_, fun h0 => ?_⟩
    · rw [esdAdd_find, esdAdd_sectid, setSym_find]
      apply h.owned.entered
      · exact hle
      · exact hd
      · exact fun _ => rfl
      · exact .inr rfl
      · exact fun e he => (mem_esdAdd ..).mpr (.inl he)
      · intro e he hr
        rcases (mem_esdAdd ..).mp he with hin | rfl
        · exact hin
        · rcases hr with hr | hr <;> exact absurd hr (by simp)
    · rw [esdAdd_curSect, esdAdd_sectid]
      exact h.cur
    · rw [esdAdd_curSect] at h0
      rw [esdAdd_find, esdAdd_inDsect, setSym_find, Function.update_of_ne (by simp)]
      exact h.start h0

theorem Sound.openPrivate (h : Sound σ D) : Sound σ.openPrivate D ∧ σ.openPrivate.curSect ≠ 0 := by
  by_cases h0 : σ.curSect = 0
  · obtain ⟨hnone, hin⟩ := h.start h0
    have hnew : (σ.symGet .privateCode).defined = false := by
      rw [symGet, hnone]
      rfl
    have hopen : σ.openPrivate.curSect = σ.allot .privateCode := by
      rw [Pass1.openPrivate, if_pos ⟨h0, by rw [hin]; rfl⟩]
    have hid : σ.openPrivate.sectid = σ.nextId .privateCode := by
      rw [Pass1.openPrivate, if_pos ⟨h0, by rw [hin]; rfl⟩]
      dsimp only
      rw [chainSect_sectid, esdAdd_sectid, setSect_sectid (σ := σ) rfl rfl rfl]
    have hpos := allot_pos σ .privateCode
    refine ⟨⟨?_, ?_, ?_⟩, ?_⟩
    · have hfind : σ.openPrivate.find = Function.update σ.find .privateCode
          (some { σ.symGet .privateCode with type := .pc, defined := true, sect := σ.allot .privateCode }) := by
        rw [Pass1.openPrivate, if_pos ⟨h0, by rw [hin]; rfl⟩]
        dsimp only
        rw [chainSect_find, esdAdd_find]
        rfl
      rw [hfind, hid]
      apply h.owned.openedAs (show IsSection .sect from .inl rfl) rfl rfl
      · intro hd
        rw [hnew] at hd
        exact absurd hd (by simp)
      · exact fun _ => .inr (.inl rfl)
      · intro e
        rw [Pass1.openPrivate, if_pos ⟨h0, by rw [hin]; rfl⟩]
        dsimp only
        rw [chainSect_esdord, mem_esdAdd]
        simp [hnew, setSect, setSym]
    · rw [hopen, hid]
      exact allot_le h.owned
    · intro h1
      rw [hopen] at h1
      omega
    · rw [hopen]
      omega
  · have hsame : σ.openPrivate = σ := by
      rw [Pass1.openPrivate, if_neg (fun h' => h0 h'.1)]
    rw [hsame]
    exact ⟨h, h0⟩

theorem openPrivate_find {nm : SymName} (hne : nm ≠ .privateCode) : σ.openPrivate.find nm = σ.find nm := by
  unfold Pass1.openPrivate
  by_cases h : σ.curSect = 0 ∧ (!σ.inDsect) = true
  · rw [if_pos h]
    dsimp only
    rw [chainSect_find, esdAdd_find, setSect_find, Function.update_of_ne hne]
  · rw [if_neg h]

theorem Sound.place (h : Sound σ D) (i : ℕ) (hi : σ.find (.shadow i) = none) (lbl : List Char) (algn len : ℕ) :
    Sound (σ.place i lbl algn len) D := by
  obtain ⟨hopen, hcur⟩ := h.openPrivate
  by_cases hl : lbl = []
  · simp only [Pass1.place, hl, ↓reduceIte]
    exact ⟨hopen.owned, hopen.cur, hopen.start⟩
  · have hundef : ∀ s, σ.openPrivate.find (σ.labelName i lbl) = some s → s.defined = false := by
      intro s hs
      rw [openPrivate_find (labelName_ne i lbl), labelName] at hs
      split_ifs at hs with hany
      · rw [hi] at hs
        exact absurd hs (by simp)
      · rw [hs] at hany
        simp only [Option.any_some, Bool.decide_or, Bool.decide_eq_true, Bool.or_eq_true, not_or,
          Bool.not_eq_true] at hany
        exact hany.1
    simp only [Pass1.place, hl, ↓reduceIte]
    refine ⟨?_, hopen.cur, fun h0 => absurd h0 hcur⟩
    apply hopen.owned.entered
    · exact hopen.cur
    · simp [hcur]
    · intro hne
      rcases symGet_cases σ.openPrivate (σ.labelName i lbl) with hs | ⟨-, hs⟩
      · have hd := (hopen.owned.defined _ _ hs).mpr hne
        rw [hundef _ hs] at hd
        exact absurd hd (by simp)
      · rw [hs] at hne
        exact absurd rfl hne
    · exact .inl rfl
    · exact fun e he => he
    · exact fun e he _ => he

theorem update_shadow {j : ℕ} {s : Option SectSym} (hne : nm ≠ .shadow j) :
    Function.update σ.find nm s (.shadow j) = σ.find (.shadow j) := Function.update_of_ne hne.symm ..

theorem labelName_ne_shadow {i j : ℕ} (hj : j ≠ i) (lbl : List Char) : σ.labelName i lbl ≠ .shadow j := by
  unfold labelName
  split_ifs
  · simpa using hj.symm
  · simp

theorem step_find_shadow {i j : ℕ} (hj : j ≠ i) (stmt : SectStmt) :
    (σ.step i stmt).find (.shadow j) = σ.find (.shadow j) := by
  cases stmt with
  | csect lbl start =>
    rw [step, csect_find, update_shadow]
    unfold sectName
    split_ifs <;> simp
  | com lbl =>
    by_cases hl : lbl = []
    · simp [step, Pass1.com, hl]
    · simp [step, Pass1.com, hl, apply_ite Pass1.find, update_shadow]
  | dxd lbl =>
    have hne := labelName_ne_shadow (σ := σ) hj lbl
    simp only [step, Pass1.dxd]
    split_ifs
    · rfl
    · rfl
    · rw [mark_find, esdAdd_find, setSect_find]
      exact Function.update_of_ne hne.symm ..
  | dsect lbl =>
    simp only [step, Pass1.dsect]
    rw [mark_find, setSect_find, park_find, update_shadow]
    split_ifs <;> simp
  | extrn nm =>
    simp only [step, Pass1.extrn]
    split_ifs
    · rw [setSym_find, update_shadow (by simp)]
    · rw [esdAdd_find, setSym_find, update_shadow (by simp)]
  | place lbl algn len =>
    have hne := labelName_ne_shadow (σ := σ) hj lbl
    have hopen : σ.openPrivate.find (.shadow j) = σ.find (.shadow j) := openPrivate_find (by simp)
    by_cases hl : lbl = []
    · simp [step, Pass1.place, hl, hopen]
    · simp only [step, Pass1.place, hl, ↓reduceIte]
      rw [setSym_find, Function.update_of_ne hne.symm]
      exact hopen

/-- One statement keeps the numbering sound. -/
theorem Sound.step (h : Sound σ D) {i : ℕ} (hi : σ.find (.shadow i) = none) (stmt : SectStmt) :
    Sound (σ.step i stmt) (D ++ (σ.dummyOf i stmt).toList) := by
  cases stmt with
  | csect lbl start => exact (List.append_nil D).symm ▸ h.csect lbl start
  | com lbl => exact (List.append_nil D).symm ▸ h.com lbl
  | dxd lbl => exact h.dxd i lbl
  | dsect lbl => exact h.dsect lbl
  | extrn nm => exact (List.append_nil D).symm ▸ h.extrn nm
  | place lbl algn len => exact (List.append_nil D).symm ▸ h.place i hi lbl algn len

theorem Sound.run (h : Sound σ D) {i : ℕ} (hi : ∀ j, i ≤ j → σ.find (.shadow j) = none) (prog : List SectStmt) :
    Sound (run i σ prog) (D ++ dummies i σ prog) := by
  induction prog generalizing i σ D with
  | nil => simpa [Pass1.run, dummies] using h
  | cons stmt rest ih =>
    rw [Pass1.run, dummies, ← List.append_assoc]
    apply ih (h.step (hi i le_rfl) stmt)
    intro j hj
    rw [step_find_shadow (by omega), hi j (by omega)]

end Steps

end Pass1

end Cc370.As370
