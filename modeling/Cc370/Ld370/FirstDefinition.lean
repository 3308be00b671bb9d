import Cc370.Ld370.Resolution

namespace Cc370.Ld370

def Definition.isLabel : Definition → Bool
  | .label .. => true
  | _ => false

/-- How the composite entry of a name relates to its definition, if it has one yet. -/
def EntryOk (s : Composite) (priv : Prop) (o : Option Gsym) : Option Definition → Prop
  | some d => ∃ g, o = some g ∧ Realizes s g d
  | none => ∀ g, o = some g → g.owner = none ∧ (g.isSect = true → priv)

theorem Realizes.congr {s s' : Composite} {g : Gsym} {d : Definition} (h : Realizes s g d)
    (hloc : ∀ i l w, d = .label i l w → s'.locG i l.ownerLocal = s.locG i l.ownerLocal) :
    Realizes s' g d := by
  cases d with
  | sect i j e => exact h
  | common n => exact h
  | label i l w =>
    obtain ⟨h1, h2, h3, h4⟩ := h
    exact ⟨h1, h2, h3.trans (by rw [hloc i l w rfl]), h4⟩

theorem EntryOk.congr {s s' : Composite} {priv priv' : Prop} {o : Option Gsym}
    {d : Option Definition} (h : EntryOk s priv o d)
    (hloc : ∀ i l w, d = some (.label i l w) → s'.locG i l.ownerLocal = s.locG i l.ownerLocal)
    (hp : priv → priv') : EntryOk s' priv' o d := by
  cases d with
  | none =>
    intro g hg
    exact ⟨(h g hg).1, fun hs => hp ((h g hg).2 hs)⟩
  | some d =>
    obtain ⟨g, hg, hr⟩ := h
    exact ⟨g, hg, hr.congr fun i l w hd => hloc i l w (congrArg some hd)⟩

theorem Realizes.type_ne_wx {s : Composite} {g : Gsym} {d : Definition} (h : Realizes s g d) :
    g.type ≠ .wx := by
  cases d with
  | sect i j e => rw [h.2.1]; decide
  | common n => rw [h.2.1]; decide
  | label i l w => rw [h.2.1]; decide

theorem interned_of_ne_wx {g : Gsym} (h : g.type ≠ .wx) (n : Name) (t : EsdType) :
    interned (some g) n t = g := by
  simp [interned, h]

theorem interned_cases (o : Option Gsym) (n : Name) (t : EsdType) :
    (o = none ∧ (interned o n t).owner = none ∧ (interned o n t).isSect = false) ∨
      ∃ g, o = some g ∧ (interned o n t).owner = g.owner ∧ (interned o n t).isSect = g.isSect := by
  cases o with
  | none => exact .inl ⟨rfl, rfl, rfl⟩
  | some g =>
    refine .inr ⟨g, rfl, ?_⟩
    simp only [interned, Option.elim_some]
    split <;> exact ⟨rfl, rfl⟩

theorem EntryOk.interned_none {s : Composite} {priv : Prop} {o : Option Gsym}
    (h : EntryOk s priv o none) (n : Name) (t : EsdType) :
    (interned o n t).owner = none ∧ ((interned o n t).isSect = true → priv) := by
  rcases interned_cases o n t with ⟨rfl, ho, hs⟩ | ⟨g, rfl, ho, hs⟩
  · exact ⟨ho, fun h => absurd h (by simp [hs])⟩
  · rw [ho, hs]
    exact h g rfl

/-- The definition a name has after a section item, as the outside view has it. -/
def sectThen (d : Option Definition) (i j : ℕ) (e : Lent) : Option Definition :=
  if e.type = .sd then some (Definition.followedBy d (.sect i j e))
  else if e.type = .cm then some (Definition.followedBy d (.common e.len))
  else d

theorem define_new {g : Gsym} {e : Lent} (hd : g.duplicate e = false) (ht : e.type = .sd) (i : ℕ) :
    g.define i e =
      { g with isSect := true, type := .sd, len := e.len, defObj := some i, inAddr := e.addr } := by
  simp [Gsym.define, hd, ht, isSectType]

theorem define_csect {s : Composite} {priv : Prop} {o : Option Gsym} {d : Option Definition}
    {e : Lent} (h : EntryOk s priv o d) (ht : e.type = .sd) (hl : ∀ x, d = some x → x.isLabel = false)
    (hp : ¬ priv) (n : Name) (i j : ℕ) :
    Realizes s ((interned o n e.type).define i e) (Definition.followedBy d (.sect i j e)) ∧
      ((interned o n e.type).duplicate e = true ↔ ∃ x, d = some x ∧ x.isSect = true) := by
  cases d with
  | none =>
    obtain ⟨ho, hs⟩ := h.interned_none n e.type
    have hs' : (interned o n e.type).isSect = false := by
      cases hv : (interned o n e.type).isSect with
      | false => rfl
      | true => exact absurd (hs hv) hp
    have hd : (interned o n e.type).duplicate e = false := by simp [Gsym.duplicate, hs']
    rw [define_new hd ht]
    exact ⟨⟨rfl, rfl, rfl, rfl, rfl, ho⟩, by simp [hd]⟩
  | some d =>
    obtain ⟨g, rfl, hr⟩ := h
    rw [interned_of_ne_wx hr.type_ne_wx]
    cases d with
    | sect i' j' e' =>
      have hd : g.duplicate e = true := by simp [Gsym.duplicate, ht, hr.1, hr.2.1]
      refine ⟨?_, by simp [hd, Definition.isSect]⟩
      simpa [Gsym.define, hd, Definition.followedBy] using hr
    | common m =>
      have hd : g.duplicate e = false := by simp [Gsym.duplicate, hr.2.1]
      rw [define_new hd ht]
      exact ⟨⟨rfl, rfl, rfl, rfl, rfl, hr.2.2.2.2⟩, by simp [hd, Definition.isSect]⟩
    | label i' l w => exact absurd (hl _ rfl) (by simp [Definition.isLabel])

theorem mergeCommon_fresh {g : Gsym} (hs : g.isSect = false) (len : ℕ) :
    g.mergeCommon len =
      { g with isSect := true, type := .cm, len := len, defObj := none, inAddr := 0 } := by
  simp only [Gsym.mergeCommon, hs, Bool.false_eq_true, false_and, ↓reduceIte]
  split_ifs with h
  · rfl
  · have : len = 0 := by omega
    rw [this]

theorem define_common {s : Composite} {priv : Prop} {o : Option Gsym} {d : Option Definition}
    {e : Lent} (h : EntryOk s priv o d) (ht : e.type = .cm) (hl : ∀ x, d = some x → x.isLabel = false)
    (hp : ¬ priv) (n : Name) (i : ℕ) :
    Realizes s ((interned o n e.type).define i e) (Definition.followedBy d (.common e.len)) := by
  have hd (g : Gsym) : g.define i e = g.mergeCommon e.len := by
    simp [Gsym.define, Gsym.duplicate, ht]
  rw [hd]
  cases d with
  | none =>
    obtain ⟨ho, hs⟩ := h.interned_none n e.type
    have hs' : (interned o n e.type).isSect = false := by
      cases hv : (interned o n e.type).isSect with
      | false => rfl
      | true => exact absurd (hs hv) hp
    rw [mergeCommon_fresh hs']
    exact ⟨rfl, rfl, rfl, rfl, ho⟩
  | some d =>
    obtain ⟨g, rfl, hr⟩ := h
    rw [interned_of_ne_wx hr.type_ne_wx]
    cases d with
    | sect i' j' e' =>
      have hm : g.mergeCommon e.len = g := by simp [Gsym.mergeCommon, hr.1, hr.2.1]
      rw [hm]
      exact hr
    | common m =>
      obtain ⟨h1, h2, h3, h4, h5⟩ := hr
      simp only [Gsym.mergeCommon, h1, h2, reduceCtorEq, and_false, ↓reduceIte, and_self, h3]
      split_ifs with hlt
      · exact ⟨rfl, rfl, (max_eq_right hlt.le).symm, h4, h5⟩
      · exact ⟨h1, h2, h3.trans (max_eq_left (by omega)).symm, h4, h5⟩
    | label i' l w => exact absurd (hl _ rfl) (by simp [Definition.isLabel])

theorem define_reference {e : Lent} (h : e.type ≠ .sd) (hc : e.type ≠ .cm) (hp : e.type ≠ .pc)
    (g : Gsym) (i : ℕ) : g.define i e = g := by
  simp [Gsym.define, Gsym.duplicate, h, hc, hp, isSectType]

theorem EntryOk.reference {s : Composite} {priv : Prop} {o : Option Gsym} {d : Option Definition}
    (h : EntryOk s priv o d) (n : Name) (t : EsdType) :
    EntryOk s priv (some (interned o n t)) d := by
  cases d with
  | none =>
    rintro g hg
    obtain rfl := Option.some.inj hg
    exact h.interned_none n t
  | some d =>
    obtain ⟨g, rfl, hr⟩ := h
    rw [interned_of_ne_wx hr.type_ne_wx]
    exact ⟨g, rfl, hr⟩

theorem EntryOk.section {s : Composite} {priv : Prop} {o : Option Gsym} {d : Option Definition}
    {e : Lent} (h : EntryOk s priv o d) (hpc : e.type ≠ .pc)
    (hl : e.type = .sd ∨ e.type = .cm → (∀ x, d = some x → x.isLabel = false) ∧ ¬ priv)
    (n : Name) (i j : ℕ) :
    EntryOk s priv (some ((interned o n e.type).define i e)) (sectThen d i j e) := by
  unfold sectThen
  split_ifs with hs hc
  · exact ⟨_, rfl, (define_csect h hs (hl (.inl hs)).1 (hl (.inl hs)).2 n i j).1⟩
  · exact ⟨_, rfl, define_common h hc (hl (.inr hc)).1 (hl (.inr hc)).2 n i⟩
  · rw [define_reference hs hc hpc]
    exact h.reference n e.type

theorem label_owned {s : Composite} {priv : Prop} {o : Option Gsym} {d : Option Definition}
    (h : EntryOk s priv o d) (hd : ∀ x, d = some x → x.isLabel = true) (hp : ¬ priv)
    (n : Name) (i : ℕ) (l : Ldent) (w : Lent) :
    Realizes s ((interned o n .ld).label l (some w) (s.locG i l.ownerLocal))
      (Definition.followedBy d (.label i l w)) := by
  cases d with
  | none =>
    obtain ⟨ho, hs⟩ := h.interned_none n .ld
    have hs' : (interned o n .ld).isSect = false := by
      cases hv : (interned o n .ld).isSect with
      | false => rfl
      | true => exact absurd (hs hv) hp
    simp [Gsym.label, Gsym.doublyDefined, ho, Definition.followedBy, Realizes, hs']
  | some d =>
    obtain ⟨g, rfl, hr⟩ := h
    rw [interned_of_ne_wx hr.type_ne_wx]
    cases d with
    | label i' l' w' =>
      have hg : g.doublyDefined = true := by simp [Gsym.doublyDefined, hr.2.1, hr.2.2.1]
      rw [Gsym.label, if_pos hg]
      exact hr
    | sect i' j' e' => exact absurd (hd _ rfl) (by simp [Definition.isLabel])
    | common m => exact absurd (hd _ rfl) (by simp [Definition.isLabel])

theorem label_unowned {s : Composite} {priv : Prop} {o : Option Gsym} {d : Option Definition}
    (h : EntryOk s priv o d) (hd : ∀ x, d = some x → x.isLabel = true) (n : Name) (l : Ldent)
    (k : ℕ) : EntryOk s priv (some ((interned o n .ld).label l none k)) d := by
  cases d with
  | none =>
    obtain ⟨ho, hs⟩ := h.interned_none n .ld
    rintro g hg
    obtain rfl := Option.some.inj hg
    have hn : (interned o n .ld).doublyDefined = false := by simp [Gsym.doublyDefined, ho]
    simp only [Gsym.label, hn, Bool.false_eq_true, ↓reduceIte, Option.map_none, true_and]
    exact hs
  | some d =>
    obtain ⟨g, rfl, hr⟩ := h
    rw [interned_of_ne_wx hr.type_ne_wx]
    cases d with
    | label i' l' w' =>
      have hg : g.doublyDefined = true := by simp [Gsym.doublyDefined, hr.2.1, hr.2.2.1]
      rw [Gsym.label, if_pos hg]
      exact ⟨g, rfl, hr⟩
    | sect i' j' e' => exact absurd (hd _ rfl) (by simp [Definition.isLabel])
    | common m => exact absurd (hd _ rfl) (by simp [Definition.isLabel])

end Cc370.Ld370
