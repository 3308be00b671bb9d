import Cc370.Ld370.StandingSections
import Mathlib.Data.List.DropRight

namespace Cc370.Ld370

namespace EsdItem

def labels (n : Name) : EsdItem → Bool
  | .label _ l _ => l.name = n
  | .sect .. => false

def csect (n : Name) : EsdItem → Bool
  | .sect _ _ e => e.name = n ∧ e.type = .sd
  | .label .. => false

def contribution (n : Name) : EsdItem → Option ℕ
  | .sect _ _ e => if e.name = n ∧ e.type = .cm then some e.len else none
  | .label .. => none

end EsdItem

/-- The lengths that common areas of the name have in the objects. -/
def contributions (q : List EsdItem) (n : Name) : List ℕ := q.filterMap (EsdItem.contribution n)

/-- The items behind the last label of the name. -/
def sinceLabel (q : List EsdItem) (n : Name) : List EsdItem := q.rtakeWhile fun x => !x.labels n

/-- The entry of a name against the items since its last label: a control section is one for good, else
the common areas make one as long as the longest. -/
structure AreaOk (t : List EsdItem) (n : Name) (o : Option Gsym) : Prop where
  csect : ∀ x ∈ t, x.csect n = true → ∃ g, o = some g ∧ g.isSect = true ∧ g.type = .sd
  only : ∀ g, o = some g → g.isSect = true → g.type = .sd → ∃ x ∈ t, x.csect n = true
  area : (∀ x ∈ t, x.csect n = false) → ∀ c ∈ contributions t n, ∃ g, o = some g ∧ g.isSect = true ∧ g.type = .cm ∧ c ≤ g.len
  reached : ∀ g, o = some g → g.isSect = true → g.type = .cm → (∀ x ∈ t, x.csect n = false) ∧ g.len ∈ contributions t n

section Merge

variable {g : Gsym}

theorem mergeCommon_area (hs : g.isSect = true) (ht : g.type = .cm) (len : ℕ) : g.mergeCommon len = { g with len := max g.len len } := by
  have hsd : ¬ (g.isSect = true ∧ g.type = .sd) := by
    rw [ht]
    exact fun h => absurd h.2 (by decide)
  have hcm : g.isSect = true ∧ g.type = .cm := ⟨hs, ht⟩
  unfold Gsym.mergeCommon
  simp only [if_neg hsd, if_pos hcm]
  split_ifs with hlen
  · rw [max_eq_right hlen.le]
  · rw [max_eq_left (not_lt.mp hlen)]

theorem mergeCommon_new (h : g.isSect = true → g.type ≠ .sd ∧ g.type ≠ .cm) (len : ℕ) :
    g.mergeCommon len = { g with isSect := true, type := .cm, len := len, defObj := none, inAddr := 0 } := by
  have hsd : ¬ (g.isSect = true ∧ g.type = .sd) := fun hg => (h hg.1).1 hg.2
  have hcm : ¬ (g.isSect = true ∧ g.type = .cm) := fun hg => (h hg.1).2 hg.2
  unfold Gsym.mergeCommon
  simp only [if_neg hsd, if_neg hcm]
  split_ifs with hlen
  · rfl
  · rw [Nat.eq_zero_of_not_pos hlen]

theorem define_defObj {i : ℕ} {e : Lent} (h : g.isSect = true → g.type = .cm → g.defObj = none)
    (hs : (g.define i e).isSect = true) (ht : (g.define i e).type = .cm) : (g.define i e).defObj = none := by
  unfold Gsym.define Gsym.mergeCommon at hs ht ⊢
  dsimp only at hs ht ⊢
  split_ifs at hs ht ⊢ <;> simp_all

end Merge

section Steps

variable {q t : List EsdItem} {x : EsdItem} {n : Name}

theorem sinceLabel_snoc : sinceLabel (q ++ [x]) n = if x.labels n then [] else sinceLabel q n ++ [x] := by
  rw [sinceLabel, List.rtakeWhile_concat]
  cases x.labels n <;> rfl

theorem contributions_snoc : contributions (t ++ [x]) n = contributions t n ++ (x.contribution n).toList := by
  rw [contributions, List.filterMap_append]
  cases hx : x.contribution n <;> simp [contributions, hx]

namespace AreaOk

variable {o : Option Gsym}

theorem nil (h : ∀ g, o = some g → g.isSect = true → g.type ≠ .sd ∧ g.type ≠ .cm) : AreaOk [] n o :=
  ⟨nofun, fun g hg hs ht => absurd ht (h g hg hs).1, fun _ _ hc => absurd hc List.not_mem_nil,
    fun g hg hs ht => absurd ht (h g hg hs).2⟩

/-- An item that is no section of the name. -/
theorem skip (h : AreaOk t n o) (hc : x.csect n = false) (hn : x.contribution n = none) : AreaOk (t ++ [x]) n o := by
  have hcontr : contributions (t ++ [x]) n = contributions t n := by
    rw [contributions_snoc, hn]
    exact List.append_nil _
  have hall : (∀ y ∈ t ++ [x], y.csect n = false) ↔ ∀ y ∈ t, y.csect n = false := by
    simp [or_imp, forall_and, hc]
  constructor
  · intro y hy hyc
    rcases List.mem_append.mp hy with hy | hy
    · exact h.csect y hy hyc
    · rw [List.mem_singleton.mp hy, hc] at hyc
      exact absurd hyc (by simp)
  · intro g hg hs ht
    obtain ⟨y, hy, hyc⟩ := h.only g hg hs ht
    exact ⟨y, List.mem_append_left _ hy, hyc⟩
  · rw [hall, hcontr]
    exact h.area
  · rw [hall, hcontr]
    exact h.reached

/-- The entry is neither a control section nor a common area before and after. -/
theorem change {o' : Option Gsym} (h : AreaOk t n o) (hold : ∀ g, o = some g → g.isSect = true → g.type ≠ .sd ∧ g.type ≠ .cm)
    (hnew : ∀ g, o' = some g → g.isSect = true → g.type ≠ .sd ∧ g.type ≠ .cm) : AreaOk t n o' := by
  constructor
  · intro y hy hyc
    obtain ⟨g, hg, hs, ht⟩ := h.csect y hy hyc
    exact absurd ht (hold g hg hs).1
  · intro g hg hs ht
    exact absurd ht (hnew g hg hs).1
  · intro hno c hc
    obtain ⟨g, hg, hs, ht, -⟩ := h.area hno c hc
    exact absurd ht (hold g hg hs).2
  · intro g hg hs ht
    exact absurd ht (hnew g hg hs).2

theorem enter_csect {g : Gsym} (hc : x.csect n = true) (hs : g.isSect = true) (ht : g.type = .sd) : AreaOk (t ++ [x]) n (some g) := by
  constructor
  · intro y _ _
    exact ⟨g, rfl, hs, ht⟩
  · intro g' _ _ _
    exact ⟨x, by simp, hc⟩
  · intro hno
    have hx := hno x (by simp)
    rw [hc] at hx
    exact absurd hx (by simp)
  · intro g' hg' _ ht'
    obtain rfl := Option.some.inj hg'
    exact absurd (ht.symm.trans ht') (by decide)

/-- Without a control section, the entry is a common area of the longest length. -/
theorem of_longest {g : Gsym} (hno : ∀ y ∈ t, y.csect n = false) (hs : g.isSect = true) (ht : g.type = .cm)
    (hle : ∀ c ∈ contributions t n, c ≤ g.len) (hmem : g.len ∈ contributions t n) : AreaOk t n (some g) := by
  constructor
  · intro y hy hyc
    rw [hno y hy] at hyc
    exact absurd hyc (by simp)
  · intro g' hg' _ ht'
    obtain rfl := Option.some.inj hg'
    exact absurd (ht.symm.trans ht') (by decide)
  · intro _ c hc
    exact ⟨g, rfl, hs, ht, hle c hc⟩
  · intro g' hg' _ _
    obtain rfl := Option.some.inj hg'
    exact ⟨hno, hmem⟩

/-- A common area meets the entry of its name. -/
theorem enter_common {len : ℕ} (h : AreaOk t n o) (hc : x.csect n = false) (hx : x.contribution n = some len) :
    AreaOk (t ++ [x]) n (some ((interned o n .cm).mergeCommon len)) := by
  have hcontr : contributions (t ++ [x]) n = contributions t n ++ [len] := by
    rw [contributions_snoc, hx]
    rfl
  by_cases hex : ∃ y ∈ t, y.csect n = true
  · -- the control section stays
    obtain ⟨y, hy, hyc⟩ := hex
    obtain ⟨g, rfl, hs, ht⟩ := h.csect y hy hyc
    have hg : (interned (some g) n .cm).mergeCommon len = g := by
      rw [interned_of_ne_wx (by rw [ht]; decide), Gsym.mergeCommon, if_pos ⟨hs, ht⟩]
    rw [hg]
    constructor
    · intro z _ _
      exact ⟨g, rfl, hs, ht⟩
    · intro g' _ _ _
      exact ⟨y, List.mem_append_left _ hy, hyc⟩
    · intro hno
      have hyc' := hno y (List.mem_append_left _ hy)
      rw [hyc] at hyc'
      exact absurd hyc' (by simp)
    · intro g' hg' _ ht'
      obtain rfl := Option.some.inj hg'
      exact absurd (ht.symm.trans ht') (by decide)
  · have hno : ∀ y ∈ t, y.csect n = false := fun y hy => by simpa using fun hyc => hex ⟨y, hy, hyc⟩
    have hno' : ∀ y ∈ t ++ [x], y.csect n = false := by
      intro y hy
      rcases List.mem_append.mp hy with hy | hy
      · exact hno y hy
      · rw [List.mem_singleton.mp hy]
        exact hc
    by_cases hcm : ∃ g, o = some g ∧ g.isSect = true ∧ g.type = .cm
    · obtain ⟨g, rfl, hs, ht⟩ := hcm
      obtain ⟨-, hmem⟩ := h.reached g rfl hs ht
      have hle : ∀ c ∈ contributions t n, c ≤ g.len := by
        intro c hc
        obtain ⟨g', hg', -, -, hle⟩ := h.area hno c hc
        obtain rfl := Option.some.inj hg'
        exact hle
      rw [interned_of_ne_wx (by rw [ht]; decide), mergeCommon_area hs ht]
      refine of_longest hno' hs ht ?_ ?_
      · intro c hc
        rw [hcontr, List.mem_append, List.mem_singleton] at hc
        rcases hc with hc | rfl
        · exact (hle c hc).trans (le_max_left _ _)
        · exact le_max_right _ _
      · rw [hcontr, List.mem_append, List.mem_singleton]
        rcases max_choice g.len len with hmax | hmax
        · rw [hmax]
          exact .inl hmem
        · exact .inr hmax
    · have hempty : contributions t n = [] := by
        apply List.eq_nil_iff_forall_not_mem.mpr
        intro c hc
        obtain ⟨g, hg, hs, ht, -⟩ := h.area hno c hc
        exact hcm ⟨g, hg, hs, ht⟩
      have hsect : (interned o n .cm).isSect = true → (interned o n .cm).type ≠ .sd ∧ (interned o n .cm).type ≠ .cm := by
        intro hs
        rcases interned_eq o n .cm with ⟨-, heq⟩ | ⟨g, -, -, heq⟩ | heq
        · rw [heq] at hs
          exact absurd hs (by simp [Gsym.fresh])
        · rw [heq]
          exact ⟨by simp, by simp⟩
        · constructor
          · intro ht
            exact hex (h.only _ heq hs ht)
          · intro ht
            exact hcm ⟨_, heq, hs, ht⟩
      rw [mergeCommon_new hsect]
      apply of_longest hno' rfl rfl
      · rw [hcontr, hempty]
        simp
      · rw [hcontr, hempty]
        simp

end AreaOk

/-- The composite table against the common areas of the items entered so far. -/
structure Areas (s : Composite) (q : List EsdItem) : Prop where
  names : ∀ n, AreaOk (sinceLabel q n) n (look s.G n)
  common : ∀ k < s.G.length, (gAt s.G k).isSect = true → (gAt s.G k).type = .cm →
    (gAt s.G k).defObj = none ∧ gFind s.G (gAt s.G k).name = some k

namespace Areas

variable {s s' : Composite}

theorem nil : Areas .empty [] := by
  refine ⟨fun n => AreaOk.nil ?_, fun k hk => absurd hk (Nat.not_lt_zero k)⟩
  intro g hg
  exact absurd hg (by simp [look, gFind, Composite.empty])

/-- A step that enters a symbol by its name. -/
theorem snoc_interned (h : Areas s q) {g : Gsym} {k : EsdType} (hG : s'.G = (gIntern s.G n k).1.set (gIntern s.G n k).2 g)
    (hname : g.name = n) (hx : x.name = n) (hself : AreaOk (sinceLabel (q ++ [x]) n) n (some g))
    (hcm : g.isSect = true → g.type = .cm → g.defObj = none) : Areas s' (q ++ [x]) := by
  have hu : Updates s.G s'.G n (gIntern s.G n k).2 g := by
    rw [hG]
    exact (gIntern_updates s.G n k).set hname
  constructor
  · intro m
    by_cases hm : m = n
    · rw [hm, hu.look_self]
      exact hself
    · have hother : x.labels m = false ∧ x.csect m = false ∧ x.contribution m = none := by
        have hne : x.name ≠ m := fun heq => hm (heq.symm.trans hx)
        cases x with
        | sect i j e => exact ⟨rfl, decide_eq_false fun hh => hne hh.1, if_neg fun hh => hne hh.1⟩
        | label i l w => exact ⟨decide_eq_false hne, rfl, rfl⟩
      rw [hu.look_other hm, sinceLabel_snoc, hother.1]
      exact (h.names m).skip hother.2.1 hother.2.2
  · intro j hj hs ht
    by_cases hji : j = (gIntern s.G n k).2
    · rw [hji, hu.entry] at hs ht ⊢
      rw [hname]
      exact ⟨hcm hs ht, hu.find⟩
    · have hlt : j < s.G.length := by
        rw [hG, List.length_set] at hj
        exact (gIntern_length s.G n k j hj).resolve_right hji
      rw [hu.atOther j hlt hji] at hs ht ⊢
      obtain ⟨hdef, hfind⟩ := h.common j hlt hs ht
      exact ⟨hdef, hu.find_le hfind⟩

theorem snoc_private (h : Areas s q) {i j : ℕ} {e : Lent} (hpc : e.type = .pc) : Areas (passSection s i j e) (q ++ [.sect i j e]) := by
  obtain ⟨hG, -, -⟩ := passSection_private hpc s i j
  have htype : ((Gsym.fresh e.name).define i e).type = .pc := by
    simp [Gsym.define, Gsym.duplicate, isSectType, hpc]
  have hplain (m : Name) : (EsdItem.sect i j e).csect m = false ∧ (EsdItem.sect i j e).contribution m = none := by
    simp [EsdItem.csect, EsdItem.contribution, hpc]
  constructor
  · intro m
    have hrest : sinceLabel (q ++ [.sect i j e]) m = sinceLabel q m ++ [.sect i j e] := by
      rw [sinceLabel_snoc]
      rfl
    rw [hrest, hG, look_append]
    apply AreaOk.skip _ (hplain m).1 (hplain m).2
    cases hl : look s.G m with
    | some g =>
      rw [Option.some_or, ← hl]
      exact h.names m
    | none =>
      have hm := h.names m
      rw [hl] at hm
      rw [Option.none_or]
      apply hm.change (by simp)
      intro g hg _
      split_ifs at hg
      rw [← Option.some.inj hg, htype]
      exact ⟨by simp, by simp⟩
  · intro k hk hs ht
    rw [hG, List.length_append, List.length_singleton] at hk
    rcases Nat.lt_succ_iff_lt_or_eq.mp hk with hlt | rfl
    · rw [hG, gAt_append_lt _ hlt] at hs ht ⊢
      obtain ⟨hdef, hfind⟩ := h.common k hlt hs ht
      refine ⟨hdef, ?_⟩
      rw [gFind_append, hfind]
      rfl
    · rw [hG, gAt_append_length, htype] at ht
      exact absurd ht (by decide)

theorem snoc_sect (h : Areas s q) {i j : ℕ} {e : Lent} (hpc : e.type ≠ .pc) : Areas (passSection s i j e) (q ++ [.sect i j e]) := by
  obtain ⟨hG, -⟩ := passSection_G (s := s) (i := i) (j := j) hpc
  have hname : ((interned (look s.G e.name) e.name e.type).define i e).name = e.name := (define_name _ _ _).trans (interned_name _)
  have hm := h.names e.name
  apply h.snoc_interned hG hname rfl
  · have hrest : sinceLabel (q ++ [.sect i j e]) e.name = sinceLabel q e.name ++ [.sect i j e] := by
      rw [sinceLabel_snoc]
      rfl
    rw [hrest]
    by_cases hsd : e.type = .sd
    · have hc : (EsdItem.sect i j e).csect e.name = true := by simp [EsdItem.csect, hsd]
      apply AreaOk.enter_csect hc
      · exact (define_isSect hpc i).mpr (.inr (.inl hsd))
      · rw [Gsym.define]
        split_ifs with hdup hcm hsect
        · simp only [Gsym.duplicate, decide_eq_true_eq] at hdup
          exact hdup.2.2
        · exact absurd (hsd.symm.trans hcm) (by decide)
        · exact hsd
        · exact absurd (by simp [isSectType, hsd]) hsect
    · have hc : (EsdItem.sect i j e).csect e.name = false := by simp [EsdItem.csect, hsd]
      have hdup : (interned (look s.G e.name) e.name e.type).duplicate e = false := by simp [Gsym.duplicate, hsd]
      by_cases hcm : e.type = .cm
      · rw [Gsym.define, hdup, if_neg (by simp), if_pos hcm, hcm]
        exact hm.enter_common hc (by simp [EsdItem.contribution, hcm])
      · rw [define_reference hsd hcm hpc]
        apply AreaOk.skip _ hc (by simp [EsdItem.contribution, hcm])
        rcases interned_eq (look s.G e.name) e.name e.type with ⟨hnone, heq⟩ | ⟨g, hg, hw, heq⟩ | heq
        · rw [heq]
          apply hm.change
          · rw [hnone]
            simp
          · intro g hg hs
            rw [← Option.some.inj hg] at hs
            exact absurd hs (by simp [Gsym.fresh])
        · rw [heq]
          apply hm.change
          · intro g' hg' _
            rw [Option.some.inj (hg'.symm.trans hg), hw]
            exact ⟨by simp, by simp⟩
          · intro g' hg' _
            rw [← Option.some.inj hg']
            exact ⟨by simp, by simp⟩
        · rw [← heq]
          exact hm
  · apply define_defObj
    intro hs ht
    rcases interned_eq (look s.G e.name) e.name e.type with ⟨-, heq⟩ | ⟨g, -, -, heq⟩ | heq
    · rw [heq] at hs
      exact absurd hs (by simp [Gsym.fresh])
    · rw [heq] at ht
      exact absurd ht (by simp)
    · obtain ⟨k, hk, hat⟩ := look_lt heq
      rw [← hat] at hs ht ⊢
      exact (h.common k hk hs ht).1

theorem snoc_label (h : Areas s q) {i : ℕ} {l : Ldent} {owner : Option Lent} (hlive : ¬ (owner.isSome ∧ s.dropped i l.ownerLocal)) :
    Areas (passLabel s i l owner) (q ++ [.label i l owner]) := by
  have hname : ((interned (look s.G l.name) l.name .ld).label l owner (s.locG i l.ownerLocal)).name = l.name :=
    (label_name _ _ _ _).trans (interned_name _)
  have htype := label_type (interned (look s.G l.name) l.name .ld) l owner (s.locG i l.ownerLocal)
  apply h.snoc_interned (passLabel_G hlive) hname rfl
  · have hrest : sinceLabel (q ++ [.label i l owner]) l.name = [] := by
      rw [sinceLabel_snoc, if_pos (by simp [EsdItem.labels])]
    rw [hrest]
    apply AreaOk.nil
    intro g hg _
    rw [← Option.some.inj hg, htype]
    exact ⟨nofun, nofun⟩
  · intro _ ht
    exact absurd (htype.symm.trans ht) (by decide)

end Areas

end Steps

theorem areas (O : List Obj) : Areas (pass2 O) (liveItems O) := by
  apply live_induction Areas.nil
  · intro s q r i j e _ _ _ h
    by_cases hpc : e.type = .pc
    · exact h.snoc_private hpc
    · exact h.snoc_sect hpc
  · intro s q r i l owner _ hlive h
    exact h.snoc_label hlive

theorem common_defObj {O : List Obj} {k : ℕ} (hk : k < (pass2 O).G.length) (hs : (gAt (pass2 O).G k).isSect = true)
    (ht : (gAt (pass2 O).G k).type = .cm) : (gAt (pass2 O).G k).defObj = none := ((areas O).common k hk hs ht).1

/-- A common area is where the walk over the table put it. -/
theorem common_org {O : List Obj} {k : ℕ} (hk : k < (linked O).G.length) (hs : (gAt (linked O).G k).isSect = true)
    (ht : (gAt (linked O).G k).type = .cm) : (gAt (linked O).G k).org = (gAt (withCommons O (pass2 O)).1 k).inAddr := by
  obtain ⟨hlen, hat⟩ := numbered_at O (pass2 O)
  have hk' : k < (withCommons O (pass2 O)).1.length := hlen.symm ▸ hk
  obtain ⟨hsame, horg⟩ := hat k hk'
  have hkp : k < (pass2 O).G.length := by
    have := assignAddresses_length O (pass2 O)
    exact this ▸ hk
  have hassigned := (assigned (O := O) hkp).same
  have hdef : (gAt (pass2 O).G k).defObj = none :=
    common_defObj hkp (hassigned.isSect.symm.trans hs) (hassigned.type.symm.trans ht)
  have hnone : (gAt (withCommons O (pass2 O)).1 k).defObj = none := by
    rw [← hsame.defObj]
    exact hassigned.defObj.trans hdef
  have hval := horg (hsame.isSect.symm.trans hs)
  rw [hnone, Option.elim_none, zero_add] at hval
  exact hval

end Cc370.Ld370
