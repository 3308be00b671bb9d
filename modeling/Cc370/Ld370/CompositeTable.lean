import Cc370.Ld370.Composite

namespace Cc370.Ld370

theorem gFind_eq (G : List Gsym) (n : Name) :
    gFind G n = (G.map Gsym.name).findIdx? (fun m => m = n) := by
  simp [gFind, List.findIdx?_map, Function.comp_def]

theorem gFind_congr {G G' : List Gsym} (h : G'.map Gsym.name = G.map Gsym.name) (n : Name) :
    gFind G' n = gFind G n := by
  rw [gFind_eq, gFind_eq, h]

theorem gFind_lt {G : List Gsym} {n : Name} {gi : ℕ} (h : gFind G n = some gi) : gi < G.length :=
  (List.findIdx?_eq_some_iff_findIdx_eq.mp h).1

theorem gAt_eq {G : List Gsym} {gi : ℕ} (h : gi < G.length) : gAt G gi = G[gi] := by
  simp [gAt, h]

theorem gAt_mem {G : List Gsym} {k : ℕ} (hk : k < G.length) : gAt G k ∈ G := by
  rw [gAt_eq hk]
  exact List.getElem_mem hk

theorem mem_gAt {G : List Gsym} {g : Gsym} (h : g ∈ G) : ∃ k < G.length, gAt G k = g := by
  obtain ⟨k, hk, rfl⟩ := List.mem_iff_getElem.mp h
  exact ⟨k, hk, gAt_eq hk⟩

theorem gFind_name {G : List Gsym} {n : Name} {gi : ℕ} (h : gFind G n = some gi) :
    (gAt G gi).name = n := by
  obtain ⟨hlt, hp, -⟩ := List.findIdx?_eq_some_iff_getElem.mp h
  rw [gAt_eq hlt]
  simpa using hp

theorem gFind_none {G : List Gsym} {n : Name} (h : gFind G n = none) : n ∉ G.map Gsym.name := by
  rw [gFind_eq, List.findIdx?_eq_none_iff] at h
  intro hm
  simpa using h n hm

theorem gFind_append (G : List Gsym) (g : Gsym) (n : Name) :
    gFind (G ++ [g]) n =
      (gFind G n).or (if g.name = n then some G.length else none) := by
  by_cases hg : g.name = n <;> simp [gFind, List.findIdx?_append, hg]

theorem gAt_append_lt {G : List Gsym} {gi : ℕ} (g : Gsym) (h : gi < G.length) :
    gAt (G ++ [g]) gi = gAt G gi := by
  simp [gAt, List.getElem?_append_left h]

theorem gAt_append_length (G : List Gsym) (g : Gsym) : gAt (G ++ [g]) G.length = g := by
  simp [gAt]

theorem gAt_set_self {G : List Gsym} {gi : ℕ} (g : Gsym) (h : gi < G.length) :
    gAt (G.set gi g) gi = g := by
  simp [gAt, h]

theorem gAt_set_ne {G : List Gsym} {gi k : ℕ} (g : Gsym) (h : k ≠ gi) :
    gAt (G.set gi g) k = gAt G k := by
  simp [gAt, List.getElem?_set_ne h.symm]

theorem names_set {G : List Gsym} {gi : ℕ} {g : Gsym} (hg : g.name = (gAt G gi).name) :
    (G.set gi g).map Gsym.name = G.map Gsym.name := by
  rw [List.map_set]
  by_cases h : gi < G.length
  · have hl : gi < (G.map Gsym.name).length := by simpa using h
    have hself := List.set_getElem_self hl
    rw [List.getElem_map] at hself
    rw [hg, gAt_eq h, hself]
  · exact List.set_eq_of_length_le (by simpa using h)

/-- The entry that a reference of the given type to a name finds or makes. -/
def interned (g : Option Gsym) (n : Name) (t : EsdType) : Gsym :=
  g.elim { Gsym.fresh n with type := t } fun g =>
    if g.type = .wx ∧ t ≠ .wx then { g with type := .er } else g

def look (G : List Gsym) (n : Name) : Option Gsym := (gFind G n).map (gAt G)

theorem look_name {G : List Gsym} {n : Name} {g : Gsym} (h : look G n = some g) : g.name = n := by
  obtain ⟨gi, hgi, rfl⟩ := Option.map_eq_some_iff.mp h
  exact gFind_name hgi

/-- `G'` is `G` with the entry of one name replaced or added, under index `gi`. -/
structure Updates (G G' : List Gsym) (n : Name) (gi : ℕ) (g : Gsym) : Prop where
  find : gFind G' n = some gi
  entry : gAt G' gi = g
  mono : ∀ k, gFind G n = some k → k = gi
  new : gFind G n = none → G.length ≤ gi
  findOther : ∀ m, m ≠ n → gFind G' m = gFind G m
  atOther : ∀ k < G.length, k ≠ gi → gAt G' k = gAt G k
  length : G.length ≤ G'.length
  lt : gi < G'.length

namespace Updates

variable {G G' : List Gsym} {n : Name} {gi : ℕ} {g : Gsym}

theorem look_self (h : Updates G G' n gi g) : look G' n = some g := by
  simp [look, h.find, h.entry]

theorem look_other (h : Updates G G' n gi g) {m : Name} (hm : m ≠ n) : look G' m = look G m := by
  rw [look, look, h.findOther m hm]
  cases hk : gFind G m with
  | none => rfl
  | some k =>
    have hne : k ≠ gi := by
      rintro rfl
      have h1 := gFind_name (h.findOther m hm ▸ hk)
      have h2 := gFind_name h.find
      exact hm (h1.symm.trans h2)
    rw [Option.map_some, Option.map_some, h.atOther k (gFind_lt hk) hne]

theorem set (h : Updates G G' n gi g) {g' : Gsym} (hg : g'.name = n) :
    Updates G (G'.set gi g') n gi g' := by
  have hnames : (G'.set gi g').map Gsym.name = G'.map Gsym.name :=
    names_set (hg.trans (gFind_name h.find).symm)
  refine ⟨?_, gAt_set_self _ h.lt, h.mono, h.new, ?_, ?_, by simpa using h.length,
    by simpa using h.lt⟩
  · rw [gFind_congr hnames, h.find]
  · intro m hm
    rw [gFind_congr hnames, h.findOther m hm]
  · intro k hk hne
    rw [gAt_set_ne _ hne, h.atOther k hk hne]

/-- The index was the name's before, unless it lies past the old table. -/
theorem find_of_lt (h : Updates G G' n gi g) (hlt : gi < G.length) : gFind G n = some gi := by
  cases hk : gFind G n with
  | none => exact absurd (h.new hk) (by omega)
  | some k => rw [h.mono k hk]

theorem find_le (h : Updates G G' n gi g) {m : Name} {k : ℕ} (hk : gFind G m = some k) :
    gFind G' m = some k := by
  by_cases hm : m = n
  · subst hm
    rw [h.find, h.mono k hk]
  · rw [h.findOther m hm, hk]

end Updates

theorem gIntern_updates (G : List Gsym) (n : Name) (t : EsdType) :
    Updates G (gIntern G n t).1 n (gIntern G n t).2 (interned (look G n) n t) := by
  cases hf : gFind G n with
  | none =>
    have hi : gIntern G n t = (G ++ [{ Gsym.fresh n with type := t }], G.length) := by
      simp [gIntern, hf]
    have hl : look G n = none := by simp [look, hf]
    rw [hi, hl]
    refine ⟨?_, ?_, by simp [hf], fun _ => le_rfl, ?_, ?_, by simp, by simp⟩
    · rw [gFind_append, hf]
      simp [Gsym.fresh]
    · exact gAt_append_length _ _
    · intro m hm
      have hne : (Gsym.fresh n).name ≠ m := fun h => hm h.symm
      rw [gFind_append, if_neg hne, Option.or_none]
    · intro k hk _
      exact gAt_append_lt _ hk
  | some gi =>
    have hlt := gFind_lt hf
    have hl : look G n = some (gAt G gi) := by simp [look, hf]
    have hset : gIntern G n t = (G.set gi (interned (look G n) n t), gi) := by
      rw [hl]
      simp only [gIntern, hf, interned, Option.elim_some, gAt_eq hlt, List.modify_eq_set_get _ hlt]
      rfl
    have hbase : Updates G G n gi (gAt G gi) :=
      ⟨hf, rfl, fun k hk => (Option.some.inj (hf.symm.trans hk)).symm,
        fun hn => absurd (hf.symm.trans hn) (by simp), fun _ _ => rfl, fun _ _ _ => rfl, le_rfl, hlt⟩
    have hname : (interned (look G n) n t).name = n := by
      rw [hl]
      simp only [interned, Option.elim_some]
      split
      · exact gFind_name hf
      · exact gFind_name hf
    rw [hset]
    exact hbase.set hname

theorem look_append {G : List Gsym} {g : Gsym} {n : Name} :
    look (G ++ [g]) n = (look G n).or (if g.name = n then some g else none) := by
  simp only [look, gFind_append]
  cases h : gFind G n with
  | some k => simp [gAt_append_lt g (gFind_lt h)]
  | none =>
    by_cases hn : g.name = n
    · simp [hn, gAt_append_length]
    · simp [hn]

end Cc370.Ld370
