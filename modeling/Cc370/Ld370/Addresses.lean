import Cc370.Ld370.Layout
import Cc370.Ld370.CompositeTable

namespace Cc370.Ld370

/-- The address assignment leaves of an entry everything but its numbers and places. -/
structure SameSymbol (g g' : Gsym) : Prop where
  name : g'.name = g.name
  type : g'.type = g.type
  isSect : g'.isSect = g.isSect
  len : g'.len = g.len
  defObj : g'.defObj = g.defObj
  owner : g'.owner = g.owner

namespace SameSymbol

theorem refl (g : Gsym) : SameSymbol g g := ⟨rfl, rfl, rfl, rfl, rfl, rfl⟩

theorem trans {g g' g'' : Gsym} (h : SameSymbol g g') (h' : SameSymbol g' g'') :
    SameSymbol g g'' :=
  ⟨h'.name.trans h.name, h'.type.trans h.type, h'.isSect.trans h.isSect, h'.len.trans h.len,
    h'.defObj.trans h.defObj, h'.owner.trans h.owner⟩

end SameSymbol

theorem roundup8_le (v : ℤ) : v ≤ roundup8 v := by
  unfold roundup8
  omega

theorem roundup8_mono {u v : ℤ} (h : u ≤ v) : roundup8 u ≤ roundup8 v := by
  unfold roundup8
  omega

theorem placeCommons_spec (G : List Gsym) (running : ℤ) :
    List.Forall₂ (fun g g' => SameSymbol g g' ∧
      (¬ (g.isSect = true ∧ g.type = .cm) → g'.inAddr = g.inAddr) ∧
      (g.isSect = true ∧ g.type = .cm → roundup8 running ≤ g'.inAddr)) G
        (placeCommons G running).1 := by
  have h (G : List Gsym) (running r : ℤ) (hr : r ≤ running) :
      List.Forall₂ (fun g g' => SameSymbol g g' ∧
        (¬ (g.isSect = true ∧ g.type = .cm) → g'.inAddr = g.inAddr) ∧
        (g.isSect = true ∧ g.type = .cm → roundup8 r ≤ g'.inAddr)) G
          (placeCommons G running).1 := by
    induction G generalizing running with
    | nil => exact .nil
    | cons g G ih =>
      unfold placeCommons
      split_ifs with h
      · refine .cons ⟨⟨rfl, rfl, rfl, rfl, rfl, rfl⟩, fun hn => absurd h hn,
          fun _ => roundup8_mono hr⟩ (ih _ ?_)
        have := roundup8_le running
        omega
      · exact .cons ⟨.refl g, fun _ => rfl, fun hn => absurd hn h⟩ (ih _ hr)
  exact h G running running le_rfl

theorem numberSections_spec (base : ℕ → ℤ) (G : List Gsym) (gid : ℕ) :
    List.Forall₂ (fun g g' => SameSymbol g g' ∧ g'.inAddr = g.inAddr ∧
      (g.isSect = true → g'.org = g.defObj.elim 0 base + g.inAddr)) G
        (numberSections base G gid).1 := by
  induction G generalizing gid with
  | nil => exact .nil
  | cons g G ih =>
    unfold numberSections
    split_ifs with h
    · exact .cons ⟨⟨rfl, rfl, rfl, rfl, rfl, rfl⟩, rfl, fun _ => rfl⟩ (ih _)
    · exact .cons ⟨.refl g, rfl, fun hs => absurd hs h⟩ (ih _)

theorem numberOthers_spec (G : List Gsym) (gid : ℕ) :
    List.Forall₂ (fun g g' => SameSymbol g g' ∧ g'.inAddr = g.inAddr ∧ g'.org = g.org) G
      (numberOthers G gid) := by
  induction G generalizing gid with
  | nil => exact .nil
  | cons g G ih =>
    unfold numberOthers
    split_ifs with h
    · exact .cons ⟨.refl g, rfl, rfl⟩ (ih _)
    · exact .cons ⟨⟨rfl, rfl, rfl, rfl, rfl, rfl⟩, rfl, rfl⟩ (ih _)

theorem gAt_of_forall₂ {R : Gsym → Gsym → Prop} {G G' : List Gsym} (h : List.Forall₂ R G G')
    {k : ℕ} (hk : k < G.length) : R (gAt G k) (gAt G' k) := by
  have hk' : k < G'.length := h.length_eq ▸ hk
  rw [gAt_eq hk, gAt_eq hk']
  exact (List.forall₂_iff_get.mp h).2 k hk hk'

/-- The kept sections of the objects from which a duplicate was dropped: composite entry,
object and new origin. -/
def moves (L : List Placed) : List (ℕ × ℕ × ℤ) :=
  L.zipIdx.flatMap fun (o, i) =>
    if o.hasDrop then
      o.obj.objSects.filterMap fun x =>
        if !o.dropped x.1 then some (o.locG x.1, i, o.newaddr x.1) else none
    else []

def move (G : List Gsym) (m : ℕ × ℕ × ℤ) : List Gsym :=
  if (gAt G m.1).defObj = some m.2.1 then G.modify m.1 fun g => { g with inAddr := m.2.2 } else G

theorem moveSections_eq (L : List Placed) (G : List Gsym) :
    moveSections L G = (moves L).foldl move G := by
  rw [moves, List.foldl_flatMap, moveSections]
  congr 1
  funext G ⟨o, i⟩
  dsimp only
  split_ifs with h
  · rw [List.foldl_filterMap]
    congr 1
    funext G x
    by_cases hd : o.dropped x.1 = true
    · simp [hd]
    · simp [hd, move]
  · rfl

theorem move_length (G : List Gsym) (m : ℕ × ℕ × ℤ) : (move G m).length = G.length := by
  unfold move
  split_ifs <;> simp

theorem move_other {G : List Gsym} {m : ℕ × ℕ × ℤ} {k : ℕ}
    (h : m.1 = k → (gAt G k).defObj ≠ some m.2.1) : gAt (move G m) k = gAt G k := by
  unfold move
  split_ifs with hd
  · have hk : m.1 ≠ k := by
      rintro rfl
      exact h rfl hd
    simp [gAt, List.getElem?_modify_ne _ _ hk]
  · rfl

theorem move_self {G : List Gsym} {m : ℕ × ℕ × ℤ} (hk : m.1 < G.length)
    (h : (gAt G m.1).defObj = some m.2.1) :
    gAt (move G m) m.1 = { gAt G m.1 with inAddr := m.2.2 } := by
  rw [move, if_pos h, gAt_eq hk, gAt_eq (by simpa using hk)]
  simp

/-- After the moves an entry has its old place, none of them being its own, or the place that
one of its own gave it. -/
theorem foldl_move_spec (ms : List (ℕ × ℕ × ℤ)) {G : List Gsym} {k : ℕ} (hk : k < G.length) :
    (gAt (ms.foldl move G) k = gAt G k ∧
        ∀ m ∈ ms, m.1 = k → (gAt G k).defObj ≠ some m.2.1) ∨
      ∃ m ∈ ms, m.1 = k ∧ (gAt G k).defObj = some m.2.1 ∧
        gAt (ms.foldl move G) k = { gAt G k with inAddr := m.2.2 } := by
  induction ms generalizing G with
  | nil => exact .inl ⟨rfl, by simp⟩
  | cons m ms ih =>
    rw [List.foldl_cons]
    have ih' := ih (move_length G m ▸ hk)
    by_cases hm : m.1 = k ∧ (gAt G k).defObj = some m.2.1
    · obtain ⟨rfl, hd⟩ := hm
      rw [move_self hk hd] at ih'
      rcases ih' with ⟨h1, -⟩ | ⟨m', hm', hk', hd', h1⟩
      · exact .inr ⟨m, by simp, rfl, hd, h1⟩
      · exact .inr ⟨m', List.mem_cons_of_mem _ hm', hk', hd', h1⟩
    · have hno : m.1 = k → (gAt G k).defObj ≠ some m.2.1 := fun h1 h2 => hm ⟨h1, h2⟩
      rw [move_other hno] at ih'
      rcases ih' with ⟨h1, h2⟩ | ⟨m', hm', hk', hd', h1⟩
      · refine .inl ⟨h1, ?_⟩
        intro m' hm'
        rcases List.mem_cons.mp hm' with rfl | hm'
        · exact hno
        · exact h2 m' hm'
      · exact .inr ⟨m', List.mem_cons_of_mem _ hm', hk', hd', h1⟩

theorem foldl_move_length (ms : List (ℕ × ℕ × ℤ)) (G : List Gsym) :
    (ms.foldl move G).length = G.length := by
  induction ms generalizing G with
  | nil => rfl
  | cons m ms ih => rw [List.foldl_cons, ih, move_length]

/-- What the address assignment does to one composite entry. -/
structure Assigned (L : List Placed) (g g' : Gsym) (k : ℕ) : Prop where
  same : SameSymbol g g'
  org : g.isSect = true → g'.org = g.defObj.elim 0 (objectBase L) + g'.inAddr
  place : ¬ (g.isSect = true ∧ g.type = .cm) →
    (g'.inAddr = g.inAddr ∧ ∀ m ∈ moves L, m.1 = k → g.defObj ≠ some m.2.1) ∨
      ∃ m ∈ moves L, m.1 = k ∧ g.defObj = some m.2.1 ∧ g'.inAddr = m.2.2
  common : g.isSect = true ∧ g.type = .cm → roundup8 (objectBase L L.length) ≤ g'.inAddr

theorem assigned {O : List Obj} {s : Composite} {k : ℕ} (hk : k < s.G.length) :
    Assigned (placed O s) (gAt s.G k) (gAt (assignAddresses O s).G k) k := by
  set L := placed O s
  have hm := foldl_move_spec (moves L) hk
  rw [← moveSections_eq] at hm
  have hl : k < (moveSections L s.G).length := by rw [moveSections_eq, foldl_move_length]; exact hk
  have hc := placeCommons_spec (moveSections L s.G) (objectBase L L.length)
  have hn := numberSections_spec (objectBase L) (placeCommons (moveSections L s.G)
    (objectBase L L.length)).1 0
  have ho := numberOthers_spec (numberSections (objectBase L) (placeCommons (moveSections L s.G)
    (objectBase L L.length)).1 0).1 (numberSections (objectBase L) (placeCommons
      (moveSections L s.G) (objectBase L L.length)).1 0).2
  have hlc := hc.length_eq ▸ hl
  have hln := hn.length_eq ▸ hlc
  obtain ⟨c1, c2, c3⟩ := gAt_of_forall₂ hc hl
  obtain ⟨n1, n2, n3⟩ := gAt_of_forall₂ hn hlc
  obtain ⟨o1, o2, o3⟩ := gAt_of_forall₂ ho hln
  have m1 : SameSymbol (gAt s.G k) (gAt (moveSections L s.G) k) := by
    rcases hm with ⟨h, -⟩ | ⟨m, -, -, -, h⟩
    · rw [h]; exact .refl _
    · rw [h]; exact ⟨rfl, rfl, rfl, rfl, rfl, rfl⟩
  refine ⟨m1.trans (c1.trans (n1.trans o1)), ?_, ?_, ?_⟩
  · intro hs
    have hs' := (c1.isSect.trans m1.isSect).trans hs
    change (gAt (numberOthers _ _) k).org = _ + (gAt (numberOthers _ _) k).inAddr
    rw [o3, o2, n2, n3 hs', (c1.defObj.trans m1.defObj)]
  · intro hcm
    have hcm' : ¬ ((gAt (moveSections L s.G) k).isSect = true ∧
        (gAt (moveSections L s.G) k).type = .cm) := by rwa [m1.isSect, m1.type]
    have hin : (gAt (assignAddresses O s).G k).inAddr = (gAt (moveSections L s.G) k).inAddr := by
      change (gAt (numberOthers _ _) k).inAddr = _
      rw [o2, n2, c2 hcm']
    rw [hin]
    rcases hm with ⟨h, hno⟩ | ⟨m, hmem, hmk, hd, h⟩
    · exact .inl ⟨by rw [h], hno⟩
    · exact .inr ⟨m, hmem, hmk, hd, by rw [h]⟩
  · intro hcm
    rw [← m1.isSect, ← m1.type] at hcm
    change _ ≤ (gAt (numberOthers _ _) k).inAddr
    rw [o2, n2]
    exact c3 hcm

theorem assignAddresses_length (O : List Obj) (s : Composite) :
    (assignAddresses O s).G.length = s.G.length := by
  simp only [assignAddresses]
  rw [← (numberOthers_spec _ _).length_eq, ← (numberSections_spec _ _ _).length_eq,
    ← (placeCommons_spec _ _).length_eq, moveSections_eq, foldl_move_length]

end Cc370.Ld370
