import Cc370.Ld370.FirstWins

namespace Cc370.Ld370

def EsdItem.obj : EsdItem → ℕ
  | .sect i _ _ => i
  | .label i _ _ => i

/-- `y` may stand before `x` in the visiting order of PASS 2. -/
def Before (y : EsdItem) : EsdItem → Prop
  | .sect i j _ => (∀ l w, y ≠ .label i l w) ∧ ∀ e, y ≠ .sect i j e
  | .label .. => True

theorem before_of_obj_ne {x y : EsdItem} (h : y.obj ≠ x.obj) : Before y x := by
  cases x with
  | label i l w => trivial
  | sect i j e =>
    constructor
    · rintro l w rfl
      exact h rfl
    · rintro e' rfl
      exact h rfl

theorem mem_objItems {o : Obj} {i : ℕ} {x : EsdItem} (h : x ∈ o.items i) : x.obj = i := by
  rcases List.mem_append.mp h with h | h
  · obtain ⟨j, -, hj⟩ := List.mem_filterMap.mp h
    obtain ⟨e, -, rfl⟩ := Option.map_eq_some_iff.mp hj
    rfl
  · obtain ⟨l, -, rfl⟩ := List.mem_map.mp h
    rfl

theorem objItems_pairwise (o : Obj) (i : ℕ) : (o.items i).Pairwise Before := by
  rw [Obj.items, List.pairwise_append]
  refine ⟨?_, ?_, ?_⟩
  · rw [List.pairwise_filterMap]
    have hlt : Obj.esdids.Pairwise (· < ·) := List.pairwise_lt_range'
    apply hlt.imp
    intro j j' hj x hx y hy
    obtain ⟨e, -, rfl⟩ := Option.map_eq_some_iff.mp hx
    obtain ⟨e', -, rfl⟩ := Option.map_eq_some_iff.mp hy
    refine ⟨by simp, ?_⟩
    rintro e'' he
    obtain ⟨-, rfl, -⟩ := EsdItem.sect.inj he
    exact lt_irrefl _ hj
  · rw [List.pairwise_map]
    exact List.pairwise_of_forall fun _ _ => trivial
  · intro x _ y hy
    obtain ⟨l, -, rfl⟩ := List.mem_map.mp hy
    trivial

theorem zipIdx_pairwise {α : Type} (l : List α) : l.zipIdx.Pairwise fun a b => a.2 < b.2 := by
  have h : (l.zipIdx.map Prod.snd).Pairwise (· < ·) := by
    rw [List.zipIdx_map_snd]
    exact List.pairwise_lt_range'
  exact List.pairwise_map.mp h

theorem items_pairwise (O : List Obj) : (items O).Pairwise Before := by
  rw [items, List.pairwise_flatMap]
  refine ⟨fun a _ => objItems_pairwise a.1 a.2, ?_⟩
  apply (zipIdx_pairwise O).imp
  intro a b hab x hx y hy
  apply before_of_obj_ne
  rw [mem_objItems hx, mem_objItems hy]
  omega

theorem orderedAt_of_before {p : List EsdItem} {x : EsdItem} (h : ∀ y ∈ p, Before y x) :
    OrderedAt p x := by
  cases x with
  | label i l w => trivial
  | sect i j e =>
    exact ⟨fun l w hm => (h _ hm).1 l w rfl, fun e' hm => (h _ hm).2 e' rfl⟩

theorem entries_of_noClash {p : List EsdItem} (ho : p.Pairwise Before) (hc : NoClash p) :
    Entries p := by
  induction p using List.reverseRecOn with
  | nil => exact .nil
  | append_singleton p x ih =>
    obtain ⟨hp, hx⟩ := NoClash.snoc.mp hc
    obtain ⟨hop, -, hox⟩ := List.pairwise_append.mp ho
    refine (ih hop hp).snoc (.of_noClash hp) hx (orderedAt_of_before ?_)
    intro y hy
    exact hox y hy x (by simp)

theorem define_overwrites {g : Gsym} {e : Lent} (hs : e.type = .sd ∨ e.type = .cm)
    (hg : g.type = .lr ∨ g.type = .pc) (i : ℕ) :
    (g.define i e).isSect = true ∧ ((g.define i e).type = .sd ∨ (g.define i e).type = .cm) := by
  have hsd : g.type ≠ .sd := by rcases hg with hg | hg <;> rw [hg] <;> decide
  have hcm : g.type ≠ .cm := by rcases hg with hg | hg <;> rw [hg] <;> decide
  rcases hs with hs | hs
  · simp [Gsym.define, Gsym.duplicate, hs, hsd, isSectType]
  · simp only [Gsym.define, Gsym.duplicate, hs, Gsym.mergeCommon, hsd, hcm, reduceCtorEq, false_and,
      decide_false, Bool.false_eq_true, ↓reduceIte, and_false]
    split_ifs <;> simp

theorem label_overwrites {g : Gsym} (hg : g.type ≠ .lr) (l : Ldent) (owner : Option Lent) (k : ℕ) :
    (g.label l owner k).type = .lr := by
  simp [Gsym.label, Gsym.doublyDefined, hg]

/-- Overwriting the entry of private code shows in the table. -/
theorem private_overwritten {p : List EsdItem} (hE : Entries p) {x : EsdItem} {G' : List Gsym}
    {n : Name} {gi : ℕ} {g : Gsym} (hu : Updates (run p).G G' n gi g) (hpf : PrivateFirst p n)
    (hg : ∀ o, look (run p).G n = some o → o.type = .pc → g.type ≠ .pc) {s : Composite}
    (hs : s.G = G') (hloc : ∀ i j e, .sect i j e ∈ p → s.locG i j = (run p).locG i j) (t : Symbols) :
    ¬ Refines (p ++ [x]) s t := by
  intro hr
  obtain ⟨i, j, e, hm, hpc, hf⟩ := hE.privFind n hpf
  have hold := hE.priv i j e hm hpc
  have hnew := hr.priv i j e (List.mem_append_left _ hm) hpc
  rw [hloc i j e hm, hs, hu.mono _ hf, hu.entry] at hnew
  exact hg _ (by simp [look, hf]) hold.2.1 hnew.2.1

theorem clash_sect_not_refines {p : List EsdItem} (hE : Entries p) (hD : Defined p) {i j : ℕ}
    {e : Lent} (ho : OrderedAt p (.sect i j e)) (hc : Clash p (.sect i j e)) :
    ¬ Refines (p ++ [.sect i j e]) (run (p ++ [.sect i j e])) (symbols (p ++ [.sect i j e])) := by
  obtain ⟨hs, hc⟩ := hc
  have hpc : e.type ≠ .pc := by rcases hs with hs | hs <;> rw [hs] <;> decide
  have hu := passSection_updates hpc (run p) i j
  rcases hc with hl | hpf
  · intro hr
    obtain ⟨d, hd, hlab⟩ := (hD.labels e.name).mp hl
    obtain ⟨g, hg, hrg⟩ := hE.refines.defs _ _ hd
    cases d with
    | sect => exact absurd hlab (by simp [Definition.isLabel])
    | common => exact absurd hlab (by simp [Definition.isLabel])
    | label i' l w =>
      have hd' : (symbols (p ++ [.sect i j e])).defs e.name = some (.label i' l w) := by
        rw [symbols_snoc, step_sect_defs, if_pos rfl, hd]
        rcases hs with hs | hs <;> simp [sectThen, hs, Definition.followedBy]
      obtain ⟨g', hg', hr'⟩ := hr.defs _ _ hd'
      rw [run_snoc] at hg'
      have hlk := hu.look_self
      rw [hg, interned_of_ne_wx hrg.type_ne_wx] at hlk
      obtain rfl := Option.some.inj (hg'.symm.trans hlk)
      exact absurd hr'.1 (by simp [(define_overwrites hs (.inl hrg.2.1) i).1])
  · refine private_overwritten hE hu hpf ?_ (by rw [run_snoc]; rfl) ?_ _
    · intro o ho' hty
      rw [ho', interned_of_ne_wx (by rw [hty]; decide)]
      rcases (define_overwrites hs (.inr hty) i).2 with h | h <;> rw [h] <;> decide
    · intro i' j' e' hm
      rw [run_snoc]
      apply passSection_locG_of_ne
      rintro ⟨rfl, rfl⟩
      exact ho.2 _ hm

theorem clash_label_not_refines {p : List EsdItem} (hE : Entries p) (hD : Defined p) {i : ℕ}
    {l : Ldent} {owner : Option Lent} (hc : Clash p (.label i l owner)) :
    ¬ Refines (p ++ [.label i l owner]) (run (p ++ [.label i l owner]))
      (symbols (p ++ [.label i l owner])) := by
  obtain ⟨hnd, hc⟩ := hc
  have hd : ¬ (owner.isSome ∧ (run p).dropped i l.ownerLocal) := by
    rintro ⟨hs, hx⟩
    rw [hE.dropped, hD.dropped] at hx
    exact hnd hs hx
  obtain ⟨gi, hu⟩ := passLabel_updates hd
  rcases hc with hsec | hpf
  · intro hr
    obtain ⟨d, hdef, hlab⟩ := (hD.sections l.name).mp hsec
    obtain ⟨g, hg, hrg⟩ := hE.refines.defs _ _ hdef
    have hlr : g.type ≠ .lr := by
      cases d with
      | sect => rw [hrg.2.1]; decide
      | common => rw [hrg.2.1]; decide
      | label => exact absurd hlab (by simp [Definition.isLabel])
    have hdef' : (symbols (p ++ [.label i l owner])).defs l.name = some d := by
      rw [symbols_snoc]
      cases owner with
      | none => exact hdef
      | some w =>
        have hf : (symbols p).dropped i l.ownerLocal = false := by simpa [hE.dropped] using hd
        rw [step_label_defs w hf, if_pos rfl, hdef]
        cases d with
        | sect => rfl
        | common => rfl
        | label => exact absurd hlab (by simp [Definition.isLabel])
    obtain ⟨g', hg', hr'⟩ := hr.defs _ _ hdef'
    rw [run_snoc] at hg'
    have hlk := hu.look_self
    rw [hg, interned_of_ne_wx hrg.type_ne_wx] at hlk
    obtain rfl := Option.some.inj (hg'.symm.trans hlk)
    have hty := label_overwrites hlr l owner ((run p).locG i l.ownerLocal)
    cases d with
    | sect => exact absurd (hty.symm.trans hr'.2.1) (by decide)
    | common => exact absurd (hty.symm.trans hr'.2.1) (by decide)
    | label => exact absurd hlab (by simp [Definition.isLabel])
  · refine private_overwritten hE hu hpf ?_ (by rw [run_snoc]; rfl) ?_ _
    · intro o ho' hty
      rw [ho', interned_of_ne_wx (by rw [hty]; decide), label_overwrites (by rw [hty]; decide)]
      decide
    · intro i' j' e' _
      rw [run_snoc]
      exact congrFun (congrFun (passLabel_locG (run p) i l owner).1 i') j'

theorem noClash_of_refines {L : List EsdItem} (ho : L.Pairwise Before)
    (h : ∀ p, p <+: L → Refines p (run p) (symbols p)) : NoClash L := by
  induction L using List.reverseRecOn with
  | nil =>
    intro p x q hl
    simp at hl
  | append_singleton L x ih =>
    obtain ⟨hoL, -, hox⟩ := List.pairwise_append.mp ho
    have hL := ih hoL fun p hp => h p (hp.trans (List.prefix_append _ _))
    refine NoClash.snoc.mpr ⟨hL, fun hc => ?_⟩
    have hE := entries_of_noClash hoL hL
    have hD := Defined.of_noClash hL
    have hr := h (L ++ [x]) (List.prefix_refl _)
    cases x with
    | sect i j e =>
      exact clash_sect_not_refines hE hD (orderedAt_of_before fun y hy => hox y hy _ (by simp)) hc hr
    | label i l owner => exact clash_label_not_refines hE hD hc hr

theorem NoClash.initial {p L : List EsdItem} (h : NoClash L) (hp : p <+: L) : NoClash p := by
  obtain ⟨q, rfl⟩ := hp
  intro l₁ x l₂ hl
  exact h l₁ x (l₂ ++ q) (by simp [hl])

theorem refines_of_noClash {L : List EsdItem} (ho : L.Pairwise Before) (hc : NoClash L) :
    ∀ p, p <+: L → Refines p (run p) (symbols p) := fun _ hp =>
  (entries_of_noClash (ho.sublist hp.sublist) (hc.initial hp)).refines

end Cc370.Ld370
