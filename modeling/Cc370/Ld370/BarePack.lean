import Cc370.Ld370.CesdEntries
import Cc370.Ld370.CommonAreas
import Cc370.Ld370.StandingSections

namespace Cc370.Ld370

open Lmod

namespace EsdType

/-- The type is the one its code stands for. -/
def Proper (t : EsdType) : Prop := ofNibble (t.code % 16) = t

theorem proper_ofNibble {n : ℕ} (h : n < 16) : (ofNibble n).Proper := by
  interval_cases n <;> rfl

theorem proper_sd : sd.Proper := rfl

theorem proper_ld : ld.Proper := rfl

theorem Proper.isSection_iff {t : EsdType} (h : t.Proper) : Obj370.isSection (t.code % 16) = true ↔ isSectType t = true := by
  have hcode : ∀ n, t.code % 16 = n → t = ofNibble n := fun n hn => by rw [← hn]; exact h.symm
  rw [isSectType_iff]
  constructor
  · intro hs
    simp only [Obj370.isSection, decide_eq_true_eq] at hs
    rcases hs with h0 | h4 | h5
    · exact .inl (hcode _ h0)
    · exact .inr (.inl (hcode _ h4))
    · exact .inr (.inr (hcode _ h5))
  · rintro (rfl | rfl | rfl) <;> rfl

theorem Proper.lr_iff {t : EsdType} (h : t.Proper) : t.code % 16 = 0x03 ↔ t = .lr := by
  constructor
  · intro h3
    have hof : ofNibble (t.code % 16) = t := h
    rw [← hof, h3]
    rfl
  · rintro rfl
    rfl

end EsdType

/-- What the ESD cards can say of a composite symbol. -/
structure Gsym.Proper (g : Gsym) : Prop where
  type : g.type.Proper
  len : g.len < 16777216
  sect : g.isSect = true → isSectType g.type = true ∨ g.type = .lr

structure EsdItem.Proper (x : EsdItem) : Prop where
  type : ∀ i j e, x = .sect i j e → e.type.Proper
  len : ∀ i j e, x = .sect i j e → e.len < 16777216

section Proper

variable {s : Composite}

theorem interned_proper {n : Name} {t : EsdType} (hG : ∀ g ∈ s.G, g.Proper) (ht : t.Proper) : (interned (look s.G n) n t).Proper := by
  rcases interned_eq (look s.G n) n t with ⟨-, heq⟩ | ⟨g, hg, hw, heq⟩ | heq
  · rw [heq]
    exact ⟨ht, by simp [Gsym.fresh], nofun⟩
  · obtain ⟨k, hk, rfl⟩ := look_lt hg
    have hp := hG _ (gAt_mem hk)
    rw [heq]
    refine ⟨rfl, hp.len, ?_⟩
    intro hs
    have hsect := hp.sect hs
    rw [hw] at hsect
    exact absurd hsect (by decide)
  · obtain ⟨k, hk, hentry⟩ := look_lt heq
    rw [← hentry]
    exact hG _ (gAt_mem hk)

theorem define_proper {g : Gsym} (hg : g.Proper) {i : ℕ} {e : Lent} (ht : e.type.Proper) (hlen : e.len < 16777216) :
    (g.define i e).Proper := by
  unfold Gsym.define Gsym.mergeCommon
  dsimp only
  split_ifs with h1 h2 h3 h4 h5 h6 h7
  · exact hg
  · exact hg
  · exact ⟨hg.type, hlen, hg.sect⟩
  · exact hg
  · exact ⟨rfl, hlen, fun _ => .inl rfl⟩
  · exact ⟨rfl, by simp, fun _ => .inl rfl⟩
  · exact ⟨ht, hlen, fun _ => .inl h7⟩
  · exact hg

theorem label_proper {g : Gsym} (hg : g.Proper) (l : Ldent) (owner : Option Lent) (k : ℕ) : (g.label l owner k).Proper := by
  unfold Gsym.label
  split_ifs
  · exact hg
  · exact ⟨rfl, hg.len, fun _ => .inr rfl⟩

theorem mem_gIntern_set {n : Name} {t : EsdType} {g x : Gsym} (hx : x ∈ (gIntern s.G n t).1.set (gIntern s.G n t).2 g) :
    x = g ∨ x ∈ s.G := by
  obtain ⟨k, hk, rfl⟩ := List.mem_iff_getElem.mp hx
  rw [List.length_set] at hk
  by_cases hgi : k = (gIntern s.G n t).2
  · left
    simp [hgi]
  · right
    have hlt := (gIntern_length s.G n t k hk).resolve_right hgi
    have hother := (gIntern_updates s.G n t).atOther k hlt hgi
    rw [gAt_eq hk, gAt_eq hlt] at hother
    rw [List.getElem_set_ne (Ne.symm hgi), hother]
    exact List.getElem_mem hlt

theorem step_proper {x : EsdItem} (hG : ∀ g ∈ s.G, g.Proper) (hx : x.Proper) : ∀ g ∈ (s.step x).G, g.Proper := by
  intro g hg
  cases x with
  | sect i j e =>
    have ht := hx.type i j e rfl
    have hlen := hx.len i j e rfl
    by_cases hpc : e.type = .pc
    · change g ∈ (passSection s i j e).G at hg
      rw [(passSection_private hpc s i j).1] at hg
      rcases List.mem_append.mp hg with hg | hg
      · exact hG g hg
      · rw [List.mem_singleton.mp hg]
        exact define_proper ⟨EsdType.proper_sd, by simp [Gsym.fresh], by simp [Gsym.fresh]⟩ ht hlen
    · change g ∈ (passSection s i j e).G at hg
      rw [(passSection_G hpc).1] at hg
      rcases mem_gIntern_set hg with rfl | hg
      · exact define_proper (interned_proper hG ht) ht hlen
      · exact hG g hg
  | label i l owner =>
    change g ∈ (passLabel s i l owner).G at hg
    by_cases hskip : owner.isSome ∧ s.dropped i l.ownerLocal
    · rw [passLabel, if_pos hskip] at hg
      exact hG g hg
    · have hentry := (gIntern_updates s.G l.name .ld).entry
      rw [passLabel, if_neg hskip] at hg
      simp only [hentry] at hg
      rcases mem_gIntern_set hg with rfl | hg
      · exact label_proper (interned_proper hG EsdType.proper_ld) _ _ _
      · exact hG g hg

theorem run_proper {p : List EsdItem} (h : ∀ x ∈ p, x.Proper) : ∀ g ∈ (run p).G, g.Proper := by
  induction p using List.reverseRecOn with
  | nil => exact nofun
  | append_singleton p x ih =>
    rw [run_snoc]
    exact step_proper (ih fun y hy => h y (List.mem_append_left _ hy)) (h x (by simp))

/-- The items of an object deck. -/
def Obj.Proper (o : Obj) : Prop := ∀ j e, o.loc j = some e → e.type.Proper ∧ e.len < 16777216

theorem parseEsdItem_proper {c : Buffer} {first k : ℕ} {st : Obj × ℕ} (h : st.1.Proper) : (parseEsdItem c first st k).1.Proper := by
  unfold parseEsdItem
  dsimp only
  split_ifs with hld hid
  · exact h
  · exact h
  · intro j e he
    dsimp only at he
    by_cases hj : j = first + st.2
    · subst hj
      rw [Function.update_self] at he
      obtain rfl := Option.some.inj he
      exact ⟨EsdType.proper_ofNibble (Nat.mod_lt _ (by decide)), mvsBe24_lt _ _⟩
    · rw [Function.update_of_ne hj] at he
      exact h j e he

theorem parseCard_proper {c : Buffer} {o : Obj} (h : o.Proper) : (parseCard o c).Proper := by
  have hesd : ∀ (ks : List ℕ) (st : Obj × ℕ), st.1.Proper → (ks.foldl (parseEsdItem c (mvsBe16 c 14)) st).1.Proper := by
    intro ks
    induction ks with
    | nil => exact fun st hst => hst
    | cons k ks ih => exact fun st hst => ih _ (parseEsdItem_proper hst)
  unfold parseCard
  split_ifs
  · exact h
  · exact hesd _ _ h
  · unfold parseTxt
    dsimp only
    split_ifs
    · exact h
    · exact h
  · exact h
  · unfold parseEnd
    split_ifs
    · exact h
    · exact h
  · exact h

theorem parseObject_proper (d : Deck) : (parseObject d).Proper := by
  have hcards : ∀ (cs : List Buffer) (o : Obj), o.Proper → (cs.foldl parseCard o).Proper := by
    intro cs
    induction cs with
    | nil => exact fun o ho => ho
    | cons c cs ih => exact fun o ho => ih _ (parseCard_proper ho)
  exact hcards d.cards Obj.empty nofun

theorem pass2_proper (ds : List Deck) : ∀ g ∈ (pass2 (ds.map parseObject)).G, g.Proper := by
  apply run_proper
  have hitem : ∀ i j e, .sect i j e ∈ items (ds.map parseObject) → e.type.Proper ∧ e.len < 16777216 := by
    intro i j e hm
    obtain ⟨o, ho, -, he⟩ := mem_items_sect.mp hm
    obtain ⟨d, -, rfl⟩ := List.mem_map.mp (List.mem_of_getElem? ho)
    exact parseObject_proper d j e he
  intro x hx
  constructor
  · rintro i j e rfl
    exact (hitem i j e hx).1
  · rintro i j e rfl
    exact (hitem i j e hx).2

end Proper

section Ends

/-- An object is as long as its last section ends. -/
theorem osize_reached (o : Obj) (dropped : ℕ → Bool) :
    o.osize dropped = 0 ∨ ∃ x ∈ o.objSects, dropped x.1 = false ∧ o.newaddr dropped x.1 + x.2.len = o.osize dropped := by
  have hfold : ∀ (l : List (ℕ × Lent)) (v : ℤ), l.foldl (fun osize x =>
      if !dropped x.1 ∧ osize < o.newaddr dropped x.1 + x.2.len then o.newaddr dropped x.1 + x.2.len else osize) v = v ∨
        ∃ x ∈ l, dropped x.1 = false ∧ o.newaddr dropped x.1 + x.2.len = l.foldl (fun osize x =>
          if !dropped x.1 ∧ osize < o.newaddr dropped x.1 + x.2.len then o.newaddr dropped x.1 + x.2.len else osize) v := by
    intro l
    induction l with
    | nil => exact fun v => .inl rfl
    | cons x l ih =>
      intro v
      rw [List.foldl_cons]
      split_ifs with hx
      · right
        rcases ih (o.newaddr dropped x.1 + x.2.len) with heq | ⟨y, hy, hd, heq⟩
        · exact ⟨x, List.mem_cons_self, by simpa using hx.1, heq.symm⟩
        · exact ⟨y, List.mem_cons_of_mem _ hy, hd, heq⟩
      · rcases ih v with heq | ⟨y, hy, hd, heq⟩
        · exact .inl heq
        · exact .inr ⟨y, List.mem_cons_of_mem _ hy, hd, heq⟩
  exact hfold o.objSects 0

/-- The objects end with the last one that is not empty. -/
theorem objectBase_reached {L : List Placed} {n : ℕ} (hn : n ≤ L.length) :
    objectBase L n = 0 ∨ ∃ i o, L[i]? = some o ∧ 0 < o.osize ∧ roundup8 (objectBase L i + o.osize) = objectBase L n := by
  induction n with
  | zero => exact .inl rfl
  | succ n ih =>
    have hget : L[n]? = some L[n] := List.getElem?_eq_getElem hn
    have hnonneg : 0 ≤ L[n].osize := osize_nonneg _ _
    rw [objectBase_succ hget]
    rcases hnonneg.eq_or_lt with h0 | hpos
    · have hround : roundup8 L[n].osize = 0 := by rw [← h0]; rfl
      rw [hround, add_zero]
      exact ih (by omega)
    · refine .inr ⟨n, L[n], hget, hpos, ?_⟩
      have hdvd := objectBase_dvd L n
      unfold roundup8
      omega

end Ends

section Modlen

variable {O : List Obj}

/-- A section that stands is where its object has it. -/
theorem standing_org (h : SectionsStand O) {i j : ℕ} {e : Lent} (hk : KeptSect (pass2 O) (liveItems O) i j e) :
    (gAt (linked O).G ((pass2 O).locG i j)).org = (linked O).sectionAddr i j := by
  have hkept := standing h
  have hst := hkept.stands i j e hk
  refine section_org hst.lt hst.isSect ?_ hst.defObj hst.inAddr (mem_liveItems_sect.mp hk.mem) hk.obj hk.kept rfl ?_
  · rw [hst.type]
    rcases isObjSect_iff.mp hk.obj with ht | ht
    · rw [ht]
      decide
    · rw [ht]
      decide
  · intro j' e' hm hobj hd heq
    exact (hkept.inj i j' e' i j e ⟨mem_liveItems_sect.mpr hm, hobj, hd⟩ hk heq).2

/-- The module ends in the doubleword in which a section ends. -/
theorem modlen_reached (h : SectionsStand O) : ∃ R : ℤ, 0 ≤ R ∧ (linked O).modlen = roundup8 R ∧
    (∀ g ∈ (linked O).G, g.isSect = true → isSectType g.type = true → 0 ≤ g.org ∧ g.org + g.len ≤ R) ∧
      (R = 0 ∨ ∃ g ∈ (linked O).G, g.isSect = true ∧ isSectType g.type = true ∧ roundup8 (g.org + g.len) = roundup8 R) := by
  have hlenG : (linked O).G.length = (pass2 O).G.length := assignAddresses_length O (pass2 O)
  obtain ⟨hlen, hat⟩ := numbered_at O (pass2 O)
  obtain ⟨hall, hex⟩ := placeCommons_ends (moveSections (placed O (pass2 O)) (pass2 O).G)
    (objectBase (placed O (pass2 O)) (placed O (pass2 O)).length)
  have hend := placeCommons_end (moveSections (placed O (pass2 O)) (pass2 O).G)
    (objectBase (placed O (pass2 O)) (placed O (pass2 O)).length)
  have hbase := objectBase_nonneg (placed O (pass2 O)) (placed O (pass2 O)).length
  refine ⟨(withCommons O (pass2 O)).2, hbase.trans hend, rfl, ?_, ?_⟩
  · intro g hg hs ht
    obtain ⟨k, hk, rfl⟩ := mem_gAt hg
    have hkp : k < (pass2 O).G.length := hlenG ▸ hk
    have hsame := (assigned (O := O) hkp).same
    by_cases hcm : (gAt (linked O).G k).type = .cm
    · have hk' : k < (withCommons O (pass2 O)).1.length := hlen.symm ▸ hk
      have hsym := (hat k hk').1
      have hle := hall (gAt (withCommons O (pass2 O)).1 k) (gAt_mem hk') (hsym.isSect.symm.trans hs) (hsym.type.symm.trans hcm)
      have hlow := (assigned (O := O) hkp).common ⟨hsame.isSect.symm.trans hs, hsame.type.symm.trans hcm⟩
      have horg := (assigned (O := O) hkp).org (hsame.isSect.symm.trans hs)
      have hdef := common_defObj hkp (hsame.isSect.symm.trans hs) (hsame.type.symm.trans hcm)
      have hup := roundup8_le (objectBase (placed O (pass2 O)) (placed O (pass2 O)).length)
      rw [hdef, Option.elim_none, zero_add] at horg
      constructor
      · change 0 ≤ (gAt (assignAddresses O (pass2 O)).G k).org
        rw [horg]
        omega
      · have hlen' : (gAt (linked O).G k).len = (gAt (withCommons O (pass2 O)).1 k).len := hsym.len
        rw [common_org hk hs hcm, hlen']
        exact hle
    · have hobj : isObjSect (gAt (linked O).G k).type = true := by
        rcases isSectType_iff.mp ht with h | h | h
        · simp [isObjSect, h]
        · simp [isObjSect, h]
        · exact absurd h hcm
      obtain ⟨i, j, e, hkept, hloc⟩ := (standing h).only k hkp (hsame.isSect.symm.trans hs) (by rw [← hsame.type]; exact hobj)
      have horg := standing_org h hkept
      obtain ⟨hnn, hle⟩ := section_end (mem_liveItems_sect.mp hkept.mem) hkept.obj hkept.kept
      have hlen' : (gAt (linked O).G k).len = e.len := by
        have hst := ((standing h).stands i j e hkept).len
        rw [hloc] at hst
        exact hsame.len.trans hst
      rw [hloc] at horg
      rw [horg, hlen']
      exact ⟨hnn, hle.trans hend⟩
  · rcases hex with heq | ⟨c, hc, hs, ht, heq⟩
    · rcases objectBase_reached (le_refl (placed O (pass2 O)).length) with h0 | ⟨i, o, ho, hpos, hround⟩
      · exact .inl (heq.trans h0)
      · right
        obtain ⟨o', ho', rfl⟩ : ∃ o', O[i]? = some o' ∧ (⟨o', (pass2 O).locG i, (pass2 O).dropped i⟩ : Placed) = o := by
          rw [placed_getElem?] at ho
          exact Option.map_eq_some_iff.mp ho
        rcases osize_reached o' ((pass2 O).dropped i) with h0 | ⟨x, hx, hd, hsum⟩
        · have hzero : (⟨o', (pass2 O).locG i, (pass2 O).dropped i⟩ : Placed).osize = 0 := h0
          omega
        · obtain ⟨hj, he, hobj⟩ := mem_objSects.mp hx
          have hkept : KeptSect (pass2 O) (liveItems O) i x.1 x.2 :=
            ⟨mem_liveItems_sect.mpr (mem_items_sect.mpr ⟨o', ho', hj, he⟩), hobj, hd⟩
          have hst := (standing h).stands i x.1 x.2 hkept
          have hsame := (assigned (O := O) hst.lt).same
          refine ⟨gAt (linked O).G ((pass2 O).locG i x.1), gAt_mem (hlenG ▸ hst.lt), hsame.isSect.trans hst.isSect, ?_, ?_⟩
          · have htype : (gAt (linked O).G ((pass2 O).locG i x.1)).type = x.2.type := hsame.type.trans hst.type
            rw [htype]
            rcases isObjSect_iff.mp hobj with h | h
            · simp [isSectType, h]
            · simp [isSectType, h]
          · have hlen' : (gAt (linked O).G ((pass2 O).locG i x.1)).len = x.2.len := hsame.len.trans hst.len
            have haddr : (linked O).sectionAddr i x.1 = objectBase (placed O (pass2 O)) i + o'.newaddr ((pass2 O).dropped i) x.1 := by
              rw [Layout.sectionAddr, linked_objs, ho']
              rfl
            have hdvd := objectBase_dvd (placed O (pass2 O)) (placed O (pass2 O)).length
            have hosize : (⟨o', (pass2 O).locG i, (pass2 O).dropped i⟩ : Placed).osize = o'.osize ((pass2 O).dropped i) := rfl
            have hR : (withCommons O (pass2 O)).2 = objectBase (placed O (pass2 O)) (placed O (pass2 O)).length := heq
            rw [standing_org h hkept, hlen', haddr, add_assoc, hsum, hR, ← hosize, hround]
            unfold roundup8
            omega
    · right
      obtain ⟨k, hk, rfl⟩ := mem_gAt hc
      obtain ⟨hsym, -⟩ := hat k hk
      have hk' : k < (linked O).G.length := hlen ▸ hk
      have hs' : (gAt (linked O).G k).isSect = true := hsym.isSect.trans hs
      have ht' : (gAt (linked O).G k).type = .cm := hsym.type.trans ht
      refine ⟨gAt (linked O).G k, gAt_mem hk', hs', by rw [ht']; rfl, ?_⟩
      have hlen' : (gAt (linked O).G k).len = (gAt (withCommons O (pass2 O)).1 k).len := hsym.len
      have hsum : (gAt (withCommons O (pass2 O)).1 k).inAddr + (gAt (withCommons O (pass2 O)).1 k).len = (withCommons O (pass2 O)).2 := heq
      rw [common_org hk' hs' ht', hlen', hsum]

end Modlen

section Recomputed

variable {ds : List Deck} {opt : Options} {ident : LkedIdent}

/-- Every section begins where three bytes can say it. -/
def SectionsBelow (L : Layout) : Prop := ∀ g ∈ L.G, g.isSect = true → g.org < 2 ^ 24

theorem linked_proper (ds : List Deck) : ∀ g ∈ (linked (ds.map parseObject)).G, g.Proper := by
  intro g hg
  obtain ⟨k, hk, rfl⟩ := mem_gAt hg
  have hlen : (linked (ds.map parseObject)).G.length = (pass2 (ds.map parseObject)).G.length := assignAddresses_length _ _
  have hkp := hlen ▸ hk
  have hsame := (assigned (O := ds.map parseObject) hkp).same
  have hp := pass2_proper ds _ (gAt_mem hkp)
  have htype : (gAt (linked (ds.map parseObject)).G k).type = _ := hsame.type
  have hl : (gAt (linked (ds.map parseObject)).G k).len = _ := hsame.len
  have hs : (gAt (linked (ds.map parseObject)).G k).isSect = _ := hsame.isSect
  exact ⟨by rw [htype]; exact hp.type, by rw [hl]; exact hp.len, by rw [hs, htype]; exact hp.sect⟩

theorem linked_isSect {O : List Obj} (h : SectionsStand O) {g : Gsym} (hg : g ∈ (linked O).G) (ht : isSectType g.type = true) :
    g.isSect = true := by
  obtain ⟨k, hk, rfl⟩ := mem_gAt hg
  have hlen : (linked O).G.length = (pass2 O).G.length := assignAddresses_length _ _
  have hkp := hlen ▸ hk
  have hsame := (assigned (O := O) hkp).same
  have htype : (gAt (linked O).G k).type = (gAt (pass2 O).G k).type := hsame.type
  rw [htype] at ht
  exact hsame.isSect.trans ((standing h).kinds k hkp ht)

theorem foldl_max_end (es : List Lmod.Esd) (v : ℕ) :
    let M := es.foldl (fun maxend e => if Obj370.isSection e.type then max maxend (e.addr + e.len) else maxend) v
    v ≤ M ∧ (∀ e ∈ es, Obj370.isSection e.type = true → e.addr + e.len ≤ M) ∧
      (M = v ∨ ∃ e ∈ es, Obj370.isSection e.type = true ∧ e.addr + e.len = M) := by
  induction es generalizing v with
  | nil => exact ⟨le_rfl, nofun, .inl rfl⟩
  | cons e es ih =>
    dsimp only at ih ⊢
    rw [List.foldl_cons]
    by_cases hs : Obj370.isSection e.type = true
    · rw [if_pos hs]
      obtain ⟨hle, hall, hex⟩ := ih (max v (e.addr + e.len))
      refine ⟨(le_max_left _ _).trans hle, ?_, ?_⟩
      · intro x hx hsx
        rcases List.mem_cons.mp hx with rfl | hx
        · exact (le_max_right _ _).trans hle
        · exact hall x hx hsx
      · rcases hex with heq | ⟨x, hx, hsx, heq⟩
        · rcases max_choice v (e.addr + e.len) with hv | hv
          · exact .inl (heq.trans hv)
          · exact .inr ⟨e, List.mem_cons_self, hs, hv.symm.trans heq.symm⟩
        · exact .inr ⟨x, List.mem_cons_of_mem _ hx, hsx, heq⟩
    · rw [if_neg hs]
      obtain ⟨hle, hall, hex⟩ := ih v
      refine ⟨hle, ?_, ?_⟩
      · intro x hx hsx
        rcases List.mem_cons.mp hx with rfl | hx
        · exact absurd hsx hs
        · exact hall x hx hsx
      · rcases hex with heq | ⟨x, hx, hsx, heq⟩
        · exact .inl heq
        · exact .inr ⟨x, List.mem_cons_of_mem _ hx, hsx, heq⟩

theorem forall₂_of_mem {α β : Type} {R : α → β → Prop} {xs : List α} {ys : List β} (h : List.Forall₂ R xs ys) :
    (∀ x ∈ xs, ∃ y ∈ ys, R x y) ∧ ∀ y ∈ ys, ∃ x ∈ xs, R x y := by
  induction h with
  | nil => exact ⟨nofun, nofun⟩
  | cons hxy _ ih =>
    constructor
    · intro x hx
      rcases List.mem_cons.mp hx with rfl | hx
      · exact ⟨_, List.mem_cons_self, hxy⟩
      · obtain ⟨y, hy, hr⟩ := ih.1 x hx
        exact ⟨y, List.mem_cons_of_mem _ hy, hr⟩
    · intro y hy
      rcases List.mem_cons.mp hy with rfl | hy
      · exact ⟨_, List.mem_cons_self, hxy⟩
      · obtain ⟨x, hx, hr⟩ := ih.2 y hy
        exact ⟨x, List.mem_cons_of_mem _ hx, hr⟩

section Cesd

variable {L : Layout} {es : List Lmod.Esd}

/-- The CESD says where a section ends, for nothing wraps. -/
theorem esdOf_end {e : Lmod.Esd} {g : Gsym} (he : EsdOf L.G e g) (hs : g.isSect = true) (hpos : 0 ≤ g.org) (hlow : g.org < 2 ^ 24)
    (hlen : g.len < 16777216) : ((e.addr + e.len : ℕ) : ℤ) = g.org + g.len := by
  obtain ⟨haddr, hl⟩ := he.section_ hs
  rw [Int.emod_eq_of_lt hpos (by omega)] at haddr
  rw [Int.emod_eq_of_lt (by omega) (by omega)] at hl
  rw [Nat.cast_add, haddr, hl]

theorem roundup8_foldl_end {R : ℤ} (hwalk : List.Forall₂ (EsdOf L.G) es (byGid L.G)) (hperm : (byGid L.G).Perm L.G)
    (hproper : ∀ g ∈ L.G, g.Proper) (hkinds : ∀ g ∈ L.G, isSectType g.type = true → g.isSect = true) (hb : SectionsBelow L) (hR : 0 ≤ R)
    (hall : ∀ g ∈ L.G, g.isSect = true → isSectType g.type = true → 0 ≤ g.org ∧ g.org + g.len ≤ R)
    (hex : R = 0 ∨ ∃ g ∈ L.G, g.isSect = true ∧ isSectType g.type = true ∧ roundup8 (g.org + g.len) = roundup8 R) :
    roundup8 ((es.foldl (fun maxend e => if Obj370.isSection e.type then max maxend (e.addr + e.len) else maxend) 0 : ℕ) : ℤ) =
      roundup8 R := by
  obtain ⟨hto, hfrom⟩ := forall₂_of_mem hwalk
  obtain ⟨-, hle, hreach⟩ := foldl_max_end es 0
  have htype : ∀ e g, g ∈ L.G → EsdOf L.G e g → (Obj370.isSection e.type = true ↔ isSectType g.type = true) := by
    intro e g hg he
    rw [he.type]
    exact (hproper g hg).type.isSection_iff
  have hend : ∀ e g, g ∈ L.G → EsdOf L.G e g → isSectType g.type = true → ((e.addr + e.len : ℕ) : ℤ) = g.org + g.len := by
    intro e g hg he ht
    have hs := hkinds g hg ht
    exact esdOf_end he hs (hall g hg hs ht).1 (hb g hg hs) (hproper g hg).len
  generalize es.foldl (fun maxend e => if Obj370.isSection e.type then max maxend (e.addr + e.len) else maxend) 0 = M at hle hreach ⊢
  apply le_antisymm
  · apply roundup8_mono
    rcases hreach with rfl | ⟨e, he, hs, heq⟩
    · exact hR
    · obtain ⟨g, hg, hof⟩ := hto e he
      have hgL := hperm.mem_iff.mp hg
      have ht := (htype e g hgL hof).mp hs
      rw [← heq, hend e g hgL hof ht]
      exact (hall g hgL (hkinds g hgL ht) ht).2
  · rcases hex with h0 | ⟨g, hg, hs, ht, hround⟩
    · rw [h0]
      exact roundup8_mono (Int.natCast_nonneg M)
    · obtain ⟨e, he, hof⟩ := hfrom g (hperm.mem_iff.mpr hg)
      rw [← hround, ← hend e g hg hof ht]
      apply roundup8_mono
      exact_mod_cast hle e he ((htype e g hg hof).mpr ht)

end Cesd

/-- The length that is recomputed from the CESD is that of the link. -/
theorem memberModlen_linked (h : SectionsStand (ds.map parseObject)) (hb : SectionsBelow (linked (ds.map parseObject))) :
    memberModlen ((linked (ds.map parseObject)).member opt ident) = (linked (ds.map parseObject)).modlen := by
  obtain ⟨R, hR, hmod, hall, hex⟩ := modlen_reached h
  have hwalk := cesdWalk_member (linked (ds.map parseObject)) opt ident
  have hperm : (byGid (linked (ds.map parseObject)).G).Perm (linked (ds.map parseObject)).G := byGid_perm _ _
  have hproper := linked_proper ds
  have hkinds := fun g hg => linked_isSect (g := g) h hg
  rw [hmod, memberModlen, memberEnd]
  exact roundup8_foldl_end hwalk hperm hproper hkinds hb hR hall hex

theorem forall₂_filter {α β : Type} {R : α → β → Prop} {xs : List α} {ys : List β} {p : α → Bool} {q : β → Bool} (h : List.Forall₂ R xs ys)
    (hpq : ∀ x, ∀ y ∈ ys, R x y → p x = q y) : List.Forall₂ R (xs.filter p) (ys.filter q) := by
  induction h with
  | nil => exact .nil
  | @cons x y xs ys hxy _ ih =>
    have hrest := ih fun x' y' hy' => hpq x' y' (List.mem_cons_of_mem _ hy')
    rw [List.filter_cons, List.filter_cons, hpq x y List.mem_cons_self hxy]
    split_ifs
    · exact .cons hxy hrest
    · exact hrest

/-- The entries of the composite table that define a name. -/
def definitionsOf (G : List Gsym) (n : Name) : List Gsym := G.filter fun g => (g.isSect ∨ g.type = .lr) ∧ g.name = n

theorem symbolAddr_defined {G : List Gsym} {g : Gsym} {v : ℤ} (h : symbolAddr G g = some v) : g.isSect = true ∨ g.type = .lr := by
  unfold symbolAddr at h
  by_cases hs : g.isSect = true
  · exact .inl hs
  · rw [if_neg hs] at h
    cases ho : g.owner with
    | none =>
      rw [ho] at h
      exact absurd h (by simp)
    | some o =>
      rw [ho] at h
      dsimp only at h
      split_ifs at h with hc
      exact .inr hc.1

/-- The one entry that defines the name has the address that is found under it. -/
theorem findSymbol_single {G : List Gsym} {n : Name} {g : Gsym} {v : ℤ} (hdef : definitionsOf G n = [g]) (hfind : findSymbol G n = some v) :
    symbolAddr G g = some v := by
  obtain ⟨g', hg', hv⟩ := List.exists_of_findSome?_eq_some hfind
  obtain ⟨hmem, hname⟩ := List.mem_filter.mp hg'
  have hin : g' ∈ definitionsOf G n := List.mem_filter.mpr ⟨hmem, decide_eq_true ⟨symbolAddr_defined hv, by simpa using hname⟩⟩
  rw [hdef, List.mem_singleton] at hin
  rw [← hin]
  exact hv

theorem esdOf_addr {G : List Gsym} {e : Lmod.Esd} {g : Gsym} {v : ℤ} (he : EsdOf G e g) (hv : symbolAddr G g = some v) :
    (e.addr : ℤ) = v % 16777216 := by
  have hdef := symbolAddr_defined hv
  unfold symbolAddr at hv
  by_cases hs : g.isSect = true
  · rw [if_pos hs] at hv
    rw [← Option.some.inj hv]
    exact (he.section_ hs).1
  · rw [if_neg hs] at hv
    cases ho : g.owner with
    | none =>
      rw [ho] at hv
      exact absurd hv (by simp)
    | some o =>
      rw [ho] at hv
      dsimp only at hv
      split_ifs at hv with hc
      have haddr := he.label (by simpa using hs) hc.1
      rw [ho] at haddr
      rw [← Option.some.inj hv]
      exact haddr

/-- The entry point that is recomputed from the CESD is that of the link, as far as three bytes hold it. -/
theorem bareEntry_linked (h : SectionsStand (ds.map parseObject)) {E : Name} {v : ℤ}
    (hone : (definitionsOf (linked (ds.map parseObject)).G E).length = 1) (hv : findSymbol (linked (ds.map parseObject)).G E = some v) :
    bareEntry ((linked (ds.map parseObject)).member opt ident) (some E) = some (v % 16777216) := by
  have hwalk := cesdWalk_member (linked (ds.map parseObject)) opt ident
  have hperm : (byGid (linked (ds.map parseObject)).G).Perm (linked (ds.map parseObject)).G := byGid_perm _ _
  obtain ⟨g, hg⟩ := List.length_eq_one_iff.mp hone
  have hbyGid : (byGid (linked (ds.map parseObject)).G).filter (fun g => (g.isSect ∨ g.type = .lr) ∧ g.name = E) = [g] := by
    have hfilter := hperm.filter fun g => (g.isSect ∨ g.type = .lr) ∧ g.name = E
    have hdef : (linked (ds.map parseObject)).G.filter (fun g => (g.isSect ∨ g.type = .lr) ∧ g.name = E) = [g] := hg
    rw [hdef] at hfilter
    exact List.perm_singleton.mp hfilter
  have hpred : ∀ e : Lmod.Esd, ∀ g ∈ byGid (linked (ds.map parseObject)).G, EsdOf (linked (ds.map parseObject)).G e g →
      decide ((Obj370.isSection e.type ∨ e.type = 0x03) ∧ e.name = E) = decide ((g.isSect ∨ g.type = .lr) ∧ g.name = E) := by
    intro e g hg he
    have hgL := hperm.mem_iff.mp hg
    have hp := linked_proper ds g hgL
    apply decide_eq_decide.mpr
    rw [he.name, he.type, hp.type.isSection_iff, hp.type.lr_iff]
    refine and_congr ?_ Iff.rfl
    constructor
    · rintro (hs | hl)
      · exact .inl (linked_isSect h hgL hs)
      · exact .inr hl
    · rintro (hs | hl)
      · exact hp.sect hs
      · exact .inr hl
  have hentries := forall₂_filter hwalk hpred
  rw [hbyGid] at hentries
  have hmem : List.Forall₂ (EsdOf (linked (ds.map parseObject)).G) (memberEntries ((linked (ds.map parseObject)).member opt ident) E) [g] := hentries
  unfold bareEntry
  cases hme : memberEntries ((linked (ds.map parseObject)).member opt ident) ((some E).getD crt0) with
  | nil =>
    rw [Option.getD_some] at hme
    rw [hme] at hmem
    exact absurd hmem (by simp)
  | cons e es =>
    rw [Option.getD_some] at hme
    rw [hme] at hmem
    cases hmem with
    | cons he hrest =>
      cases hrest
      dsimp only
      rw [esdOf_addr he (findSymbol_single hg hv)]

end Recomputed

end Cc370.Ld370
