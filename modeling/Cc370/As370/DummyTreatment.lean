import Cc370.As370.DummySections
import Cc370.As370.NetRelocation

namespace Cc370.As370

/-- A symbol with decimal displacements added to it or taken off. -/
def displaced (nm : List Char) (ds : List (Bool × List Char)) : Expr :=
  ds.foldl (fun e d => .add d.1 e (.atom (.num d.2))) (.atom (.sym nm))

section Displaced

variable {nm : List Char} {ds : List (Bool × List Char)}

theorem displaced_snoc (d : Bool × List Char) :
    displaced nm (ds ++ [d]) = .add d.1 (displaced nm ds) (.atom (.num d.2)) := by
  rw [displaced, List.foldl_append]
  rfl

theorem displaced_proper (hnm : (Atom.sym nm).Ok) (hds : ∀ d ∈ ds, (Atom.num d.2).Ok) :
    (displaced nm ds).Proper := by
  induction ds using List.reverseRecOn with
  | nil => exact hnm
  | append_singleton ds d ih =>
    rw [displaced_snoc]
    exact ⟨Nat.zero_le 1, ih fun x hx => hds x (List.mem_append_left _ hx), hds d (by simp)⟩

theorem displaced_head (hnm : (Atom.sym nm).Ok) (hds : ∀ d ∈ ds, (Atom.num d.2).Ok) :
    ∃ c t, (displaced nm ds).text = c :: t ∧ isDelim c = false := by
  induction ds using List.reverseRecOn with
  | nil =>
    obtain ⟨c, t, rfl⟩ := List.exists_cons_of_ne_nil hnm.1
    exact ⟨c, t, rfl, (hnm.2.2.2 c (by simp)).1⟩
  | append_singleton ds d ih =>
    obtain ⟨c, t, ht, hc⟩ := ih fun x hx => hds x (List.mem_append_left _ hx)
    rw [displaced_snoc, Expr.text, ht]
    exact ⟨c, _, rfl, hc⟩

theorem displaced_atoms : (displaced nm ds).atoms = .sym nm :: ds.map fun d => .num d.2 := by
  induction ds using List.reverseRecOn with
  | nil => rfl
  | append_singleton ds d ih =>
    rw [displaced_snoc, Expr.atoms, ih]
    simp [Expr.atoms]

theorem displaced_scan : (displaced nm ds).scan 1 = (.sym nm, 1) :: ds.map fun d =>
    (.num d.2, if d.1 then -1 else 1) := by
  induction ds using List.reverseRecOn with
  | nil => rfl
  | append_singleton ds d ih =>
    rw [displaced_snoc, Expr.scan, ih]
    simp [Expr.scan]

theorem displaced_relScan : (displaced nm ds).relScan 1 = (.sym nm, 1) :: ds.map fun d =>
    (.num d.2, if d.1 then -1 else 1) := by
  induction ds using List.reverseRecOn with
  | nil => rfl
  | append_singleton ds d ih =>
    rw [displaced_snoc, Expr.relScan, ih]
    simp [Expr.relScan]

theorem displaced_contrib {S : Scope} (h : (Atom.sym nm).counted S = true) : (displaced nm ds).contrib S 1 = 1 := by
  induction ds using List.reverseRecOn with
  | nil => simp [displaced, Expr.contrib, h]
  | append_singleton ds d ih =>
    rw [displaced_snoc, Expr.contrib, ih]
    simp [Expr.contrib, Atom.counted]

end Displaced

namespace DcScope

variable {E : DcScope} {nm : List Char} {ds : List (Bool × List Char)} {s : XSym}

/-- A symbol that the assembler holds for relocatable. -/
structure Movable (s : XSym) : Prop where
  defined : s.defined = true
  type : s.type ≠ .abs ∧ s.type ≠ .ld

theorem Movable.type_cases (h : Movable s) : s.type = .rel ∨ s.type = .sd ∨ s.type = .pc ∨ s.type = .er ∨
    s.type = .xd ∨ s.type = .cm := by
  obtain ⟨-, h1, h2⟩ := h
  cases ht : s.type with
  | abs => exact absurd ht h1
  | ld => exact absurd ht h2
  | rel => exact .inl rfl
  | sd => exact .inr (.inl rfl)
  | pc => exact .inr (.inr (.inl rfl))
  | er => exact .inr (.inr (.inr (.inl rfl)))
  | xd => exact .inr (.inr (.inr (.inr (.inl rfl))))
  | cm => exact .inr (.inr (.inr (.inr (.inr rfl))))

variable (hnm : (Atom.sym nm).Ok) (hds : ∀ d ∈ ds, (Atom.num d.2).Ok) (hfind : E.find nm = some s)
  (hs : Movable s)

include hnm hds hfind hs

theorem movable_counted : (Atom.sym nm).counted E.toScope = true ∧ (Atom.sym nm).relocatable E.toScope = true ∧
    (Atom.sym nm).target E.toScope = some (.sect s.sect) := by
  have hknown : s.known = true := by simp [XSym.known, hs.defined]
  have hdig : nm.head?.any Char.isDigit = false := hnm.2.2.1
  refine ⟨?_, ?_, ?_⟩
  · simp only [Atom.counted, hfind, Option.any_some, Scope.counts, hknown]
    rcases hs.type_cases with h | h | h | h | h | h <;> simp [h]
  · simp only [Atom.relocatable, hfind, Option.any_some, Scope.relocatable, hknown]
    rcases hs.type_cases with h | h | h | h | h | h <;> simp [h]
  · simp only [Atom.target, Scope.nameTarget, hdig, hfind]
    rcases hs.type_cases with h | h | h | h | h | h <;> simp [h, hs.defined]

theorem displaced_rc (hok : Scope.exprErr (E.exprValFull (displaced nm ds).text).2.2 = false) :
    (E.exprValFull (displaced nm ds).text).2.1 = 1 := by
  rw [exprValFull_count _ (displaced_proper hnm hds) hok]
  exact displaced_contrib (movable_counted hnm hds hfind hs).1

theorem displaced_relocSym : E.relocSymOf (displaced nm ds).text = some nm := by
  rw [relocSymOf, relocSym_eq _ (displaced_proper hnm hds), Expr.firstAdded, displaced_relScan, List.find?_cons]
  simp [(movable_counted hnm hds hfind hs).2.1, Atom.text]

theorem displaced_tally : E.exprSectTerms8 (displaced nm ds).text = [(.sect s.sect, 1)] := by
  have htarget := (movable_counted hnm hds hfind hs).2.2
  have hnone (l : List (Bool × List Char)) (ts : List (Target × ℤ)) :
      (l.map fun d => (Atom.num d.2, if d.1 then (-1 : ℤ) else 1)).foldl (tallyAtom E.toScope 8) ts = ts := by
    induction l generalizing ts with
    | nil => rfl
    | cons d l ih => exact ih ts
  rw [exprSectTerms8, exprSectTerms_eq _ (displaced_proper hnm hds), displaced_scan, List.foldl_cons, hnone,
    tallyAtom, htarget]
  · rfl
  · intro kind body hmem
    rw [displaced_atoms] at hmem
    simp at hmem

theorem tgtreal_sym : nm ≠ ['*'] ∧ E.tgtreal (some nm) = !E.isDsect s.sect := by
  have hstar : nm ≠ ['*'] := by
    rintro rfl
    exact absurd (hnm.2.2.2 '*' (by simp)).1 (by decide)
  refine ⟨hstar, ?_⟩
  simp [tgtreal, hstar, hfind]

variable (hok : Scope.exprErr (E.exprValFull (displaced nm ds).text).2.2 = false)

include hok

/-- A DC goes by the mark that the section's number is read under. -/
theorem dcAdcon_displaced {ty : AdconType} {len : ℕ} (hlen : (if ty = .y then 1 else 2) < len) (first : Bool) :
    (E.dcAdcon ty len first (displaced nm ds).text).rels = (if E.isDsect s.sect then [] else [E.addReloc nm len]) ∧
    (.dsectAdcon ∈ (E.dcAdcon ty len first (displaced nm ds).text).diags ↔ E.isDsect s.sect = true) := by
  have hrc := displaced_rc hnm hds hfind hs hok
  have hrel := displaced_relocSym hnm hds hfind hs
  have htally := displaced_tally hnm hds hfind hs
  obtain ⟨hstar, htgt⟩ := tgtreal_sym hnm hds hfind hs
  obtain ⟨c, t, ht, -⟩ := text_head _ (displaced_proper hnm hds)
  have hne : (displaced nm ds).text ≠ [] := by simp [ht]
  have h204 : ¬ ((1 : ℤ) ≠ 0 ∧ len ≤ if ty = .y then 1 else 2) := by omega
  simp only [dcAdcon, hne, ↓reduceIte, hrc, h204, adconRels, htally, hrel, hok, htgt, hstar, hfind,
    Option.bind_some, Option.any_some]
  cases E.isDsect s.sect <;> simp <;> split_ifs <;> simp

theorem ccwAddr_displaced :
    (E.ccwAddr (displaced nm ds).text).rels =
      (if E.isDsect s.sect then [] else [{ E.addReloc nm 3 with addr := E.lc + 1 }]) ∧
    (.dsectAdcon ∈ (E.ccwAddr (displaced nm ds).text).diags ↔ E.isDsect s.sect = true) := by
  have hrc := displaced_rc hnm hds hfind hs hok
  have hrel := displaced_relocSym hnm hds hfind hs
  obtain ⟨hstar, htgt⟩ := tgtreal_sym hnm hds hfind hs
  have hval : E.exprVal (displaced nm ds).text = E.exprValFull (displaced nm ds).text := by
    obtain ⟨c, t, ht, hc⟩ := displaced_head hnm hds
    rw [exprVal, if_neg]
    rw [ht, skipBlanks_cons (fun h => by rw [h] at hc; exact absurd hc (by decide)), List.head?_cons]
    rintro (h | h) <;>
    · obtain rfl := Option.some.inj h
      exact absurd hc (by decide)
  simp only [ccwAddr, hval, hrc, hrel, hok, htgt, hstar, hfind, ↓reduceIte, Option.bind_some, Option.any_some]
  cases E.isDsect s.sect <;> simp

theorem emitLitAddr_displaced {ty : AdconType} {per : ℕ} (hper : (if ty = .y then 1 else 2) < per) :
    (E.emitLitAddr ty per (displaced nm ds).text).rels = (if E.isDsect s.sect then [] else [E.addReloc nm per]) ∧
    (.dsectAdcon ∈ (E.emitLitAddr ty per (displaced nm ds).text).diags ↔ E.isDsect s.sect = true) := by
  have hrc := displaced_rc hnm hds hfind hs hok
  have hrel := displaced_relocSym hnm hds hfind hs
  obtain ⟨hstar, htgt⟩ := tgtreal_sym hnm hds hfind hs
  obtain ⟨c, t, ht, -⟩ := text_head _ (displaced_proper hnm hds)
  have hne : (displaced nm ds).text ≠ [] := by simp [ht]
  have h204 : ¬ ((1 : ℤ) ≠ 0 ∧ per ≤ if ty = .y then 1 else 2) := by omega
  simp only [emitLitAddr, hne, ↓reduceIte, hrc, h204, hrel, hok, htgt, hstar, hfind, Option.bind_some, Option.any_some]
  cases E.isDsect s.sect <;> simp

end DcScope

section Plain

variable {S : Scope} {nm : List Char}

theorem xNameAt_flags (sign : ℤ) (st : XState) : (S.xNameAt sign st).2.deep = st.deep ∧
    (S.xNameAt sign st).2.badsdt = st.badsdt ∧ (S.xNameAt sign st).2.leaf = st.leaf := by
  simp only [Scope.xNameAt]
  cases S.find (takeName st.rest).1 with
  | none => exact ⟨rfl, rfl, rfl⟩
  | some s =>
    dsimp only
    split_ifs <;> exact ⟨rfl, rfl, rfl⟩

theorem plain_ok (hnm : (Atom.sym nm).Ok) : Scope.exprErr (S.exprValFull nm).2.2 = false := by
  have hinit : (Scope.initial nm).rest = (Atom.sym nm).text ++ [] := by simp [Scope.initial, Atom.text]
  have hreads := xFactor_atom (S := S) hnm (by simp [Ends]) hinit
  obtain ⟨c, t, hct⟩ := List.exists_cons_of_ne_nil hnm.1
  have hc : isDelim c = false := (hnm.2.2.2 c (by rw [hct]; simp)).1
  have hskip : skipBlanks nm = nm := by
    rw [hct]
    apply skipBlanks_cons
    rintro rfl
    exact absurd hc (by decide)
  have hfactor (fuel : ℕ) : S.xFactor (fuel + 1) 1 (Scope.initial nm) =
      S.xNameAt 1 (Scope.counting (Scope.initial nm)) := by
    rw [xFactor_term hc (t := t) hct, xLeafAt_sym hnm (r := []) (by simp [Ends])]
    rw [(counting_eq _).1, List.append_nil]
    rfl
  obtain ⟨hdeep, hbad, hleaf⟩ := xNameAt_flags (S := S) 1 (Scope.counting (Scope.initial nm))
  have hadd : S.xAdd (Scope.exprFuel nm) (Scope.initial nm) =
      S.xNameAt 1 (Scope.counting (Scope.initial nm)) := by
    have hrest := (hreads (3 * nm.length) 1).1
    rw [hfactor] at hrest
    rw [Scope.exprFuel, Scope.xAdd, Scope.xTerm, hfactor, xTermLoop_stop (by simp [EndsTerm]) hrest,
      xAddLoop_stop (by simp) hrest]
  have herr : Scope.exprErr (S.xNameAt 1 (Scope.counting (Scope.initial nm))).2 = false := by
    have hone : (Scope.counting (Scope.initial nm)).leaf ≤ 1 := by
      unfold Scope.counting
      split_ifs <;> simp [Scope.initial]
    have hflags : (Scope.counting (Scope.initial nm)).deep = false ∧
        (Scope.counting (Scope.initial nm)).badsdt = false := by
      unfold Scope.counting
      split_ifs <;> exact ⟨rfl, rfl⟩
    simp only [Scope.exprErr, hdeep, hbad, hleaf, hflags]
    simp
    omega
  rw [Scope.exprValFull, hskip, if_neg hnm.1, hadd, herr]
  exact herr

end Plain

namespace Pass1

section Esdids

variable {σ : Pass1} {D : List ℕ} {nm : SymName} {s : SectSym}

theorem mem_esdEntries {e : SymName × EsdRole × ℕ} (h : e ∈ σ.esdEntries) :
    (e.1, e.2.1) ∈ σ.esdord ∧ e.2.2 ≠ 0 := by
  obtain ⟨x, hx, rfl⟩ := List.mem_map.mp h
  exact ⟨(List.mem_zipIdx' hx).2 ▸ List.getElem_mem _, Nat.succ_ne_zero _⟩

theorem exists_esdEntry {role : EsdRole} (h : (nm, role) ∈ σ.esdord) : ∃ n, (nm, role, n) ∈ σ.esdEntries := by
  obtain ⟨k, hk, heq⟩ := List.mem_iff_getElem.mp h
  refine ⟨k + 1, List.mem_map.mpr ⟨((nm, role), k), ?_, rfl⟩⟩
  rw [List.mem_zipIdx_iff_getElem?]
  simp [hk, heq]

theorem symEsdid_ne_zero {role : EsdRole} (h : (nm, role) ∈ σ.esdord) (hr : IsSection role) : σ.symEsdid nm ≠ 0 := by
  obtain ⟨n, hn⟩ := exists_esdEntry h
  have hmem : (nm, role, n) ∈ σ.esdEntries.filter fun e => e.1 = nm ∧ (e.2.1 = .sect ∨ e.2.1 = .cm) :=
    List.mem_filter.mpr ⟨hn, by simpa [IsSection] using hr⟩
  have hx := List.getLast?_eq_some_getLast (List.ne_nil_of_mem hmem)
  have hxmem := List.mem_of_getLast? hx
  rw [symEsdid, hx, Option.some_or, Option.elim_some]
  exact (mem_esdEntries (List.mem_of_mem_filter hxmem)).2

/-- A number that no dummy section has belongs to the section of an ESD entry. -/
theorem Owned.sectEsdidOf (h : Owned σ.find σ.sectid σ.esdord D) {id : ℕ} (h0 : 0 < id) (hid : id ≤ σ.sectid)
    (hD : id ∉ D) : ∃ nm role s, (nm, role) ∈ σ.esdord ∧ IsSection role ∧ σ.find nm = some s ∧ s.sect = id ∧
      σ.sectEsdidOf id = σ.symEsdid nm := by
  rcases h.covered id h0 hid with hin | ⟨nm, role, s, he, hr, hs, hsect⟩
  · exact absurd hin hD
  · obtain ⟨n, hn⟩ := exists_esdEntry he
    have hfound : (σ.esdEntries.find? fun e => (e.2.1 = .sect ∨ e.2.1 = .cm) ∧ (σ.symGet e.1).sect = id).isSome := by
      rw [List.find?_isSome]
      refine ⟨_, hn, ?_⟩
      rw [symGet_some hs, hsect]
      simpa [IsSection] using hr
    obtain ⟨e, hfind⟩ := Option.isSome_iff_exists.mp hfound
    have hp := List.find?_some hfind
    have hmem := (mem_esdEntries (List.mem_of_find?_eq_some hfind)).1
    simp only [decide_eq_true_eq] at hp
    obtain ⟨s', hs', -⟩ := h.own e.1 e.2.1 hmem hp.1
    rw [symGet_some hs'] at hp
    refine ⟨e.1, e.2.1, s', hmem, hp.1, hs', hp.2, ?_⟩
    rw [Pass1.sectEsdidOf, if_neg h0.ne', hfind, Option.elim_some]

theorem Owned.sectEsdidOf_ne_zero (h : Owned σ.find σ.sectid σ.esdord D) {id : ℕ} (h0 : 0 < id)
    (hid : id ≤ σ.sectid) (hD : id ∉ D) : σ.sectEsdidOf id ≠ 0 := by
  obtain ⟨nm, role, s, he, hr, -, -, heq⟩ := h.sectEsdidOf h0 hid hD
  rw [heq]
  exact symEsdid_ne_zero he hr

/-- `add_reloc` finds the section of a control section's label. -/
theorem Owned.symRel (h : Owned σ.find σ.sectid σ.esdord D) {nm : List Char} (hs : σ.find (.src nm) = some s)
    (hdef : s.defined = true) (hD : s.sect ∉ D) (lc : ℤ) (cur : ℕ) (er : ℕ → ℕ) :
    (σ.scope lc cur er).symRel nm = σ.sectEsdidOf s.sect := by
  have h0 : 0 < s.sect := Nat.pos_of_ne_zero ((h.defined _ _ hs).mp hdef)
  have hle := h.le _ _ hs
  have hne := h.sectEsdidOf_ne_zero h0 hle hD
  have htypes := h.types _ _ hs
  have hx : (σ.scope lc cur er).find nm = some ⟨s.idx, σ.relocated s, s.type, s.defined, s.declaredExtrn, s.sect,
      σ.symEsdid (.src nm), 0, s.len⟩ := by
    simp [scope, xsym, hs]
  have hsect : (σ.scope lc cur er).sectEsdid = σ.sectEsdidOf := rfl
  simp only [DcScope.symRel, hx, Option.elim_some, hdef, hsect, true_and]
  by_cases hrel : s.type = .er ∨ s.type = .rel
  · simp [hrel, hne]
  · have hown : σ.symEsdid (.src nm) = σ.sectEsdidOf s.sect := by
      have ht : s.type = .sd ∨ s.type = .pc ∨ s.type = .cm := by
        cases hty : s.type <;> simp_all
        exact hD (h.dummy _ _ hs hty).2
      obtain ⟨role, hr, he⟩ := h.typed _ _ hs ht
      obtain ⟨nm', role', s', he', hr', hs', hsect', heq⟩ := h.sectEsdidOf h0 hle hD
      rw [heq, h.unique _ _ _ _ _ _ he he' hr hr' hs hs' hsect'.symm]
    simp [hrel, hown, hne]

end Esdids

/-- A DC, a CCW and a literal of this text are relocated by the section of that ESDID, without IFO158. -/
structure Relocates (E : DcScope) (rel : ℕ) (t : List Char) : Prop where
  dc : ∀ ty len first, (if ty = .y then 1 else 2) < len →
    (E.dcAdcon ty len first t).rels = [E.relocAt len rel false] ∧ .dsectAdcon ∉ (E.dcAdcon ty len first t).diags
  ccw : (E.ccwAddr t).rels = [{ E.relocAt 3 rel false with addr := E.lc + 1 }] ∧ .dsectAdcon ∉ (E.ccwAddr t).diags
  lit : ∀ ty per, (if ty = .y then 1 else 2) < per →
    (E.emitLitAddr ty per t).rels = [E.relocAt per rel false] ∧ .dsectAdcon ∉ (E.emitLitAddr ty per t).diags

structure Unrelocated (E : DcScope) (t : List Char) : Prop where
  dc : ∀ ty len first, (if ty = .y then 1 else 2) < len → (E.dcAdcon ty len first t).rels = []
  ccw : (E.ccwAddr t).rels = []
  lit : ∀ ty per, (if ty = .y then 1 else 2) < per → (E.emitLitAddr ty per t).rels = []

/-- A symbol is taken for a dummy section's exactly when its own section is one of `D`. -/
structure Treated (σ : Pass1) (D : List ℕ) (nm : List Char) (s : SectSym) : Prop where
  constants : ∀ (lc : ℤ) (cur : ℕ) (er : ℕ → ℕ) (ds : List (Bool × List Char)), (∀ d ∈ ds, (Atom.num d.2).Ok) →
    Scope.exprErr ((σ.scope lc cur er).exprValFull (displaced nm ds).text).2.2 = false →
    (s.sect ∉ D → Relocates (σ.scope lc cur er) (σ.sectEsdidOf s.sect) (displaced nm ds).text) ∧
    (s.sect ∈ D → Unrelocated (σ.scope lc cur er) (displaced nm ds).text)
  origin : (σ.originOf s).isSome = true ↔ s.sect ∈ σ.sectOrd ∧ s.sect ∉ D

/-- The number of the symbol's section and its remainder modulo 256 are both dummy sections' or both
not, and no dummy section past 255 is chained as a control section. -/
structure Apart (σ : Pass1) (D : List ℕ) (s : SectSym) : Prop where
  modulo : s.sect ∈ D ↔ s.sect % 256 ∈ D
  chained : ¬ (s.sect ∈ σ.sectOrd ∧ s.sect ∈ D ∧ 256 ≤ s.sect)

section Treatment

variable {σ : Pass1} {D : List ℕ} {nm : List Char} {s : SectSym}

theorem mem_chain (ids : List ℕ) (org : ℤ) (id : ℕ) : id ∈ (σ.chain ids org).map Prod.fst ↔
    id ∈ ids ∧ inRange id = true ∧ σ.isDsectId id = false := by
  induction ids generalizing org with
  | nil => simp [chain]
  | cons x ids ih =>
    rw [chain]
    split_ifs with h
    · rw [ih, List.mem_cons]
      constructor
      · rintro ⟨h1, h2⟩
        exact ⟨.inr h1, h2⟩
      · rintro ⟨rfl | h1, h2, h3⟩
        · simp [h2, h3] at h
        · exact ⟨h1, h2, h3⟩
    · simp only [not_or, Bool.not_eq_true', Bool.not_eq_false, Bool.not_eq_true] at h
      rw [List.map_cons, List.mem_cons, ih, List.mem_cons]
      constructor
      · rintro (rfl | ⟨h1, h2⟩)
        · exact ⟨.inl rfl, h⟩
        · exact ⟨.inr h1, h2⟩
      · rintro ⟨h1 | h1, h2⟩
        · exact .inl h1
        · exact .inr ⟨h1, h2⟩

variable (hflags : ∀ d, σ.dsectSect d = true ↔ d < 256 ∧ d ∈ D)

include hflags

theorem isDsectId_iff {id : ℕ} (h0 : 0 < id) : σ.isDsectId id = true ↔ id < 256 ∧ id ∈ D := by
  simp only [isDsectId, decide_eq_true_eq, h0, true_and]
  constructor
  · rintro ⟨h1, h2⟩
    exact ⟨h1, ((hflags id).mp h2).2⟩
  · rintro ⟨h1, h2⟩
    exact ⟨h1, (hflags id).mpr ⟨h1, h2⟩⟩

theorem scope_isDsect (lc : ℤ) (cur : ℕ) (er : ℕ → ℕ) (id : ℕ) :
    (σ.scope lc cur er).isDsect id = true ↔ id % 256 ∈ D := by
  rw [DcScope.isDsect]
  change σ.dsectSect (id % 256) = true ↔ _
  rw [hflags]
  simp [Nat.mod_lt]

theorem originOf_isSome (hdef : s.defined = true) (h0 : 0 < s.sect) (hmax : s.sect < maxsect) (ht : s.type ≠ .abs) :
    (σ.originOf s).isSome = true ↔ s.sect ∈ σ.sectOrd ∧ ¬ (s.sect < 256 ∧ s.sect ∈ D) := by
  have hrange : inRange s.sect = true := by simp [inRange, h0, hmax]
  have hdsect := isDsectId_iff hflags h0
  rw [originOf]
  by_cases hd : σ.isDsectId s.sect = true
  · rw [if_pos (.inr (.inr (.inl hd)))]
    simp [hdsect.mp hd]
  · rw [if_neg (by simp [hdef, hrange, hd, ht]), Option.isSome_map, List.find?_isSome]
    have hmem := mem_chain (σ := σ) σ.sectOrd σ.startBase s.sect
    rw [List.mem_map] at hmem
    rw [← hdsect]
    simp only [Bool.not_eq_true] at hd
    simp only [decide_eq_true_eq, hd]
    rw [origins]
    simp only [hrange, hd, and_true] at hmem
    simpa using hmem

/-- What the constants and the origins make of a symbol depends on its own section alone exactly when
the numbers of the sections do not collide. -/
theorem treated_iff (h : Sound σ D) (hmax : σ.sectid < maxsect) (hnm : (Atom.sym nm).Ok)
    (hs : σ.find (.src nm) = some s) (hdef : s.defined = true) : Treated σ D nm s ↔ Apart σ D s := by
  have h0 : 0 < s.sect := Nat.pos_of_ne_zero ((h.owned.defined _ _ hs).mp hdef)
  have hle := h.owned.le _ _ hs
  have htypes := h.owned.types _ _ hs
  have horg := originOf_isSome hflags hdef h0 (by omega) htypes.1
  have hx (lc : ℤ) (cur : ℕ) (er : ℕ → ℕ) : (σ.scope lc cur er).find nm =
      some ⟨s.idx, σ.relocated s, s.type, s.defined, s.declaredExtrn, s.sect, σ.symEsdid (.src nm), 0, s.len⟩ := by
    simp [scope, xsym, hs]
  have hmov : DcScope.Movable ⟨s.idx, σ.relocated s, s.type, s.defined, s.declaredExtrn, s.sect,
      σ.symEsdid (.src nm), 0, s.len⟩ := ⟨hdef, htypes⟩
  constructor
  · intro ht
    constructor
    · have hok : Scope.exprErr ((σ.scope 0 0 fun _ => 0).exprValFull (displaced nm []).text).2.2 = false :=
        plain_ok hnm
      have hccw := (DcScope.ccwAddr_displaced hnm (by simp) (hx 0 0 fun _ => 0) hmov hok).1
      obtain ⟨h1, h2⟩ := ht.constants 0 0 (fun _ => 0) [] (by simp) hok
      rw [← scope_isDsect hflags 0 0 (fun _ => 0)]
      constructor
      · intro hin
        rw [(h2 hin).ccw] at hccw
        by_contra hd
        rw [if_neg hd] at hccw
        simp at hccw
      · intro hd
        by_contra hin
        rw [(h1 hin).ccw.1, if_pos hd] at hccw
        simp at hccw
    · rintro ⟨hord, hin, hbig⟩
      have hsome := horg.mpr ⟨hord, fun hlow => by omega⟩
      exact (ht.origin.mp hsome).2 hin
  · intro ha
    constructor
    · intro lc cur er ds hds hok
      have hdsect := scope_isDsect hflags lc cur er s.sect
      rw [← ha.modulo] at hdsect
      have hdc {ty : AdconType} {len : ℕ} (hlen : (if ty = .y then 1 else 2) < len) (first : Bool) :=
        DcScope.dcAdcon_displaced hnm hds (hx lc cur er) hmov hok hlen first
      have hccw := DcScope.ccwAddr_displaced hnm hds (hx lc cur er) hmov hok
      have hlit {ty : AdconType} {len : ℕ} (hlen : (if ty = .y then 1 else 2) < len) :=
        DcScope.emitLitAddr_displaced hnm hds (hx lc cur er) hmov hok hlen
      dsimp only at hdc hccw hlit
      constructor
      · intro hin
        have hoff : (σ.scope lc cur er).isDsect s.sect = false := by
          rw [← Bool.not_eq_true, hdsect]
          exact hin
        have hrel (len : ℕ) : (σ.scope lc cur er).addReloc nm len =
            (σ.scope lc cur er).relocAt len (σ.sectEsdidOf s.sect) false := by
          rw [DcScope.addReloc, h.owned.symRel hs hdef hin]
        refine ⟨fun ty len first hlen => ?_, ?_, fun ty per hper => ?_⟩
        · simpa [hoff, hrel] using hdc hlen first
        · simpa [hoff, hrel] using hccw
        · simpa [hoff, hrel] using hlit hper
      · intro hin
        have hon : (σ.scope lc cur er).isDsect s.sect = true := hdsect.mpr hin
        refine ⟨fun ty len first hlen => ?_, ?_, fun ty per hper => ?_⟩
        · simpa [hon] using (hdc hlen first).1
        · simpa [hon] using hccw.1
        · simpa [hon] using (hlit hper).1
    · rw [horg]
      constructor
      · rintro ⟨hord, hlow⟩
        refine ⟨hord, fun hin => ?_⟩
        by_cases hsmall : s.sect < 256
        · exact hlow ⟨hsmall, hin⟩
        · exact ha.chained ⟨hord, hin, by omega⟩
      · rintro ⟨hord, hin⟩
        exact ⟨hord, fun hlow => hin hlow.2⟩

end Treatment

/-- The statements that are diagnosed. -/
def flagged (σ : Pass1) : SectStmt → Bool
  | .csect lbl _ => σ.rejects lbl
  | .com lbl => lbl = []
  | .dxd lbl => lbl ≠ [] ∧ σ.duplicate lbl ≠ []
  | .dsect _ => false
  | .extrn nm => (σ.symGet (.src nm)).defined
  | .place lbl _ _ => lbl ≠ [] ∧ σ.duplicate lbl ≠ []

def anyFlagged : ℕ → Pass1 → List SectStmt → Bool
  | _, _, [] => false
  | i, σ, stmt :: rest => σ.flagged stmt || anyFlagged (i + 1) (σ.step i stmt) rest

section Flagged

variable (σ : Pass1) (i : ℕ)

theorem park_diags : σ.park.diags = σ.diags := by
  unfold park
  split_ifs <;> rfl

theorem esdAdd_diags (nm : SymName) (role : EsdRole) : (σ.esdAdd nm role).diags = σ.diags := by
  unfold esdAdd
  split_ifs <;> rfl

theorem chainSect_diags (id : ℕ) : (σ.chainSect id).diags = σ.diags := by
  unfold chainSect
  split_ifs <;> rfl

theorem mark_diags (id : ℕ) : (σ.mark id).diags = σ.diags := by
  unfold mark
  split_ifs <;> rfl

theorem step_diags (stmt : SectStmt) : (σ.step i stmt).diags = [] ↔ σ.diags = [] ∧ σ.flagged stmt = false := by
  cases stmt with
  | csect lbl start =>
    simp only [step, csect, flagged, apply_ite Pass1.diags, esdAdd_diags, chainSect_diags, setSect, setSym, ite_self]
    cases σ.rejects lbl <;> simp
  | com lbl =>
    by_cases hl : lbl = []
    · simp [step, com, flagged, hl]
    · simp [step, com, flagged, hl, apply_ite Pass1.diags, esdAdd_diags, setSect, setSym, park_diags]
  | dxd lbl =>
    by_cases hl : lbl = []
    · simp [step, dxd, flagged, hl]
    · simp [step, dxd, flagged, hl, apply_ite Pass1.diags, mark_diags, esdAdd_diags, setSect, setSym]
  | dsect lbl => simp [step, dsect, flagged, mark_diags, setSect, setSym, park_diags]
  | extrn nm =>
    by_cases hd : (σ.symGet (.src nm)).defined = true
    · simp [step, extrn, flagged, hd]
    · simp [step, extrn, flagged, hd, esdAdd_diags, setSym]
  | place lbl algn len =>
    by_cases hl : lbl = []
    · simp [step, place, flagged, hl]
    · simp [step, place, flagged, hl, setSym]

theorem run_diags (prog : List SectStmt) :
    (run i σ prog).diags = [] ↔ σ.diags = [] ∧ anyFlagged i σ prog = false := by
  induction prog generalizing i σ with
  | nil => simp [run, anyFlagged]
  | cons stmt rest ih =>
    rw [run, ih, step_diags, anyFlagged, Bool.or_eq_false_iff, and_assoc]

end Flagged

/-- What is promised of the sections of a source. -/
structure Distinguished (prog : List SectStmt) : Prop where
  treated : (run 0 initial prog).sectid < maxsect → ∀ nm s, (Atom.sym nm).Ok →
    (run 0 initial prog).find (.src nm) = some s → s.defined = true →
      Treated (run 0 initial prog) (dummies 0 initial prog) nm s
  full : maxsect ≤ (run 0 initial prog).sectid → (run 0 initial prog).diags ≠ []

section Run

variable (prog : List SectStmt)

theorem sound_run : Sound (run 0 initial prog) (dummies 0 initial prog) := by
  have h := sound_initial.run (i := 0) (fun j _ => rfl) prog
  rwa [List.nil_append] at h

theorem flags_run (d : ℕ) : (run 0 initial prog).dsectSect d = true ↔ d < 256 ∧ d ∈ dummies 0 initial prog := by
  rw [run_dsectSect]
  simp [initial]

end Run

section Aliased

theorem dsect_new {σ : Pass1} {nm : List Char} (hne : nm ≠ []) (hnew : σ.find (.src nm) = none) :
    (σ.dsect nm).sectid = σ.sectid + 1 ∧ σ.allot (.src nm) = σ.sectid + 1 ∧
      ∀ nm', nm' ≠ SymName.src nm → (σ.dsect nm).find nm' = σ.find nm' := by
  have hsect : (σ.symGet (.src nm)).sect = 0 := by
    rw [symGet, hnew]
    rfl
  refine ⟨?_, ?_, ?_⟩
  · have hnext : σ.nextId (.src nm) = σ.sectid + 1 := if_pos hsect
    simp only [dsect, hne, ↓reduceIte, mark_sectid]
    rw [← hnext]
    exact setSect_sectid (park_find σ) (park_nsym σ) (park_sectid σ)
  · rw [allot, if_pos hsect]
  · intro nm' hne'
    simp only [dsect, hne, ↓reduceIte]
    rw [mark_find, setSect_find, park_find, Function.update_of_ne hne']

/-- New dummy sections are numbered one after the other. -/
theorem run_dsects (names : List (List Char)) (hnodup : names.Nodup) (σ : Pass1) (i : ℕ)
    (hnew : ∀ nm ∈ names, nm ≠ [] ∧ σ.find (.src nm) = none) (rest : List SectStmt) :
    ∃ τ, run i σ (names.map .dsect ++ rest) = run (i + names.length) τ rest ∧
      dummies i σ (names.map .dsect ++ rest) =
        List.range' (σ.sectid + 1) names.length ++ dummies (i + names.length) τ rest ∧
      τ.sectid = σ.sectid + names.length ∧ ∀ nm, (∀ x ∈ names, nm ≠ SymName.src x) → τ.find nm = σ.find nm := by
  induction names generalizing σ i with
  | nil => exact ⟨σ, rfl, rfl, rfl, fun _ _ => rfl⟩
  | cons nm names ih =>
    obtain ⟨hnotin, hnodup⟩ := List.nodup_cons.mp hnodup
    obtain ⟨hne, hnone⟩ := hnew nm (by simp)
    obtain ⟨hid, hallot, hfind⟩ := dsect_new hne hnone
    have hnew' : ∀ x ∈ names, x ≠ [] ∧ (σ.dsect nm).find (.src x) = none := by
      intro x hx
      obtain ⟨hx1, hx2⟩ := hnew x (List.mem_cons_of_mem _ hx)
      refine ⟨hx1, ?_⟩
      rw [hfind _ fun heq => hnotin ?_, hx2]
      rw [← SymName.src.inj heq]
      exact hx
    obtain ⟨τ, hrun, hdum, hsect, hfind'⟩ := ih hnodup (σ.dsect nm) (i + 1) hnew'
    have hlen : i + 1 + names.length = i + (nm :: names).length := by
      rw [List.length_cons]
      omega
    refine ⟨τ, ?_, ?_, ?_, ?_⟩
    · rw [List.map_cons, List.cons_append, run, ← hlen]
      exact hrun
    · rw [List.map_cons, List.cons_append, dummies, step, hdum, dummyOf, if_neg hne, hallot, hid, hlen]
      rw [List.length_cons, List.range'_succ, Option.toList_some, List.singleton_append, List.cons_append]
    · rw [hsect, hid, List.length_cons]
      omega
    · intro nm' hnm'
      rw [hfind' nm' fun x hx => hnm' x (List.mem_cons_of_mem _ hx), hfind nm' (hnm' nm (by simp))]

/-- The names `DAA` to `DPP` of 256 mapping macros. -/
def mapNames : List (List Char) :=
  (List.range 256).map fun k => ['D', Char.ofNat (65 + k / 16), Char.ofNat (65 + k % 16)]

theorem mapNames_nodup : mapNames.Nodup := by
  have hcode : ∀ k < 256, (Char.ofNat (65 + k / 16)).toNat = 65 + k / 16 ∧ (Char.ofNat (65 + k % 16)).toNat = 65 + k % 16 := by
    decide +kernel
  apply List.Nodup.map_on _ List.nodup_range
  intro j hj k hk heq
  simp only [List.cons.injEq, true_and, and_true] at heq
  have hhigh := congrArg Char.toNat heq.1
  have hlow := congrArg Char.toNat heq.2
  rw [(hcode j (List.mem_range.mp hj)).1, (hcode k (List.mem_range.mp hk)).1] at hhigh
  rw [(hcode j (List.mem_range.mp hj)).2, (hcode k (List.mem_range.mp hk)).2] at hlow
  omega

end Aliased

end Pass1

end Cc370.As370
