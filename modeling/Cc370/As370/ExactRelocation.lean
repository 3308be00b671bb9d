import Cc370.As370.NetRelocation

namespace Cc370.As370

namespace DcScope

variable (E : DcScope)

def targetEsdid : Target → ℕ
  | .sect id => E.sectEsdid id
  | .er idx => E.erEsdid idx

/-- A label of a control or common section, or the name of one. -/
structure Label (s : XSym) : Prop where
  defined : s.defined = true
  type : s.type = .rel ∨ s.type = .er ∨
    (s.type = .sd ∨ s.type = .pc ∨ s.type = .cm) ∧ s.esdid = E.sectEsdid s.sect
  real : E.isReal (.sect s.sect) = true

structure External (s : XSym) : Prop where
  type : s.type = .er
  undefined : s.defined = false
  declared : s.declaredExtrn = true
  esdid : s.esdid ≠ 0
  own : E.erEsdid s.idx = s.esdid
  outside : E.isDsect s.sect = false

def Usable : Atom → Prop
  | .star => E.isReal (.sect E.curSect) = true ∧ E.curEsdid = E.sectEsdid E.curSect
  | .sym nm => ∃ s, E.find nm = some s ∧ (s.type = .abs ∨ E.Label s ∨ E.External s)
  | _ => True

/-- The entries for given coefficients of the targets. -/
def entries (len : ℕ) (f : Target → ℤ) (xs : List Target) : List Reloc :=
  xs.flatMap fun x => List.replicate (f x).natAbs (E.relocAt len (E.targetEsdid x) (f x < 0))

def netRelocs (len : ℕ) (e : Expr) : List Reloc := E.entries len (e.net E.toScope) (e.targets E.toScope).dedup

section Entries

variable {E} {len : ℕ} {f g : Target → ℤ} {xs ys : List Target}

theorem relocAt_inj {len rel rel' : ℕ} {neg neg' : Bool} :
    E.relocAt len rel neg = E.relocAt len rel' neg' ↔ rel = rel' ∧ neg = neg' := by
  simp [relocAt]

theorem entries_cons (x : Target) : E.entries len f (x :: xs) =
    List.replicate (f x).natAbs (E.relocAt len (E.targetEsdid x) (f x < 0)) ++ E.entries len f xs := rfl

theorem count_entries_of_notMem {x : Target} {neg : Bool}
    (hx : ∀ y ∈ xs, E.targetEsdid y ≠ E.targetEsdid x) :
    (E.entries len f xs).count (E.relocAt len (E.targetEsdid x) neg) = 0 := by
  rw [List.count_eq_zero]
  intro h
  obtain ⟨y, hy, hmem⟩ := List.mem_flatMap.mp h
  have heq := List.eq_of_mem_replicate hmem
  exact hx y hy (relocAt_inj.mp heq).1.symm

theorem count_entries (hxs : xs.Nodup) {x : Target} (hx : x ∈ xs) (neg : Bool)
    (hinj : ∀ y ∈ xs, E.targetEsdid y = E.targetEsdid x → y = x) :
    (E.entries len f xs).count (E.relocAt len (E.targetEsdid x) neg) =
      if neg = decide (f x < 0) then (f x).natAbs else 0 := by
  induction xs with
  | nil => exact absurd hx (by simp)
  | cons y ys ih =>
    obtain ⟨hy, hys⟩ := List.nodup_cons.mp hxs
    rw [entries_cons, List.count_append, List.count_replicate]
    by_cases hyx : y = x
    · subst hyx
      have hrest : (E.entries len f ys).count (E.relocAt len (E.targetEsdid y) neg) = 0 := by
        apply count_entries_of_notMem
        intro z hz heq
        have hzy := hinj z (by simp [hz]) heq
        exact hy (hzy ▸ hz)
      rw [hrest, add_zero]
      simp only [beq_iff_eq, relocAt_inj, true_and]
      by_cases hneg : neg = decide (f y < 0)
      · rw [if_pos hneg, if_pos hneg.symm]
      · rw [if_neg hneg, if_neg (Ne.symm hneg)]
    · have hx' : x ∈ ys := by
        rcases List.mem_cons.mp hx with h | h
        · exact absurd h.symm hyx
        · exact h
      rw [ih hys hx' (fun z hz => hinj z (by simp [hz])), if_neg, zero_add]
      simp only [beq_iff_eq, relocAt_inj, not_and]
      intro heq
      exact absurd (hinj y (by simp) heq) hyx

theorem entries_filter : E.entries len f xs = E.entries len f (xs.filter fun x => f x ≠ 0) := by
  induction xs with
  | nil => rfl
  | cons x xs ih =>
    by_cases hx : f x = 0
    · rw [List.filter_cons_of_neg (by simpa using hx), entries_cons, ← ih, hx]
      rfl
    · rw [List.filter_cons_of_pos (by simpa using hx), entries_cons, entries_cons, ih]

theorem eq_of_count {a : Target} (h : ∀ neg : Bool, (if neg = decide (f a < 0) then (f a).natAbs else 0) =
    if neg = decide (g a < 0) then (g a).natAbs else 0) : f a = g a := by
  have h1 := h true
  have h2 := h false
  by_cases hf : f a < 0 <;> by_cases hg : g a < 0 <;> simp [hf, hg] at h1 h2 <;> omega

variable (hxs : xs.Nodup) (hys : ys.Nodup) (hf : ∀ x ∉ xs, f x = 0) (hg : ∀ x ∉ ys, g x = 0)
  (hinj : ∀ x ∈ xs ++ ys, ∀ y ∈ xs ++ ys, E.targetEsdid x = E.targetEsdid y → x = y)

include hxs hys hf hg hinj

/-- Two lists of entries agree when the coefficients do. -/
theorem entries_perm_iff : (E.entries len f xs).Perm (E.entries len g ys) ↔ ∀ x, f x = g x := by
  constructor
  · intro h x
    by_cases hx : x ∈ xs ++ ys
    · apply eq_of_count
      intro neg
      have hcount := h.count_eq (E.relocAt len (E.targetEsdid x) neg)
      by_cases h1 : x ∈ xs <;> by_cases h2 : x ∈ ys
      · rw [count_entries hxs h1 neg (fun y hy => hinj y (by simp [hy]) x hx),
          count_entries hys h2 neg (fun y hy => hinj y (by simp [hy]) x hx)] at hcount
        exact hcount
      · rw [count_entries hxs h1 neg (fun y hy => hinj y (by simp [hy]) x hx), count_entries_of_notMem] at hcount
        · rw [hcount, hg x h2]
          simp
        · intro y hy heq
          exact h2 (hinj y (by simp [hy]) x hx heq ▸ hy)
      · rw [count_entries hys h2 neg (fun y hy => hinj y (by simp [hy]) x hx), count_entries_of_notMem] at hcount
        · rw [← hcount, hf x h1]
          simp
        · intro y hy heq
          exact h1 (hinj y (by simp [hy]) x hx heq ▸ hy)
      · exact absurd (List.mem_append.mp hx) (by simp [h1, h2])
    · rw [List.mem_append, not_or] at hx
      rw [hf x hx.1, hg x hx.2]
  · intro h
    obtain rfl : f = g := funext h
    have hfilter : E.entries len f ys = E.entries len f (ys.filter fun x => f x ≠ 0) := entries_filter
    rw [entries_filter, hfilter]
    apply List.Perm.flatMap_right
    rw [List.perm_ext_iff_of_nodup (hxs.filter _) (hys.filter _)]
    intro x
    simp only [List.mem_filter, decide_eq_true_eq]
    constructor
    · rintro ⟨-, h0⟩
      exact ⟨by_contra fun hn => h0 (hg x hn), h0⟩
    · rintro ⟨-, h0⟩
      exact ⟨by_contra fun hn => h0 (hf x hn), h0⟩

end Entries

/-- Names hold neither quotes nor asterisks, and different targets of the expression have ESDIDs of
their own. -/
structure Numbered (e : Expr) : Prop where
  names : ∀ nm, '\'' ∈ nm ∨ '*' ∈ nm → E.find nm = none
  usable : ∀ a ∈ e.atoms, E.Usable a
  injective : ∀ x ∈ e.targets E.toScope, ∀ y ∈ e.targets E.toScope,
    E.targetEsdid x = E.targetEsdid y → x = y

/-- The signs written directly before the terms tell of at most one relocation, and that an added one. -/
def AtMostOne (e : Expr) : Prop :=
  (∀ x, e.written E.toScope x = 0) ∨ ∃ y, ∀ x, e.written E.toScope x = if x = y then 1 else 0

/-- The expressions whose net the two scanners find. -/
def Found (e : Expr) : Prop :=
  (E.AtMostOne e → (∀ x, e.net E.toScope x = 0) ∨
    ∃ y, (∀ x, e.net E.toScope x = if x = y then 1 else 0) ∧
      (e.firstAdded E.toScope).bind (Atom.target E.toScope) = some y) ∧
  (¬ E.AtMostOne e → ∀ x, e.written E.toScope x = e.net E.toScope x)

section Usable

variable {E} {e : Expr}

theorem isReal_isDsect {id : ℕ} (h : E.isReal (.sect id) = true) : E.isDsect id = false := by
  simp only [isReal, decide_eq_true_eq] at h
  simpa using h.2

theorem isReal_esdid {id : ℕ} (h : E.isReal (.sect id) = true) : E.sectEsdid id ≠ 0 := by
  simp only [isReal, decide_eq_true_eq] at h
  exact h.1

/-- The four readings of a name agree: the evaluator, the two scanners and `add_reloc`. -/
structure Agrees (E : DcScope) (a : Atom) : Prop where
  counted : a.counted E.toScope = (a.target E.toScope).isSome
  relocatable : a.relocatable E.toScope = (a.target E.toScope).isSome
  real : ∀ x ∈ a.target E.toScope, E.isReal x = true
  reloc : ∀ x ∈ a.target E.toScope, E.tgtreal (some a.text) = true ∧
    ∀ len, E.addReloc a.text len = E.relocAt len (E.targetEsdid x) false

theorem agrees_label {nm : List Char} {s : XSym} (hok : (Atom.sym nm).Ok) (hfind : E.find nm = some s)
    (hs : E.Label s) : Agrees E (.sym nm) := by
  obtain ⟨hdef, htype, hreal⟩ := hs
  have hstar : nm ≠ ['*'] := by
    rintro rfl
    exact absurd (hok.2.2.2 '*' (by simp)).1 (by decide)
  have hdig : nm.head?.any Char.isDigit = false := hok.2.2.1
  have hesd := isReal_esdid hreal
  have hds := isReal_isDsect hreal
  have htarget : (Atom.sym nm).target E.toScope = some (.sect s.sect) := by
    simp only [Atom.target, Scope.nameTarget, hdig, hfind]
    rcases htype with h | h | ⟨h | h | h, -⟩ <;> simp [h, hdef]
  have hknown : s.known = true := by simp [XSym.known, hdef]
  refine ⟨?_, ?_, ?_, ?_⟩
  · rw [htarget]
    simp only [Atom.counted, hfind, Option.any_some, Scope.counts, hknown]
    rcases htype with h | h | ⟨h | h | h, -⟩ <;> simp [h]
  · rw [htarget]
    simp only [Atom.relocatable, hfind, Option.any_some, Scope.relocatable, hknown]
    rcases htype with h | h | ⟨h | h | h, -⟩ <;> simp [h]
  · rw [htarget]
    rintro x ⟨⟩
    exact hreal
  · rw [htarget]
    rintro x ⟨⟩
    refine ⟨?_, fun len => ?_⟩
    · simp [tgtreal, Atom.text, hstar, hfind, hds]
    · have hrel : E.symRel nm = E.sectEsdid s.sect := by
        simp only [symRel, hfind, Option.elim_some, hdef, true_and]
        rcases htype with h | h | ⟨h | h | h, he⟩
        · simp [h, hesd]
        · simp [h, hesd]
        all_goals simp [h, he, hesd]
      rw [addReloc, Atom.text, hrel]
      rfl

theorem agrees_external {nm : List Char} {s : XSym} (hok : (Atom.sym nm).Ok) (hfind : E.find nm = some s)
    (hs : E.External s) : Agrees E (.sym nm) := by
  obtain ⟨htype, hdef, hdecl, hesd, hown, hds⟩ := hs
  have hstar : nm ≠ ['*'] := by
    rintro rfl
    exact absurd (hok.2.2.2 '*' (by simp)).1 (by decide)
  have hdig : nm.head?.any Char.isDigit = false := hok.2.2.1
  have htarget : (Atom.sym nm).target E.toScope = some (.er s.idx) := by
    simp [Atom.target, Scope.nameTarget, hdig, hfind, hdef, htype, hesd]
  have hknown : s.known = true := by simp [XSym.known, htype, hdecl]
  refine ⟨?_, ?_, ?_, ?_⟩
  · rw [htarget]
    simp [Atom.counted, hfind, Scope.counts, hknown, htype]
  · rw [htarget]
    simp [Atom.relocatable, hfind, Scope.relocatable, hknown, htype]
  · rw [htarget]
    rintro x ⟨⟩
    rfl
  · rw [htarget]
    rintro x ⟨⟩
    refine ⟨?_, fun len => ?_⟩
    · simp [tgtreal, Atom.text, hstar, hfind, hds]
    · have hrel : E.symRel nm = E.erEsdid s.idx := by
        simp [symRel, hfind, hdef, hesd, hown]
      rw [addReloc, Atom.text, hrel]
      rfl

theorem agrees_absolute {nm : List Char} {s : XSym} (hfind : E.find nm = some s) (hs : s.type = .abs) :
    Agrees E (.sym nm) := by
  have htarget : (Atom.sym nm).target E.toScope = none := by
    simp only [Atom.target, Scope.nameTarget, hfind, Option.bind_some, hs]
    simp
  refine ⟨?_, ?_, ?_, ?_⟩
  · rw [htarget]
    simp [Atom.counted, hfind, Scope.counts, hs]
  · rw [htarget]
    simp [Atom.relocatable, hfind, Scope.relocatable, hs]
  · simp [htarget]
  · simp [htarget]

theorem agrees_star (hstar : E.find ['*'] = none) (h : E.Usable .star) : Agrees E .star := by
  obtain ⟨hreal, hcur⟩ := h
  have hds := isReal_isDsect hreal
  refine ⟨rfl, rfl, ?_, ?_⟩
  · rintro x ⟨⟩
    exact hreal
  · rintro x ⟨⟩
    refine ⟨by simp [tgtreal, Atom.text, hds], fun len => ?_⟩
    have hrel : E.symRel ['*'] = E.sectEsdid E.curSect := by simp [symRel, hstar, hcur]
    rw [addReloc, Atom.text, hrel]
    rfl

theorem agrees_constant {a : Atom} (h1 : a.counted E.toScope = false) (h2 : a.relocatable E.toScope = false)
    (h3 : a.target E.toScope = none) : Agrees E a := by
  refine ⟨by rw [h1, h3]; rfl, by rw [h2, h3]; rfl, ?_, ?_⟩ <;> simp [h3]

theorem atom_ok (e : Expr) (he : e.Proper) : ∀ a ∈ e.atoms, a.Ok := by
  induction e with
  | atom a =>
    intro b hb
    obtain rfl := List.mem_singleton.mp hb
    exact he
  | group e ih => exact ih he
  | neg e ih => exact ih he.2
  | pos e ih => exact ih he.2
  | mul div a b iha ihb =>
    intro c hc
    rcases List.mem_append.mp hc with h | h
    · exact iha he.2.2.1 c h
    · exact ihb he.2.2.2 c h
  | add minus a b iha ihb =>
    intro c hc
    rcases List.mem_append.mp hc with h | h
    · exact iha he.2.1 c h
    · exact ihb he.2.2 c h

theorem Numbered.agrees (h : E.Numbered e) (he : e.Proper) {a : Atom} (ha : a ∈ e.atoms) : Agrees E a := by
  have hok := atom_ok e he a ha
  have hu := h.usable a ha
  cases a with
  | num ds => exact agrees_constant rfl rfl rfl
  | sdt kind body => exact agrees_constant rfl rfl rfl
  | star => exact agrees_star (h.names ['*'] (by simp)) hu
  | sym nm =>
    obtain ⟨s, hfind, hs | hs | hs⟩ := hu
    · exact agrees_absolute hfind hs
    · exact agrees_label hok hfind hs
    · exact agrees_external hok hfind hs

end Usable

section Exact

variable {E} {e : Expr} (he : e.Proper) (hE : E.Numbered e)

include he hE

theorem exprSectTerms8_eq : E.exprSectTerms8 e.text =
    (e.listed E.toScope).map fun x => (x, e.written E.toScope x) := by
  have hS (kind : Char) (body : List Char) (_ : Atom.sdt kind body ∈ e.atoms) :
      E.find (Atom.sdt kind body).text = none := by
    apply hE.names
    left
    simp [Atom.text]
  rw [exprSectTerms8, tally_eq e he hS]
  apply List.map_congr_left
  intro x hx
  rw [Expr.written, if_pos hx]

theorem listed_real {x : Target} (hx : x ∈ e.targets E.toScope) : E.isReal x = true := by
  obtain ⟨a, ha, hax⟩ := List.mem_filterMap.mp hx
  exact (hE.agrees he ha).real x hax

omit he hE in
theorem listed_targets {x : Target} (hx : x ∈ e.listed E.toScope) : x ∈ e.targets E.toScope := by
  have hsub (xs : List Target) : ∀ y ∈ firstTargets 8 xs, y ∈ xs := by
    induction xs using List.reverseRecOn with
    | nil => simp [firstTargets]
    | append_singleton xs z ih =>
      intro y hy
      rw [firstTargets_snoc, addTarget] at hy
      rw [List.mem_append]
      split_ifs at hy with h1 h2
      · exact .inl (ih y hy)
      · rw [List.mem_append] at hy
        exact hy.imp_left (ih y)
      · exact .inl (ih y hy)
  exact hsub _ x hx

theorem tallyRelocs_eq (len : ℕ) : E.tallyRelocs (E.exprSectTerms8 e.text) len =
    E.entries len (e.written E.toScope) (e.listed E.toScope) := by
  rw [exprSectTerms8_eq he hE, tallyRelocs, List.flatMap_map, entries]
  apply List.flatMap_congr
  intro x hx
  have hreal := listed_real he hE (listed_targets hx)
  have hone : E.addRelocTarget x len (e.written E.toScope x < 0) =
      [E.relocAt len (E.targetEsdid x) (e.written E.toScope x < 0)] := by
    cases x with
    | sect id => simp [addRelocTarget, addRelocSect, isReal_isDsect hreal, isReal_esdid hreal, targetEsdid]
    | er idx => rfl
  rw [hone]
  simp

/-- The entries that `add_reloc` makes for the first added term. -/
def firstRelocs (E : DcScope) (e : Expr) (len : ℕ) : List Reloc :=
  (((e.firstAdded E.toScope).bind (Atom.target E.toScope)).map fun x =>
    E.relocAt len (E.targetEsdid x) false).toList

omit he hE in
theorem listed_nodup : (e.listed E.toScope).Nodup := firstTargets_nodup _

omit he hE in
theorem written_unlisted {x : Target} (hx : x ∉ e.listed E.toScope) : e.written E.toScope x = 0 := if_neg hx

omit he hE in
theorem relScan_atoms (e : Expr) (sign : ℤ) : (e.relScan sign).map Prod.fst = e.atoms := by
  induction e generalizing sign with
  | atom a => rfl
  | group e ih => exact ih sign
  | neg e ih => exact ih sign
  | pos e ih => exact ih sign
  | mul div a b iha ihb => simp [Expr.relScan, Expr.atoms, iha, ihb]
  | add minus a b iha ihb => simp [Expr.relScan, Expr.atoms, iha, ihb]

omit he hE in
theorem firstAdded_mem {a : Atom} (h : e.firstAdded E.toScope = some a) :
    a ∈ e.atoms ∧ a.relocatable E.toScope = true := by
  obtain ⟨x, hx, rfl⟩ := Option.map_eq_some_iff.mp h
  have hp := List.find?_some hx
  have hmem := List.mem_of_find?_eq_some hx
  rw [Bool.and_eq_true] at hp
  rw [← relScan_atoms e 1]
  exact ⟨List.mem_map_of_mem hmem, hp.1⟩

theorem addReloc_first (rc : ℤ) (len : ℕ) :
    (if rc ≠ 0 ∧ E.tgtreal (E.relocSymOf e.text) = true then
      ((E.relocSymOf e.text).map fun nm => E.addReloc nm len).toList else []) =
      if rc ≠ 0 then E.firstRelocs e len else [] := by
  rw [relocSymOf, relocSym_eq e he, firstRelocs]
  cases hfirst : e.firstAdded E.toScope with
  | none => simp [tgtreal]
  | some a =>
    obtain ⟨ha, hrel⟩ := firstAdded_mem hfirst
    have hag := hE.agrees he ha
    rw [hag.relocatable] at hrel
    obtain ⟨x, hx⟩ := Option.isSome_iff_exists.mp hrel
    obtain ⟨htgt, hadd⟩ := hag.reloc x hx
    simp only [Option.map_some, Option.bind_some, hx, htgt, and_true, hadd]

/-- The terms of the tally that are left over. -/
def leftOver (E : DcScope) (e : Expr) : List (Target × ℤ) :=
  ((e.listed E.toScope).map fun x => (x, e.written E.toScope x)).filter fun x => x.2 ≠ 0

omit he hE in
theorem mem_leftOver {x : Target × ℤ} :
    x ∈ leftOver E e ↔ e.written E.toScope x.1 = x.2 ∧ x.2 ≠ 0 := by
  simp only [leftOver, List.mem_filter, List.mem_map, decide_eq_true_eq]
  constructor
  · rintro ⟨⟨y, -, rfl⟩, h0⟩
    exact ⟨rfl, h0⟩
  · rintro ⟨h1, h0⟩
    refine ⟨⟨x.1, ?_, by rw [h1]⟩, h0⟩
    by_contra hn
    rw [written_unlisted hn] at h1
    exact h0 h1.symm

omit he hE in
theorem leftOver_nodup : (leftOver E e).Nodup := by
  apply List.Nodup.filter
  apply listed_nodup.map
  intro x y hxy
  exact congrArg Prod.fst hxy

omit he hE in
theorem atMostOne_iff : E.AtMostOne e ↔
    ¬ (leftOver E e ≠ [] ∧ ¬ ((leftOver E e).length = 1 ∧ ∀ x ∈ leftOver E e, x.2 = 1)) := by
  rw [not_and_not_right]
  constructor
  · rintro (h | ⟨y, hy⟩) hne
    · obtain ⟨x, hx⟩ := List.exists_mem_of_ne_nil _ hne
      obtain ⟨h1, h0⟩ := mem_leftOver.mp hx
      rw [h] at h1
      exact absurd h1.symm h0
    · have hperm : (leftOver E e).Perm [(y, 1)] := by
        rw [List.perm_ext_iff_of_nodup leftOver_nodup (List.nodup_singleton _)]
        intro x
        rw [mem_leftOver, hy, List.mem_singleton, Prod.ext_iff]
        by_cases hxy : x.1 = y
        · rw [if_pos hxy]
          constructor
          · rintro ⟨h1, -⟩
            exact ⟨hxy, h1.symm⟩
          · rintro ⟨-, h1⟩
            exact ⟨h1.symm, by rw [h1]; exact one_ne_zero⟩
        · rw [if_neg hxy]
          constructor
          · rintro ⟨h1, h0⟩
            exact absurd h1.symm h0
          · rintro ⟨h1, -⟩
            exact absurd h1 hxy
      refine ⟨hperm.length_eq, fun x hx => ?_⟩
      rw [List.mem_singleton.mp (hperm.subset hx)]
  · intro h
    by_cases hne : leftOver E e = []
    · left
      intro x
      by_contra h0
      have hmem : (x, e.written E.toScope x) ∈ leftOver E e := mem_leftOver.mpr ⟨rfl, h0⟩
      rw [hne] at hmem
      exact absurd hmem (by simp)
    · obtain ⟨hlen, hone⟩ := h hne
      obtain ⟨z, hz⟩ := List.length_eq_one_iff.mp hlen
      have hzmem : z ∈ leftOver E e := by simp [hz]
      have hz1 := (mem_leftOver.mp hzmem).1
      right
      refine ⟨z.1, fun x => ?_⟩
      by_cases hx : x = z.1
      · rw [if_pos hx, hx, hz1, hone z hzmem]
      · rw [if_neg hx]
        by_contra h0
        have hmem : (x, e.written E.toScope x) ∈ leftOver E e := mem_leftOver.mpr ⟨rfl, h0⟩
        rw [hz, List.mem_singleton] at hmem
        exact hx (congrArg Prod.fst hmem)

theorem adconRels_eq (rc : ℤ) (len : ℕ) :
    (E.AtMostOne e → E.adconRels e.text rc len = if rc ≠ 0 then E.firstRelocs e len else []) ∧
    (¬ E.AtMostOne e → E.adconRels e.text rc len = E.entries len (e.written E.toScope) (e.listed E.toScope)) := by
  have hnz : (E.exprSectTerms8 e.text).filter (fun x => x.2 ≠ 0) = leftOver E e := by
    rw [exprSectTerms8_eq he hE, leftOver]
  have hreal : (leftOver E e).all (fun x => E.isReal x.1) = true := by
    rw [List.all_eq_true]
    intro x hx
    obtain ⟨h1, h0⟩ := mem_leftOver.mp hx
    apply listed_real he hE
    apply listed_targets
    by_contra hn
    rw [written_unlisted hn] at h1
    exact h0 h1.symm
  have hsimple : (leftOver E e).all (fun x => decide (x.2 = 1)) = decide (∀ x ∈ leftOver E e, x.2 = 1) := by
    rw [Bool.eq_iff_iff]
    simp
  have hcond : (leftOver E e ≠ [] ∧
      (!decide ((leftOver E e).length = 1 ∧ (leftOver E e).all (fun x => decide (x.2 = 1)) = true)) = true ∧
        (leftOver E e).all (fun x => E.isReal x.1) = true) ↔ ¬ E.AtMostOne e := by
    rw [atMostOne_iff, not_not, hreal, hsimple]
    simp only [Bool.not_eq_true', decide_eq_false_iff_not, decide_eq_true_eq, and_true]
  rw [adconRels]
  rw [hnz, addReloc_first he hE, tallyRelocs_eq he hE]
  exact ⟨fun h => if_neg fun hc => (hcond.mp hc) h, fun h => if_pos (hcond.mpr h)⟩

theorem rc_eq {ty : AdconType} {len : ℕ} {first : Bool} (hm : e.MulOk E.toScope)
    (hok : (E.dcAdcon ty len first e.text).diags = []) : (E.dcAdcon ty len first e.text).rels =
      E.adconRels e.text (∑ x ∈ (e.targets E.toScope).toFinset, e.net E.toScope x) len := by
  obtain ⟨c, t, ht, -⟩ := text_head e he
  have hne : e.text ≠ [] := by simp [ht]
  have hcounted : Counted E.toScope e := fun a ha => (hE.agrees he ha).counted
  have hsum := (sum_net e he (e.targets E.toScope).toFinset (fun x hx => List.mem_toFinset.mpr hx) hcounted hm).1
  rw [dcAdcon, if_neg hne] at hok ⊢
  dsimp only at hok ⊢
  simp only [List.append_eq_nil_iff] at hok
  obtain ⟨⟨⟨⟨-, herr⟩, -⟩, hlen⟩, -⟩ := hok
  have herr' : Scope.exprErr (E.exprValFull e.text).2.2 = false := by
    cases h : Scope.exprErr (E.exprValFull e.text).2.2 with
    | false => rfl
    | true =>
      rw [h] at herr
      exact absurd herr (by simp)
  rw [← hsum, ← exprValFull_count e he herr']
  split_ifs at hlen ⊢ <;> rfl

theorem sum_unit {y : Target} (hnet : ∀ x, e.net E.toScope x = if x = y then 1 else 0) :
    ∑ x ∈ (e.targets E.toScope).toFinset, e.net E.toScope x = 1 := by
  have hy : y ∈ e.targets E.toScope := by
    by_contra hn
    have h0 := net_eq_zero e hn
    rw [hnet, if_pos rfl] at h0
    exact absurd h0 one_ne_zero
  simp only [hnet]
  rw [Finset.sum_ite_eq', if_pos (List.mem_toFinset.mpr hy)]

theorem single_perm_iff {y : Target} (hy : y ∈ e.targets E.toScope) (len : ℕ) :
    [E.relocAt len (E.targetEsdid y) false].Perm (E.netRelocs len e) ↔
      ∀ x, e.net E.toScope x = if x = y then 1 else 0 := by
  have hentries : E.entries len (fun x => if x = y then 1 else 0) [y] =
      [E.relocAt len (E.targetEsdid y) false] := by
    simp [entries]
  have hnet : ∀ x ∉ (e.targets E.toScope).dedup, e.net E.toScope x = 0 := by
    intro x hx
    exact net_eq_zero e fun h => hx (List.mem_dedup.mpr h)
  have htargets (z : Target) (hz : z ∈ [y] ++ (e.targets E.toScope).dedup) : z ∈ e.targets E.toScope := by
    rcases List.mem_append.mp hz with h | h
    · rw [List.mem_singleton.mp h]
      exact hy
    · exact List.mem_dedup.mp h
  rw [← hentries, netRelocs, entries_perm_iff (List.nodup_singleton y) (List.nodup_dedup _) _ hnet]
  · exact forall_congr' fun x => eq_comm
  · intro x hx z hz
    exact hE.injective x (htargets x hx) z (htargets z hz)
  · intro x hx
    exact if_neg fun h => hx (List.mem_singleton.mpr h)

omit he hE in
theorem nil_perm_iff (len : ℕ) : [].Perm (E.netRelocs len e) ↔ ∀ x, e.net E.toScope x = 0 := by
  rw [List.nil_perm, netRelocs, entries, List.flatMap_eq_nil_iff]
  constructor
  · intro h x
    by_cases hx : x ∈ e.targets E.toScope
    · have hx' := h x (List.mem_dedup.mpr hx)
      rw [List.replicate_eq_nil_iff] at hx'
      exact Int.natAbs_eq_zero.mp hx'
    · exact net_eq_zero e hx
  · intro h x _
    rw [h x]
    rfl

theorem firstRelocs_perm_iff {len : ℕ} :
    (if ∑ x ∈ (e.targets E.toScope).toFinset, e.net E.toScope x ≠ 0 then E.firstRelocs e len else []).Perm
        (E.netRelocs len e) ↔
      (∀ x, e.net E.toScope x = 0) ∨ ∃ y, (∀ x, e.net E.toScope x = if x = y then 1 else 0) ∧
        (e.firstAdded E.toScope).bind (Atom.target E.toScope) = some y := by
  by_cases hrc : ∑ x ∈ (e.targets E.toScope).toFinset, e.net E.toScope x = 0
  · rw [if_neg (not_not.mpr hrc), nil_perm_iff]
    constructor
    · exact .inl
    · rintro (h | ⟨y, hnet, -⟩)
      · exact h
      · rw [sum_unit he hE hnet] at hrc
        exact absurd hrc one_ne_zero
  · have hnz : ¬ ∀ x, e.net E.toScope x = 0 := fun h => hrc (Finset.sum_eq_zero fun x _ => h x)
    rw [if_pos hrc, firstRelocs]
    cases hfirst : (e.firstAdded E.toScope).bind (Atom.target E.toScope) with
    | none =>
      rw [Option.map_none, Option.toList_none, nil_perm_iff]
      simp [hnz]
    | some y =>
      obtain ⟨a, ha, hay⟩ := Option.bind_eq_some_iff.mp hfirst
      have hy : y ∈ e.targets E.toScope := List.mem_filterMap.mpr ⟨a, (firstAdded_mem ha).1, hay⟩
      rw [Option.map_some, Option.toList_some, single_perm_iff he hE hy]
      constructor
      · intro h
        exact .inr ⟨y, h, rfl⟩
      · rintro (h | ⟨z, hz, hyz⟩)
        · exact absurd h hnz
        · rw [Option.some.inj hyz]
          exact hz

/-- The entries of an address constant are the net of its expression exactly when the scanners find it. -/
theorem adcon_entries_iff_found {ty : AdconType} {len : ℕ} {first : Bool} (hm : e.MulOk E.toScope)
    (hok : (E.dcAdcon ty len first e.text).diags = []) :
    (E.dcAdcon ty len first e.text).rels.Perm (E.netRelocs len e) ↔ E.Found e := by
  have hnodup : (e.targets E.toScope).dedup.Nodup := List.nodup_dedup _
  have hnet : ∀ x ∉ (e.targets E.toScope).dedup, e.net E.toScope x = 0 := by
    intro x hx
    exact net_eq_zero e fun h => hx (List.mem_dedup.mpr h)
  obtain ⟨hone, hmany⟩ := adconRels_eq he hE (∑ x ∈ (e.targets E.toScope).toFinset, e.net E.toScope x) len
  rw [rc_eq he hE hm hok, Found]
  by_cases h : E.AtMostOne e
  · rw [hone h]
    simp only [h, true_implies, not_true_eq_false, false_implies, and_true]
    exact firstRelocs_perm_iff he hE
  · rw [hmany h]
    simp only [h, false_implies, not_false_eq_true, true_implies, true_and]
    apply entries_perm_iff listed_nodup hnodup (fun x => written_unlisted) hnet
    have htargets (z : Target) (hz : z ∈ e.listed E.toScope ++ (e.targets E.toScope).dedup) :
        z ∈ e.targets E.toScope := by
      rcases List.mem_append.mp hz with h | h
      · exact listed_targets h
      · exact List.mem_dedup.mp h
    intro x hx y hy
    exact hE.injective x (htargets x hx) y (htargets y hy)

end Exact

section TwoSections

/-- Two control sections, with `A1` in the first and `B1` and `B2` in the second. -/
def twoSections : DcScope where
  find nm :=
    if nm = ['A', '1'] then some ⟨1, 8, .rel, true, false, 1, 0, 0, 4⟩
    else if nm = ['B', '1'] then some ⟨2, 32, .rel, true, false, 2, 0, 0, 4⟩
    else if nm = ['B', '2'] then some ⟨3, 36, .rel, true, false, 2, 0, 0, 4⟩ else none
  lc := 0
  curSect := 1
  sectEsdid id := if id = 1 then 1 else if id = 2 then 2 else 0
  dsectSect _ := false
  erEsdid _ := 0
  curEsdid := 1

def a1 : Expr := .atom (.sym ['A', '1'])

def b1 : Expr := .atom (.sym ['B', '1'])

def b2 : Expr := .atom (.sym ['B', '2'])

theorem twoSections_names : ∀ nm, '\'' ∈ nm ∨ '*' ∈ nm → twoSections.find nm = none := by
  intro nm h
  have hne (c : Char) (hc : c ≠ '\'' ∧ c ≠ '*') (d : Char) (hd : d ≠ '\'' ∧ d ≠ '*') : nm ≠ [c, d] := by
    rintro rfl
    simp only [List.mem_cons, List.not_mem_nil, or_false] at h
    rcases h with (h | h) | (h | h)
    · exact hc.1 h.symm
    · exact hd.1 h.symm
    · exact hc.2 h.symm
    · exact hd.2 h.symm
  simp only [twoSections]
  rw [if_neg (hne _ (by decide) _ (by decide)), if_neg (hne _ (by decide) _ (by decide)),
    if_neg (hne _ (by decide) _ (by decide))]

theorem twoSections_injective {x y : Target} (hx : x = .sect 1 ∨ x = .sect 2) (hy : y = .sect 1 ∨ y = .sect 2)
    (h : twoSections.targetEsdid x = twoSections.targetEsdid y) : x = y := by
  rcases hx with rfl | rfl <;> rcases hy with rfl | rfl
  · rfl
  · exact absurd h (by decide)
  · exact absurd h (by decide)
  · rfl

theorem twoSections_label {nm : List Char} {s : XSym} (hfind : twoSections.find nm = some s)
    (hdef : s.defined = true) (htype : s.type = .rel) (hsect : s.sect = 1 ∨ s.sect = 2) :
    twoSections.Usable (.sym nm) := by
  refine ⟨s, hfind, .inr (.inl ⟨hdef, .inl htype, ?_⟩)⟩
  rcases hsect with h | h <;> rw [h] <;> decide

theorem twoSections_numbered {e : Expr} (he : ∀ a ∈ e.atoms, a = .sym ['A', '1'] ∨ a = .sym ['B', '1'] ∨
    a = .sym ['B', '2']) : twoSections.Numbered e := by
  have htarget (x : Target) (hx : x ∈ e.targets twoSections.toScope) : x = .sect 1 ∨ x = .sect 2 := by
    obtain ⟨a, ha, hax⟩ := List.mem_filterMap.mp hx
    rcases he a ha with rfl | rfl | rfl
    · exact .inl (Option.some.inj hax).symm
    · exact .inr (Option.some.inj hax).symm
    · exact .inr (Option.some.inj hax).symm
  refine ⟨twoSections_names, ?_, fun x hx y hy => twoSections_injective (htarget x hx) (htarget y hy)⟩
  intro a ha
  rcases he a ha with rfl | rfl | rfl
  · exact twoSections_label (s := ⟨1, 8, .rel, true, false, 1, 0, 0, 4⟩) (by decide) rfl rfl (.inl rfl)
  · exact twoSections_label (s := ⟨2, 32, .rel, true, false, 2, 0, 0, 4⟩) (by decide) rfl rfl (.inr rfl)
  · exact twoSections_label (s := ⟨3, 36, .rel, true, false, 2, 0, 0, 4⟩) (by decide) rfl rfl (.inr rfl)

theorem a1_proper : a1.Proper := ⟨by decide, by decide, by decide, by simp [isDelim, delims]⟩

theorem b1_proper : b1.Proper := ⟨by decide, by decide, by decide, by simp [isDelim, delims]⟩

theorem b2_proper : b2.Proper := ⟨by decide, by decide, by decide, by simp [isDelim, delims]⟩

theorem cross_difference_recorded :
    (twoSections.dcAdcon .a 4 true (Expr.add true a1 b1).text).rels.Perm
      (twoSections.netRelocs 4 (.add true a1 b1)) ∧ twoSections.Found (.add true a1 b1) := by
  have hperm : (twoSections.dcAdcon .a 4 true (Expr.add true a1 b1).text).rels.Perm
      (twoSections.netRelocs 4 (.add true a1 b1)) := by decide +kernel
  refine ⟨hperm, (adcon_entries_iff_found ?_ ?_ ?_ ?_).mp hperm⟩
  · exact ⟨by decide, a1_proper, b1_proper⟩
  · apply twoSections_numbered
    decide
  · exact ⟨trivial, trivial⟩
  · decide +kernel

/-- In `B1-B2+A1` the second section cancels, and the entry is made against it all the same. -/
theorem cancelled_section_relocated :
    ¬ ∀ (E : DcScope) (e : Expr) (ty : AdconType) (len : ℕ) (first : Bool), e.Proper → E.Numbered e →
      e.MulOk E.toScope → (E.dcAdcon ty len first e.text).diags = [] →
        (E.dcAdcon ty len first e.text).rels.Perm (E.netRelocs len e) := by
  intro h
  have hwrong := h twoSections (.add false (.add true b1 b2) a1) .a 4 true
    ⟨by decide, ⟨by decide, b1_proper, b2_proper⟩, a1_proper⟩ (twoSections_numbered (by decide)) ⟨⟨trivial, trivial⟩, trivial⟩ (by decide +kernel)
  exact absurd hwrong (by decide +kernel)

end TwoSections

end DcScope

end Cc370.As370
