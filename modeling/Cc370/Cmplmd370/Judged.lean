import Cc370.Cmplmd370.Difout

namespace Cc370.Cmplmd370

/-- Every section that is not empty has its pair, of the same length. -/
def AllPaired (A B : Side) : Prop := ∀ x ∈ A.sects.zipIdx, x.1.len ≠ 0 →
  ∃ k b, (pairSections A.sects B.sects).pair x.2 = some k ∧ B.sects[k]? = some b ∧ b.len = x.1.len

section Judged

variable (opt : Options) (A B : Side)

abbrev Entry := ℕ × Sect × Option Sect

def label (x : Entry) : Text := sectLabel x.2.1 x.2.2

def entryDiffers (x : Entry) (p : ℕ) : Bool := p < x.2.1.len ∧ x.2.2.any fun b => differs opt.clearrld x.2.1 b p

def hasDiff (x : Entry) : Bool := (List.range x.2.1.len).any (entryDiffers opt x)

/-- The reader of a header with the section's name comes to this section. -/
def Findable (x : Entry) : Prop := sectFind A.sects x.2.1.name = some x.1 ∧ x.2.1.name ≠ [] ∧ 0x20 ∉ x.2.1.name

def unjudged (d : DinSect) : Bool := (compared opt A B).all fun x => label x ≠ d.name

/-- The sections of the last file that the next one carries on. -/
def carried (din : List DinSect) : List DinSect :=
  ((din.filter (unjudged opt A B)).map fun d => ⟨d.name, written d.c⟩).filter fun d => d.c ≠ []

structure Paired (x : Entry) (b : Sect) : Prop where
  sect : A.sects[x.1]? = some x.2.1
  pair : x.2.2 = some b
  len : b.len = x.2.1.len

end Judged

section Results

variable {opt : Options} {A B : Side}

theorem hasDiff_iff {x : Entry} : hasDiff opt x = true ↔ ∃ p, entryDiffers opt x p = true := by
  rw [hasDiff, List.any_eq_true]
  constructor
  · rintro ⟨p, -, hp⟩
    exact ⟨p, hp⟩
  · rintro ⟨p, hp⟩
    have hlt : p < x.2.1.len := by
      simp only [entryDiffers, decide_eq_true_eq] at hp
      exact hp.1
    exact ⟨p, List.mem_range.mpr hlt, hp⟩

theorem paired_of_compared (h : AllPaired A B) {x : Entry} (hx : x ∈ compared opt A B) : ∃ b, Paired A x b := by
  obtain ⟨⟨a, i⟩, ha, hx⟩ := List.mem_filterMap.mp hx
  dsimp only at hx
  split_ifs at hx with hc
  rw [not_or] at hc
  obtain ⟨k, b, hk, hb, hlen⟩ := h (a, i) ha hc.1
  obtain rfl := Option.some.inj hx
  refine ⟨b, List.mem_zipIdx_iff_getElem?.mp ha, ?_, hlen⟩
  dsimp only
  rw [hk, Option.bind_some, hb]

namespace Paired

variable {x : Entry} {b : Sect} {ign : ℕ → ℕ → Bool}

theorem entryDiffers (h : Paired A x b) (p : ℕ) : entryDiffers opt x p = true ↔ p < x.2.1.len ∧ differs opt.clearrld x.2.1 b p = true := by
  simp [Cmplmd370.entryDiffers, h.pair]

theorem result_eq (h : Paired A x b) : result opt A ign x = compare opt.clearrld x.2.1 b (ign x.1) A.isLmod (label x) := by
  obtain ⟨i, a, b'⟩ := x
  obtain rfl : b' = some b := h.pair
  rfl

theorem compare_eq (opt : Options) (ign : ℕ → ℕ → Bool) (h : Paired A x b) : ∃ r, result opt A ign x = r ∧ r.name = label x ∧ r.paired = true ∧ r.lengthDiffers = false ∧
    r.identical = decide ((scanTo opt.clearrld x.2.1 b (ign x.1) x.2.1.len).diff = 0) ∧
      r.diff = (scanTo opt.clearrld x.2.1 b (ign x.1) x.2.1.len).diff ∧ r.nign = (scanTo opt.clearrld x.2.1 b (ign x.1) x.2.1.len).nign ∧
        r.c = (scanTo opt.clearrld x.2.1 b (ign x.1) x.2.1.len).c.reverse ∧
          r.ic = (scanTo opt.clearrld x.2.1 b (ign x.1) x.2.1.len).ic.reverse := by
  refine ⟨_, rfl, ?_⟩
  rw [h.result_eq, compare, if_neg (not_not_intro h.len.symm)]
  exact ⟨rfl, rfl, rfl, rfl, rfl, rfl, rfl, rfl⟩

end Paired

/-- What the comparison of a section says. -/
structure ResultOk (opt : Options) (ign : ℕ → Bool) (x : Entry) (r : Result) : Prop where
  name : r.name = label x
  paired : r.paired = true
  lengthDiffers : r.lengthDiffers = false
  identical : r.identical = true ↔ ∀ p, entryDiffers opt x p = true → ign p = true
  c : ∀ p, Covers r.c p ↔ entryDiffers opt x p = true ∧ ign p = false
  ic : ∀ p, Covers r.ic p ↔ entryDiffers opt x p = true ∧ ign p = true
  within : ∀ y, y ∈ r.c ∨ y ∈ r.ic → 0 < y.len ∧ y.off + y.len ≤ x.2.1.len
  diff : r.diff = Nat.count (fun p => entryDiffers opt x p = true ∧ ign p = false) x.2.1.len
  nign : r.nign = Nat.count (fun p => entryDiffers opt x p = true ∧ ign p = true) x.2.1.len

theorem result_ok (opt : Options) {x : Entry} {b : Sect} (h : Paired A x b) (ign : ℕ → ℕ → Bool) : ResultOk opt (ign x.1) x (result opt A ign x) := by
  obtain ⟨r, hr, hname, hpaired, hlen, hident, hdiff, hnign, hc, hic⟩ := h.compare_eq opt ign
  have hs := scanned opt.clearrld x.2.1 b (ign x.1) x.2.1.len
  generalize scanTo opt.clearrld x.2.1 b (ign x.1) x.2.1.len = s at *
  have hcover (cs : List Clu) (p : ℕ) : Covers cs.reverse p ↔ Covers cs p := by simp [Covers]
  have hcount (v : Bool) : Nat.count (fun p => differs opt.clearrld x.2.1 b p = true ∧ ign x.1 p = v) x.2.1.len =
      Nat.count (fun p => entryDiffers opt x p = true ∧ ign x.1 p = v) x.2.1.len := by
    apply le_antisymm
    · apply Nat.count_mono_left
      rintro p hp ⟨hd, hi⟩
      exact ⟨(h.entryDiffers p).mpr ⟨hp, hd⟩, hi⟩
    · apply Nat.count_mono_left
      rintro p - ⟨hd, hi⟩
      exact ⟨((h.entryDiffers p).mp hd).2, hi⟩
  rw [hr]
  refine ⟨hname, hpaired, hlen, ?_, ?_, ?_, ?_, ?_, ?_⟩
  · rw [hident, decide_eq_true_eq, hs.diff, Nat.count_iff_forall_not]
    constructor
    · intro hall p hp
      obtain ⟨hlt, hd⟩ := (h.entryDiffers p).mp hp
      simpa [hd] using hall p hlt
    · rintro hall p hlt ⟨hd, hi⟩
      rw [hall p ((h.entryDiffers p).mpr ⟨hlt, hd⟩)] at hi
      exact absurd hi (by simp)
  · intro p
    rw [hc, hcover, hs.c.covers, h.entryDiffers, and_assoc]
  · intro p
    rw [hic, hcover, hs.ic.covers, h.entryDiffers, and_assoc]
  · rintro y (hy | hy)
    · rw [hc] at hy
      exact hs.c.within y (List.mem_reverse.mp hy)
    · rw [hic] at hy
      exact hs.ic.within y (List.mem_reverse.mp hy)
  · rw [hdiff, hs.diff, hcount]
  · rw [hnign, hs.nign, hcount]

end Results

section Output

variable {opt : Options} {A B : Side} {d : Difin}

/-- The sections of the file that a run judged and found to differ. -/
def judgedBlock (opt : Options) (A : Side) (ign : ℕ → ℕ → Bool) (x : Entry) : DinSect :=
  ⟨label x, written ((mergeClusters (result opt A ign x).c (result opt A ign x).ic).map fun y => (y.off, y.len))⟩

theorem blocksText_append (bs bs' : List DinSect) : blocksText (bs ++ bs') = blocksText bs ++ blocksText bs' := by
  rw [blocksText, List.flatMap_append, List.flatMap_append]
  rfl

theorem blocksText_flatMap {α : Type} (l : List α) (f : α → List DinSect) : l.flatMap (fun x => blocksText (f x)) = blocksText (l.flatMap f) := by
  induction l with
  | nil => rfl
  | cons x l ih => rw [List.flatMap_cons, List.flatMap_cons, blocksText_append, ih]

namespace ResultOk

variable {ign : ℕ → Bool} {x : Entry} {r : Result}

theorem covers (h : ResultOk opt ign x r) (p : ℕ) : (∃ q ∈ (mergeClusters r.c r.ic).map fun y => (y.off, y.len), q.1 ≤ p ∧ p < q.1 + q.2) ↔
    entryDiffers opt x p = true := by
  have hmerge : (∃ q ∈ (mergeClusters r.c r.ic).map fun y => (y.off, y.len), q.1 ≤ p ∧ p < q.1 + q.2) ↔ Covers r.c p ∨ Covers r.ic p := by
    simp only [Covers, List.mem_map, mem_mergeClusters, exists_exists_and_eq_and, or_and_right, exists_or]
  rw [hmerge, h.c, h.ic]
  cases ign p <;> simp

theorem ranges_good (h : ResultOk opt ign x r) :
    ∀ q ∈ written ((mergeClusters r.c r.ic).map fun y => (y.off, y.len)), GoodRange q := by
  apply written_good
  intro q hq
  obtain ⟨y, hy, rfl⟩ := List.mem_map.mp hq
  have hw := h.within y ((mem_mergeClusters _ _ _).mp hy)
  have hlen := x.2.1.len_lt
  left
  dsimp only
  omega

/-- A result with clusters is one of a section that differs. -/
theorem clusters (h : ResultOk opt ign x r) : (r.c = [] ∧ r.ic = []) ↔ hasDiff opt x = false := by
  rw [← Bool.not_eq_true, hasDiff_iff]
  constructor
  · rintro ⟨hc, hic⟩ ⟨p, hp⟩
    have hcover := h.c p
    have hcover' := h.ic p
    rw [hc] at hcover
    rw [hic] at hcover'
    cases hi : ign p with
    | false =>
      obtain ⟨y, hy, -⟩ := hcover.mpr ⟨hp, hi⟩
      exact absurd hy List.not_mem_nil
    | true =>
      obtain ⟨y, hy, -⟩ := hcover'.mpr ⟨hp, hi⟩
      exact absurd hy List.not_mem_nil
  · intro hno
    constructor
    · apply List.eq_nil_iff_forall_not_mem.mpr
      intro y hy
      have hw := h.within y (.inl hy)
      exact hno ⟨y.off, ((h.c y.off).mp ⟨y, hy, le_rfl, by omega⟩).1⟩
    · apply List.eq_nil_iff_forall_not_mem.mpr
      intro y hy
      have hw := h.within y (.inr hy)
      exact hno ⟨y.off, ((h.ic y.off).mp ⟨y, hy, le_rfl, by omega⟩).1⟩

end ResultOk

theorem judgedBlock_covers {x : Entry} {b : Sect} (h : Paired A x b) (ign : ℕ → ℕ → Bool) (p : ℕ) :
    (∃ q ∈ (judgedBlock opt A ign x).c, q.1 ≤ p ∧ p < q.1 + q.2) ↔ entryDiffers opt x p = true := by
  rw [judgedBlock, written_covers]
  exact (result_ok opt h ign).covers p

theorem writeDifout_eq {x : Entry} {b : Sect} (h : Paired A x b) (ign : ℕ → ℕ → Bool) :
    writeDifout (result opt A ign x) = blocksText (if hasDiff opt x then [judgedBlock opt A ign x] else []) := by
  have hr := result_ok opt h ign
  have hclu := hr.clusters
  rw [writeDifout, hr.paired, hr.lengthDiffers, if_neg (by simp)]
  cases hd : hasDiff opt x with
  | false =>
    rw [if_pos (hclu.mpr hd), if_neg Bool.false_ne_true]
    rfl
  | true =>
    rw [hd] at hclu
    rw [if_neg (by rw [hclu]; simp), if_pos rfl, hr.name, judgedBlock, ← block_written hr.ranges_good, List.flatMap_map]

theorem judges_iff (hpair : AllPaired A B) (ign : ℕ → ℕ → Bool) (y : DinSect) :
    ((compared opt A B).map (result opt A ign)).any (judges y) = !unjudged opt A B y := by
  rw [Bool.eq_iff_iff, List.any_eq_true, Bool.not_eq_true', ← Bool.not_eq_true, unjudged, List.all_eq_true]
  constructor
  · rintro ⟨r, hr, hj⟩ hall
    obtain ⟨x, hx, rfl⟩ := List.mem_map.mp hr
    obtain ⟨b, hb⟩ := paired_of_compared hpair hx
    have hname : (result opt A ign x).name = y.name := by
      simp only [judges, decide_eq_true_eq] at hj
      exact hj.2.2
    rw [(result_ok opt hb ign).name] at hname
    simpa [hname] using hall x hx
  · intro hno
    by_contra hany
    apply hno
    intro x hx
    obtain ⟨b, hb⟩ := paired_of_compared hpair hx
    have hr := result_ok opt hb ign
    rw [decide_eq_true_eq]
    intro hname
    apply hany
    refine ⟨_, List.mem_map_of_mem hx, ?_⟩
    simp [judges, hr.paired, hr.lengthDiffers, hr.name, hname]

theorem difoutCarry_eq (hpair : AllPaired A B) (hd : Loaded A.sects d) (ign : ℕ → ℕ → Bool) :
    difoutCarry d.din ((compared opt A B).map (result opt A ign)) =
      blocksText ((d.din.filter (unjudged opt A B)).map fun x => ⟨x.name, written x.c⟩) := by
  have hjudge : ∀ y ∈ d.din, decide (!((compared opt A B).map (result opt A ign)).any (judges y) ∧ y.c ≠ []) = unjudged opt A B y := by
    intro y hy
    rw [judges_iff hpair]
    simp [(hd.ranges y hy).1]
  have hblock : ∀ y ∈ d.din.filter (unjudged opt A B), headerLine y.name ++ y.c.flatMap emitRange = blocksText [⟨y.name, written y.c⟩] := by
    intro y hy
    have hgood := (hd.ranges y (List.mem_filter.mp hy).1).2
    exact block_written (written_good fun q hq => .inr (hgood q hq))
  rw [difoutCarry, List.filter_congr hjudge, List.flatMap_congr hblock, blocksText_flatMap, List.map_eq_flatMap]

/-- The text that a run writes. -/
theorem difout_eq (hpair : AllPaired A B) (hd : Loaded A.sects d) :
    ((compared opt A B).map (result opt A d.ign)).flatMap writeDifout ++
        difoutCarry d.din ((compared opt A B).map (result opt A d.ign)) =
      blocksText (((compared opt A B).filter (hasDiff opt)).map (judgedBlock opt A d.ign) ++
        (d.din.filter (unjudged opt A B)).map fun x => ⟨x.name, written x.c⟩) := by
  have hblocks : ∀ xs : List Entry, xs.flatMap (fun x => if hasDiff opt x then [judgedBlock opt A d.ign x] else []) =
      (xs.filter (hasDiff opt)).map (judgedBlock opt A d.ign) := by
    intro xs
    induction xs with
    | nil => rfl
    | cons x xs ih =>
      rw [List.flatMap_cons, ih]
      cases hx : hasDiff opt x with
      | false =>
        rw [List.filter_cons_of_neg (by simp [hx])]
        rfl
      | true =>
        rw [List.filter_cons_of_pos hx]
        rfl
  have hwrite : ∀ x ∈ compared opt A B, writeDifout (result opt A d.ign x) =
      blocksText (if hasDiff opt x then [judgedBlock opt A d.ign x] else []) := by
    intro x hx
    obtain ⟨b, hb⟩ := paired_of_compared hpair hx
    exact writeDifout_eq hb d.ign
  rw [blocksText_append, difoutCarry_eq hpair hd, List.flatMap_map, List.flatMap_congr hwrite, blocksText_flatMap, hblocks]

/-- A name that a header brings back. -/
theorem headerName_of {n : Text} (h : IsName n) (hne : n ≠ []) (hblank : 0x20 ∉ n) : HeaderName n := by
  refine ⟨hne, h.short, ?_⟩
  intro c hc
  obtain ⟨hlo, -⟩ := h.printable c hc
  refine ⟨?_, ?_, ?_, fun heq => hblank (heq ▸ hc)⟩
  · rintro rfl
    exact absurd hlo (by decide)
  · rintro rfl
    exact absurd hlo (by decide)
  · rintro rfl
    exact absurd hlo (by decide)

theorem headerName_read {n : Text} (h : n ≠ [] ∧ PlainName n) (hcr : 0x0D ∉ n) : HeaderName n := by
  obtain ⟨hne, hshort, hplain⟩ := h
  refine ⟨hne, hshort, ?_⟩
  intro c hc
  obtain ⟨h0, hlf, hblank⟩ := hplain c hc
  exact ⟨h0, hlf, fun heq => hcr (heq ▸ hc), hblank⟩

theorem Findable.label {x : Entry} (h : Findable A x) : label x = x.2.1.name := by
  simp [Cmplmd370.label, sectLabel, h.2.1]

/-- Findable sections have names of their own. -/
theorem Findable.apart {x y : Entry} (hx : Findable A x) (hy : Findable A y) (h : Cmplmd370.label x = Cmplmd370.label y) : x.1 = y.1 := by
  rw [hx.label, hy.label] at h
  have hfind := hx.1
  rw [h, hy.1] at hfind
  exact (Option.some.inj hfind).symm

theorem compared_pairwise (opt : Options) (A B : Side) : (compared opt A B).Pairwise fun x y => x.1 < y.1 := by
  have hidx : A.sects.zipIdx.Pairwise fun x y => x.2 < y.2 := by
    rw [List.pairwise_iff_getElem]
    intro i j hi hj hlt
    simpa using hlt
  rw [compared, List.pairwise_filterMap]
  apply hidx.imp
  intro x y hlt u hu v hv
  dsimp only at hu hv
  split_ifs at hu hv with h1 h2
  obtain rfl := Option.some.inj hu
  obtain rfl := Option.some.inj hv
  exact hlt

theorem unjudged_iff {n : Text} {c : List (ℕ × ℕ)} : unjudged opt A B ⟨n, c⟩ = true ↔ ∀ x ∈ compared opt A B, label x ≠ n := by
  simp [unjudged]

/-- A file that a run writes can be read back, if it has room in the table: it has what the run found to
differ and what it carries on. -/
theorem difout_load (hpair : AllPaired A B) (hd : Loaded A.sects d) (hnames : ∀ x ∈ d.din, 0x0D ∉ x.name)
    (hfind : ∀ x ∈ compared opt A B, hasDiff opt x = true → Findable A x) {file : Text}
    (hfile : file = ((compared opt A B).map (result opt A d.ign)).flatMap writeDifout ++
      difoutCarry d.din ((compared opt A B).map (result opt A d.ign))) :
    if ((compared opt A B).filter (hasDiff opt)).length + (carried opt A B d.din).length ≤ maxsect then
      ∃ d', difinLoad A.sects file = .ok d' ∧
        d'.din = ((compared opt A B).filter (hasDiff opt)).map (judgedBlock opt A d.ign) ++ carried opt A B d.din
    else difinLoad A.sects file = .error .tooMany := by
  have hjudged : ∀ x ∈ (compared opt A B).filter (hasDiff opt), Findable A x ∧ GoodBlock (judgedBlock opt A d.ign x) ∧ (judgedBlock opt A d.ign x).c ≠ [] := by
    intro x hx
    obtain ⟨hx, hdiff⟩ := List.mem_filter.mp hx
    obtain ⟨b, hb⟩ := paired_of_compared hpair hx
    have hf := hfind x hx hdiff
    refine ⟨hf, ⟨?_, (result_ok opt hb d.ign).ranges_good⟩, ?_⟩
    · have hlabel : (judgedBlock opt A d.ign x).name = x.2.1.name := hf.label
      rw [hlabel]
      exact headerName_of x.2.1.isName hf.2.1 hf.2.2
    · intro hnil
      obtain ⟨p, hp⟩ := hasDiff_iff.mp hdiff
      obtain ⟨q, hq, -⟩ := (judgedBlock_covers hb d.ign p).mpr hp
      rw [hnil] at hq
      exact absurd hq List.not_mem_nil
  have hfilter : ((((compared opt A B).filter (hasDiff opt)).map (judgedBlock opt A d.ign) ++
      (d.din.filter (unjudged opt A B)).map fun x => (⟨x.name, written x.c⟩ : DinSect)).filter fun b => b.c ≠ []) =
        ((compared opt A B).filter (hasDiff opt)).map (judgedBlock opt A d.ign) ++ carried opt A B d.din := by
    rw [List.filter_append, carried]
    congr 1
    rw [List.filter_eq_self]
    intro y hy
    obtain ⟨x, hx, rfl⟩ := List.mem_map.mp hy
    simpa using (hjudged x hx).2.2
  have hgood : ∀ b ∈ ((compared opt A B).filter (hasDiff opt)).map (judgedBlock opt A d.ign) ++
      (d.din.filter (unjudged opt A B)).map (fun x => (⟨x.name, written x.c⟩ : DinSect)), GoodBlock b := by
    intro y hy
    rcases List.mem_append.mp hy with hy | hy
    · obtain ⟨x, hx, rfl⟩ := List.mem_map.mp hy
      exact (hjudged x hx).2.1
    · obtain ⟨x, hx, rfl⟩ := List.mem_map.mp hy
      have hxd := (List.mem_filter.mp hx).1
      exact ⟨headerName_read (hd.names x hxd) (hnames x hxd), written_good fun q hq => .inr ((hd.ranges x hxd).2 q hq)⟩
  have hapart : (((compared opt A B).filter (hasDiff opt)).map (judgedBlock opt A d.ign) ++ carried opt A B d.din).Pairwise
      fun b b' => b.name ≠ b'.name := by
    rw [List.pairwise_append]
    refine ⟨?_, ?_, ?_⟩
    · rw [List.pairwise_map]
      have hpw := (compared_pairwise opt A B).filter (hasDiff opt)
      apply hpw.imp_of_mem
      intro x y hx hy hlt heq
      have := (hjudged x hx).1.apart (hjudged y hy).1 heq
      omega
    · rw [carried]
      apply List.Pairwise.filter
      rw [List.pairwise_map]
      exact hd.apart.filter _
    · intro x hx y hy heq
      obtain ⟨u, hu, rfl⟩ := List.mem_map.mp hx
      obtain ⟨z, hz, rfl⟩ := List.mem_map.mp (List.mem_filter.mp hy).1
      exact unjudged_iff.mp (List.mem_filter.mp hz).2 u (List.mem_filter.mp hu).1 heq
  have hload := difinLoad_blocks (A := A.sects) hgood (by rw [hfilter]; exact hapart)
  rw [hfilter, List.length_append, List.length_map] at hload
  rw [hfile, difout_eq hpair hd]
  exact hload

end Output

end Cc370.Cmplmd370
