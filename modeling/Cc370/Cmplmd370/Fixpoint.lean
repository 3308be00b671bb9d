import Cc370.Cmplmd370.Judged

namespace Cc370.Cmplmd370

/-- A run against the one before, with the file that one wrote: what was found to differ is ignored, the same
bytes are listed again, and what lay outside the comparison is listed as it was. -/
structure Rerun (o o' : Outcome) (d d₁ d₂ : Difin) : Prop where
  exit : o'.exit = 0
  ignored : List.Forall₂ (fun r r' => r'.name = r.name ∧ r'.diff = 0 ∧ r'.nign = r.diff + r.nign ∧
    ∀ p, Covers r'.ic p ↔ Covers r.c p ∨ Covers r.ic p) o.results o'.results
  same : ∀ n p, Lists d₂.din n p ↔ Lists d₁.din n p
  carried : ∀ n, (∀ r ∈ o.results, r.name ≠ n) → ∀ p, Lists d₁.din n p ↔ Lists d.din n p

def loadDifin (A : List Sect) : Option Text → Except DifinError Difin
  | none => .ok .empty
  | some file => difinLoad A file

/-- The file that `--difout` writes is one that the next run suppresses what it lists with, and writes again. -/
def Suppresses (opt : Options) (A B : Side) (difin : Option Text) (d : Difin) : Prop := ∃ file d₁ file' d₂,
  (run opt A B difin).difout = some file ∧ difinLoad A.sects file = .ok d₁ ∧
    (run opt A B (some file)).difout = some file' ∧ difinLoad A.sects file' = .ok d₂ ∧
      Rerun (run opt A B difin) (run opt A B (some file)) d d₁ d₂ ∧ (difin = none → file' = file)

section Runs

variable {opt : Options} {A B : Side} {d d₁ : Difin} {difin : Option Text}

theorem loadDifin_loaded (h : loadDifin A.sects difin = .ok d) : Loaded A.sects d := by
  cases difin with
  | none =>
    rw [← Except.ok.inj h]
    exact .nil _
  | some file => exact difinLoad_loaded h

theorem run_eq (h : loadDifin A.sects difin = .ok d) (hrun : refusal opt A B = none) :
    run opt A B difin = ⟨exitCode opt ((compared opt A B).map (result opt A d.ign)), (compared opt A B).map (result opt A d.ign),
      some (((compared opt A B).map (result opt A d.ign)).flatMap writeDifout ++
        difoutCarry d.din ((compared opt A B).map (result opt A d.ign)))⟩ := by
  have hloaded : run opt A B difin = runLoaded opt A B d := by
    cases difin with
    | none =>
      rw [← Except.ok.inj h]
      rfl
    | some file =>
      rw [loadDifin] at h
      rw [run, h]
  rw [hloaded, runLoaded, hrun, if_neg (by simp)]

theorem compared_ne_nil (hrun : refusal opt A B = none) : compared opt A B ≠ [] := by
  have hinc : ¬ ((B.isLmod ∧ B.incomplete ∨ A.isLmod ∧ A.incomplete) ∧ !opt.allowIncomplete) := by
    intro hinc
    rw [refusal, if_pos hinc] at hrun
    exact absurd hrun (by simp)
  rw [refusal, if_neg hinc] at hrun
  cases honly : opt.only with
  | some n =>
    rw [honly] at hrun
    dsimp only at hrun
    split_ifs at hrun with hnil
    exact hnil
  | none =>
    rw [honly] at hrun
    dsimp only at hrun
    split_ifs at hrun with hall
    obtain ⟨a, ha, hlen⟩ : ∃ a ∈ A.sects, a.len ≠ 0 := by simpa using hall
    obtain ⟨i, hi, rfl⟩ := List.mem_iff_getElem.mp ha
    intro hnil
    have hskip := List.filterMap_eq_nil_iff.mp hnil (A.sects[i], i) (List.mem_zipIdx_iff_getElem?.mpr (List.getElem?_eq_getElem hi))
    dsimp only at hskip
    rw [if_neg (by simp [honly, hlen])] at hskip
    exact absurd hskip (by simp)

/-- The run ends well just if every byte that differs is ignored. -/
theorem exitCode_zero (hpair : AllPaired A B) (hrun : refusal opt A B = none) (ign : ℕ → ℕ → Bool) :
    exitCode opt ((compared opt A B).map (result opt A ign)) = 0 ↔
      ∀ x ∈ compared opt A B, ∀ p, entryDiffers opt x p = true → ign x.1 p = true := by
  have hsome : ((compared opt A B).map (result opt A ign)).all (fun r => !r.paired) = false := by
    obtain ⟨x, hx⟩ := List.exists_mem_of_ne_nil _ (compared_ne_nil hrun)
    obtain ⟨b, hb⟩ := paired_of_compared hpair hx
    rw [List.all_eq_false]
    refine ⟨_, List.mem_map_of_mem hx, ?_⟩
    rw [(result_ok opt hb ign).paired]
    exact Bool.false_ne_true
  have hall : ((compared opt A B).map (result opt A ign)).all (fun r => r.identical) = true ↔
      ∀ x ∈ compared opt A B, ∀ p, entryDiffers opt x p = true → ign x.1 p = true := by
    rw [List.all_map, List.all_eq_true]
    apply forall₂_congr
    intro x hx
    obtain ⟨b, hb⟩ := paired_of_compared hpair hx
    exact (result_ok opt hb ign).identical
  rw [← hall, exitCode, hsome]
  simp

/-- The bytes that the next run reads out of the file. -/
theorem lists_written (hpair : AllPaired A B)
    (hdin : d₁.din = ((compared opt A B).filter (hasDiff opt)).map (judgedBlock opt A d.ign) ++ carried opt A B d.din) (n : Text) (p : ℕ) :
    Lists d₁.din n p ↔ (∃ x ∈ compared opt A B, label x = n ∧ entryDiffers opt x p = true) ∨
      (∀ x ∈ compared opt A B, label x ≠ n) ∧ Lists d.din n p := by
  have hsplit : Lists d₁.din n p ↔ Lists (((compared opt A B).filter (hasDiff opt)).map (judgedBlock opt A d.ign)) n p ∨
      Lists (carried opt A B d.din) n p := by
    rw [hdin]
    simp only [Lists, List.mem_append, or_and_right, exists_or]
  rw [hsplit]
  apply or_congr
  · constructor
    · rintro ⟨y, hy, rfl, hcover⟩
      obtain ⟨x, hx, rfl⟩ := List.mem_map.mp hy
      have hxc := (List.mem_filter.mp hx).1
      obtain ⟨b, hb⟩ := paired_of_compared hpair hxc
      exact ⟨x, hxc, rfl, (judgedBlock_covers hb d.ign p).mp hcover⟩
    · rintro ⟨x, hx, rfl, hp⟩
      obtain ⟨b, hb⟩ := paired_of_compared hpair hx
      refine ⟨judgedBlock opt A d.ign x, ?_, rfl, (judgedBlock_covers hb d.ign p).mpr hp⟩
      exact List.mem_map_of_mem (List.mem_filter.mpr ⟨hx, hasDiff_iff.mpr ⟨p, hp⟩⟩)
  · constructor
    · rintro ⟨y, hy, rfl, hcover⟩
      obtain ⟨z, hz, rfl⟩ := List.mem_map.mp (List.mem_filter.mp hy).1
      obtain ⟨hzd, hun⟩ := List.mem_filter.mp hz
      exact ⟨unjudged_iff.mp hun, z, hzd, rfl, (written_covers z.c p).mp hcover⟩
    · rintro ⟨hun, z, hz, rfl, hcover⟩
      have hcover' := (written_covers z.c p).mpr hcover
      refine ⟨⟨z.name, written z.c⟩, ?_, rfl, hcover'⟩
      obtain ⟨q, hq, -⟩ := hcover'
      refine List.mem_filter.mpr ⟨List.mem_map_of_mem (f := fun d : DinSect => (⟨d.name, written d.c⟩ : DinSect)) (List.mem_filter.mpr ⟨hz, unjudged_iff.mpr hun⟩), ?_⟩
      simpa using List.ne_nil_of_mem hq

theorem judged_not_unjudged (opt : Options) (A B : Side) (ign : ℕ → ℕ → Bool) {xs : List Entry} (hxs : ∀ x ∈ xs, x ∈ compared opt A B) :
    (xs.map (judgedBlock opt A ign)).filter (unjudged opt A B) = [] := by
  rw [List.filter_eq_nil_iff]
  intro y hy hun
  obtain ⟨x, hx, rfl⟩ := List.mem_map.mp hy
  exact unjudged_iff.mp hun x (hxs x hx) rfl

/-- What a run carries on it carries on again. -/
theorem carried_again (hdin : d₁.din = ((compared opt A B).filter (hasDiff opt)).map (judgedBlock opt A d.ign) ++ carried opt A B d.din) :
    carried opt A B d₁.din = carried opt A B d.din := by
  have hjudged : (((compared opt A B).filter (hasDiff opt)).map (judgedBlock opt A d.ign)).filter (unjudged opt A B) = [] :=
    judged_not_unjudged opt A B d.ign fun x hx => (List.mem_filter.mp hx).1
  have hcarried : (carried opt A B d.din).filter (unjudged opt A B) = carried opt A B d.din := by
    rw [List.filter_eq_self]
    intro y hy
    obtain ⟨z, hz, rfl⟩ := List.mem_map.mp (List.mem_filter.mp hy).1
    exact (List.mem_filter.mp hz).2
  have hagain : (carried opt A B d.din).map (fun d => (⟨d.name, written d.c⟩ : DinSect)) = carried opt A B d.din := by
    conv_rhs => rw [← List.map_id (carried opt A B d.din)]
    apply List.map_congr_left
    intro y hy
    obtain ⟨z, hz, rfl⟩ := List.mem_map.mp (List.mem_filter.mp hy).1
    rw [written_written]
    rfl
  have hne : (carried opt A B d.din).filter (fun d => d.c ≠ []) = carried opt A B d.din := by
    rw [List.filter_eq_self]
    intro y hy
    exact (List.mem_filter.mp hy).2
  rw [carried, hdin, List.filter_append, hjudged, List.nil_append, hcarried, hagain, hne]

/-- A section that the reader does not come to has none of its bytes ignored. -/
theorem ignored_findable (hd : Loaded A.sects d) {x : Entry} {b : Sect} (hb : Paired A x b) {p : ℕ} (h : d.ign x.1 p = true) :
    Findable A x := by
  obtain ⟨n, hn, ⟨y, hy, rfl, -⟩, -⟩ := (hd.ign x.1 p).mp h
  obtain ⟨hne, -, hplain⟩ := hd.names y hy
  obtain ⟨hi, hname, -⟩ := List.findIdx?_eq_some_iff_getElem.mp hn
  have hat := hb.sect
  rw [List.getElem?_eq_getElem hi] at hat
  have heq : x.2.1.name = y.name := by
    rw [← Option.some.inj hat]
    simpa using hname
  rw [Findable, heq]
  exact ⟨hn, hne, fun hblank => (hplain _ hblank).2.2 rfl⟩

/-- With the file of the last run every byte that differs is ignored. -/
theorem ignored_of_listed (hpair : AllPaired A B) (hfind : ∀ x ∈ compared opt A B, hasDiff opt x = true → Findable A x)
    (hd : Loaded A.sects d₁) (hlists : ∀ x ∈ compared opt A B, ∀ p, entryDiffers opt x p = true → Lists d₁.din (label x) p) :
    ∀ x ∈ compared opt A B, ∀ p, entryDiffers opt x p = true → d₁.ign x.1 p = true := by
  intro x hx p hp
  obtain ⟨b, hb⟩ := paired_of_compared hpair hx
  have hf := hfind x hx (hasDiff_iff.mpr ⟨p, hp⟩)
  apply (hd.ign x.1 p).mpr
  refine ⟨label x, ?_, hlists x hx p hp, x.2.1, hb.sect, ((hb.entryDiffers p).mp hp).1⟩
  rw [hf.label]
  exact hf.1

/-- What one run finds and the next ignores, section by section. -/
theorem ignored_results (hpair : AllPaired A B) (ign : ℕ → ℕ → Bool) {ign' : ℕ → ℕ → Bool}
    (hall : ∀ x ∈ compared opt A B, ∀ p, entryDiffers opt x p = true → ign' x.1 p = true) :
    List.Forall₂ (fun r r' => r'.name = r.name ∧ r'.diff = 0 ∧ r'.nign = r.diff + r.nign ∧ ∀ p, Covers r'.ic p ↔ Covers r.c p ∨ Covers r.ic p)
      ((compared opt A B).map (result opt A ign)) ((compared opt A B).map (result opt A ign')) := by
  rw [List.forall₂_map_left_iff, List.forall₂_map_right_iff, List.forall₂_same]
  intro x hx
  obtain ⟨b, hb⟩ := paired_of_compared hpair hx
  have hr := result_ok opt hb ign
  have hr' := result_ok opt hb ign'
  have hx' := hall x hx
  refine ⟨hr'.name.trans hr.name.symm, ?_, ?_, ?_⟩
  · rw [hr'.diff, Nat.count_iff_forall_not]
    rintro p - ⟨hp, hi⟩
    rw [hx' p hp] at hi
    exact absurd hi (by simp)
  · have hsum : ∀ n, Nat.count (fun p => entryDiffers opt x p = true ∧ ign' x.1 p = true) n =
        Nat.count (fun p => entryDiffers opt x p = true ∧ ign x.1 p = false) n +
          Nat.count (fun p => entryDiffers opt x p = true ∧ ign x.1 p = true) n := by
      intro n
      induction n with
      | zero => rfl
      | succ n ih =>
        rw [Nat.count_succ, Nat.count_succ, Nat.count_succ, ih]
        by_cases hd : entryDiffers opt x n = true
        · have hi := hx' n hd
          cases ign x.1 n with
          | false => simp [hd, hi]; omega
          | true => simp [hd, hi]; omega
        · simp [hd]
    rw [hr'.nign, hr.diff, hr.nign, hsum]
  · intro p
    rw [hr'.ic, hr.c, hr.ic]
    constructor
    · rintro ⟨hp, -⟩
      cases ign x.1 p <;> simp [hp]
    · rintro (⟨hp, -⟩ | ⟨hp, -⟩)
      · exact ⟨hp, hx' p hp⟩
      · exact ⟨hp, hx' p hp⟩

/-- Without ranges to start from, the next file is the same text. -/
theorem rewritten (hpair : AllPaired A B) {ign : ℕ → ℕ → Bool}
    (hall : ∀ x ∈ compared opt A B, ∀ p, entryDiffers opt x p = true → ign x.1 p = true) :
    ((compared opt A B).map (result opt A ign)).flatMap writeDifout =
      ((compared opt A B).map (result opt A fun _ _ => false)).flatMap writeDifout := by
  rw [List.flatMap_map, List.flatMap_map]
  apply List.flatMap_congr
  intro x hx
  obtain ⟨b, hb⟩ := paired_of_compared hpair hx
  have hsame : ∀ p < x.2.1.len, differs opt.clearrld x.2.1 b p = true → ign x.1 p = true :=
    fun p hp hd => hall x hx p ((hb.entryDiffers p).mpr ⟨hp, hd⟩)
  obtain ⟨-, hic, hc, hnone⟩ := scan_all_ignored opt.clearrld x.2.1 b (ign x.1) x.2.1.len hsame
  have hr := result_ok opt hb ign
  have hr' := result_ok opt hb fun _ _ => false
  obtain ⟨r, heq, -, -, -, -, -, -, hrc, hric⟩ := hb.compare_eq opt ign
  obtain ⟨r', heq', -, -, -, -, -, -, hrc', hric'⟩ := hb.compare_eq opt fun _ _ => false
  have hmerge : mergeClusters r.c r.ic = mergeClusters r'.c r'.ic := by
    rw [hrc, hric, hrc', hric', hc, hnone, hic, List.reverse_nil, mergeClusters, mergeClusters_nil]
  rw [writeDifout_eq hb, writeDifout_eq hb, judgedBlock, judgedBlock, heq, heq', hmerge]

end Runs

section Suppression

variable {opt : Options} {A B : Side} {difin : Option Text} {d : Difin}

theorem findable_of_suppresses (hrun : refusal opt A B = none) (hpair : AllPaired A B) (h : Suppresses opt A B difin d) :
    ∀ x ∈ compared opt A B, hasDiff opt x = true → Findable A x := by
  obtain ⟨file, d₁, file', d₂, -, hload₁, -, -, hrerun, -⟩ := h
  have hexit := hrerun.exit
  have hload : loadDifin A.sects (some file) = .ok d₁ := hload₁
  rw [run_eq hload hrun] at hexit
  have hall := (exitCode_zero hpair hrun d₁.ign).mp hexit
  intro x hx hdiff
  obtain ⟨b, hb⟩ := paired_of_compared hpair hx
  obtain ⟨p, hp⟩ := hasDiff_iff.mp hdiff
  exact ignored_findable (difinLoad_loaded hload₁) hb (hall x hx p hp)

theorem fits_of_suppresses (hload : loadDifin A.sects difin = .ok d) (hnames : ∀ x ∈ d.din, 0x0D ∉ x.name)
    (hrun : refusal opt A B = none) (hpair : AllPaired A B) (h : Suppresses opt A B difin d) :
    ((compared opt A B).filter (hasDiff opt)).length + (carried opt A B d.din).length ≤ maxsect := by
  have hfind := findable_of_suppresses hrun hpair h
  obtain ⟨file, d₁, file', d₂, hfile, hload₁, -⟩ := h
  rw [run_eq hload hrun] at hfile
  have hback := difout_load hpair (loadDifin_loaded hload) hnames hfind (Option.some.inj hfile).symm
  by_contra hfull
  rw [if_neg hfull, hload₁] at hback
  exact absurd hback nofun

theorem suppresses_of_findable (hload : loadDifin A.sects difin = .ok d) (hnames : ∀ x ∈ d.din, 0x0D ∉ x.name)
    (hrun : refusal opt A B = none) (hpair : AllPaired A B) (hfind : ∀ x ∈ compared opt A B, hasDiff opt x = true → Findable A x)
    (hfits : ((compared opt A B).filter (hasDiff opt)).length + (carried opt A B d.din).length ≤ maxsect) :
    Suppresses opt A B difin d := by
  have hd := loadDifin_loaded hload
  have hfirst := run_eq hload hrun
  obtain ⟨d₁, hload₁, hdin₁⟩ : ∃ d₁, difinLoad A.sects _ = .ok d₁ ∧ d₁.din = _ := by
    have hback := difout_load hpair hd hnames hfind rfl
    rw [if_pos hfits] at hback
    exact hback
  have hd₁ := difinLoad_loaded hload₁
  have hlists := lists_written hpair hdin₁
  have hall := ignored_of_listed hpair hfind hd₁ fun x hx p hp => (hlists (label x) p).mpr (.inl ⟨x, hx, rfl, hp⟩)
  have hnames₁ : ∀ x ∈ d₁.din, 0x0D ∉ x.name := by
    intro x hx
    rw [hdin₁] at hx
    rcases List.mem_append.mp hx with hx | hx
    · obtain ⟨y, hy, rfl⟩ := List.mem_map.mp hx
      obtain ⟨hyc, hydiff⟩ := List.mem_filter.mp hy
      have hlabel : (judgedBlock opt A d.ign y).name = y.2.1.name := (hfind y hyc hydiff).label
      rw [hlabel]
      intro hcr
      exact absurd (y.2.1.isName.printable _ hcr).1 (by decide)
    · obtain ⟨y, hy, rfl⟩ := List.mem_map.mp (List.mem_filter.mp hx).1
      exact hnames y (List.mem_filter.mp hy).1
  obtain ⟨d₂, hload₂, hdin₂⟩ : ∃ d₂, difinLoad A.sects _ = .ok d₂ ∧ d₂.din = _ := by
    have hback := difout_load hpair hd₁ hnames₁ hfind rfl
    rw [carried_again hdin₁, if_pos hfits, ← carried_again hdin₁] at hback
    exact hback
  have hsome : loadDifin A.sects (some _) = .ok d₁ := hload₁
  have hsecond := run_eq hsome hrun
  have hlists₂ := lists_written hpair hdin₂
  refine ⟨_, d₁, _, d₂, by rw [hfirst], hload₁, by rw [hsecond], hload₂, ?_, ?_⟩
  · rw [hfirst, hsecond]
    refine ⟨(exitCode_zero hpair hrun d₁.ign).mpr hall, ignored_results hpair d.ign hall, ?_, ?_⟩
    · intro n p
      rw [hlists₂, hlists]
      constructor
      · rintro (hj | ⟨hn, hj | hl⟩)
        · exact .inl hj
        · exact .inl hj
        · exact .inr hl
      · rintro (hj | ⟨hn, hl⟩)
        · exact .inl hj
        · exact .inr ⟨hn, .inr ⟨hn, hl⟩⟩
    · intro n hn p
      have hno : ∀ x ∈ compared opt A B, label x ≠ n := by
        intro x hx
        obtain ⟨b, hb⟩ := paired_of_compared hpair hx
        rw [← (result_ok opt hb d.ign).name]
        exact hn _ (List.mem_map_of_mem hx)
      rw [hlists]
      constructor
      · rintro (⟨x, hx, hname, -⟩ | ⟨-, hl⟩)
        · exact absurd hname (hno x hx)
        · exact hl
      · intro hl
        exact .inr ⟨hno, hl⟩
  · rintro rfl
    obtain rfl := Except.ok.inj hload
    have hnone : d₁.din.filter (unjudged opt A B) = [] := by
      rw [hdin₁, List.filter_append, judged_not_unjudged opt A B _ fun x hx => (List.mem_filter.mp hx).1]
      rfl
    rw [difoutCarry_eq hpair hd₁, hnone, rewritten hpair hall]
    rfl

theorem difout_suppresses_iff (hload : loadDifin A.sects difin = .ok d) (hnames : ∀ x ∈ d.din, 0x0D ∉ x.name)
    (hrun : refusal opt A B = none) (hpair : AllPaired A B) :
    Suppresses opt A B difin d ↔ (∀ x ∈ compared opt A B, hasDiff opt x = true → Findable A x) ∧
      ((compared opt A B).filter (hasDiff opt)).length + (carried opt A B d.din).length ≤ maxsect := by
  constructor
  · intro h
    exact ⟨findable_of_suppresses hrun hpair h, fits_of_suppresses hload hnames hrun hpair h⟩
  · rintro ⟨hfind, hfits⟩
    exact suppresses_of_findable hload hnames hrun hpair hfind hfits

end Suppression

section OneByte

/-- A module of one section with one byte. -/
def oneByte (name ent : Text) (hname : IsName name) (hent : IsName ent) (v : UInt8) : Side :=
  ⟨[⟨name, ent, 1, fun _ => v, fun _ => false, fun _ => true, hname, hent, by decide⟩], true, false, Nat.le_of_ble_eq_true rfl⟩

theorem isName_empty : IsName [] := ⟨by decide, by simp⟩

theorem isName_letter : IsName [0x41] := ⟨by decide, by simp⟩

def plainRun : Options := ⟨true, none, false⟩

theorem allPaired_oneByte (name ent : Text) (hname : IsName name) (hent : IsName ent) (v w : UInt8)
    (h : (pairSections (oneByte name ent hname hent v).sects (oneByte name ent hname hent w).sects).pair 0 = some 0) :
    AllPaired (oneByte name ent hname hent v) (oneByte name ent hname hent w) := by
  intro x hx _
  rw [oneByte, List.zipIdx_singleton, List.mem_singleton] at hx
  subst hx
  exact ⟨0, _, h, rfl, rfl⟩

/-- A difference in a named section. -/
theorem named_suppressed : Suppresses plainRun (oneByte [0x41] [] isName_letter isName_empty 1) (oneByte [0x41] [] isName_letter isName_empty 2)
    none .empty := by
  apply (difout_suppresses_iff (A := oneByte [0x41] [] isName_letter isName_empty 1) (B := oneByte [0x41] [] isName_letter isName_empty 2)
    rfl (by decide) (by decide) (allPaired_oneByte _ _ _ _ _ _ (by decide))).mpr
  refine ⟨?_, by decide⟩
  intro x hx _
  have hx0 : x = (0, (oneByte [0x41] [] isName_letter isName_empty 1).sects[0], some (oneByte [0x41] [] isName_letter isName_empty 2).sects[0]) := by
    exact List.mem_singleton.mp hx
  rw [hx0]
  exact ⟨by decide, by decide, by decide⟩

/-- A difference in an unnamed section, which the file lists under its entry point in brackets. -/
theorem unnamed_not_suppressed :
    AllPaired (oneByte [] [0x41] isName_empty isName_letter 1) (oneByte [] [0x41] isName_empty isName_letter 2) ∧
      refusal plainRun (oneByte [] [0x41] isName_empty isName_letter 1) (oneByte [] [0x41] isName_empty isName_letter 2) = none ∧
        ¬ Suppresses plainRun (oneByte [] [0x41] isName_empty isName_letter 1) (oneByte [] [0x41] isName_empty isName_letter 2) none .empty := by
  have hpair : AllPaired (oneByte [] [0x41] isName_empty isName_letter 1) (oneByte [] [0x41] isName_empty isName_letter 2) :=
    allPaired_oneByte _ _ _ _ _ _ (by decide)
  have hrun : refusal plainRun (oneByte [] [0x41] isName_empty isName_letter 1) (oneByte [] [0x41] isName_empty isName_letter 2) = none := by
    decide
  refine ⟨hpair, hrun, ?_⟩
  intro h
  have hfind := findable_of_suppresses hrun hpair h (0, (oneByte [] [0x41] isName_empty isName_letter 1).sects[0],
    some (oneByte [] [0x41] isName_empty isName_letter 2).sects[0]) List.mem_cons_self (by decide)
  exact hfind.2.1 rfl

end OneByte

end Cc370.Cmplmd370
