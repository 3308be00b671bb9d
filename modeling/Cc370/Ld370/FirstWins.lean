import Cc370.Ld370.DefinedNames

namespace Cc370.Ld370

/-- What PASS 2 has built for a list of items without a clash. -/
structure Entries (p : List EsdItem) : Prop where
  dropped : (run p).dropped = (symbols p).dropped
  entry : ∀ n, EntryOk (run p) (PrivateFirst p n) (look (run p).G n) ((symbols p).defs n)
  entered : ∀ n, look (run p).G n = none ↔ NotEntered p n
  privFind : ∀ n, PrivateFirst p n → ∃ i j e, .sect i j e ∈ p ∧ e.type = .pc ∧
    gFind (run p).G n = some ((run p).locG i j)
  priv : ∀ i j e, .sect i j e ∈ p → e.type = .pc →
    RealizesPrivate (gAt (run p).G ((run p).locG i j)) i e
  privIndex : ∀ i j e, .sect i j e ∈ p → e.type = .pc → (run p).locG i j < (run p).G.length ∧
    ∀ m, gFind (run p).G m = some ((run p).locG i j) → PrivateFirst p m
  found : ∀ i j e, .sect i j e ∈ p → e.type ≠ .pc →
    gFind (run p).G e.name = some ((run p).locG i j)

/-- Nothing of an object's local table is visited after its labels or twice. -/
def OrderedAt (p : List EsdItem) : EsdItem → Prop
  | .sect i j _ => (∀ l w, .label i l w ∉ p) ∧ ∀ e, .sect i j e ∉ p
  | .label .. => True

theorem privateFirst_mono {p : List EsdItem} {n : Name} (x : EsdItem) (h : PrivateFirst p n) :
    PrivateFirst (p ++ [x]) n := privateFirst_snoc.mpr (.inl h)

theorem mem_sect_snoc {p : List EsdItem} {x : EsdItem} {i j : ℕ} {e : Lent}
    (h : EsdItem.sect i j e ∈ p ++ [x]) : .sect i j e ∈ p ∨ x = .sect i j e := by
  rcases List.mem_append.mp h with h | h
  · exact .inl h
  · exact .inr (List.mem_singleton.mp h).symm

namespace Entries

theorem nil : Entries [] := by
  refine ⟨rfl, ?_, ?_, ?_, ?_, ?_, ?_⟩
  · intro n g hg
    simp [run, Composite.empty, look, gFind] at hg
  · intro n
    simp [run, Composite.empty, look, gFind, NotEntered]
  · rintro n ⟨l₁, i, j, e, l₂, h, -⟩
    simp at h
  · intro i j e h
    simp at h
  · intro i j e h
    simp at h
  · intro i j e h
    simp at h

variable {p : List EsdItem}

theorem snoc_skip (h : Entries p) (hD : Defined p) {i : ℕ} {l : Ldent} {w : Lent}
    (hd : (symbols p).dropped i l.ownerLocal = true) : Entries (p ++ [.label i l (some w)]) := by
  have ht : symbols (p ++ [.label i l (some w)]) = symbols p := by
    rw [symbols_snoc, step_label_skip fun _ => hd]
  have hs : run (p ++ [.label i l (some w)]) = run p := by
    rw [run_snoc]
    change passLabel _ _ _ _ = _
    rw [passLabel, if_pos ⟨rfl, h.dropped ▸ hd⟩]
  have hmem {i' j' : ℕ} {e : Lent} (hm : .sect i' j' e ∈ p ++ [.label i l (some w)]) :
      .sect i' j' e ∈ p := by
    rcases mem_sect_snoc hm with hm | hm
    · exact hm
    · exact absurd hm (by simp)
  refine ⟨by rw [hs, ht, h.dropped], ?_, ?_, ?_, ?_, ?_, ?_⟩
  · intro n
    rw [hs, ht]
    exact (h.entry n).congr (fun _ _ _ _ => rfl) (privateFirst_mono _)
  · intro n
    rw [hs, h.entered, notEntered_snoc]
    have hne : ¬ Entered p n (.label i l (some w)) :=
      fun hx => hx.2 rfl ((hD.dropped _ _).mp hd)
    simp [hne]
  · intro n hn
    rw [hs]
    rcases privateFirst_snoc.mp hn with hn | ⟨_, _, _, hx, -⟩
    · obtain ⟨i', j', e, hm, hpf⟩ := h.privFind n hn
      exact ⟨i', j', e, List.mem_append_left _ hm, hpf⟩
    · exact absurd hx (by simp)
  · intro i' j' e hm
    rw [hs]
    exact h.priv i' j' e (hmem hm)
  · intro i' j' e hm hpc
    rw [hs]
    obtain ⟨h1, h2⟩ := h.privIndex i' j' e (hmem hm) hpc
    exact ⟨h1, fun m hk => privateFirst_mono _ (h2 m hk)⟩
  · intro i' j' e hm
    rw [hs]
    exact h.found i' j' e (hmem hm)

/-- A step that replaces or adds the entry of one name keeps what holds of the private code. -/
theorem priv_of_updates (h : Entries p) {G' : List Gsym} {n : Name} {gi : ℕ} {g : Gsym}
    (hu : Updates (run p).G G' n gi g)
    (hsame : ∀ o, look (run p).G n = some o → o.type = .pc → PrivateFirst p n → g = o)
    {i j : ℕ} {e : Lent} (hm : .sect i j e ∈ p) (hpc : e.type = .pc) :
    RealizesPrivate (gAt G' ((run p).locG i j)) i e ∧ (run p).locG i j < G'.length ∧
      ∀ m, gFind G' m = some ((run p).locG i j) → PrivateFirst p m := by
  obtain ⟨hlt, hpf⟩ := h.privIndex i j e hm hpc
  have hr := h.priv i j e hm hpc
  refine ⟨?_, hlt.trans_le hu.length, ?_⟩
  · by_cases hk : (run p).locG i j = gi
    · have hf := hu.find_of_lt (hk ▸ hlt)
      have hl : look (run p).G n = some (gAt (run p).G gi) := by simp [look, hf]
      rw [hk] at hr hpf ⊢
      rw [hu.entry, hsame _ hl hr.2.1 (hpf n hf)]
      exact hr
    · rw [hu.atOther _ hlt hk]
      exact hr
  · intro m hk
    apply hpf m
    by_cases hmn : m = n
    · subst hmn
      have hgi : (run p).locG i j = gi := Option.some.inj (hk.symm.trans hu.find)
      rw [hgi]
      exact hu.find_of_lt (hgi ▸ hlt)
    · rw [← hu.findOther m hmn]
      exact hk

theorem snoc_sect (h : Entries p) (hD : Defined p) {i j : ℕ} {e : Lent} (hpc : e.type ≠ .pc)
    (hc : ¬ Clash p (.sect i j e)) (ho : OrderedAt p (.sect i j e)) :
    Entries (p ++ [.sect i j e]) := by
  have hl (hs : e.type = .sd ∨ e.type = .cm) :
      (∀ x, (symbols p).defs e.name = some x → x.isLabel = false) ∧ ¬ PrivateFirst p e.name :=
    ⟨hD.notLabel fun hx => hc ⟨hs, .inl hx⟩, fun hx => hc ⟨hs, .inr hx⟩⟩
  have hu := passSection_updates hpc (run p) i j
  have hrun : run (p ++ [.sect i j e]) = passSection (run p) i j e := run_snoc ..
  have hloc {i' j' : ℕ} {e' : Lent} (hm : .sect i' j' e' ∈ p) :
      (passSection (run p) i j e).locG i' j' = (run p).locG i' j' := by
    apply passSection_locG_of_ne
    rintro ⟨rfl, rfl⟩
    exact ho.2 _ hm
  have hlab (n : Name) (i' : ℕ) (l : Ldent) (w : Lent)
      (hd : (symbols p).defs n = some (.label i' l w)) :
      (passSection (run p) i j e).locG i' l.ownerLocal = (run p).locG i' l.ownerLocal := by
    apply passSection_locG_of_ne
    rintro ⟨rfl, -⟩
    exact ho.1 _ _ (hD.labelMem _ _ _ _ hd)
  have hsame (o : Gsym) (hlk : look (run p).G e.name = some o) (hty : o.type = .pc)
      (hpf : PrivateFirst p e.name) :
      (interned (look (run p).G e.name) e.name e.type).define i e = o := by
    have hsd : e.type ≠ .sd := fun hs => (hl (.inl hs)).2 hpf
    have hcm : e.type ≠ .cm := fun hs => (hl (.inr hs)).2 hpf
    rw [hlk, interned_of_ne_wx (by rw [hty]; decide), define_reference hsd hcm hpc]
  refine ⟨?_, ?_, ?_, ?_, ?_, ?_, ?_⟩
  · rw [hrun, symbols_snoc, passSection_dropped hpc, h.dropped]
    funext i' j'
    rw [Bool.eq_iff_iff, step_sect_dropped]
    by_cases hs : e.type = .sd
    · have hdup := (define_csect (h.entry e.name) hs (hl (.inl hs)).1 (hl (.inl hs)).2 e.name i j).2
      split_ifs with hx
      · exact iff_of_true rfl (.inr ⟨hx.1, hx.2.1, hs, hdup.mp hx.2.2⟩)
      · constructor
        · exact .inl
        · rintro (hy | ⟨h1, h2, -, h3⟩)
          · exact hy
          · exact absurd ⟨h1, h2, hdup.mpr h3⟩ hx
    · simp [Gsym.duplicate, hs]
  · intro n
    rw [hrun, symbols_snoc, step_sect_defs]
    split_ifs with hn
    · subst hn
      rw [hu.look_self]
      refine ((h.entry e.name).section hpc hl e.name i j).congr ?_ (privateFirst_mono _)
      intro i' l w hd
      refine hlab e.name i' l w ((sectThen_eq_label i j (fun hs => (hl hs).1) rfl).mp hd)
    · rw [hu.look_other hn]
      exact (h.entry n).congr (hlab n) (privateFirst_mono _)
  · intro n
    rw [hrun, notEntered_snoc]
    by_cases hn : n = e.name
    · subst hn
      simp [hu.look_self, Entered]
    · have hne : ¬ e.name = n := fun hx => hn hx.symm
      rw [hu.look_other hn, h.entered]
      simp [Entered, hne]
  · intro n hn
    rw [hrun]
    rcases privateFirst_snoc.mp hn with hn | ⟨_, _, _, hx, -, ht, -⟩
    · obtain ⟨i', j', e', hm, hpc', hf⟩ := h.privFind n hn
      exact ⟨i', j', e', List.mem_append_left _ hm, hpc', by rw [hloc hm]; exact hu.find_le hf⟩
    · obtain ⟨-, -, rfl⟩ := EsdItem.sect.inj hx
      exact absurd ht hpc
  · intro i' j' e' hm hpc'
    rw [hrun]
    rcases mem_sect_snoc hm with hm | hx
    · rw [hloc hm]
      exact (h.priv_of_updates hu hsame hm hpc').1
    · obtain ⟨-, -, rfl⟩ := EsdItem.sect.inj hx
      exact absurd hpc' hpc
  · intro i' j' e' hm hpc'
    rw [hrun]
    rcases mem_sect_snoc hm with hm | hx
    · rw [hloc hm]
      obtain ⟨-, h1, h2⟩ := h.priv_of_updates hu hsame hm hpc'
      exact ⟨h1, fun m hk => privateFirst_mono _ (h2 m hk)⟩
    · obtain ⟨-, -, rfl⟩ := EsdItem.sect.inj hx
      exact absurd hpc' hpc
  · intro i' j' e' hm hpc'
    rw [hrun]
    rcases mem_sect_snoc hm with hm | hx
    · rw [hloc hm]
      exact hu.find_le (h.found i' j' e' hm hpc')
    · obtain ⟨rfl, rfl, rfl⟩ := EsdItem.sect.inj hx
      exact hu.find

theorem snoc_private (h : Entries p) (hD : Defined p) {i j : ℕ} {e : Lent} (hpc : e.type = .pc)
    (ho : OrderedAt p (.sect i j e)) : Entries (p ++ [.sect i j e]) := by
  obtain ⟨hG, hi, hdr⟩ := passSection_private hpc (run p) i j
  have hrun : run (p ++ [.sect i j e]) = passSection (run p) i j e := run_snoc ..
  have hdef : (Gsym.fresh e.name).define i e =
      { Gsym.fresh e.name with
        isSect := true, type := .pc, len := e.len, defObj := some i, inAddr := e.addr } := by
    simp [Gsym.define, Gsym.duplicate, hpc, isSectType]
  have hsym : (symbols p).step (.sect i j e) = symbols p := by simp [Symbols.step, hpc]
  have hloc {i' j' : ℕ} {e' : Lent} (hm : .sect i' j' e' ∈ p) :
      (passSection (run p) i j e).locG i' j' = (run p).locG i' j' := by
    apply passSection_locG_of_ne
    rintro ⟨rfl, rfl⟩
    exact ho.2 _ hm
  have hnew {n : Name} (hn : look (run p).G n = none) (he : e.name = n) :
      PrivateFirst (p ++ [.sect i j e]) n :=
    privateFirst_snoc.mpr (.inr ⟨i, j, e, rfl, he, hpc, (h.entered n).mp hn⟩)
  refine ⟨?_, ?_, ?_, ?_, ?_, ?_, ?_⟩
  · rw [hrun, symbols_snoc, hdr, hsym, h.dropped]
  · intro n
    rw [hrun, symbols_snoc, hsym, hG, look_append, define_name]
    cases hlk : look (run p).G n with
    | some g =>
      have hen := h.entry n
      rw [hlk] at hen
      refine hen.congr ?_ (privateFirst_mono _)
      intro i' l w hd
      apply passSection_locG_of_ne
      rintro ⟨rfl, -⟩
      exact ho.1 _ _ (hD.labelMem _ _ _ _ hd)
    | none =>
      rw [hD.undefined ((h.entered n).mp hlk)]
      intro g hg
      rw [Option.none_or] at hg
      split_ifs at hg with hn
      obtain rfl := Option.some.inj hg
      rw [hdef]
      exact ⟨rfl, fun _ => hnew hlk hn⟩
  · intro n
    rw [hrun, hG, look_append, define_name, notEntered_snoc, ← h.entered]
    by_cases hn : e.name = n
    · simp [Entered, hn, Gsym.fresh]
    · simp [Entered, hn, Gsym.fresh]
  · intro n hn
    rw [hrun, hG]
    rcases privateFirst_snoc.mp hn with hn | ⟨i', j', e', hx, hnm, -, hne⟩
    · obtain ⟨i', j', e', hm, hpc', hf⟩ := h.privFind n hn
      refine ⟨i', j', e', List.mem_append_left _ hm, hpc', ?_⟩
      rw [hloc hm, gFind_append, hf]
      rfl
    · obtain ⟨rfl, rfl, rfl⟩ := EsdItem.sect.inj hx
      have hfn : ((Gsym.fresh e.name).define i e).name = n := (define_name _ _ _).trans hnm
      have hf : gFind (run p).G n = none := Option.map_eq_none_iff.mp ((h.entered n).mpr hne)
      refine ⟨i, j, e, by simp, hpc, ?_⟩
      rw [hi, gFind_append, hf, if_pos hfn]
      rfl
  · intro i' j' e' hm hpc'
    rw [hrun]
    rcases mem_sect_snoc hm with hm | hx
    · rw [hloc hm, hG, gAt_append_lt _ (h.privIndex i' j' e' hm hpc').1]
      exact h.priv i' j' e' hm hpc'
    · obtain ⟨rfl, rfl, rfl⟩ := EsdItem.sect.inj hx
      rw [hi, hG, gAt_append_length, hdef]
      exact ⟨rfl, rfl, rfl, rfl, rfl, rfl⟩
  · intro i' j' e' hm hpc'
    rw [hrun]
    rcases mem_sect_snoc hm with hm | hx
    · obtain ⟨h1, h2⟩ := h.privIndex i' j' e' hm hpc'
      rw [hloc hm, hG]
      refine ⟨by rw [List.length_append]; omega, ?_⟩
      intro m hk
      rw [gFind_append] at hk
      rcases Option.or_eq_some_iff.mp hk with hk | ⟨-, hk⟩
      · exact privateFirst_mono _ (h2 m hk)
      · split_ifs at hk
        exact absurd (Option.some.inj hk) (by omega)
    · obtain ⟨rfl, rfl, rfl⟩ := EsdItem.sect.inj hx
      rw [hi, hG]
      refine ⟨by simp, ?_⟩
      intro m hk
      rw [gFind_append] at hk
      rcases Option.or_eq_some_iff.mp hk with hk | ⟨hk0, hk⟩
      · exact absurd (gFind_lt hk) (by omega)
      · split_ifs at hk with hm'
        rw [define_name] at hm'
        exact hnew (by simp [look, hk0]) hm'
  · intro i' j' e' hm hpc'
    rw [hrun]
    rcases mem_sect_snoc hm with hm | hx
    · rw [hloc hm, hG, gFind_append, h.found i' j' e' hm hpc']
      rfl
    · obtain ⟨-, -, rfl⟩ := EsdItem.sect.inj hx
      exact absurd hpc hpc'

theorem snoc_label (h : Entries p) (hD : Defined p) {i : ℕ} {l : Ldent} {owner : Option Lent}
    (hd : ¬ (owner.isSome ∧ (run p).dropped i l.ownerLocal)) (hc : ¬ Clash p (.label i l owner)) :
    Entries (p ++ [.label i l owner]) := by
  have hnd : owner.isSome → ¬ DroppedIn p i l.ownerLocal := by
    intro hs hx
    apply hd
    rw [h.dropped]
    exact ⟨hs, (hD.dropped _ _).mpr hx⟩
  have hsec : ¬ ∃ x ∈ p, x.DefinesSection l.name := fun hx => hc ⟨hnd, .inl hx⟩
  have hpf : ¬ PrivateFirst p l.name := fun hx => hc ⟨hnd, .inr hx⟩
  obtain ⟨gi, hu⟩ := passLabel_updates hd
  have hrun : run (p ++ [.label i l owner]) = passLabel (run p) i l owner := run_snoc ..
  obtain ⟨hloc, hdr⟩ := passLabel_locG (run p) i l owner
  have hmem {i' j' : ℕ} {e : Lent} (hm : .sect i' j' e ∈ p ++ [.label i l owner]) :
      .sect i' j' e ∈ p := by
    rcases mem_sect_snoc hm with hm | hm
    · exact hm
    · exact absurd hm (by simp)
  have hsame (o : Gsym) (_ : look (run p).G l.name = some o) (_ : o.type = .pc)
      (hx : PrivateFirst p l.name) : (interned (look (run p).G l.name) l.name .ld).label l owner
        ((run p).locG i l.ownerLocal) = o := absurd hx hpf
  have hfalse (w : Lent) (ho : owner = some w) : (symbols p).dropped i l.ownerLocal = false := by
    subst ho
    simpa [h.dropped] using hd
  refine ⟨?_, ?_, ?_, ?_, ?_, ?_, ?_⟩
  · rw [hrun, symbols_snoc, hdr, step_label_dropped, h.dropped]
  · intro n
    rw [hrun, symbols_snoc]
    have hcongr {q : Prop} {o : Option Gsym} {d : Option Definition}
        (he : EntryOk (run p) (PrivateFirst p n) o d) (hq : PrivateFirst p n → q) :
        EntryOk (passLabel (run p) i l owner) q o d :=
      he.congr (fun _ _ _ _ => by rw [hloc]) hq
    apply hcongr _ (privateFirst_mono _)
    by_cases hn : n = l.name
    · subst hn
      rw [hu.look_self]
      cases owner with
      | none => exact label_unowned (h.entry l.name) (hD.onlyLabel hsec) l.name l _
      | some w =>
        rw [step_label_defs w (hfalse w rfl), if_pos rfl]
        exact ⟨_, rfl, label_owned (h.entry l.name) (hD.onlyLabel hsec) hpf l.name i l w⟩
    · rw [hu.look_other hn]
      cases owner with
      | none => exact h.entry n
      | some w =>
        rw [step_label_defs w (hfalse w rfl), if_neg hn]
        exact h.entry n
  · intro n
    rw [hrun, notEntered_snoc]
    by_cases hn : n = l.name
    · subst hn
      have he : Entered p l.name (.label i l owner) := ⟨rfl, hnd⟩
      simp [hu.look_self, he]
    · have hne : ¬ Entered p n (.label i l owner) := fun hx => hn hx.1.symm
      rw [hu.look_other hn, h.entered]
      simp [hne]
  · intro n hn
    rw [hrun]
    rcases privateFirst_snoc.mp hn with hn | ⟨_, _, _, hx, -⟩
    · obtain ⟨i', j', e, hm, hpc, hf⟩ := h.privFind n hn
      exact ⟨i', j', e, List.mem_append_left _ hm, hpc, by rw [hloc]; exact hu.find_le hf⟩
    · exact absurd hx (by simp)
  · intro i' j' e hm hpc
    rw [hrun, hloc]
    exact (h.priv_of_updates hu hsame (hmem hm) hpc).1
  · intro i' j' e hm hpc
    rw [hrun, hloc]
    obtain ⟨-, h1, h2⟩ := h.priv_of_updates hu hsame (hmem hm) hpc
    exact ⟨h1, fun m hk => privateFirst_mono _ (h2 m hk)⟩
  · intro i' j' e hm hpc
    rw [hrun, hloc]
    exact hu.find_le (h.found i' j' e (hmem hm) hpc)

theorem snoc (h : Entries p) (hD : Defined p) {x : EsdItem} (hc : ¬ Clash p x)
    (ho : OrderedAt p x) : Entries (p ++ [x]) := by
  cases x with
  | sect i j e =>
    by_cases hpc : e.type = .pc
    · exact h.snoc_private hD hpc ho
    · exact h.snoc_sect hD hpc hc ho
  | label i l owner =>
    by_cases hd : owner.isSome ∧ (run p).dropped i l.ownerLocal
    · obtain ⟨w, rfl⟩ := Option.isSome_iff_exists.mp hd.1
      exact h.snoc_skip hD (h.dropped ▸ hd.2)
    · exact h.snoc_label hD hd hc

theorem refines (h : Entries p) : Refines p (run p) (symbols p) := by
  refine ⟨h.dropped, ?_, h.priv⟩
  intro n d hd
  have he := h.entry n
  rw [hd] at he
  exact he

end Entries

end Cc370.Ld370
