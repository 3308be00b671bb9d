import Cc370.Ar370.Exports
import Cc370.Ld370.Resolution
import Cc370.Lib.Rounds

namespace Cc370.Ld370

open Rounds

/-- A loaded archive and the file it was read from. -/
structure ArFile where
  toArchive : Archive
  data : Buffer

/-- The loaded objects, as the decks they were read from, and the members that were pulled, by archive
and offset. -/
structure Loaded where
  decks : List Deck
  pulled : List (ℕ × ℕ)

namespace Loaded

def objects (st : Loaded) : List Obj := st.decks.map parseObject

end Loaded

def isDefined (O : List Obj) (n : Name) : Bool := O.any fun o => o.defines n

def memberDeck (f : ArFile) (off : ℕ) : Deck := ⟨fun k => f.data (off + 60 + k), sizeAt f.data off⟩

/-- A card of the member defines a name again. -/
def cardConflicts (O : List Obj) (c : Buffer) : Bool :=
  isEsdCard c ∧ ((List.range 4).filter fun k => k * 16 < mvsBe16 c 10).any fun k =>
    (cardTypeAt c k = .sd ∨ cardTypeAt c k = .ld ∨ cardTypeAt c k = .cm) ∧ nameAt c (16 + k * 16) ≠ blankName ∧
      isDefined O (nameAt c (16 + k * 16))

def memberConflicts (O : List Obj) (f : ArFile) (off : ℕ) : Bool := (memberDeck f off).cards.any (cardConflicts O)

section Autocall

variable (ars : List ArFile)

/-- The members that the symbol tables list for a name and that were not pulled. -/
def candidates (pulled : List (ℕ × ℕ)) (want : List UInt8) : List (ℕ × ℕ) :=
  (ars.zipIdx.flatMap fun f => (f.1.toArchive.sym.filter fun s => s.name = want).map fun s => (f.2, s.off)).filter
    fun c => c ∉ pulled

def deckAt (c : ℕ × ℕ) : Option Deck := ars[c.1]?.map fun f => memberDeck f c.2

def conflictAt (O : List Obj) (c : ℕ × ℕ) : Bool := ars[c.1]?.any fun f => memberConflicts O f c.2

/-- The first candidate without a conflict, else the first. -/
def pick (O : List Obj) (cands : List (ℕ × ℕ)) : Option (ℕ × ℕ) :=
  (cands.find? fun c => !conflictAt ars O c).or cands.head?

def pullDefiner (st : Loaded) (want : List UInt8) : Option Loaded :=
  (pick ars st.objects (candidates ars st.pulled want)).bind fun c =>
    (deckAt ars c).map fun d => ⟨st.decks ++ [d], st.pulled ++ [c]⟩

/-- The external references of the objects, in the order in which `autocall` looks at them. -/
def references (O : List Obj) : List Name :=
  O.flatMap fun o => Obj.esdids.filterMap fun j => (o.loc j).bind fun e => if e.type = .er then some e.name else none

def reference (st : Loaded) (n : Name) : Option Loaded :=
  if isDefined st.objects n then none else pullDefiner ars st (mvsNm n)

/-- One turn of the `while`, over the objects that are loaded when it begins. -/
def autocallPass (st : Loaded) : Loaded × Bool := (references st.objects).foldl (visit (reference ars)) (st, false)

def autocall : ℕ → Loaded → Option Loaded := rounds (autocallPass ars)

def listed : List (ℕ × ℕ) := ars.zipIdx.flatMap fun f => f.1.toArchive.sym.map fun s => (f.2, s.off)

/-- How many of the members in the symbol tables are left. -/
def unpulled (st : Loaded) : ℕ := ((listed ars).toFinset \ st.pulled.toFinset).card

end Autocall

/-- The reference is met, or no symbol table lists a member for it that was not pulled. -/
def Met (ars : List ArFile) (st : Loaded) (n : Name) : Prop :=
  isDefined st.objects n = true ∨ ∀ a f, ars[a]? = some f → ∀ s ∈ f.toArchive.sym, s.name = mvsNm n → (a, s.off) ∈ st.pulled

section Pull

variable {ars : List ArFile} {st st' : Loaded} {want : List UInt8}

theorem mem_candidates {c : ℕ × ℕ} : c ∈ candidates ars st.pulled want ↔
    (∃ f, ars[c.1]? = some f ∧ ∃ s ∈ f.toArchive.sym, s.name = want ∧ s.off = c.2) ∧ c ∉ st.pulled := by
  rw [candidates, List.mem_filter, decide_eq_true_iff]
  refine and_congr_left fun _ => ?_
  constructor
  · intro h
    obtain ⟨⟨f, a⟩, hf, hc⟩ := List.mem_flatMap.mp h
    obtain ⟨s, hs, rfl⟩ := List.mem_map.mp hc
    obtain ⟨hs, hname⟩ := List.mem_filter.mp hs
    exact ⟨f, List.mk_mem_zipIdx_iff_getElem?.mp hf, s, hs, of_decide_eq_true hname, rfl⟩
  · rintro ⟨f, hf, s, hs, hname, hoff⟩
    refine List.mem_flatMap.mpr ⟨(f, c.1), List.mk_mem_zipIdx_iff_getElem?.mpr hf, ?_⟩
    exact List.mem_map.mpr ⟨s, List.mem_filter.mpr ⟨hs, decide_eq_true hname⟩, by rw [hoff]⟩

theorem mem_listed {c : ℕ × ℕ} (h : c ∈ candidates ars st.pulled want) : c ∈ listed ars := by
  obtain ⟨⟨f, hf, s, hs, -, hoff⟩, -⟩ := mem_candidates.mp h
  exact List.mem_flatMap.mpr ⟨(f, c.1), List.mk_mem_zipIdx_iff_getElem?.mpr hf, List.mem_map.mpr ⟨s, hs, by rw [hoff]⟩⟩

theorem pick_mem {O : List Obj} {cands : List (ℕ × ℕ)} {c : ℕ × ℕ} (h : pick ars O cands = some c) : c ∈ cands := by
  rw [pick, Option.or_eq_some_iff] at h
  rcases h with h | ⟨-, h⟩
  · exact List.mem_of_find?_eq_some h
  · exact List.mem_of_mem_head? h

/-- A pull: a member that a symbol table lists and that was not pulled before. -/
theorem pullDefiner_some (h : pullDefiner ars st want = some st') :
    ∃ c ∈ listed ars, c ∉ st.pulled ∧ st'.pulled = st.pulled ++ [c] ∧ ∃ d, st'.decks = st.decks ++ [d] := by
  obtain ⟨c, hc, h⟩ := Option.bind_eq_some_iff.mp h
  obtain ⟨d, -, rfl⟩ := Option.map_eq_some_iff.mp h
  have hmem := pick_mem hc
  exact ⟨c, mem_listed hmem, (mem_candidates.mp hmem).2, rfl, d, rfl⟩

theorem pullDefiner_none (h : pullDefiner ars st want = none) : candidates ars st.pulled want = [] := by
  by_contra hne
  obtain ⟨c, t, hct⟩ := List.exists_cons_of_ne_nil hne
  have hsome : (pick ars st.objects (candidates ars st.pulled want)).isSome = true := by
    rw [pick, hct, List.head?_cons]
    cases List.find? (fun c => !conflictAt ars st.objects c) (c :: t) <;> rfl
  obtain ⟨x, hx⟩ := Option.isSome_iff_exists.mp hsome
  obtain ⟨⟨f, hf, -⟩, -⟩ := mem_candidates.mp (pick_mem hx)
  rw [pullDefiner, hx, Option.bind_some, deckAt, hf] at h
  exact absurd h (by simp)

theorem reference_measure (s : Loaded) (n : Name) (s' : Loaded) (h : reference ars s n = some s') :
    unpulled ars s' < unpulled ars s := by
  rw [reference] at h
  split_ifs at h
  obtain ⟨c, hlist, hnew, hpulled, -⟩ := pullDefiner_some h
  apply Finset.card_lt_card
  rw [Finset.ssubset_iff_of_subset]
  · refine ⟨c, ?_, ?_⟩
    · simp only [Finset.mem_sdiff, List.mem_toFinset]
      exact ⟨hlist, hnew⟩
    · simp only [Finset.mem_sdiff, List.mem_toFinset, hpulled]
      simp
  · intro x hx
    simp only [Finset.mem_sdiff, List.mem_toFinset, hpulled, List.mem_append, not_or] at hx ⊢
    exact ⟨hx.1, hx.2.1⟩

theorem met_of_none {n : Name} (h : reference ars st n = none) : Met ars st n := by
  rw [reference] at h
  split_ifs at h with hd
  · exact .inl hd
  · right
    intro a f hf s hs hname
    by_contra hnot
    have hmem : (a, s.off) ∈ candidates ars st.pulled (mvsNm n) := mem_candidates.mpr ⟨⟨f, hf, s, hs, hname, rfl⟩, hnot⟩
    rw [pullDefiner_none h] at hmem
    exact absurd hmem List.not_mem_nil

/-- What pulling does to the list of members: it adds new ones behind it. -/
def Extends (old new : List (ℕ × ℕ)) : Prop := ∃ more, new = old ++ more ∧ more.Nodup ∧ ∀ c ∈ more, c ∉ old

theorem Extends.pull {old : List (ℕ × ℕ)} {n : Name} (h : Extends old st.pulled) (hr : reference ars st n = some st') :
    Extends old st'.pulled := by
  rw [reference] at hr
  split_ifs at hr
  obtain ⟨c, -, hnew, hpulled, -⟩ := pullDefiner_some hr
  obtain ⟨more, hmore, hnodup, hfresh⟩ := h
  rw [hmore, List.mem_append, not_or] at hnew
  refine ⟨more ++ [c], by rw [hpulled, hmore, List.append_assoc], ?_, ?_⟩
  · rw [List.nodup_append]
    refine ⟨hnodup, List.nodup_singleton c, ?_⟩
    rintro a ha b hb rfl
    rw [List.mem_singleton] at hb
    exact hnew.2 (hb ▸ ha)
  · intro x hx
    rcases List.mem_append.mp hx with hx | hx
    · exact hfresh x hx
    · rw [List.mem_singleton.mp hx]
      exact hnew.1

/-- `autocall` comes to an end: it pulls no member twice, and has nothing to do at any reference. -/
theorem autocall_ends (ars : List ArFile) (st : Loaded) : ∃ st', (∀ fuel, unpulled ars st < fuel → autocall ars fuel st = some st') ∧
    Extends st.pulled st'.pulled ∧ ∀ n ∈ references st'.objects, Met ars st' n := by
  have hpass : ∀ s, (autocallPass ars s).2 = true → unpulled ars (autocallPass ars s).1 < unpulled ars s := by
    intro s hch
    have hm := (visit_measure (unpulled ars) reference_measure (references s.objects) (s, false)).2 hch
    exact hm.resolve_left (by simp)
  have hkeep : ∀ s, Extends st.pulled s.pulled → Extends st.pulled (autocallPass ars s).1.pulled := by
    intro s hs
    exact visit_keeps (fun s => Extends st.pulled s.pulled) (fun s n s' h hr => h.pull hr) _ (s, false) hs
  obtain ⟨t, ht, hlast, hrun⟩ := rounds_last (unpulled ars) (fun s => Extends st.pulled s.pulled) hpass hkeep
    (s := st) ⟨[], by simp, List.nodup_nil, nofun⟩
  obtain ⟨hsame, hdone⟩ := visit_done (references t.objects) (t, false) hlast
  have hst : (autocallPass ars t).1 = t := hsame
  rw [hst] at hrun
  exact ⟨t, hrun, ht, fun n hn => met_of_none (hdone n hn)⟩

end Pull

end Cc370.Ld370
