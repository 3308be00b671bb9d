import Cc370.Ld370.RecordStream
import Cc370.Ld370.RldRecords

namespace Cc370.Ld370

section Control

variable {opt : Options} {m : BigEndian.Memory} {moddef : ℤ → Bool} {haveRld lastChunk : Bool} {c : TextSect × List TextSect}

theorem chunkRecords_control_length (fuel : ℕ) (p : ℤ) :
    ∀ r ∈ chunkRecords opt m moddef haveRld lastChunk c fuel p, r.control.length = 16 + 4 * (Chunk.sects c).length := by
  induction fuel generalizing p with
  | zero => exact nofun
  | succ fuel ih =>
    intro r hr
    rw [chunkRecords_succ] at hr
    rcases List.mem_append.mp hr with hr | hr
    · split_ifs at hr
      · exact absurd hr List.not_mem_nil
      · rw [List.mem_singleton.mp hr]
        exact control_length ..
    · split_ifs at hr
      · exact ih _ r hr
      · exact absurd hr List.not_mem_nil

theorem cend_le {L : Layout} (hc : c ∈ L.chunks opt) (hmany : c.2 ≠ []) : Chunk.cend c - c.1.org ≤ opt.maxtext := by
  have hlast : c.2.getLast? = some (c.2.getLast hmany) := List.getLast?_eq_some_getLast hmany
  rw [Chunk.cend, hlast]
  exact packChunks_fits _ _ _ c hc _ (List.getLast_mem hmany)

end Control

/-- The records that program fetch reads into its buffer fit there. -/
def FitsBuffer (L : Layout) (opt : Options) : Prop :=
  (∀ r ∈ L.textRecords opt, r.control.length ≤ 256) ∧ ∀ rec ∈ rldRecords L.rldItems, rec.length ≤ 256

theorem rldRecords_fit (L : Layout) : ∀ rec ∈ rldRecords L.rldItems, rec.length ≤ 256 := by
  rcases rldRecords_spec L.rldItems with ⟨-, hnil⟩ | ⟨-, rs, data, heq, hdata, hrs⟩
  · rw [hnil]
    exact nofun
  · have hmax : rldmax = 236 := rfl
    have hrecord : ∀ byte0 d, d.length ≤ rldmax → (rldRecord byte0 d).length ≤ 256 := by
      intro byte0 d hd
      simp [rldRecord]
      omega
    rw [heq]
    intro rec hrec
    rcases List.mem_append.mp hrec with hrec | hrec
    · obtain ⟨d, rfl, hd⟩ := hrs rec hrec
      exact hrecord _ _ hd
    · rw [List.mem_singleton.mp hrec]
      exact hrecord _ _ hdata

section Sections

variable {L : Layout} {opt : Options} {pre post : List (TextSect × List TextSect)} {c : TextSect × List TextSect}

/-- A record that is written for too many sections does not fit. -/
theorem FitsBuffer.sects_le (h : FitsBuffer L opt) (hsplit : L.chunks opt = pre ++ c :: post)
    (hw : Chunk.Written opt L.moddef L.haveRld post.isEmpty c) : (Chunk.sects c).length ≤ 60 := by
  by_contra hmany
  have hne : c.2 ≠ [] := by
    intro hnil
    simp [Chunk.sects, hnil] at hmany
  have hfits : Chunk.cend c - c.1.org ≤ opt.maxtext := cend_le (by rw [hsplit]; simp) hne
  have hskip : Chunk.skips opt L.moddef L.haveRld post.isEmpty c c.1.org ≠ true :=
    fun hs => (skips_iff_not_written hfits).mp hs hw
  have hmem : Chunk.record opt L.relocated L.haveRld post.isEmpty c c.1.org ∈
      chunkRecords opt L.relocated L.moddef L.haveRld post.isEmpty c ((Chunk.cend c - c.1.org).toNat + 1) c.1.org := by
    rw [chunkRecords_single hfits, if_neg hskip]
    exact List.mem_singleton_self _
  have hshort := (forall_mem_textRecords (L.chunks opt)).mp h.1 pre c post hsplit _ hmem
  have hlen := chunkRecords_control_length _ _ _ hmem
  omega

theorem control_short (hsplit : L.chunks opt = pre ++ c :: post)
    (h : Chunk.Written opt L.moddef L.haveRld post.isEmpty c → (Chunk.sects c).length ≤ 60) :
    ∀ r ∈ chunkRecords opt L.relocated L.moddef L.haveRld post.isEmpty c ((Chunk.cend c - c.1.org).toNat + 1) c.1.org, r.control.length ≤ 256 := by
  intro r hr
  rw [chunkRecords_control_length _ _ r hr]
  by_cases hone : c.2 = []
  · simp [Chunk.sects, hone]
  · have hfits : Chunk.cend c - c.1.org ≤ opt.maxtext := cend_le (by rw [hsplit]; simp) hone
    rw [chunkRecords_single hfits] at hr
    split_ifs at hr with hskip
    · exact absurd hr List.not_mem_nil
    · have hw : Chunk.Written opt L.moddef L.haveRld post.isEmpty c := by
        by_contra hno
        exact hskip ((skips_iff_not_written hfits).mpr hno)
      have := h hw
      omega

end Sections

/-- An object with so many sections of eight bytes. -/
def smallSections (n : ℕ) : Deck :=
  .ofCards (((List.range n).toChunks 3).zipIdx.map (fun (ks, i) => Deck.esdCard (3 * i + 1) (ks.map fun k =>
    Deck.esdItem (letterName (.ofNat (0x80 + k))) 0x00 (8 * k) 8)) ++ [Deck.txtCard 0 1 [1, 2, 3, 4], Deck.endCard])

/-- The entry a section gets under a name no entry has. -/
def ownEntry (i : ℕ) (e : Lent) : Gsym := ⟨e.name, e.type, true, 0, 0, e.len, some i, e.addr, none⟩

theorem passSection_new {s : Composite} {e : Lent} (hsd : e.type = .sd) (hnew : gFind s.G e.name = none) (i j : ℕ) :
    passSection s i j e = { s with
      G := s.G ++ [ownEntry i e]
      locG := fun i' j' => if i' = i ∧ j' = j then s.G.length else s.locG i' j' } := by
  have hintern : e.intern s.G = (s.G ++ [⟨e.name, .sd, false, 0, 0, 0, none, 0, none⟩], s.G.length) := by
    rw [Lent.intern, hsd, if_neg (by decide), gIntern, hnew]
    rfl
  have hat (g : Gsym) : gAt (s.G ++ [g]) s.G.length = g := by
    simp [gAt]
  rw [passSection, hintern]
  simp [hat, Gsym.duplicate, Gsym.define, Gsym.commonTooLong, isSectType, ownEntry, hsd]

theorem foldl_sect (i : ℕ) (es : List (ℕ × Lent)) : ∀ s : Composite, (∀ x ∈ es, x.2.type = .sd) →
    (es.map fun x => x.2.name).Nodup → (∀ x ∈ es, gFind s.G x.2.name = none) →
    ∃ locG, (es.map fun x => EsdItem.sect i x.1 x.2).foldl Composite.step s =
      { s with G := s.G ++ es.map fun x => ownEntry i x.2, locG := locG } := by
  induction es with
  | nil =>
    intro s _ _ _
    exact ⟨s.locG, by simp⟩
  | cons x es ih =>
    intro s hsd hnames hnew
    obtain ⟨hx, hnames⟩ := List.nodup_cons.mp hnames
    have hstep := passSection_new (hsd x List.mem_cons_self) (hnew x List.mem_cons_self) i x.1
    have hnew' : ∀ y ∈ es, gFind (s.G ++ [ownEntry i x.2]) y.2.name = none := by
      intro y hy
      have hne : (ownEntry i x.2).name ≠ y.2.name := fun h => hx (List.mem_map.mpr ⟨y, hy, h.symm⟩)
      rw [gFind_append, hnew y (List.mem_cons_of_mem _ hy), if_neg hne, Option.or_none]
    obtain ⟨locG, hfold⟩ := ih (passSection s i x.1 x.2) (fun y hy => hsd y (List.mem_cons_of_mem _ hy)) hnames
      (by rw [hstep]; exact hnew')
    refine ⟨locG, ?_⟩
    rw [List.map_cons, List.foldl_cons, Composite.step, hfold, hstep]
    simp

def smallEntries (n : ℕ) : List (ℕ × Lent) :=
  (List.range n).map fun k => (k + 1, ⟨letterName (.ofNat (0x80 + k)), .sd, 8 * k, 8⟩)

theorem smallSections_items : items [parseObject (smallSections 61)] =
    (smallEntries 61).map fun x => EsdItem.sect 0 x.1 x.2 := by decide +kernel

theorem smallEntries_names : ((smallEntries 61).map fun x => x.2.name).Nodup := by
  have hinj : ∀ a b : UInt8, letterName a = letterName b → a = b := by
    intro a b h
    simpa [letterName] using congrArg (fun n : Name => n[0]) h
  rw [smallEntries, List.map_map]
  refine List.Nodup.map_on ?_ List.nodup_range
  intro a ha b hb h
  have ha' := List.mem_range.mp ha
  have hb' := List.mem_range.mp hb
  have hbyte := congrArg UInt8.toNat (hinj _ _ h)
  simp only [UInt8.toNat_ofNat'] at hbyte
  omega

theorem smallSections_pass2 : pass2 [parseObject (smallSections 61)] =
    ⟨(smallEntries 61).map fun x => ownEntry 0 x.2, (pass2 [parseObject (smallSections 61)]).locG, fun _ _ => false, 0, 0⟩ := by
  have hsd : ∀ x ∈ smallEntries 61, x.2.type = .sd := by
    intro x hx
    obtain ⟨k, -, rfl⟩ := List.mem_map.mp hx
    rfl
  obtain ⟨locG, hfold⟩ := foldl_sect 0 (smallEntries 61) .empty hsd smallEntries_names (fun _ _ => rfl)
  rw [pass2, smallSections_items, hfold]
  rfl

end Cc370.Ld370
