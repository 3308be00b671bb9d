import Cc370.Ld370.Records
import Cc370.Ld370.AddressConstants

namespace Cc370.Ld370

open BigEndian

namespace TextRecord

/-- The address in the control record, where program fetch puts the text. -/
def loadAddr (r : TextRecord) : ℕ := mvsBe24 (ofBytes r.control) 9

def Loads (r : TextRecord) (z : ℕ) : Prop := r.loadAddr ≤ z ∧ z < r.loadAddr + r.text.length

end TextRecord

def loadImage (rs : List TextRecord) : Memory :=
  rs.foldl (fun m r => copyInto m r.loadAddr (fun k => r.text.getD k 0) 0 r.text.length) fun _ => 0

/-- Loading the text records gives back the image on every byte of every text section, each
record holds what the image has at its address, and no two records meet. -/
structure LoadsImage (L : Layout) (opt : Options) : Prop where
  image : ∀ g ∈ L.G, g.isSect = true → g.type ≠ .cm → ∀ z, g.org ≤ z → z < g.org + g.len →
    loadImage (L.textRecords opt) z = L.relocated z
  inPlace : ∀ r ∈ L.textRecords opt, ∀ k < r.text.length,
    r.text.getD k 0 = L.relocated (r.loadAddr + k)
  apart : (L.textRecords opt).Pairwise fun r r' => ∀ z, ¬ (r.Loads z ∧ r'.Loads z)

namespace Layout

def ntext (L : Layout) : ℕ := (gidx L.G).countP fun g => g.type ≠ .cm

/-- The first `ntext` sections in origin order, which the packer walks. -/
def textPart (L : Layout) : List Gsym := (gidx L.G).take L.ntext

end Layout

/-- The text sections come before the common areas, each ends, rounded up to a doubleword,
where the next one starts or before, and the last one before the end of the text. -/
structure Tiled (L : Layout) : Prop where
  texts : ∀ g ∈ L.textPart, g.type ≠ .cm
  nonneg : ∀ g ∈ L.textPart, 0 ≤ g.org
  next : L.textPart.Pairwise fun g g' => g.org + roundup8 g.len ≤ g'.org
  last : ∀ g ∈ L.textPart.getLast?, g.org + g.len ≤ L.textend

theorem loadAddr_eq {m : Memory} {maxtext : ℕ} {c : TextSect × List TextSect} {r : TextRecord}
    (h : RecordOf m maxtext c r) (h0 : 0 ≤ r.addr) (h1 : r.addr < 2 ^ 24) :
    (r.loadAddr : ℤ) = r.addr := by
  obtain ⟨-, -, modend, hc⟩ := h
  set pre : List UInt8 := [if modend then 0x0D else 0x01, 0, 0, 0] ++
    mvsPut16 (Chunk.idList c r.text.length).length ++ [0, 0, 0x06] with hpre
  have hlen : pre.length = 9 := by simp [hpre]
  have hrec : r.control = pre ++ mvsPut24 r.addr ++
      ([0x40, 0] ++ mvsPut16 r.text.length ++ Chunk.idList c r.text.length) := by
    rw [hc, hpre]
    simp [controlRecord]
  have haddr := mvsBe24_put24 h0 h1 pre
    ([0x40, 0] ++ mvsPut16 r.text.length ++ Chunk.idList c r.text.length)
  rw [hlen, ← hrec] at haddr
  exact haddr

section TextSections

variable {L : Layout}

theorem gidx_perm (G : List Gsym) : (gidx G).Perm (G.filter Gsym.isSect) := by
  unfold gidx
  exact (List.reverse_perm _).trans ((List.perm_insertionSort _ _).trans (List.reverse_perm _))

theorem textPart_length (L : Layout) : L.textPart.length = L.ntext := by
  rw [Layout.textPart, List.length_take]
  exact min_eq_left List.countP_le_length

theorem mem_textPart (ht : Tiled L) {g : Gsym} (hg : g ∈ L.G) (hs : g.isSect = true)
    (hcm : g.type ≠ .cm) : g ∈ L.textPart := by
  have hmem : g ∈ gidx L.G := (gidx_perm L.G).mem_iff.mpr (List.mem_filter.mpr ⟨hg, hs⟩)
  rw [← List.take_append_drop L.ntext (gidx L.G)] at hmem
  rcases List.mem_append.mp hmem with h | h
  · exact h
  · exfalso
    have hcount := congrArg (List.countP fun g => decide (g.type ≠ .cm))
      (List.take_append_drop L.ntext (gidx L.G))
    rw [List.countP_append] at hcount
    have hall : (L.textPart).countP (fun g => decide (g.type ≠ .cm)) = L.ntext := by
      rw [← textPart_length, List.countP_eq_length]
      intro g hg
      simpa using ht.texts g hg
    have hpos : 0 < ((gidx L.G).drop L.ntext).countP fun g => decide (g.type ≠ .cm) :=
      List.countP_pos_iff.mpr ⟨g, h, by simpa using hcm⟩
    have hn : (gidx L.G).countP (fun g => decide (g.type ≠ .cm)) = L.ntext := rfl
    rw [Layout.textPart] at hall
    omega

theorem textSects_eq (L : Layout) : textSects (gidx L.G) L.textend =
    L.textPart.zipIdx.map fun (g, k) =>
      ⟨g.gid, g.org, if k + 1 < L.ntext then g.org + roundup8 g.len else L.textend⟩ := rfl

theorem textSects_getElem? (L : Layout) (k : ℕ) : (textSects (gidx L.G) L.textend)[k]? =
    L.textPart[k]?.map fun g =>
      ⟨g.gid, g.org, if k + 1 < L.ntext then g.org + roundup8 g.len else L.textend⟩ := by
  simp [textSects_eq, List.getElem?_zipIdx, Function.comp_def]

theorem org_add_len_le_send (ht : Tiled L) {k : ℕ} {g : Gsym} (hg : L.textPart[k]? = some g) :
    g.org + g.len ≤ if k + 1 < L.ntext then g.org + roundup8 g.len else L.textend := by
  have hk := (List.getElem?_eq_some_iff.mp hg).1
  rw [textPart_length] at hk
  split_ifs with h
  · have := roundup8_le g.len
    omega
  · apply ht.last
    rw [List.getLast?_eq_getElem?, textPart_length, show L.ntext - 1 = k by omega]
    exact hg

theorem textSects_inOrder (ht : Tiled L) : InOrder (textSects (gidx L.G) L.textend) := by
  constructor
  · rw [List.pairwise_iff_getElem]
    intro i j hi hj hij
    have hi' := textSects_getElem? L i
    have hj' := textSects_getElem? L j
    rw [List.getElem?_eq_getElem hi] at hi'
    rw [List.getElem?_eq_getElem hj] at hj'
    obtain ⟨g, hg, hgi⟩ := Option.map_eq_some_iff.mp hi'.symm
    obtain ⟨g', hg', hgj⟩ := Option.map_eq_some_iff.mp hj'.symm
    have hjl := (List.getElem?_eq_some_iff.mp hg').1
    rw [textPart_length] at hjl
    obtain ⟨hi2, hgi2⟩ := List.getElem?_eq_some_iff.mp hg
    obtain ⟨hj2, hgj2⟩ := List.getElem?_eq_some_iff.mp hg'
    have hnext := List.pairwise_iff_getElem.mp ht.next i j hi2 hj2 hij
    rw [← hgi, ← hgj, if_pos (by omega)]
    dsimp only
    rwa [hgi2, hgj2] at hnext
  · intro s hs
    obtain ⟨k, hk⟩ := List.mem_iff_getElem?.mp hs
    rw [textSects_getElem?] at hk
    obtain ⟨g, hg, rfl⟩ := Option.map_eq_some_iff.mp hk
    have := org_add_len_le_send ht hg
    dsimp only
    omega

end TextSections

section Undefined

variable {ds : List Deck}

/-- Where no TXT card was, the decks hold zeros. -/
theorem parseObject_undefined (d : Deck) (a : ℕ) (h : (parseObject d).defn a = false) :
    (parseObject d).text a = 0 := by
  revert a
  apply parseObject_text (P := fun text defn _ => ∀ a, defn a = false → text a = 0)
  · intro a _
    rfl
  · intro c o ho a ha
    unfold parseTxt at ha ⊢
    dsimp only at ha ⊢
    split_ifs at ha ⊢
    · exact ho a ha
    · dsimp only at ha ⊢
      split_ifs at ha ⊢
      exact ho a ha

theorem copy_undefined {o : Obj} (ho : ∀ a, o.defn a = false → o.text a = 0)
    (bs : List (ℤ × ℕ × ℕ)) {m : Memory} {d : ℤ → Bool} (hm : ∀ z, d z = false → m z = 0) :
    ∀ z, bs.foldl (fun d b => copyInto d b.1 o.defn b.2.1 b.2.2) d z = false →
      bs.foldl (fun m b => copyInto m b.1 o.text b.2.1 b.2.2) m z = 0 := by
  induction bs generalizing m d with
  | nil => exact hm
  | cons b bs ih =>
    apply ih
    intro z hz
    dsimp only [copyInto] at hz ⊢
    split_ifs at hz ⊢
    · exact ho _ hz
    · exact hm z hz

theorem modText_undefined {z : ℤ} (h : (linked (ds.map parseObject)).moddef z = false) :
    (linked (ds.map parseObject)).modText z = 0 := by
  set L := linked (ds.map parseObject)
  have hfold (l : List (Placed × ℕ)) (hl : ∀ a ∈ l, ∀ b, a.1.obj.defn b = false → a.1.obj.text b = 0)
      (m : Memory) (d : ℤ → Bool) (hm : ∀ z, d z = false → m z = 0) :
      ∀ z, l.foldl (Placed.copy Obj.defn L.objs) d z = false →
        l.foldl (Placed.copy Obj.text L.objs) m z = 0 := by
    induction l generalizing m d with
    | nil => exact hm
    | cons a l ih =>
      apply ih fun b hb => hl b (List.mem_cons_of_mem _ hb)
      exact copy_undefined (hl a (by simp)) _ hm
  apply hfold _ _ _ _ (fun _ _ => rfl) z h
  intro a ha b hb
  have hobj : L.objs[a.2]? = some a.1 := by simpa using List.mem_zipIdx_iff_getElem?.mp ha
  obtain ⟨hO, -⟩ := linked_obj hobj
  obtain ⟨d, -, hd⟩ := List.mem_map.mp (List.mem_of_getElem? hO)
  rw [← hd] at hb ⊢
  exact parseObject_undefined d b hb

/-- A byte that no TXT card covered is zero, when every relocated byte was covered. -/
theorem relocated_undefined (hf : ∀ f ∈ (linked (ds.map parseObject)).fixups, ∀ k < f.len,
    (linked (ds.map parseObject)).moddef (f.loc + k) = true) {z : ℤ}
    (h : (linked (ds.map parseObject)).moddef z = false) :
    (linked (ds.map parseObject)).relocated z = 0 := by
  rw [Layout.relocated, Fixup.foldl_outside, modText_undefined h]
  intro f hfm
  by_contra hin
  have := hf f hfm (z - f.loc).toNat (by omega)
  rw [Int.toNat_of_nonneg (by omega), add_sub_cancel, h] at this
  exact absurd this (by simp)

end Undefined

section TextRecords

variable {opt : Options} {m : Memory} {moddef : ℤ → Bool} {haveRld : Bool}
  {cs : List (TextSect × List TextSect)}

theorem textRecords_mem {r : TextRecord} (h : r ∈ textRecords opt m moddef haveRld cs) :
    ∃ c ∈ cs, ∃ last, r ∈ chunkRecords opt m moddef haveRld last c
      ((Chunk.cend c - c.1.org).toNat + 1) c.1.org := by
  induction cs with
  | nil => simp [textRecords] at h
  | cons c cs ih =>
    rcases List.mem_append.mp h with h | h
    · exact ⟨c, by simp, _, h⟩
    · obtain ⟨c', hc', last, hr⟩ := ih h
      exact ⟨c', List.mem_cons_of_mem _ hc', last, hr⟩

theorem mem_textRecords {c : TextSect × List TextSect} (hc : c ∈ cs) :
    ∃ last, ∀ r ∈ chunkRecords opt m moddef haveRld last c
      ((Chunk.cend c - c.1.org).toNat + 1) c.1.org, r ∈ textRecords opt m moddef haveRld cs := by
  induction cs with
  | nil => simp at hc
  | cons c' cs ih =>
    rcases List.mem_cons.mp hc with rfl | hc
    · exact ⟨_, fun r hr => List.mem_append_left _ hr⟩
    · obtain ⟨last, hl⟩ := ih hc
      exact ⟨last, fun r hr => List.mem_append_right _ (hl r hr)⟩

theorem textRecords_pairwise (hp : ∀ c ∈ cs, c.1.org ≤ Chunk.cend c)
    (hcs : cs.Pairwise fun c c' => Chunk.cend c ≤ c'.1.org) :
    (textRecords opt m moddef haveRld cs).Pairwise
      fun r r' => r.addr + (r.text.length : ℤ) ≤ r'.addr := by
  induction cs with
  | nil => exact .nil
  | cons c cs ih =>
    obtain ⟨hc, hcs⟩ := List.pairwise_cons.mp hcs
    have hpc := hp c (by simp)
    refine List.pairwise_append.mpr ⟨chunkRecords_pairwise _ hpc,
      ih (fun c' h => hp c' (List.mem_cons_of_mem _ h)) hcs, ?_⟩
    intro r hr r' hr'
    obtain ⟨c', hc', last, hr'⟩ := textRecords_mem hr'
    have h1 := (chunkRecords_mem _ hpc r hr).2.1
    have h2 := (chunkRecords_mem _ (hp c' (List.mem_cons_of_mem _ hc')) r' hr').1
    have h3 := hc c' hc'
    omega

end TextRecords

theorem Tiled.chunks_inOrder {L : Layout} (ht : Tiled L) (opt : Options) :
    InOrder ((L.chunks opt).flatMap Chunk.sects) := by
  rw [Layout.chunks, packChunks_flatten _ le_rfl]
  exact textSects_inOrder ht

/-- The text lies between zero and the end of the text. -/
theorem Tiled.chunk_bounds {L : Layout} (ht : Tiled L) {opt : Options}
    {c : TextSect × List TextSect} (hc : c ∈ L.chunks opt) :
    0 ≤ c.1.org ∧ c.1.org ≤ Chunk.cend c ∧ Chunk.cend c ≤ L.textend := by
  have hin := ht.chunks_inOrder opt
  have hflat : ∀ s ∈ Chunk.sects c, s ∈ textSects (gidx L.G) L.textend := by
    intro s hs
    rw [← packChunks_flatten opt.maxtext (le_refl (textSects (gidx L.G) L.textend).length)]
    exact List.mem_flatMap.mpr ⟨c, hc, hs⟩
  obtain ⟨t, htm, htc, -⟩ := cend_mem c
  have hfirst := (hin.chunk hc).send_le_cend (s := c.1) (by simp [Chunk.sects])
  have hproper := (hin.chunk hc).proper c.1 (by simp [Chunk.sects])
  refine ⟨?_, by omega, ?_⟩
  · obtain ⟨k, hk⟩ := List.mem_iff_getElem?.mp (hflat c.1 (by simp [Chunk.sects]))
    rw [textSects_getElem?] at hk
    obtain ⟨g, hg, hgc⟩ := Option.map_eq_some_iff.mp hk
    rw [← hgc]
    exact ht.nonneg g (List.mem_of_getElem? hg)
  · obtain ⟨k, hk⟩ := List.mem_iff_getElem?.mp (hflat t htm)
    rw [textSects_getElem?] at hk
    obtain ⟨g, hg, hgt⟩ := Option.map_eq_some_iff.mp hk
    have hkl := (List.getElem?_eq_some_iff.mp hg).1
    rw [htc, ← hgt]
    dsimp only
    split_ifs with hlast
    · -- the last section comes after this one, and ends before the end of the text
      have hl : L.ntext - 1 < L.textPart.length := by rw [textPart_length]; omega
      obtain ⟨hk2, hgk⟩ := List.getElem?_eq_some_iff.mp hg
      have hnext := List.pairwise_iff_getElem.mp ht.next k (L.ntext - 1) hk2 hl (by omega)
      have hend := ht.last L.textPart[L.ntext - 1] (by
        rw [List.getLast?_eq_getElem?, textPart_length, List.getElem?_eq_getElem hl]
        rfl)
      rw [hgk] at hnext
      omega
    · exact le_rfl

theorem loadImage_eq (rs : List TextRecord) :
    loadImage rs = (rs.map fun r => (⟨r.loadAddr, fun k => r.text.getD k 0, 0, r.text.length⟩ :
      Piece UInt8)).foldl (fun m b => copyInto m b.dst b.src b.a b.n) fun _ => 0 := by
  rw [List.foldl_map]
  rfl

section Load

variable {ds : List Deck} {opt : Options}

/-- The records of a tiled module: parts of the image below 2^24. -/
theorem Tiled.record {L : Layout} (ht : Tiled L) (hlen : L.textend ≤ modArchMax) {r : TextRecord}
    (hr : r ∈ L.textRecords opt) : r.text = Memory.slice L.relocated r.addr r.text.length ∧
      (0 < r.text.length → (r.loadAddr : ℤ) = r.addr) := by
  obtain ⟨c, hc, last, hrc⟩ := textRecords_mem hr
  obtain ⟨h0, h1, h2⟩ := ht.chunk_bounds hc
  obtain ⟨h3, h4, hof⟩ := chunkRecords_mem _ h1 r hrc
  refine ⟨hof.1, fun hpos => loadAddr_eq hof (by omega) ?_⟩
  unfold modArchMax at hlen
  omega

theorem slice_getD (m : Memory) (p : ℤ) {n k : ℕ} (hk : k < n) :
    (Memory.slice m p n).getD k 0 = m (p + k) := by
  simp [Memory.slice, hk]

end Load

/-- Two sections in two records' worth of text. -/
def twoSections : Deck :=
  .ofCards [Deck.esdCard 1 [Deck.esdItem (letterName 0xC1) 0x00 0 8,
      Deck.esdItem (letterName 0xC2) 0x00 8 4],
    Deck.txtCard 0 1 [1, 2, 3, 4], Deck.txtCard 8 2 [5, 6, 7, 8], Deck.endCard]

/-- An ER to A, and an object with an empty CSECT B before A and C behind it. -/
def emptyBehind : List Deck :=
  [.ofCards [Deck.esdCard 1 [Deck.esdItem (letterName 0xE7) 0x00 0 8,
      Deck.esdItem (letterName 0xC1) 0x02 0 0], Deck.endCard],
    .ofCards [Deck.esdCard 1 [Deck.esdItem (letterName 0xC2) 0x00 0 0,
      Deck.esdItem (letterName 0xC1) 0x00 0 13000, Deck.esdItem (letterName 0xC3) 0x00 13000 400],
      Deck.txtCard 0 2 [0xFF], Deck.endCard]]

end Cc370.Ld370
