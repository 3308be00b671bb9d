import Cc370.Ld370.Emit
import Cc370.Ld370.TextImage

namespace Cc370.Ld370

open BigEndian

theorem pickMaxtext_bounds (blksize : ℕ) : 1024 ≤ pickMaxtext blksize ∧ pickMaxtext blksize ≤ 18432 := by
  have hall : ∀ t ∈ iewlTxtsize, 1024 ≤ t ∧ t ≤ 18432 := by decide
  unfold pickMaxtext
  cases h : iewlTxtsize.find? fun t => t ≤ blksize with
  | none => exact ⟨le_rfl, by decide⟩
  | some t => exact hall t (List.mem_of_find?_eq_some h)

section Packing

/-- Sections that follow each other without overlap, each ending where the packer ends it. -/
structure InOrder (ts : List TextSect) : Prop where
  chain : ts.Pairwise fun s t => s.send ≤ t.org
  proper : ∀ s ∈ ts, s.org ≤ s.send

def Chunk.sects (c : TextSect × List TextSect) : List TextSect := c.1 :: c.2

theorem packMore_append (maxtext : ℕ) (cstart : ℤ) (ts : List TextSect) :
    (packMore maxtext cstart ts).1 ++ (packMore maxtext cstart ts).2 = ts := by
  induction ts with
  | nil => rfl
  | cons s ts ih =>
    unfold packMore
    split_ifs
    · rfl
    · simp [ih]

theorem packMore_fits (maxtext : ℕ) (cstart : ℤ) (ts : List TextSect) :
    ∀ s ∈ (packMore maxtext cstart ts).1, s.send - cstart ≤ maxtext := by
  induction ts with
  | nil => simp [packMore]
  | cons s ts ih =>
    unfold packMore
    split_ifs with h
    · simp
    · intro t ht
      rcases List.mem_cons.mp ht with rfl | ht
      · omega
      · exact ih t ht

/-- The chunks are the sections, cut into runs. -/
theorem packChunks_flatten (maxtext : ℕ) {fuel : ℕ} {ts : List TextSect} (h : ts.length ≤ fuel) :
    (packChunks maxtext fuel ts).flatMap Chunk.sects = ts := by
  induction fuel generalizing ts with
  | zero =>
    obtain rfl := List.length_eq_zero_iff.mp (Nat.le_zero.mp h)
    rfl
  | succ fuel ih =>
    cases ts with
    | nil => rfl
    | cons s rest =>
      have happ := packMore_append maxtext s.org rest
      have hlen := congrArg List.length happ
      rw [List.length_append] at hlen
      rw [List.length_cons] at h
      rw [packChunks, List.flatMap_cons, ih (by omega)]
      simp [Chunk.sects, happ]

theorem cend_mem (c : TextSect × List TextSect) :
    ∃ t ∈ Chunk.sects c, Chunk.cend c = t.send ∧ ∃ l, Chunk.sects c = l ++ [t] := by
  cases hc : c.2.getLast? with
  | none =>
    have hnil := List.getLast?_eq_none_iff.mp hc
    exact ⟨c.1, by simp [Chunk.sects], by simp [Chunk.cend, hc], [], by simp [Chunk.sects, hnil]⟩
  | some t =>
    obtain ⟨l, hl⟩ := List.getLast?_eq_some_iff.mp hc
    refine ⟨t, ?_, by simp [Chunk.cend, hc], c.1 :: l, by simp [Chunk.sects, hl]⟩
    simp [Chunk.sects, hl]

theorem InOrder.send_le_cend {c : TextSect × List TextSect} (h : InOrder (Chunk.sects c))
    {s : TextSect} (hs : s ∈ Chunk.sects c) : s.send ≤ Chunk.cend c := by
  obtain ⟨t, ht, hc, l, hl⟩ := cend_mem c
  have hch := h.chain
  rw [hl, List.pairwise_append] at hch
  rw [hl] at hs
  rcases List.mem_append.mp hs with hs | hs
  · have h1 := hch.2.2 s hs t (by simp)
    have h2 := h.proper t ht
    omega
  · rw [List.mem_singleton.mp hs, hc]

theorem InOrder.org_le {c : TextSect × List TextSect} (h : InOrder (Chunk.sects c))
    {s : TextSect} (hs : s ∈ Chunk.sects c) : c.1.org ≤ s.org := by
  rcases List.mem_cons.mp hs with rfl | hs
  · exact le_rfl
  · have h1 := (List.pairwise_cons.mp h.chain).1 s hs
    have h2 := h.proper c.1 (by simp [Chunk.sects])
    omega

theorem InOrder.chunk {cs : List (TextSect × List TextSect)}
    (h : InOrder (cs.flatMap Chunk.sects)) {c : TextSect × List TextSect} (hc : c ∈ cs) :
    InOrder (Chunk.sects c) := by
  refine ⟨(List.pairwise_flatMap.mp h.chain).1 c hc, fun s hs => h.proper s ?_⟩
  exact List.mem_flatMap.mpr ⟨c, hc, hs⟩

theorem InOrder.chunks {cs : List (TextSect × List TextSect)}
    (h : InOrder (cs.flatMap Chunk.sects)) : cs.Pairwise fun c c' => Chunk.cend c ≤ c'.1.org := by
  refine (List.pairwise_flatMap.mp h.chain).2.imp ?_
  intro c c' hcc
  obtain ⟨t, ht, hc, -⟩ := cend_mem c
  rw [hc]
  exact hcc t ht c'.1 (by simp [Chunk.sects])

end Packing

section ChunkRecords

variable {opt : Options} {m : Memory} {moddef : ℤ → Bool} {haveRld lastChunk : Bool}
  {c : TextSect × List TextSect}

namespace TextRecord

def Covers (r : TextRecord) (z : ℤ) : Prop := r.addr ≤ z ∧ z < r.addr + r.text.length

end TextRecord

/-- What the records of a chunk are: pieces of the image, each with its control record. -/
def RecordOf (m : Memory) (maxtext : ℕ) (c : TextSect × List TextSect) (r : TextRecord) : Prop :=
  r.text = Memory.slice m r.addr r.text.length ∧ r.text.length ≤ maxtext ∧
    ∃ modend, r.control = controlRecord c modend r.addr r.text.length

theorem slice_length (m : Memory) (p : ℤ) (n : ℕ) : (Memory.slice m p n).length = n := by
  simp [Memory.slice]

namespace Chunk

def rlen (opt : Options) (c : TextSect × List TextSect) (p : ℤ) : ℤ :=
  min (cend c - p) opt.maxtext

def modend (opt : Options) (haveRld lastChunk : Bool) (c : TextSect × List TextSect) (p : ℤ) : Bool :=
  lastChunk ∧ cend c ≤ p + rlen opt c p ∧ !haveRld

def skips (opt : Options) (moddef : ℤ → Bool) (haveRld lastChunk : Bool)
    (c : TextSect × List TextSect) (p : ℤ) : Bool :=
  opt.sparseText ∧ !(List.range (rlen opt c p).toNat).any (fun zi => moddef (p + zi)) ∧
    !modend opt haveRld lastChunk c p

def record (opt : Options) (m : Memory) (haveRld lastChunk : Bool) (c : TextSect × List TextSect)
    (p : ℤ) : TextRecord :=
  ⟨controlRecord c (modend opt haveRld lastChunk c p) p (rlen opt c p), p,
    Memory.slice m p (rlen opt c p).toNat⟩

end Chunk

theorem chunkRecords_succ (fuel : ℕ) (p : ℤ) :
    chunkRecords opt m moddef haveRld lastChunk c (fuel + 1) p =
      (if Chunk.skips opt moddef haveRld lastChunk c p then []
        else [Chunk.record opt m haveRld lastChunk c p]) ++
      (if p + Chunk.rlen opt c p < Chunk.cend c
        then chunkRecords opt m moddef haveRld lastChunk c fuel (p + Chunk.rlen opt c p) else []) := by
  by_cases h : Chunk.skips opt moddef haveRld lastChunk c p = true
  · rw [if_pos h, List.nil_append]
    exact if_pos (of_decide_eq_true h)
  · rw [if_neg h]
    exact if_neg fun h' => h (decide_eq_true h')

theorem rlen_le (opt : Options) (c : TextSect × List TextSect) (p : ℤ) :
    Chunk.rlen opt c p ≤ Chunk.cend c - p ∧ Chunk.rlen opt c p ≤ opt.maxtext :=
  ⟨min_le_left _ _, min_le_right _ _⟩

theorem record_length (p : ℤ) :
    (Chunk.record opt m haveRld lastChunk c p).text.length = (Chunk.rlen opt c p).toNat :=
  slice_length _ _ _

theorem rlen_nonneg (opt : Options) {p : ℤ} (hp : p ≤ Chunk.cend c) : 0 ≤ Chunk.rlen opt c p := by
  unfold Chunk.rlen
  omega

theorem chunkRecords_mem (fuel : ℕ) {p : ℤ} (hp : p ≤ Chunk.cend c) :
    ∀ r ∈ chunkRecords opt m moddef haveRld lastChunk c fuel p,
      p ≤ r.addr ∧ r.addr + r.text.length ≤ Chunk.cend c ∧ RecordOf m opt.maxtext c r := by
  induction fuel generalizing p with
  | zero => simp [chunkRecords]
  | succ fuel ih =>
    have h0 := rlen_nonneg opt hp
    obtain ⟨h1, h2⟩ := rlen_le opt c p
    intro r hr
    rw [chunkRecords_succ] at hr
    rcases List.mem_append.mp hr with hr | hr
    · split_ifs at hr with hskip
      · simp at hr
      · obtain rfl := List.mem_singleton.mp hr
        have hlen : (Chunk.record opt m haveRld lastChunk c p).text.length =
            (Chunk.rlen opt c p).toNat := record_length p
        refine ⟨le_rfl, ?_, ?_, ?_, Chunk.modend opt haveRld lastChunk c p, ?_⟩
        · rw [hlen]
          change p + _ ≤ _
          omega
        · rw [hlen]
          rfl
        · omega
        · rw [hlen, Int.toNat_of_nonneg h0]
          rfl
    · split_ifs at hr with hlt
      · obtain ⟨h3, h4⟩ := ih hlt.le r hr
        exact ⟨by omega, h4⟩
      · simp at hr

theorem chunkRecords_pairwise (fuel : ℕ) {p : ℤ} (hp : p ≤ Chunk.cend c) :
    (chunkRecords opt m moddef haveRld lastChunk c fuel p).Pairwise
      fun r r' => r.addr + (r.text.length : ℤ) ≤ r'.addr := by
  induction fuel generalizing p with
  | zero => simp [chunkRecords]
  | succ fuel ih =>
    have h0 := rlen_nonneg opt hp
    rw [chunkRecords_succ, List.pairwise_append]
    refine ⟨?_, ?_, ?_⟩
    · split_ifs
      · exact .nil
      · exact List.pairwise_singleton _ _
    · split_ifs with hlt
      · exact ih hlt.le
      · exact .nil
    · intro r hr r' hr'
      split_ifs at hr with hskip
      · simp at hr
      · obtain rfl := List.mem_singleton.mp hr
        split_ifs at hr' with hlt
        · have h1 := (chunkRecords_mem fuel hlt.le r' hr').1
          rw [record_length, Int.toNat_of_nonneg h0]
          exact h1
        · simp at hr'

/-- Every byte of a chunk is in a record, unless sparse text leaves it out. -/
theorem chunkRecords_cover (hm : 0 < opt.maxtext) (fuel : ℕ) {p z : ℤ}
    (hfuel : (Chunk.cend c - p).toNat < fuel) (hz : p ≤ z) (hz' : z < Chunk.cend c) :
    (∃ r ∈ chunkRecords opt m moddef haveRld lastChunk c fuel p, r.Covers z) ∨
      opt.sparseText = true ∧ moddef z = false := by
  induction fuel generalizing p with
  | zero => omega
  | succ fuel ih =>
    have hrlen : 0 < Chunk.rlen opt c p := by
      unfold Chunk.rlen
      omega
    rw [chunkRecords_succ]
    rcases lt_or_ge z (p + Chunk.rlen opt c p) with hlt | hge
    · by_cases hskip : Chunk.skips opt moddef haveRld lastChunk c p = true
      · simp only [Chunk.skips, decide_eq_true_eq, Bool.not_eq_true', List.any_eq_false] at hskip
        obtain ⟨hsp, hnone, -⟩ := hskip
        have hzn := hnone (z - p).toNat (List.mem_range.mpr (by omega))
        rw [Int.toNat_of_nonneg (by omega), add_sub_cancel] at hzn
        exact .inr ⟨hsp, by simpa using hzn⟩
      · rw [if_neg hskip]
        refine .inl ⟨_, List.mem_append_left _ (List.mem_singleton.mpr rfl), hz, ?_⟩
        rw [record_length, Int.toNat_of_nonneg hrlen.le]
        exact hlt
    · have hlt' : p + Chunk.rlen opt c p < Chunk.cend c := by omega
      rw [if_pos hlt']
      rcases ih (p := p + Chunk.rlen opt c p) (by omega) hge with ⟨r, hr, hrz⟩ | h
      · exact .inl ⟨r, List.mem_append_right _ hr, hrz⟩
      · exact .inr h

end ChunkRecords

end Cc370.Ld370
