import Cc370.Cmplmd370.Difin
import Mathlib.Data.List.TakeWhile

namespace Cc370.Cmplmd370

open Hex

/-- A name that a header carries: the reader takes eight characters, up to a blank. -/
structure HeaderName (t : Text) : Prop where
  ne : t ≠ []
  short : t.length ≤ 8
  chars : ∀ c ∈ t, c ≠ 0 ∧ c ≠ 0x0A ∧ c ≠ 0x0D ∧ c ≠ 0x20

def GoodRange (r : ℕ × ℕ) : Prop := r.1 < 2 ^ 24 ∧ r.2 ≤ 255

section Lines

theorem fgetsLines_line {l : Text} (hl : ∀ c ∈ l, c ≠ 0x0A) (rest acc : Text) (hlen : acc.length + l.length ≤ 254) :
    fgetsLines (l ++ 0x0A :: rest) acc = (acc.reverse ++ l ++ [0x0A]) :: fgetsLines rest [] := by
  induction l generalizing acc with
  | nil => simp [fgetsLines]
  | cons c l ih =>
    have hc := hl c List.mem_cons_self
    rw [List.length_cons] at hlen
    rw [List.cons_append, fgetsLines, if_neg (by simp only [hc, false_or]; omega), ih (fun d hd => hl d (List.mem_cons_of_mem _ hd))]
    · simp
    · rw [List.length_cons]
      omega

/-- Lines that fit the buffer are read one by one. -/
theorem fgetsLines_lines {ls : List Text} (h : ∀ l ∈ ls, l.length ≤ 254 ∧ ∀ c ∈ l, c ≠ 0x0A) :
    fgetsLines (ls.flatMap fun l => l ++ [0x0A]) [] = ls.map fun l => l ++ [0x0A] := by
  induction ls with
  | nil => rfl
  | cons l ls ih =>
    obtain ⟨hlen, hl⟩ := h l List.mem_cons_self
    rw [List.flatMap_cons, List.append_assoc, List.singleton_append, fgetsLines_line hl _ _ (by simpa using hlen),
      ih fun l' hl' => h l' (List.mem_cons_of_mem _ hl')]
    rfl

theorem lineText_line {l : Text} (h : ∀ c ∈ l, c ≠ 0 ∧ c ≠ 0x0A ∧ c ≠ 0x0D) : lineText (l ++ [0x0A]) = l := by
  have htake : (l ++ [0x0A]).takeWhile (fun c => c ≠ 0) = l ++ [0x0A] := by
    rw [List.takeWhile_eq_self_iff]
    intro c hc
    rcases List.mem_append.mp hc with hc | hc
    · simpa using (h c hc).1
    · rw [List.mem_singleton.mp hc]
      rfl
  rw [lineText, htake, List.reverse_append, List.reverse_singleton, List.singleton_append, List.dropWhile_cons_of_pos (by rfl)]
  cases hr : l.reverse with
  | nil => simpa using hr
  | cons c cs =>
    have hc := h c (List.mem_reverse.mp (hr ▸ List.mem_cons_self))
    rw [List.dropWhile_cons_of_neg (by simp [hc]), ← hr, List.reverse_reverse]

end Lines

section Records

/-- A record without its line end. -/
def rangeText (r : ℕ × ℕ) : Text := hexOf 6 r.1 ++ hexOf 2 r.2

theorem rangeLine_eq {r : ℕ × ℕ} (h : GoodRange r) : rangeLine r = rangeText r ++ [0x0A] := by
  rw [rangeLine, rangeText, hexPad_eq (by decide) (by simpa using h.1), hexPad_eq (by decide) (Nat.lt_of_le_of_lt h.2 (by decide))]

theorem hexChar_plain {d : ℕ} (h : d < 16) : hexChar d ≠ 0 ∧ hexChar d ≠ 0x0A ∧ hexChar d ≠ 0x0D ∧ hexChar d ≠ 0x3E := by
  interval_cases d <;> decide

theorem mem_rangeText {r : ℕ × ℕ} {c : UInt8} (h : c ∈ rangeText r) : c ≠ 0 ∧ c ≠ 0x0A ∧ c ≠ 0x0D ∧ c ≠ 0x3E := by
  rcases List.mem_append.mp h with h | h
  · obtain ⟨d, hd, rfl⟩ := mem_hexOf h
    exact hexChar_plain hd
  · obtain ⟨d, hd, rfl⟩ := mem_hexOf h
    exact hexChar_plain hd

theorem record_rangeText {r : ℕ × ℕ} (h : GoodRange r) : record (rangeText r) = some r := by
  have hlen : (rangeText r).length = 8 := by simp [rangeText, hexOf_length]
  have h1 : (rangeText r).take 6 = hexOf 6 r.1 := List.take_left' (hexOf_length _ _)
  have h2 : (rangeText r).drop 6 = hexOf 2 r.2 := List.drop_left' (hexOf_length _ _)
  have h3 : (hexOf 2 r.2).take 2 = hexOf 2 r.2 := List.take_of_length_le (hexOf_length _ _).le
  have hv1 : r.1 % 16 ^ 6 = r.1 := Nat.mod_eq_of_lt (by simpa using h.1)
  have hv2 : r.2 % 16 ^ 2 = r.2 := Nat.mod_eq_of_lt (Nat.lt_of_le_of_lt h.2 (by decide))
  rw [record, hlen, if_neg (by decide), h1, h2, h3, hexValue_hexOf, hexValue_hexOf, hv1, hv2, zero_mul, zero_add, zero_mul, zero_add]

end Records

section Load

variable {A : List Sect} {s : Difin}

theorem difinLine_header {name : Text} (h : HeaderName name) (s : Difin) (k : ℕ) :
    difinLine A s ((0x3E :: name) ++ [0x0A], k) = .ok { s with cur := name } := by
  have hchars : ∀ c ∈ (0x3E :: name : Text), c ≠ 0 ∧ c ≠ 0x0A ∧ c ≠ 0x0D := by
    intro c hc
    rcases List.mem_cons.mp hc with rfl | hc
    · decide
    · obtain ⟨h0, hlf, hcr, -⟩ := h.chars c hc
      exact ⟨h0, hlf, hcr⟩
  have hname : headerName name = name := by
    have hall : name.takeWhile (fun c => c ≠ 0x20) = name := by
      rw [List.takeWhile_eq_self_iff]
      intro c hc
      simpa using (h.chars c hc).2.2.2
    rw [headerName, hall, List.take_of_length_le h.short]
  rw [difinLine, lineText_line hchars]
  dsimp only
  rw [if_pos rfl, hname]

theorem difinLine_range {r : ℕ × ℕ} (h : GoodRange r) (s : Difin) (k : ℕ) :
    difinLine A s (rangeText r ++ [0x0A], k) = difinRecord A s k r := by
  have hchars : ∀ c ∈ rangeText r, c ≠ 0 ∧ c ≠ 0x0A ∧ c ≠ 0x0D := by
    intro c hc
    obtain ⟨h0, hlf, hcr, -⟩ := mem_rangeText hc
    exact ⟨h0, hlf, hcr⟩
  have hrecord := record_rangeText h
  have hmem : ∀ c ∈ rangeText r, c ≠ 0x3E := fun c hc => (mem_rangeText hc).2.2.2
  rw [difinLine, lineText_line hchars]
  cases hl : rangeText r with
  | nil =>
    rw [hl] at hrecord
    exact absurd hrecord (by simp [record])
  | cons c line =>
    rw [hl] at hrecord hmem
    dsimp only
    rw [if_neg (hmem c List.mem_cons_self), hrecord]

theorem dinAdd_new {din : List DinSect} {name : Text} (h : ∀ d ∈ din, d.name ≠ name) (r : ℕ × ℕ) :
    dinAdd din name r = if maxsect ≤ din.length then none else some (din ++ [⟨name, [r]⟩]) := by
  have hnone : din.findIdx? (fun d => d.name = name) = none := by
    rw [List.findIdx?_eq_none_iff]
    intro d hd
    simpa using h d hd
  rw [dinAdd, hnone]

theorem modify_last {α : Type} (l : List α) (x : α) (f : α → α) : (l ++ [x]).modify l.length f = l ++ [f x] := by
  induction l with
  | nil => rfl
  | cons y l ih => rw [List.cons_append, List.length_cons, List.modify_succ_cons, ih, List.cons_append]

theorem dinAdd_last {din : List DinSect} {name : Text} (h : ∀ d ∈ din, d.name ≠ name) (c : List (ℕ × ℕ)) (r : ℕ × ℕ) :
    dinAdd (din ++ [⟨name, c⟩]) name r = some (din ++ [⟨name, c ++ [r]⟩]) := by
  have hnone : din.findIdx? (fun d => d.name = name) = none := by
    rw [List.findIdx?_eq_none_iff]
    intro d hd
    simpa using h d hd
  have hfind : (din ++ [(⟨name, c⟩ : DinSect)]).findIdx? (fun d => d.name = name) = some din.length := by
    rw [List.findIdx?_append, hnone]
    simp
  rw [dinAdd, hfind]
  dsimp only
  rw [modify_last]

/-- Lines of a file, from line `k` on. -/
def loadLines (A : List Sect) (s : Difin) (k : ℕ) (ls : List Text) : Except DifinError Difin :=
  ((ls.map fun l => l ++ [0x0A]).zipIdx k).foldlM (difinLine A) s

theorem loadLines_cons (k : ℕ) (l : Text) (ls : List Text) :
    loadLines A s k (l :: ls) = (difinLine A s (l ++ [0x0A], k)).bind fun s' => loadLines A s' (k + 1) ls := by
  rw [loadLines, List.map_cons, List.zipIdx_cons, List.foldlM_cons]
  rfl

theorem loadLines_append (k : ℕ) (ls ls' : List Text) :
    loadLines A s k (ls ++ ls') = (loadLines A s k ls).bind fun s' => loadLines A s' (k + ls.length) ls' := by
  rw [loadLines, List.map_append, List.zipIdx_append, List.foldlM_append, List.length_map]
  rfl

/-- The records of a section that the file has brought up go on its list. -/
theorem load_ranges {din : List DinSect} {c rs : List (ℕ × ℕ)} (hs : s.din = din ++ [⟨s.cur, c⟩]) (hcur : s.cur ≠ [])
    (hnew : ∀ d ∈ din, d.name ≠ s.cur) (hrs : ∀ r ∈ rs, GoodRange r) (k : ℕ) :
    ∃ d, loadLines A s k (rs.map rangeText) = .ok d ∧ d.din = din ++ [⟨s.cur, c ++ rs⟩] := by
  induction rs generalizing s c k with
  | nil => exact ⟨s, rfl, by simpa using hs⟩
  | cons r rs ih =>
    have hstep : difinRecord A s k r = .ok { s with din := din ++ [⟨s.cur, c ++ [r]⟩], ign := ignore A s.cur r s.ign } := by
      rw [difinRecord, if_neg hcur, hs, dinAdd_last hnew]
    have hrest : ∀ r' ∈ rs, GoodRange r' := fun r' hr' => hrs r' (List.mem_cons_of_mem _ hr')
    rw [List.map_cons, loadLines_cons, difinLine_range (hrs r List.mem_cons_self), hstep]
    obtain ⟨d, hload, hdin⟩ := ih (s := { s with din := din ++ [⟨s.cur, c ++ [r]⟩], ign := ignore A s.cur r s.ign })
      rfl hcur hnew hrest (k + 1)
    refine ⟨d, hload, ?_⟩
    rw [hdin, List.append_assoc]
    rfl

/-- A section with its ranges, as lines of the file. -/
def blockLines (b : DinSect) : List Text := (0x3E :: b.name) :: b.c.map rangeText

structure GoodBlock (b : DinSect) : Prop where
  name : HeaderName b.name
  ranges : ∀ r ∈ b.c, GoodRange r

theorem load_block {b : DinSect} (hb : GoodBlock b) (hne : b.c ≠ []) (hnew : ∀ d ∈ s.din, d.name ≠ b.name) (k : ℕ) :
    if maxsect ≤ s.din.length then loadLines A s k (blockLines b) = .error .tooMany
    else ∃ d, loadLines A s k (blockLines b) = .ok d ∧ d.din = s.din ++ [b] := by
  obtain ⟨name, c⟩ := b
  obtain ⟨r, rs, rfl⟩ := List.exists_cons_of_ne_nil hne
  have hstart : loadLines A s k (blockLines ⟨name, r :: rs⟩) =
      (difinRecord A { s with cur := name } (k + 1) r).bind fun s' => loadLines A s' (k + 1 + 1) (rs.map rangeText) := by
    rw [blockLines, loadLines_cons, difinLine_header hb.name]
    change loadLines A { s with cur := name } (k + 1) ((r :: rs).map rangeText) = _
    rw [List.map_cons, loadLines_cons, difinLine_range (hb.ranges r List.mem_cons_self)]
  rw [hstart, difinRecord, if_neg hb.name.ne, dinAdd_new hnew]
  split_ifs with hfull
  · rfl
  · exact load_ranges (s := { s with cur := name, din := s.din ++ [⟨name, [r]⟩], ign := ignore A name r s.ign })
      rfl hb.name.ne hnew (fun r' hr' => hb.ranges r' (List.mem_cons_of_mem _ hr')) (k + 1 + 1)

/-- Sections with their ranges are read back, unless there are more than the table takes. A section
without ranges leaves nothing behind. -/
theorem load_blocks {bs : List DinSect} (hb : ∀ b ∈ bs, GoodBlock b)
    (hnew : ∀ d ∈ s.din, ∀ b ∈ bs, b.c ≠ [] → d.name ≠ b.name)
    (hapart : (bs.filter fun b => b.c ≠ []).Pairwise fun b b' => b.name ≠ b'.name) (hs : s.din.length ≤ maxsect) (k : ℕ) :
    if s.din.length + (bs.filter fun b => b.c ≠ []).length ≤ maxsect then
      ∃ d, loadLines A s k (bs.flatMap blockLines) = .ok d ∧ d.din = s.din ++ bs.filter fun b => b.c ≠ []
    else loadLines A s k (bs.flatMap blockLines) = .error .tooMany := by
  induction bs generalizing s k with
  | nil =>
    rw [List.filter_nil, List.length_nil, add_zero, if_pos hs]
    exact ⟨s, rfl, (List.append_nil _).symm⟩
  | cons b bs ih =>
    have hrest : ∀ b' ∈ bs, GoodBlock b' := fun b' hb' => hb b' (List.mem_cons_of_mem _ hb')
    have hgood := hb b List.mem_cons_self
    rw [List.flatMap_cons, loadLines_append]
    by_cases hne : b.c = []
    · have hload : loadLines A s k (blockLines b) = .ok { s with cur := b.name } := by
        rw [blockLines, hne, List.map_nil, loadLines_cons, difinLine_header hgood.name]
        rfl
      have hfilter : (b :: bs).filter (fun b => b.c ≠ []) = bs.filter fun b => b.c ≠ [] := List.filter_cons_of_neg (by simp [hne])
      rw [hfilter] at hapart ⊢
      rw [hload]
      exact ih (s := { s with cur := b.name }) hrest (fun d hd b' hb' => hnew d hd b' (List.mem_cons_of_mem _ hb')) hapart hs _
    · have hfilter : (b :: bs).filter (fun b => b.c ≠ []) = b :: bs.filter fun b => b.c ≠ [] := List.filter_cons_of_pos (by simp [hne])
      have hload := load_block (A := A) hgood hne (fun d hd => hnew d hd b List.mem_cons_self hne) k
      rw [hfilter] at hapart ⊢
      rw [List.length_cons]
      obtain ⟨hfirst, hapart⟩ := List.pairwise_cons.mp hapart
      split_ifs at hload with hfull
      · rw [if_neg (by omega), hload]
        rfl
      · obtain ⟨d, hload, hdin⟩ := hload
        have hlen : d.din.length = s.din.length + 1 := by rw [hdin, List.length_append, List.length_singleton]
        have hnew' : ∀ x ∈ d.din, ∀ b' ∈ bs, b'.c ≠ [] → x.name ≠ b'.name := by
          intro x hx b' hb' hne'
          rw [hdin] at hx
          rcases List.mem_append.mp hx with hx | hx
          · exact hnew x hx b' (List.mem_cons_of_mem _ hb') hne'
          · rw [List.mem_singleton.mp hx]
            exact hfirst b' (List.mem_filter.mpr ⟨hb', by simpa using hne'⟩)
        have hih := ih (s := d) hrest hnew' hapart (by omega) (k + (blockLines b).length)
        rw [hlen, hdin, List.append_assoc, List.singleton_append, Nat.add_assoc, Nat.add_comm 1] at hih
        rw [hload]
        exact hih

end Load

section File

def blocksText (bs : List DinSect) : Text := (bs.flatMap blockLines).flatMap fun l => l ++ [0x0A]

theorem blockLines_fit {b : DinSect} (hb : GoodBlock b) {l : Text} (hl : l ∈ blockLines b) : l.length ≤ 254 ∧ ∀ c ∈ l, c ≠ 0x0A := by
  rcases List.mem_cons.mp hl with rfl | hl
  · have hshort := hb.name.short
    refine ⟨by rw [List.length_cons]; omega, ?_⟩
    intro c hc
    rcases List.mem_cons.mp hc with rfl | hc
    · decide
    · exact (hb.name.chars c hc).2.1
  · obtain ⟨r, -, rfl⟩ := List.mem_map.mp hl
    exact ⟨by simp [rangeText, hexOf_length], fun c hc => (mem_rangeText hc).2.1⟩

theorem difinLoad_blocks {A : List Sect} {bs : List DinSect} (hb : ∀ b ∈ bs, GoodBlock b)
    (hapart : (bs.filter fun b => b.c ≠ []).Pairwise fun b b' => b.name ≠ b'.name) :
    if (bs.filter fun b => b.c ≠ []).length ≤ maxsect then
      ∃ d, difinLoad A (blocksText bs) = .ok d ∧ d.din = bs.filter fun b => b.c ≠ []
    else difinLoad A (blocksText bs) = .error .tooMany := by
  have hlines : fgetsLines (blocksText bs) [] = (bs.flatMap blockLines).map fun l => l ++ [0x0A] := by
    apply fgetsLines_lines
    intro l hl
    obtain ⟨b, hbm, hl⟩ := List.mem_flatMap.mp hl
    exact blockLines_fit (hb b hbm) hl
  have hload := load_blocks (A := A) (s := .empty) hb (fun d hd => absurd hd List.not_mem_nil) hapart (Nat.zero_le _) 1
  rw [Difin.empty, List.length_nil, Nat.zero_add] at hload
  rw [difinLoad, hlines]
  exact hload

end File

section Loaded

variable {A : List Sect} {s d : Difin}

/-- The bytes that the ranges of a name list. -/
def Lists (din : List DinSect) (n : Text) (p : ℕ) : Prop := ∃ x ∈ din, x.name = n ∧ ∃ r ∈ x.c, r.1 ≤ p ∧ p < r.1 + r.2

/-- A line of the file is read without the characters that end it, and a name up to its first blank. -/
def PlainName (n : Text) : Prop := n.length ≤ 8 ∧ ∀ c ∈ n, c ≠ 0 ∧ c ≠ 0x0A ∧ c ≠ 0x20

/-- What is read is in order, and the bytes to ignore are those it lists for the first section of each name. -/
structure Loaded (A : List Sect) (d : Difin) : Prop where
  cur : PlainName d.cur
  names : ∀ x ∈ d.din, x.name ≠ [] ∧ PlainName x.name
  ranges : ∀ x ∈ d.din, x.c ≠ [] ∧ ∀ r ∈ x.c, GoodRange r
  apart : d.din.Pairwise fun x y => x.name ≠ y.name
  full : d.din.length ≤ maxsect
  ign : ∀ i p, d.ign i p = true ↔ ∃ n, sectFind A n = some i ∧ Lists d.din n p ∧ ∃ a, A[i]? = some a ∧ p < a.len

theorem dinAdd_some {din din' : List DinSect} {name : Text} {r : ℕ × ℕ} (h : dinAdd din name r = some din') :
    (∃ l x l', din = l ++ x :: l' ∧ x.name = name ∧ din' = l ++ ⟨x.name, x.c ++ [r]⟩ :: l') ∨
      (∀ d ∈ din, d.name ≠ name) ∧ din.length < maxsect ∧ din' = din ++ [⟨name, [r]⟩] := by
  unfold dinAdd at h
  cases hf : din.findIdx? fun d => d.name = name with
  | some k =>
    rw [hf] at h
    obtain ⟨hk, hname, -⟩ := List.findIdx?_eq_some_iff_getElem.mp hf
    refine .inl ⟨din.take k, din[k], din.drop (k + 1), ?_, by simpa using hname, ?_⟩
    · rw [← List.drop_eq_getElem_cons hk, List.take_append_drop]
    · rw [← Option.some.inj h, List.modify_eq_take_cons_drop hk]
  | none =>
    rw [hf] at h
    dsimp only at h
    split_ifs at h with hfull
    refine .inr ⟨?_, not_le.mp hfull, (Option.some.inj h).symm⟩
    intro d hd
    simpa using List.findIdx?_eq_none_iff.mp hf d hd

theorem lists_dinAdd {din din' : List DinSect} {name : Text} {r : ℕ × ℕ} (h : dinAdd din name r = some din') (n : Text) (p : ℕ) :
    Lists din' n p ↔ Lists din n p ∨ name = n ∧ r.1 ≤ p ∧ p < r.1 + r.2 := by
  rcases dinAdd_some h with ⟨l, x, l', rfl, rfl, rfl⟩ | ⟨-, -, rfl⟩
  · simp only [Lists, List.mem_append, List.mem_cons, List.not_mem_nil, or_false, or_and_right, exists_or, exists_eq_left]
    rw [and_or_left, or_assoc, or_assoc, or_assoc]
    exact or_congr_right (or_congr_right or_comm)
  · simp only [Lists, List.mem_append, List.mem_cons, List.not_mem_nil, or_false, or_and_right, exists_or, exists_eq_left]

theorem record_good {line : Text} {r : ℕ × ℕ} (h : record line = some r) : GoodRange r := by
  unfold record at h
  split_ifs at h with hlen
  split at h
  · rename_i off len hoff hlen'
    obtain rfl := Option.some.inj h
    have h1 := hexValue_lt hoff
    have h2 := hexValue_lt hlen'
    have hl1 : (line.take 6).length = 6 := by rw [List.length_take]; omega
    have hl2 : ((line.drop 6).take 2).length = 2 := by rw [List.length_take, List.length_drop]; omega
    rw [hl1] at h1
    rw [hl2] at h2
    exact ⟨by simpa using h1, Nat.le_of_lt_succ (by simpa using h2)⟩
  · exact absurd h nofun

namespace Loaded

theorem nil (A : List Sect) : Loaded A .empty := by
  refine ⟨⟨Nat.zero_le _, fun c hc => absurd hc List.not_mem_nil⟩, fun x hx => absurd hx List.not_mem_nil,
    fun x hx => absurd hx List.not_mem_nil, .nil, Nat.zero_le _, ?_⟩
  intro i p
  constructor
  · exact nofun
  · rintro ⟨n, -, ⟨x, hx, -⟩, -⟩
    exact absurd hx List.not_mem_nil

theorem header (h : Loaded A s) {line : Text} (hl : ∀ c ∈ line, c ≠ 0 ∧ c ≠ 0x0A) : Loaded A { s with cur := headerName line } := by
  refine ⟨⟨List.length_take_le _ _, ?_⟩, h.names, h.ranges, h.apart, h.full, h.ign⟩
  intro c hc
  have hm := List.mem_of_mem_take hc
  obtain ⟨h0, hlf⟩ := hl c ((List.takeWhile_prefix _).subset hm)
  exact ⟨h0, hlf, by simpa using List.mem_takeWhile_imp hm⟩

theorem addRecord (h : Loaded A s) {r : ℕ × ℕ} (hr : GoodRange r) (hcur : s.cur ≠ []) {din : List DinSect}
    (hadd : dinAdd s.din s.cur r = some din) : Loaded A { s with din := din, ign := ignore A s.cur r s.ign } := by
  have hign (i p : ℕ) : ignore A s.cur r s.ign i p = true ↔
      ∃ n, sectFind A n = some i ∧ Lists din n p ∧ ∃ a, A[i]? = some a ∧ p < a.len := by
    have hstep : ignore A s.cur r s.ign i p = true ↔
        s.ign i p = true ∨ sectFind A s.cur = some i ∧ r.1 ≤ p ∧ p < r.1 + r.2 ∧ ∃ a, A[i]? = some a ∧ p < a.len := by
      simp only [ignore, decide_eq_true_eq, Option.any_eq_true, decide_eq_true_eq]
    rw [hstep, h.ign]
    constructor
    · rintro (⟨n, hn, hl, ha⟩ | ⟨hn, hlo, hhi, ha⟩)
      · exact ⟨n, hn, (lists_dinAdd hadd n p).mpr (.inl hl), ha⟩
      · exact ⟨s.cur, hn, (lists_dinAdd hadd s.cur p).mpr (.inr ⟨rfl, hlo, hhi⟩), ha⟩
    · rintro ⟨n, hn, hl, ha⟩
      rcases (lists_dinAdd hadd n p).mp hl with hl | ⟨rfl, hlo, hhi⟩
      · exact .inl ⟨n, hn, hl, ha⟩
      · exact .inr ⟨hn, hlo, hhi, ha⟩
  rcases dinAdd_some hadd with ⟨l, x, l', hdin, hname, rfl⟩ | ⟨hnew, hlen, rfl⟩
  · have hx : x ∈ s.din := by simp [hdin]
    have hother : ∀ y ∈ l ++ ⟨x.name, x.c ++ [r]⟩ :: l', y = ⟨x.name, x.c ++ [r]⟩ ∨ y ∈ s.din := by
      intro y hy
      rw [hdin]
      simp only [List.mem_append, List.mem_cons] at hy ⊢
      tauto
    refine ⟨h.cur, ?_, ?_, ?_, ?_, hign⟩
    · intro y hy
      rcases hother y hy with rfl | hy
      · exact h.names x hx
      · exact h.names y hy
    · intro y hy
      rcases hother y hy with rfl | hy
      · refine ⟨by simp, ?_⟩
        intro q hq
        rcases List.mem_append.mp hq with hq | hq
        · exact (h.ranges x hx).2 q hq
        · rw [List.mem_singleton.mp hq]
          exact hr
      · exact h.ranges y hy
    · have hapart := h.apart
      rw [hdin, ← List.pairwise_map (f := DinSect.name) (R := fun m n => m ≠ n)] at hapart
      rw [← List.pairwise_map (f := DinSect.name) (R := fun m n => m ≠ n)]
      simpa using hapart
    · have hfull := h.full
      rw [hdin] at hfull
      simpa using hfull
  · refine ⟨h.cur, ?_, ?_, ?_, ?_, hign⟩
    · intro y hy
      rcases List.mem_append.mp hy with hy | hy
      · exact h.names y hy
      · rw [List.mem_singleton.mp hy]
        exact ⟨hcur, h.cur⟩
    · intro y hy
      rcases List.mem_append.mp hy with hy | hy
      · exact h.ranges y hy
      · rw [List.mem_singleton.mp hy]
        exact ⟨List.cons_ne_nil _ _, fun q hq => by rw [List.mem_singleton.mp hq]; exact hr⟩
    · rw [List.pairwise_append]
      refine ⟨h.apart, List.pairwise_singleton _ _, ?_⟩
      intro x hx y hy
      rw [List.mem_singleton.mp hy]
      exact hnew x hx
    · rw [List.length_append, List.length_singleton]
      exact hlen

theorem line (h : Loaded A s) {x : Text × ℕ} (hx : ∀ c ∈ lineText x.1, c ≠ 0 ∧ c ≠ 0x0A) (hd : difinLine A s x = .ok d) : Loaded A d := by
  unfold difinLine at hd
  split at hd
  · rw [← Except.ok.inj hd]
    exact h
  · rename_i c line htext
    rw [htext] at hx
    split_ifs at hd with hgt
    · rw [← Except.ok.inj hd]
      exact h.header fun b hb => hx b (List.mem_cons_of_mem _ hb)
    · split at hd
      · rename_i r hr
        unfold difinRecord at hd
        split_ifs at hd with hcur
        split at hd
        · rename_i din hadd
          rw [← Except.ok.inj hd]
          exact h.addRecord (record_good hr) hcur hadd
        · exact absurd hd nofun
      · exact absurd hd nofun

end Loaded

/-- Only its end has a line feed. -/
theorem mem_fgetsLines {t acc line : Text} (hacc : 0x0A ∉ acc) (h : line ∈ fgetsLines t acc) : ∃ m, 0x0A ∉ m ∧ (line = m ∨ line = m ++ [0x0A]) := by
  induction t generalizing acc with
  | nil =>
    cases acc with
    | nil => exact absurd h List.not_mem_nil
    | cons b acc => exact ⟨_, fun hm => hacc (List.mem_reverse.mp hm), .inl (List.mem_singleton.mp h)⟩
  | cons b t ih =>
    rw [fgetsLines] at h
    split_ifs at h with hend
    · rcases List.mem_cons.mp h with rfl | h
      · by_cases hb : b = 0x0A
        · exact ⟨acc.reverse, by simpa using hacc, .inr (by simp [hb])⟩
        · refine ⟨(b :: acc).reverse, ?_, .inl rfl⟩
          simpa [eq_comm] using And.intro hacc hb
      · exact ih List.not_mem_nil h
    · refine ih ?_ h
      rw [List.mem_cons, not_or]
      exact ⟨fun hb => hend (.inl hb.symm), hacc⟩

theorem lineText_plain {t line : Text} (h : line ∈ fgetsLines t []) : ∀ c ∈ lineText line, c ≠ 0 ∧ c ≠ 0x0A := by
  obtain ⟨m, hm, hline⟩ := mem_fgetsLines List.not_mem_nil h
  intro c hc
  have hdrop := List.mem_reverse.mp hc
  have htake : c ∈ line.takeWhile fun c => c ≠ 0 := List.mem_reverse.mp ((List.dropWhile_suffix _).subset hdrop)
  refine ⟨by simpa using List.mem_takeWhile_imp htake, ?_⟩
  rintro rfl
  rcases hline with rfl | rfl
  · exact hm ((List.takeWhile_prefix _).subset htake)
  · by_cases hall : ∀ b ∈ m, b ≠ 0
    · have hself : (m ++ [(0x0A : UInt8)]).takeWhile (fun c => c ≠ 0) = m ++ [0x0A] := by
        rw [List.takeWhile_eq_self_iff]
        intro b hb
        rcases List.mem_append.mp hb with hb | hb
        · simpa using hall b hb
        · rw [List.mem_singleton.mp hb]
          rfl
      rw [hself, List.reverse_append, List.reverse_singleton, List.singleton_append, List.dropWhile_cons_of_pos (by rfl)] at hdrop
      exact hm (List.mem_reverse.mp ((List.dropWhile_suffix _).subset hdrop))
    · have hshort : (m ++ [(0x0A : UInt8)]).takeWhile (fun c => c ≠ 0) = m.takeWhile fun c => c ≠ 0 := by
        rw [List.takeWhile_append, if_neg]
        intro hlen
        have hself := List.takeWhile_eq_self_iff.mp ((List.takeWhile_prefix _).eq_of_length hlen)
        exact hall fun b hb => by simpa using hself b hb
      rw [hshort] at htake
      exact hm ((List.takeWhile_prefix _).subset htake)

theorem difinLoad_loaded {file : Text} (h : difinLoad A file = .ok d) : Loaded A d := by
  have hrun (xs : List (Text × ℕ)) (hxs : ∀ x ∈ xs, ∀ c ∈ lineText x.1, c ≠ 0 ∧ c ≠ 0x0A) (s d : Difin) (hs : Loaded A s)
      (hd : xs.foldlM (difinLine A) s = .ok d) : Loaded A d := by
    induction xs generalizing s with
    | nil =>
      rw [← Except.ok.inj hd]
      exact hs
    | cons x xs ih =>
      rw [List.foldlM_cons] at hd
      cases hx : difinLine A s x with
      | error e =>
        rw [hx] at hd
        exact absurd hd nofun
      | ok s' =>
        rw [hx] at hd
        exact ih (fun y hy => hxs y (List.mem_cons_of_mem _ hy)) s' (hs.line (hxs x List.mem_cons_self) hx) hd
  refine hrun _ ?_ _ _ (.nil A) h
  intro x hx
  exact lineText_plain (List.fst_mem_of_mem_zipIdx hx)

end Loaded

end Cc370.Cmplmd370
