import Cc370.Xmit370.Create
import Cc370.Lib.Pairing

namespace Cc370

def mvsE2a (c : UInt8) : UInt8 := .ofNat (Dasm370.mvsE2aTab.getD c.toNat 0)

theorem byte_ofNat (c : UInt8) : ∃ n : Fin 256, c = .ofNat n.val := ⟨⟨c.toNat, c.toNat_lt⟩, UInt8.ofNat_toNat.symm⟩

/-- A character of a text. -/
def isText (c : UInt8) : Bool := 0x20 ≤ c ∧ c ≠ 0x7F

/-- The tables are inverse to each other on a text, but for X'85', which shares its code with the newline. -/
theorem mvsE2a_mvsA2e {c : UInt8} (h : isText c = true) (hnel : c ≠ 0x85) : mvsE2a (mvsA2e c) = c := by
  have hall : ∀ n : Fin 256, isText (.ofNat n.val) = true → UInt8.ofNat n.val ≠ 0x85 →
      mvsE2a (mvsA2e (.ofNat n.val)) = .ofNat n.val := by decide +kernel
  obtain ⟨n, rfl⟩ := byte_ofNat c
  exact hall n h hnel

theorem mvsA2e_eq_nel {c : UInt8} (h : isText c = true) : mvsA2e c = 0x15 ↔ c = 0x85 := by
  constructor
  · intro hcode
    by_contra hne
    rw [← mvsE2a_mvsA2e h hne, hcode] at h
    exact absurd h (by decide)
  · rintro rfl
    rfl

theorem mvsA2e_eq_blank {c : UInt8} (h : isText c = true) : mvsA2e c = 0x40 ↔ c = 0x20 := by
  constructor
  · intro hcode
    have hne : c ≠ 0x85 := by
      rintro rfl
      exact absurd hcode (by decide)
    rw [← mvsE2a_mvsA2e h hne, hcode]
    rfl
  · rintro rfl
    rfl

namespace Xmit370

section Extract

/-- The whole records of a member. -/
def fixedRecords (lrecl : ℕ) (b : List UInt8) : List (List UInt8) :=
  (List.range (b.length / lrecl)).map fun k => (b.drop (k * lrecl)).take lrecl

def extractLine (r : List UInt8) : List UInt8 := (stripBlanks 0x40 r).map mvsE2a

/-- The file that `do_extract` writes for a member with fixed-length records. -/
def extractText (lrecl : ℕ) (b : List UInt8) : List UInt8 :=
  (fixedRecords lrecl b).flatMap fun r => extractLine r ++ [0x0A]

end Extract

section Lines

theorem splitOn_unlines {ls : List (List UInt8)} (h : ∀ l ∈ ls, 0x0A ∉ l) :
    (ls.flatMap fun l => l ++ [0x0A]).splitOn 0x0A = ls ++ [[]] := by
  induction ls with
  | nil => exact List.splitOn_nil _
  | cons l ls ih =>
    rw [List.flatMap_cons, List.append_assoc, List.singleton_append, List.splitOn_append_cons_self,
      List.splitOn_eq_singleton (h l List.mem_cons_self), ih fun l' hl' => h l' (List.mem_cons_of_mem _ hl')]
    rfl

theorem rawLines_unlines {ls : List (List UInt8)} (h : ∀ l ∈ ls, 0x0A ∉ l) :
    rawLines (ls.flatMap fun l => l ++ [0x0A]) = ls := by
  rw [rawLines, splitOn_unlines h, if_pos (by simp), List.dropLast_concat]

theorem mem_splitOn {raw : List UInt8} {c : UInt8} (hc : c ≠ 0x0A) : c ∈ raw ↔ ∃ l ∈ raw.splitOn 0x0A, c ∈ l := by
  induction raw with
  | nil => simp
  | cons x raw ih =>
    rw [List.splitOn_cons_eq_if_modifyHead, List.mem_cons, ih]
    obtain ⟨l, ls, hls⟩ := List.exists_cons_of_ne_nil (List.splitOn_ne_nil 0x0A raw)
    rw [hls]
    split_ifs with hx
    · have hx' : x = 0x0A := by simpa using hx
      subst hx'
      simp [hc]
    · simp [or_assoc]

theorem mem_rawLines {raw : List UInt8} {c : UInt8} (hc : c ≠ 0x0A) : c ∈ raw ↔ ∃ l ∈ rawLines raw, c ∈ l := by
  rw [mem_splitOn hc, rawLines]
  split_ifs with hlast
  · obtain ⟨ls, hls⟩ := List.getLast?_eq_some_iff.mp hlast
    rw [hls, List.dropLast_concat]
    simp
  · rfl

end Lines

section Expand

variable (o : Options)

theorem isText_high {c : UInt8} (h : 0x80 ≤ c) : isText c = true := by
  have hc : 0x80 ≤ c.toNat := UInt8.le_iff_toNat_le.mp h
  rw [isText, decide_eq_true_iff]
  refine ⟨UInt8.le_iff_toNat_le.mpr ?_, ?_⟩
  · exact le_trans (by decide) hc
  · rintro rfl
    exact absurd hc (by decide)

def high (l : List UInt8) : List UInt8 := l.filter fun c => 0x80 ≤ c

theorem high_replicate_blank (n : ℕ) : high (List.replicate n 0x20) = [] := by
  rw [high, List.filter_replicate, if_neg (by decide)]

/-- The expanded line is a text with the high bytes of the line. -/
structure Expands (line exp : List UInt8) : Prop where
  text : ∀ c ∈ exp, isText c = true
  keeps : high exp = high line

variable {o}

theorem Expands.byte {line exp exp' : List UInt8} {c : UInt8} (h : Expands line exp)
    (hc : expandByte o o.optTabs exp c = some exp') : Expands (line ++ [c]) exp' := by
  obtain ⟨htext, hkeeps⟩ := h
  rw [expandByte] at hc
  split_ifs at hc with htab htabs hhigh hctl
  · obtain rfl := Option.some.inj hc
    constructor
    · intro x hx
      rcases List.mem_append.mp hx with hx | hx
      · exact htext x hx
      · rw [(List.mem_replicate.mp hx).2]
        decide
    · rw [high, List.filter_append, ← high, hkeeps, ← high, high_replicate_blank, htab]
      simp [high]
  · obtain rfl := Option.some.inj hc
    constructor
    · intro x hx
      rcases List.mem_append.mp hx with hx | hx
      · exact htext x hx
      · rw [List.mem_singleton.mp hx, isText, decide_eq_true_iff]
        rw [not_or, UInt8.not_lt] at hctl
        exact hctl
    · rw [high, List.filter_append, ← high, hkeeps, high, high, List.filter_append]

theorem Expands.run {line rest exp exp' : List UInt8} (h : Expands line exp)
    (hrun : rest.foldlM (expandByte o o.optTabs) exp = some exp') : Expands (line ++ rest) exp' := by
  induction rest generalizing line exp with
  | nil =>
    obtain rfl : exp = exp' := by simpa using hrun
    rwa [List.append_nil]
  | cons c rest ih =>
    rw [List.foldlM_cons] at hrun
    obtain ⟨mid, hmid, hrest⟩ := Option.bind_eq_some_iff.mp hrun
    have hih := ih (h.byte hmid) hrest
    rwa [List.append_assoc, List.singleton_append] at hih

theorem expands_line {line exp : List UInt8} (h : line.foldlM (expandByte o o.optTabs) [] = some exp) : Expands line exp := by
  have hnil : Expands [] [] := ⟨nofun, rfl⟩
  exact hnil.run h

end Expand

section Records

variable {o : Options}

theorem stripBlanks_append_replicate (blank : UInt8) (l : List UInt8) (n : ℕ) :
    stripBlanks blank (l ++ List.replicate n blank) = stripBlanks blank l := by
  induction n with
  | zero => rw [List.replicate_zero, List.append_nil]
  | succ n ih =>
    rw [stripBlanks, List.replicate_succ', ← List.append_assoc, List.reverse_append, List.reverse_singleton,
      List.singleton_append, List.dropWhile_cons_of_pos (by simp), ← stripBlanks, ih]

theorem stripBlanks_idem (blank : UInt8) (l : List UInt8) : stripBlanks blank (stripBlanks blank l) = stripBlanks blank l := by
  rw [stripBlanks, stripBlanks, List.reverse_reverse, List.dropWhile_idempotent]

theorem stripBlanks_subset {blank c : UInt8} {l : List UInt8} (h : c ∈ stripBlanks blank l) : c ∈ l := by
  rw [stripBlanks, List.mem_reverse] at h
  exact List.mem_reverse.mp ((List.dropWhile_sublist _).mem h)

theorem stripBlanks_map {l : List UInt8} (h : ∀ c ∈ l, isText c = true) :
    stripBlanks 0x40 (l.map mvsA2e) = (stripBlanks 0x20 l).map mvsA2e := by
  rw [stripBlanks, stripBlanks, ← List.map_reverse, List.dropWhile_map, ← List.map_reverse]
  have hdrop : ∀ t : List UInt8, (∀ c ∈ t, isText c = true) →
      t.dropWhile ((fun c => decide (c = 0x40)) ∘ mvsA2e) = t.dropWhile (· = 0x20) := by
    intro t ht
    induction t with
    | nil => rfl
    | cons c t ih =>
      have hblank := mvsA2e_eq_blank (ht c List.mem_cons_self)
      rw [List.dropWhile_cons, List.dropWhile_cons, ih fun x hx => ht x (List.mem_cons_of_mem _ hx)]
      simp only [Function.comp, hblank]
  rw [hdrop _ fun c hc => h c (List.mem_reverse.mp hc)]

theorem high_stripBlanks (l : List UInt8) : high (stripBlanks 0x20 l) = high l := by
  have hdrop : ∀ t : List UInt8, high (t.dropWhile (· = 0x20)) = high t := by
    intro t
    induction t with
    | nil => rfl
    | cons c t ih =>
      rw [List.dropWhile_cons]
      split_ifs with hc
      · have hc' : c = 0x20 := by simpa using hc
        rw [ih, hc']
        rfl
      · rfl
  rw [stripBlanks, high, List.filter_reverse, ← high, hdrop, high, ← List.filter_reverse, List.reverse_reverse, high]

theorem high_stripCr (l : List UInt8) : high (stripCr l) = high l := by
  rw [stripCr]
  split_ifs with h
  · obtain ⟨t, rfl⟩ := List.getLast?_eq_some_iff.mp h
    rw [List.dropLast_concat, high, high, List.filter_append]
    simp
  · rfl

/-- A record: the columns of a line in EBCDIC, filled up with blanks. -/
theorem lineRecord_eq {line r : List UInt8} (h : lineRecord o line = some r) :
    ∃ cols, (∀ c ∈ cols, isText c = true) ∧ high cols = high line ∧ stripBlanks 0x20 cols = cols ∧ cols.length ≤ o.lrecl ∧
      r = cols.map mvsA2e ++ List.replicate (o.lrecl - cols.length) 0x40 := by
  obtain ⟨exp, hexp, hr⟩ := Option.bind_eq_some_iff.mp h
  have hexpands := expands_line hexp
  dsimp only at hr
  split_ifs at hr with hlong
  refine ⟨stripBlanks 0x20 exp, ?_, ?_, stripBlanks_idem _ _, not_lt.mp hlong, (Option.some.inj hr).symm⟩
  · intro c hc
    exact hexpands.text c (stripBlanks_subset hc)
  · rw [high_stripBlanks, hexpands.keeps, high_stripCr]

theorem extractLine_record {cols : List UInt8} (htext : ∀ c ∈ cols, isText c = true) (hstrip : stripBlanks 0x20 cols = cols)
    (hnel : 0x85 ∉ cols) (n : ℕ) : extractLine (cols.map mvsA2e ++ List.replicate n 0x40) = cols := by
  rw [extractLine, stripBlanks_append_replicate, stripBlanks_map htext, hstrip, List.map_map]
  conv_rhs => rw [← List.map_id cols]
  apply List.map_congr_left
  intro c hc
  apply mvsE2a_mvsA2e (htext c hc)
  rintro rfl
  exact hnel hc

theorem nel_mem_record {cols : List UInt8} (htext : ∀ c ∈ cols, isText c = true) (n : ℕ) :
    0x15 ∈ cols.map mvsA2e ++ List.replicate n 0x40 ↔ 0x85 ∈ cols := by
  rw [List.mem_append, List.mem_map]
  constructor
  · rintro (⟨c, hc, hcode⟩ | hpad)
    · rwa [(mvsA2e_eq_nel (htext c hc)).mp hcode] at hc
    · exact absurd (List.mem_replicate.mp hpad).2 (by decide)
  · intro hc
    exact .inl ⟨0x85, hc, (mvsA2e_eq_nel (htext _ hc)).mpr rfl⟩

theorem mem_high {l : List UInt8} {c : UInt8} (hc : 0x80 ≤ c) : c ∈ high l ↔ c ∈ l := by
  rw [high, List.mem_filter, decide_eq_true_iff, and_iff_left hc]

theorem fixedRecords_flatten {lrecl : ℕ} (hpos : 0 < lrecl) {rs : List (List UInt8)} (h : ∀ r ∈ rs, r.length = lrecl) :
    fixedRecords lrecl rs.flatten = rs := by
  have hlen : ∀ l ∈ rs.map List.length, l = lrecl := by
    intro l hl
    obtain ⟨r, hr, rfl⟩ := List.mem_map.mp hl
    exact h r hr
  have htotal : rs.flatten.length = rs.length * lrecl := by
    rw [List.length_flatten, List.eq_replicate_of_mem hlen, List.sum_replicate, List.length_map, smul_eq_mul]
  rw [fixedRecords, htotal, Nat.mul_div_cancel _ hpos]
  clear htotal hlen
  induction rs with
  | nil => rfl
  | cons r rs ih =>
    have hr := h r List.mem_cons_self
    rw [List.length_cons, List.range_succ_eq_map, List.map_cons, List.map_map]
    congr 1
    · rw [zero_mul, List.drop_zero, List.flatten_cons, ← hr, List.take_left]
    · apply Eq.trans _ (ih fun x hx => h x (List.mem_cons_of_mem _ hx))
      apply List.map_congr_left
      intro k _
      simp only [Function.comp, List.flatten_cons]
      rw [Nat.succ_mul, Nat.add_comm, ← hr, List.drop_length_add_append]

theorem textToRecords_eq {raw : List UInt8} {rs : List (List UInt8)} (h : textToRecords o raw = some rs) :
    List.Forall₂ (fun line r => lineRecord o line = some r) (rawLines raw) rs := Pairing.forall₂_of_mapM h

theorem record_length {line r : List UInt8} (h : lineRecord o line = some r) : r.length = o.lrecl := by
  obtain ⟨cols, -, -, -, hle, rfl⟩ := lineRecord_eq h
  rw [List.length_append, List.length_map, List.length_replicate]
  omega

/-- A record holds a newline exactly when its line holds X'85'. -/
theorem nel_mem_lineRecord {line r : List UInt8} (h : lineRecord o line = some r) : 0x15 ∈ r ↔ 0x85 ∈ line := by
  obtain ⟨cols, htext, hhigh, -, -, rfl⟩ := lineRecord_eq h
  rw [nel_mem_record htext, ← mem_high (by decide), hhigh, mem_high (by decide)]

theorem extractLine_lineRecord {line r : List UInt8} (h : lineRecord o line = some r) (hnel : 0x85 ∉ line) :
    0x0A ∉ extractLine r ∧ high (extractLine r) = high line := by
  obtain ⟨cols, htext, hhigh, hstrip, -, rfl⟩ := lineRecord_eq h
  have hcols : 0x85 ∉ cols := by rwa [← mem_high (by decide), hhigh, mem_high (by decide)]
  rw [extractLine_record htext hstrip hcols]
  refine ⟨?_, hhigh⟩
  intro hc
  exact absurd (htext _ hc) (by decide)

/-- The text comes back with its high bytes, and no record holds a newline, exactly when the file does not
hold X'85'. -/
theorem latin1_lossless_iff {raw : List UInt8} {rs : List (List UInt8)} (hacc : o.Accepted) (h : textToRecords o raw = some rs) :
    ((rawLines (extractText o.lrecl rs.flatten)).map high = (rawLines raw).map high ∧ ∀ r ∈ rs, 0x15 ∉ r) ↔ 0x85 ∉ raw := by
  have hrecs := textToRecords_eq h
  have hlen : ∀ r ∈ rs, r.length = o.lrecl := by
    intro r hr
    obtain ⟨line, -, hline⟩ := Pairing.exists_left hrecs hr
    exact record_length hline
  rw [extractText, fixedRecords_flatten hacc.1.1 hlen, mem_rawLines (by decide)]
  constructor
  · rintro ⟨-, hnone⟩ ⟨line, hline, hnel⟩
    obtain ⟨r, hr, hrec⟩ := Pairing.exists_right hrecs hline
    exact hnone r hr ((nel_mem_lineRecord hrec).mpr hnel)
  · intro hnel
    have hlines : List.Forall₂ (fun line r => high line = high (extractLine r)) (rawLines raw) rs := by
      have hnone : ∀ line ∈ rawLines raw, 0x85 ∉ line := fun line hline hx => hnel ⟨line, hline, hx⟩
      apply ((List.forall₂_and_left _ _).mpr ⟨hnone, hrecs⟩).imp
      rintro line r ⟨hnone, hrec⟩
      exact (extractLine_lineRecord hrec hnone).2.symm
    have hnewline : ∀ l ∈ rs.map extractLine, 0x0A ∉ l := by
      intro l hl
      obtain ⟨r, hr, rfl⟩ := List.mem_map.mp hl
      obtain ⟨line, hline, hrec⟩ := Pairing.exists_left hrecs hr
      exact (extractLine_lineRecord hrec fun hx => hnel ⟨line, hline, hx⟩).1
    refine ⟨?_, ?_⟩
    · rw [← List.flatMap_map extractLine fun l => l ++ [0x0A], rawLines_unlines hnewline, List.map_map]
      exact (Pairing.map_eq_map hlines).symm
    · intro r hr hx
      obtain ⟨line, hline, hrec⟩ := Pairing.exists_left hrecs hr
      exact hnel ⟨line, hline, (nel_mem_lineRecord hrec).mp hx⟩

end Records

/-- Records of eight columns, with `--latin1`. -/
def latin1Options : Options where
  dsn := [0x41]
  lrecl := 8
  blocksize := some 80
  recfm := .fb
  stats := false
  tabs := 8
  latin1 := true
  userid := []
  statsDate := none
  now := ⟨2026, 1, 1, 0, 0, 0, 0⟩

theorem eAcute_lossless : textToRecords latin1Options [0x41, 0xE9] = some [[0xC1, 0x51, 0x40, 0x40, 0x40, 0x40, 0x40, 0x40]] ∧
    (rawLines (extractText 8 [0xC1, 0x51, 0x40, 0x40, 0x40, 0x40, 0x40, 0x40])).map high = [[0xE9]] := by
  have hrecs : textToRecords latin1Options [0x41, 0xE9] = some [[0xC1, 0x51, 0x40, 0x40, 0x40, 0x40, 0x40, 0x40]] := by
    decide +kernel
  exact ⟨hrecs, ((latin1_lossless_iff (by decide) hrecs).mpr (by decide)).1⟩

theorem nextLine_lost : latin1Options.Accepted ∧ textToRecords latin1Options [0x41, 0x85] =
      some [[0xC1, 0x15, 0x40, 0x40, 0x40, 0x40, 0x40, 0x40]] ∧
    extractText 8 [0xC1, 0x15, 0x40, 0x40, 0x40, 0x40, 0x40, 0x40] = [0x41, 0x0A, 0x0A] := by
  refine ⟨by decide, by decide +kernel, by decide +kernel⟩

end Xmit370

end Cc370
