import Cc370.As370.SourceText

namespace Cc370.As370.SourceText

variable {member : Option (List Char)}

def mark : Char := '\uFEFF'

/-- The byte a character is read as. -/
def image (ch : Char) : UInt8 := if ch.val.toNat ≤ 0xFF then .ofNat ch.val.toNat else SRC_SUB

def dropMark : List Char → List Char
  | [] => []
  | ch :: cs => if ch = mark then cs else ch :: cs

/-- The warnings name a card of the file, or say how many they leave out. -/
def Reported (st : Diags) (member : Option (List Char)) (line : ℕ) : Prop :=
  0 < st.srcw.lost ∨ ∃ w ∈ st.srcw.kept, w.line = line ∧ w.src.take 23 = (member.getD []).take 23

/-- The card that a text has come to. -/
def cardOf (cs : List Char) : ℕ := 1 + cs.count '\n'

/-- What a file is read as, if it is the form of a text in UTF-8 with a byte above X'7F', or is not. -/
structure Reads (member : Option (List Char)) (b : List UInt8) (sub : Bool) (st : Diags) : Prop where
  text : ∀ cs, b = utf8 cs → (∃ x ∈ b, 0x7F < x) → (srcFopen member b sub st).out = (dropMark cs).map image
  flagged : ∀ cs, b = utf8 cs → (∃ x ∈ b, 0x7F < x) →
    (srcFopen member b sub st).sub = (sub || (dropMark cs).any fun ch => 0xFF < ch.val.toNat)
  reported : ∀ cs, b = utf8 cs → (∃ x ∈ b, 0x7F < x) → ∀ pre ch post, dropMark cs = pre ++ ch :: post → 0xFF < ch.val.toNat →
    Reported (srcFopen member b sub st).diags member (cardOf pre)
  raw : (∀ cs, b = utf8 cs → ∀ x ∈ b, ¬ 0x7F < x) → srcFopen member b sub st = ⟨b, 1, sub, st⟩

theorem markContStmt_srcw (card : ℤ) (inlib : Bool) (st : Diags) : (st.markContStmt card inlib).srcw = st.srcw := by
  rw [Diags.markContStmt]
  split
  · rfl
  · split <;> split <;> rfl

theorem noteChar_srcw (cp : ℕ) (line : ℤ) (st : Diags) : (st.noteChar cp line member).srcw =
    if st.srcw.kept.getLast?.any fun w => w.line = line && w.src = member.getD [] then st.srcw
    else st.srcw.add 64 ⟨(member.getD []).take 23, line, cp⟩ := by
  rw [Diags.noteChar, markContStmt_srcw]
  split
  · exact markContStmt_srcw _ _ _
  · rfl

theorem Reported.noteChar {st : Diags} {line : ℕ} (h : Reported st member line) (cp : ℕ) (l : ℤ) : Reported (st.noteChar cp l member) member line := by
  rw [Reported, noteChar_srcw]
  split
  · exact h
  · rw [Capped.add]
    split
    · refine h.imp id ?_
      rintro ⟨w, hw, hline⟩
      exact ⟨w, List.mem_append_left _ hw, hline⟩
    · exact Or.inl (Nat.succ_pos _)

theorem reported_noteChar (cp line : ℕ) (st : Diags) : Reported (st.noteChar cp line member) member line := by
  rw [Reported, noteChar_srcw]
  split
  · rename_i hlast
    cases hw : st.srcw.kept.getLast? with
    | none =>
      rw [hw] at hlast
      exact absurd hlast nofun
    | some w =>
      rw [hw, Option.any_some, Bool.and_eq_true, decide_eq_true_eq, decide_eq_true_eq] at hlast
      exact Or.inr ⟨w, List.mem_of_getLast? hw, hlast.1, congrArg (List.take 23) hlast.2⟩
  · rw [Capped.add]
    split
    · refine Or.inr ⟨_, List.mem_append_right _ (List.mem_singleton_self _), rfl, ?_⟩
      rw [List.take_take]
      rfl
    · exact Or.inl (Nat.succ_pos _)

theorem char_eq_iff (a b : Char) : a = b ↔ a.val.toNat = b.val.toNat := by
  rw [UInt32.toNat_inj, Char.ext_iff]

/-- A character that is not dropped, and what it does. -/
theorem char_kept {d : Decoded} {ch : Char} (h : ch = mark → d.out ≠ []) : d.char member ch =
    { out := d.out ++ [image ch]
      line := if ch = '\n' then d.line + 1 else d.line
      sub := d.sub || decide (0xFF < ch.val.toNat)
      diags := if 0xFF < ch.val.toNat then d.diags.noteChar ch.val.toNat d.line member else d.diags } := by
  have hnewline : ch = '\n' ↔ ch.val.toNat = 10 := char_eq_iff ch '\n'
  have hmark : ch = mark ↔ ch.val.toNat = 0xFEFF := char_eq_iff ch mark
  rw [hmark] at h
  rw [Decoded.char, image]
  simp only [hnewline]
  generalize ch.val.toNat = v at *
  by_cases hascii : v ≤ 0x7F
  · have hline : UInt8.ofNat v = 10 ↔ v = 10 := by
      have hten : (10 : UInt8).toNat = 10 := rfl
      rw [ofNat_eq_iff, hten]
      omega
    have hlatin : v ≤ 0xFF := by omega
    simp only [if_pos hascii, Decoded.put, if_pos hlatin, hline, decide_eq_false (not_lt.mpr hlatin), if_neg (not_lt.mpr hlatin), Bool.or_false]
  · rw [if_neg hascii, Decoded.take, if_neg (fun hdrop => h hdrop.1 hdrop.2), if_neg (by omega : ¬ v = 10)]
    by_cases hlatin : v ≤ 0xFF
    · rw [if_pos hlatin, if_pos hlatin, decide_eq_false (by omega), if_neg (by omega : ¬ 0xFF < v), Bool.or_false]
    · rw [if_neg hlatin, if_neg hlatin, decide_eq_true (by omega), if_pos (by omega : 0xFF < v), Bool.or_true]

theorem char_mark {d : Decoded} (h : d.out = []) : d.char member mark = d := by
  rw [Decoded.char, if_neg (by decide), Decoded.take, if_pos ⟨rfl, h⟩]

/-- What a text does that no mark is dropped from. -/
theorem foldl_char (cs : List Char) {d : Decoded} (h : cs.head? = some mark → d.out ≠ []) :
    (cs.foldl (Decoded.char member) d).out = d.out ++ cs.map image ∧
      (cs.foldl (Decoded.char member) d).line = d.line + cs.count '\n' ∧
      (cs.foldl (Decoded.char member) d).sub = (d.sub || cs.any fun ch => 0xFF < ch.val.toNat) := by
  induction cs generalizing d with
  | nil => simp
  | cons ch cs ih =>
    have hch : ch = mark → d.out ≠ [] := fun hm => h (congrArg some hm)
    rw [List.foldl_cons, char_kept hch]
    have hout : d.out ++ [image ch] ≠ [] := List.append_ne_nil_of_right_ne_nil _ (List.cons_ne_nil _ [])
    obtain ⟨hout', hline, hsub⟩ := ih (d := { d with
      out := d.out ++ [image ch]
      line := if ch = '\n' then d.line + 1 else d.line
      sub := d.sub || decide (0xFF < ch.val.toNat)
      diags := if 0xFF < ch.val.toNat then d.diags.noteChar ch.val.toNat d.line member else d.diags }) fun _ => hout
    refine ⟨?_, ?_, ?_⟩
    · rw [hout', List.map_cons, List.append_assoc]
      rfl
    · rw [hline, List.count_cons]
      dsimp only
      split <;> simp_all
      omega
    · rw [hsub, List.any_cons, Bool.or_assoc]

theorem foldl_reported (cs : List Char) {d : Decoded} {line : ℕ} (h : Reported d.diags member line) :
    Reported (cs.foldl (Decoded.char member) d).diags member line := by
  induction cs generalizing d with
  | nil => exact h
  | cons ch cs ih =>
    apply ih
    rw [Decoded.char]
    split
    · exact h
    · rw [Decoded.take]
      split
      · exact h
      · split
        · exact h
        · exact h.noteChar _ _

theorem reported_of_mem {pre post : List Char} {ch : Char} {d : Decoded} (h : (pre ++ ch :: post).head? = some mark → d.out ≠ [])
    (hch : 0xFF < ch.val.toNat) :
    Reported ((pre ++ ch :: post).foldl (Decoded.char member) d).diags member (d.line + pre.count '\n') := by
  have hpre : pre.head? = some mark → d.out ≠ [] := by
    intro hm
    apply h
    rw [List.head?_append, hm]
    rfl
  obtain ⟨hout, hline, -⟩ := @foldl_char member pre d hpre
  rw [List.foldl_append, List.foldl_cons]
  apply foldl_reported
  rw [char_kept]
  · dsimp only
    rw [if_pos hch, hline]
    exact reported_noteChar _ _ _
  · intro hm
    rw [hout]
    cases pre with
    | nil =>
      have hnil := h (by rw [hm]; rfl)
      simpa using hnil
    | cons c pre => exact List.append_ne_nil_of_right_ne_nil _ (List.cons_ne_nil _ _)

theorem high_iff (cs : List Char) : (∃ x ∈ utf8 cs, 0x7F < x) ↔ ∃ ch ∈ cs, 0x7F < ch.val.toNat := by
  have hform (ch : Char) : (∃ x ∈ String.utf8EncodeChar ch, 0x7F < x) ↔ 0x7F < ch.val.toNat := by
    by_cases hch : ch.val.toNat ≤ 0x7F
    · rw [ascii_of_char ch hch]
      simp only [List.mem_singleton, exists_eq_left, UInt8.lt_iff_toNat_lt, UInt8.toNat_ofNat', UInt8.reduceToNat]
      omega
    · obtain ⟨c, u, hencode, hsequence⟩ := sequence_of_char ch (not_le.mp hch)
      refine iff_of_true ⟨c, ?_, ?_⟩ (not_le.mp hch)
      · rw [hencode]
        exact List.mem_cons_self
      · have hc := hsequence.not_ascii
        have hlimit : (0x7F : UInt8).toNat = 0x7F := rfl
        rw [ascii_iff] at hc
        rw [UInt8.lt_iff_toNat_lt, hlimit]
        omega
  constructor
  · rintro ⟨x, hx, hlt⟩
    obtain ⟨ch, hch, hmem⟩ := List.mem_flatMap.mp hx
    exact ⟨ch, hch, (hform ch).mp ⟨x, hmem, hlt⟩⟩
  · rintro ⟨ch, hch, hlt⟩
    obtain ⟨x, hmem, hx⟩ := (hform ch).mpr hlt
    exact ⟨x, List.mem_flatMap.mpr ⟨ch, hch, hmem⟩, hx⟩

variable {sub : Bool} {st : Diags}

theorem srcFopen_utf8 (cs : List Char) (h : ∃ ch ∈ cs, 0x7F < ch.val.toNat) :
    srcFopen member (utf8 cs) sub st = cs.foldl (Decoded.char member) ⟨[], 1, sub, st⟩ := by
  have hany : (cs.any fun ch => 0x7F < ch.val.toNat) = true := by
    obtain ⟨ch, hch, hlt⟩ := h
    exact List.any_eq_true.mpr ⟨ch, hch, decide_eq_true hlt⟩
  rw [srcFopen, scan_utf8 cs le_rfl, hany, ← decode_utf8 cs le_rfl]
  rfl

theorem srcFopen_raw {b : List UInt8} (h : ∀ cs, b = utf8 cs → ∀ x ∈ b, ¬ 0x7F < x) : srcFopen member b sub st = ⟨b, 1, sub, st⟩ := by
  rw [srcFopen]
  by_cases hok : (scan b.length b false).1 = true
  · obtain ⟨cs, rfl⟩ := (scan_iff b).mp hok
    have hlow : (cs.any fun ch => 0x7F < ch.val.toNat) = false := by
      rw [Bool.eq_false_iff, ne_eq, List.any_eq_true]
      rintro ⟨ch, hch, hlt⟩
      obtain ⟨x, hx, hhigh⟩ := (high_iff cs).mpr ⟨ch, hch, of_decide_eq_true hlt⟩
      exact h cs rfl x hx hhigh
    rw [scan_utf8 cs le_rfl, hlow]
    rfl
  · generalize scan b.length b false = r at hok ⊢
    obtain ⟨ok, high⟩ := r
    rw [Bool.not_eq_true] at hok
    subst hok
    rfl

theorem foldl_dropMark {cs : List Char} {d : Decoded} (h : d.out = []) :
    cs.foldl (Decoded.char member) d = (dropMark cs).foldl (Decoded.char member) d := by
  cases cs with
  | nil => rfl
  | cons ch cs =>
    rw [dropMark]
    split
    · rename_i hmark
      rw [List.foldl_cons, hmark, char_mark h]
    · rfl

theorem head_dropMark {cs : List Char} (h : ∀ cs', cs ≠ mark :: mark :: cs') : (dropMark cs).head? ≠ some mark := by
  intro hmark
  cases cs with
  | nil => exact absurd hmark nofun
  | cons ch cs =>
    rw [dropMark] at hmark
    split at hmark
    · rename_i hch
      obtain ⟨cs', hcs⟩ : ∃ cs', cs = mark :: cs' := by
        cases cs with
        | nil => exact absurd hmark nofun
        | cons c cs' => exact ⟨cs', congrArg (· :: cs') (Option.some.inj hmark)⟩
      exact h cs' (by rw [hch, hcs])
    · rename_i hch
      exact hch (Option.some.inj hmark)

theorem foldl_length_le (cs : List Char) (d : Decoded) : (cs.foldl (Decoded.char member) d).out.length ≤ d.out.length + cs.length := by
  induction cs generalizing d with
  | nil => exact le_rfl
  | cons ch cs ih =>
    have hstep : (d.char member ch).out.length ≤ d.out.length + 1 := by
      by_cases hkept : ch = mark → d.out ≠ []
      · rw [char_kept hkept]
        simp
      · push Not at hkept
        rw [hkept.1, char_mark hkept.2]
        exact Nat.le_succ _
    have hrest := ih (d.char member ch)
    rw [List.foldl_cons, List.length_cons]
    omega

/-- A file is read as it should be unless it begins with two byte order marks; a text of Latin-1 always comes back. -/
theorem reads_iff (member : Option (List Char)) (sub : Bool) (st : Diags) :
    (∀ b, Reads member b sub st ↔ ¬ ∃ cs, b = utf8 (mark :: mark :: cs)) ∧
      ∀ cs : List Char, (∀ ch ∈ cs, ch.val.toNat ≤ 0xFF) → (∃ ch ∈ cs, 0x7F < ch.val.toNat) →
        (srcFopen member (utf8 cs) sub st).out = cs.map fun ch => UInt8.ofNat ch.val.toNat := by
  constructor
  · intro b
    constructor
    · rintro h ⟨cs, hb⟩
      have hhigh : ∃ ch ∈ mark :: mark :: cs, 0x7F < ch.val.toNat := ⟨mark, List.mem_cons_self, by decide⟩
      have htext := h.text _ hb (hb ▸ (high_iff _).mpr hhigh)
      rw [hb, srcFopen_utf8 _ hhigh, List.foldl_cons, List.foldl_cons, char_mark rfl, char_mark rfl] at htext
      have hlength := @foldl_length_le member cs ⟨[], 1, sub, st⟩
      rw [htext, dropMark, if_pos rfl, List.length_map, List.length_cons] at hlength
      simp only [List.length_nil] at hlength
      omega
    · intro hno
      have hread : ∀ cs, b = utf8 cs → (∃ x ∈ b, 0x7F < x) →
          srcFopen member b sub st = (dropMark cs).foldl (Decoded.char member) ⟨[], 1, sub, st⟩ ∧ (dropMark cs).head? ≠ some mark := by
        intro cs hb hx
        rw [hb, high_iff] at hx
        rw [hb, srcFopen_utf8 cs hx, foldl_dropMark rfl]
        exact ⟨rfl, head_dropMark fun cs' hcs => hno ⟨cs', by rw [hb, hcs]⟩⟩
      refine ⟨?_, ?_, ?_, srcFopen_raw⟩
      · intro cs hb hx
        obtain ⟨hrun, hhead⟩ := hread cs hb hx
        rw [hrun, (foldl_char _ fun hm => absurd hm hhead).1]
        rfl
      · intro cs hb hx
        obtain ⟨hrun, hhead⟩ := hread cs hb hx
        rw [hrun, (foldl_char _ fun hm => absurd hm hhead).2.2]
      · intro cs hb hx pre ch post hsplit hch
        obtain ⟨hrun, hhead⟩ := hread cs hb hx
        rw [hsplit] at hrun hhead
        rw [hrun]
        exact reported_of_mem (fun hm => absurd hm hhead) hch
  · intro cs hlatin hhigh
    have hhead : cs.head? = some mark → ([] : List UInt8) ≠ [] := by
      intro hm
      have hle := hlatin mark (List.mem_of_head? hm)
      exact absurd hle (by decide)
    rw [srcFopen_utf8 cs hhigh, (foldl_char cs hhead).1, List.nil_append]
    apply List.map_congr_left
    intro ch hch
    rw [image, if_pos (hlatin ch hch)]

theorem reads_not_sign : (srcFopen none (utf8 ['¬']) false Diags.start).out = [0xAC] :=
  (reads_iff none false Diags.start).2 ['¬'] (by simp) (by simp)

/-- Of two byte order marks the second is dropped as well, and not reported. -/
theorem two_marks_not_read : ¬ Reads none [0xEF, 0xBB, 0xBF, 0xEF, 0xBB, 0xBF, 0x41] false Diags.start := by
  intro h
  have hb : [0xEF, 0xBB, 0xBF, 0xEF, 0xBB, 0xBF, 0x41] = utf8 [mark, mark, 'A'] := by decide
  have htext := h.text _ hb ⟨0xEF, by decide, by decide⟩
  exact absurd htext (by decide)

end Cc370.As370.SourceText
