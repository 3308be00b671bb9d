import Cc370.As370.DcCards
import Cc370.I370.AsciiOutput

namespace Cc370.I370.AsciiOutput

open As370 As370.DcCards As370.Expand Constant

/-- The bytes of the assembler source that the compiler writes for a string. -/
def asmFile (s : List UInt8) : List UInt8 := (asmText s).map fun ch => .ofNat ch.toNat

/-- The compiler and the assembler map a character to the same byte. -/
theorem mvsA2e_eq (c : UInt8) : mvsA2e c = mapOutchar c := rfl

section Constants

variable {w : List UInt8} {k : Constant}

theorem char_ne_amp {c : UInt8} (h : numeric c = false) : char c ≠ '&' := (char_plain h).2.2

theorem quoted_cons (c : UInt8) (w : List UInt8) : quoted (c :: w) = quoted [c] ++ quoted w := quoted_append [c] w

theorem quoted_body (h : ∀ c ∈ w, numeric c = false) : Body (quoted w) := by
  induction w with
  | nil => exact .nil
  | cons c w ih =>
    rw [List.forall_mem_cons] at h
    rw [quoted_cons, quoted_singleton]
    split
    · exact .apostrophe (ih h.2)
    · rename_i hc
      exact .char hc (char_plain h.1).no_newline (ih h.2)

/-- The assembler reads back the characters of a string between quotes. -/
theorem cBody_quoted (h : ∀ c ∈ w, numeric c = false) : cBody (quoted w ++ ['\'']) = (w.map char, ['\'']) := by
  induction w with
  | nil => rfl
  | cons c w ih =>
    rw [List.forall_mem_cons] at h
    rw [quoted_cons, quoted_singleton, List.map_cons]
    split
    · rename_i hc
      rw [List.append_assoc, List.cons_append, List.singleton_append, cBody, ih h.2, hc]
    · rename_i hc
      rw [List.append_assoc, List.singleton_append, cBody]
      · rw [ih h.2]
      · intro t hquote
        exact absurd hquote hc
      · intro hquote
        exact absurd hquote hc
      · intro t hamp
        exact absurd hamp (char_ne_amp h.1)

theorem srcA2e_char (c : UInt8) : srcA2e (char c) = mapOutchar c := by
  rw [srcA2e, char_toNat, UInt8.ofNat_toNat, mvsA2e_eq]

theorem value_not_empty (hw : w ≠ []) : dcValueEmpty ('\'' :: (quoted w ++ ['\''])) = false := by
  obtain ⟨c, w, rfl⟩ := List.exists_cons_of_ne_nil hw
  rw [quoted_cons, quoted_singleton]
  split
  · rfl
  · rename_i hc
    simp [dcValueEmpty, hc]

theorem charBytes_quoted (h : ∀ c ∈ w, numeric c = false) (hlen : (quoted w).length ≤ textLength) :
    charBytes none ('\'' :: (quoted w ++ ['\''])) = w.map mapOutchar := by
  have hshort : w.length ≤ 1023 := by
    have hle : w.length ≤ (quoted w).length := by
      clear h hlen
      induction w with
      | nil => exact Nat.zero_le _
      | cons c w ih =>
        rw [quoted_cons, List.length_append, quoted_singleton_length, List.length_cons]
        split <;> omega
    rw [textLength] at hlen
    omega
  have hbody : ((w.map char).take 1023).map srcA2e = w.map mapOutchar := by
    rw [List.take_of_length_le (by rwa [List.length_map]), List.map_map]
    exact List.map_congr_left fun c _ => srcA2e_char c
  rw [charBytes, List.tail_cons, cBody_quoted h, hbody, Option.getD_none, List.take_length, Nat.sub_self, List.replicate_zero,
    List.append_nil]

/-- A constant assembles to the bytes of its part of the string. -/
theorem dcOperand_constant (h : k.Fits) : dcOperand k.operand = some (k.bytes.map mapOutchar) := by
  cases k with
  | chars w =>
    obtain ⟨hw, hplain, hlen⟩ := h
    have hoperand : (chars w).operand = 'C' :: '\'' :: (quoted w ++ ['\'']) := rfl
    rw [hoperand, dcOperand, operand_quoted (Or.inl rfl), Option.bind_some]
    dsimp only
    rw [value_not_empty hw, charBytes_quoted hplain hlen, if_neg Bool.false_ne_true, if_pos rfl, List.replicate_one, List.flatten_singleton]
    rfl
  | hex c =>
    have hall : ∀ n < 256, dcOperand ('X' :: '\'' :: (upperHex n ++ ['\''])) = some [.ofNat n] := by decide +kernel
    have hbyte := hall (mapOutchar c).toNat (mapOutchar c).toNat_lt
    rwa [UInt8.ofNat_toNat] at hbyte

end Constants

section Cards

variable {k : Constant} {s : List UInt8}

theorem upperHex_digits (v : UInt8) : (∀ ch ∈ upperHex v.toNat, isXDigit ch = true) ∧ upperHex v.toNat ≠ [] := by
  have hall : ∀ n < 256, (upperHex n).all isXDigit ∧ upperHex n ≠ [] := by decide +kernel
  obtain ⟨hdigits, hne⟩ := hall v.toNat v.toNat_lt
  exact ⟨List.all_eq_true.mp hdigits, hne⟩

theorem card_eq (k : Constant) : k.card = quotedCard k.ty k.body := rfl

theorem card_complete (h : k.Fits) : Complete k.card where
  ends := (card_length h).trans (by decide)
  text := by
    refine ⟨k.ty, k.body, ?_⟩
    cases k with
    | chars w => exact ⟨Or.inl ⟨rfl, quoted_body h.2.1⟩, fun hnil => h.1 (quoted_eq_nil.mp (congrArg List.length hnil)), rfl⟩
    | hex c => exact ⟨Or.inr ⟨rfl, (upperHex_digits (mapOutchar c)).1⟩, (upperHex_digits (mapOutchar c)).2, rfl⟩
  plain := by
    intro ch hch
    rcases List.mem_append.mp hch with hch | hch
    · have hch : ch = ' ' ∨ ch = 'D' ∨ ch = 'C' ∨ ch = ' ' := by simpa using hch
      rcases hch with rfl | rfl | rfl | rfl <;> exact ⟨by decide, by decide⟩
    · obtain ⟨-, hhigh, hamp⟩ := operand_plain h ch hch
      exact ⟨by omega, hamp⟩

theorem statement_card (h : k.Fits) : statement (k.card ++ ['\n']) = some (k.bytes.map mapOutchar) := by
  have hcomplete := card_complete h
  have hty : Typed k.ty := by
    cases k with
    | chars w => exact Or.inl rfl
    | hex c => exact Or.inr rfl
  have hbody : Body k.body := by
    cases k with
    | chars w => exact quoted_body h.2.1
    | hex c => exact body_of_digits (upperHex_digits (mapOutchar c)).1
  rw [card_eq, statement_quotedCard hty hbody hcomplete.ends]
  exact dcOperand_constant h

theorem assembled_cards (ks : List Constant) (h : ∀ k ∈ ks, k.Fits) :
    ((ks.map fun k => k.card ++ ['\n']).mapM statement).map List.flatten = some ((ks.flatMap bytes).map mapOutchar) := by
  have hall : (ks.map fun k => k.card ++ ['\n']).mapM statement = some (ks.map fun k => k.bytes.map mapOutchar) := by
    induction ks with
    | nil => rfl
    | cons k ks ih =>
      rw [List.forall_mem_cons] at h
      rw [List.map_cons, List.mapM_cons, statement_card h.1, ih h.2]
      rfl
  rw [hall, Option.map_some, List.map_flatMap, List.flatMap_def]

/-- The assembler takes the constants of the cards that it reads. -/
theorem assemble_asmFile (s : List UInt8) :
    assemble (asmFile s) = some ((((constants [] s).take maxLines).flatMap bytes).map mapOutchar) := by
  have hfits := constants_fits Open.nil s
  have hcomplete : ∀ card ∈ cards s, Complete card := by
    intro card hcard
    obtain ⟨k, hk, rfl⟩ := List.mem_map.mp hcard
    exact card_complete (hfits k hk)
  rw [assemble, asmFile, asmText_eq, source_complete hcomplete, cards, ← List.map_take, List.map_map]
  exact assembled_cards _ fun k hk => hfits k (List.mem_of_mem_take hk)

theorem bytes_pos (h : k.Fits) : k.bytes ≠ [] := by
  cases k with
  | chars w => exact h.1
  | hex c => exact List.cons_ne_nil c []

/-- Nothing of a string is lost where all its cards are read. -/
theorem taken_iff (s : List UInt8) : (((constants [] s).take maxLines).flatMap bytes).map mapOutchar = s.map mapOutchar ↔
    (cards s).length ≤ maxLines := by
  have hbytes := constants_bytes [] s
  rw [List.nil_append] at hbytes
  rw [cards, List.length_map]
  constructor
  · intro h
    by_contra hlong
    have hlong := not_le.mp hlong
    have hlength := congrArg List.length h
    have hsplit : (((constants [] s).take maxLines).flatMap bytes) ++ ((constants [] s).drop maxLines).flatMap bytes = s := by
      rw [← List.flatMap_append, List.take_append_drop, hbytes]
    have hsum := congrArg List.length hsplit
    rw [List.length_map, List.length_map] at hlength
    rw [List.length_append] at hsum
    have hnil : ((constants [] s).drop maxLines).flatMap bytes = [] := List.eq_nil_of_length_eq_zero (by omega)
    rw [List.drop_eq_getElem_cons hlong, List.flatMap_cons, List.append_eq_nil_iff] at hnil
    exact bytes_pos (constants_fits Open.nil s _ (List.getElem_mem hlong)) hnil.1
  · intro h
    rw [List.take_of_length_le h, hbytes]

end Cards

/-- The text of a string is cards that are DC statements by themselves, and they assemble to the bytes of the string as the
compiler maps them exactly when there are no more cards than the assembler reads. -/
theorem ascii_cards (s : List UInt8) :
    asmText s = (cards s).flatMap (· ++ ['\n']) ∧ (∀ card ∈ cards s, Complete card) ∧
      (assemble (asmFile s) = some (s.map mapOutchar) ↔ (cards s).length ≤ maxLines) := by
  refine ⟨asmText_eq s, ?_, ?_⟩
  · intro card hcard
    obtain ⟨k, hk, rfl⟩ := List.mem_map.mp hcard
    exact card_complete (constants_fits Open.nil s k hk)
  · rw [assemble_asmFile, Option.some.injEq, taken_iff]

/-- Every byte of a string in hexadecimal has a card of its own. -/
theorem cards_numeric {s : List UInt8} (h : ∀ c ∈ s, numeric c = true) : (cards s).length = s.length := by
  have hlength : (constants [] s).length = s.length := by
    induction s with
    | nil => rfl
    | cons c s ih =>
      rw [List.forall_mem_cons] at h
      rw [constants, if_pos h.1, List.length_append, List.length_cons, ih h.2, List.length_cons]
      exact Nat.zero_add _
  rw [cards, List.length_map, hlength]

theorem ascii_cards_cut :
    assemble (asmFile (List.replicate (maxLines + 1) 0)) ≠ some ((List.replicate (maxLines + 1) 0).map mapOutchar) := by
  rw [assemble_asmFile, Ne, Option.some.injEq, taken_iff, cards_numeric fun c hc => (List.eq_of_mem_replicate hc) ▸ rfl,
    List.length_replicate]
  exact Nat.not_succ_le_self maxLines

end Cc370.I370.AsciiOutput
