import Cc370.As370.Expr

namespace Cc370.I370.AsciiOutput

/-- `i370_ascii_to_ebcdic` -/
def asciiToEbcdic : List ℕ :=
  [0x00, 0x01, 0x02, 0x03, 0x37, 0x2D, 0x2E, 0x2F, 0x16, 0x05, 0x15, 0x0B, 0x0C, 0x0D, 0x0E, 0x0F,
    0x10, 0x11, 0x12, 0x13, 0x3C, 0x3D, 0x32, 0x26, 0x18, 0x19, 0x3F, 0x27, 0x1C, 0x1D, 0x1E, 0x1F,
    0x40, 0x5A, 0x7F, 0x7B, 0x5B, 0x6C, 0x50, 0x7D, 0x4D, 0x5D, 0x5C, 0x4E, 0x6B, 0x60, 0x4B, 0x61,
    0xF0, 0xF1, 0xF2, 0xF3, 0xF4, 0xF5, 0xF6, 0xF7, 0xF8, 0xF9, 0x7A, 0x5E, 0x4C, 0x7E, 0x6E, 0x6F,
    0x7C, 0xC1, 0xC2, 0xC3, 0xC4, 0xC5, 0xC6, 0xC7, 0xC8, 0xC9, 0xD1, 0xD2, 0xD3, 0xD4, 0xD5, 0xD6,
    0xD7, 0xD8, 0xD9, 0xE2, 0xE3, 0xE4, 0xE5, 0xE6, 0xE7, 0xE8, 0xE9, 0xBA, 0xE0, 0xBB, 0xB0, 0x6D,
    0x79, 0x81, 0x82, 0x83, 0x84, 0x85, 0x86, 0x87, 0x88, 0x89, 0x91, 0x92, 0x93, 0x94, 0x95, 0x96,
    0x97, 0x98, 0x99, 0xA2, 0xA3, 0xA4, 0xA5, 0xA6, 0xA7, 0xA8, 0xA9, 0xC0, 0x4F, 0xD0, 0xA1, 0x07,
    0x20, 0x21, 0x22, 0x23, 0x24, 0x15, 0x06, 0x17, 0x28, 0x29, 0x2A, 0x2B, 0x2C, 0x09, 0x0A, 0x1B,
    0x30, 0x31, 0x1A, 0x33, 0x34, 0x35, 0x36, 0x08, 0x38, 0x39, 0x3A, 0x3B, 0x04, 0x14, 0x3E, 0xFF,
    0x41, 0xAA, 0x4A, 0xB1, 0x9F, 0xB2, 0x6A, 0xB5, 0xBD, 0xB4, 0x9A, 0x8A, 0x5F, 0xCA, 0xAF, 0xBC,
    0x90, 0x8F, 0xEA, 0xFA, 0xBE, 0xA0, 0xB6, 0xB3, 0x9D, 0xDA, 0x9B, 0x8B, 0xB7, 0xB8, 0xB9, 0xAB,
    0x64, 0x65, 0x62, 0x66, 0x63, 0x67, 0x9E, 0x68, 0x74, 0x71, 0x72, 0x73, 0x78, 0x75, 0x76, 0x77,
    0xAC, 0x69, 0xED, 0xEE, 0xEB, 0xEF, 0xEC, 0xBF, 0x80, 0xFD, 0xFE, 0xFB, 0xFC, 0xAD, 0xAE, 0x59,
    0x44, 0x45, 0x42, 0x46, 0x43, 0x47, 0x9C, 0x48, 0x54, 0x51, 0x52, 0x53, 0x58, 0x55, 0x56, 0x57,
    0x8C, 0x49, 0xCD, 0xCE, 0xCB, 0xCF, 0xCC, 0xE1, 0x70, 0xDD, 0xDE, 0xDB, 0xDC, 0x8D, 0x8E, 0xDF]

/-- `MAP_OUTCHAR` -/
def mapOutchar (c : UInt8) : UInt8 := .ofNat (asciiToEbcdic.getD c.toNat 0)

/-- The masks of `_sch_istable`; `is` is its underscore, `none` a character without a class. -/
inductive Mask
  | Z | C | M | V | T | S | P | D | XU | U | XL | L | is | none
deriving DecidableEq

namespace Mask

def isprint (m : Mask) : Bool := m ∈ [S, P, D, XU, U, XL, L, is]

def iscntrl (m : Mask) : Bool := m ∈ [Z, C, M, V, T]

def isvsp (m : Mask) : Bool := m = V

def isnvsp (m : Mask) : Bool := m ∈ [Z, M, T, S]

def istable : List Mask :=
  [Z, C, C, C, C, C, C, C, C, T, V, M, M, V, C, C, C, C, C, C, C, C, C, C, C, C, C, C, C, C, C, C,
    S, P, P, P, P, P, P, P, P, P, P, P, P, P, P, P, D, D, D, D, D, D, D, D, D, D, P, P, P, P, P, P,
    P, XU, XU, XU, XU, XU, XU, U, U, U, U, U, U, U, U, U, U, U, U, U, U, U, U, U, U, U, U, P, P, P, P, is,
    P, XL, XL, XL, XL, XL, XL, L, L, L, L, L, L, L, L, L, L, L, L, L, L, L, L, L, L, L, L, P, P, P, P, C] ++
    .replicate 128 none

end Mask

def sch (c : UInt8) : Mask := Mask.istable.getD c.toNat .none

/-- `IS_ISOBASIC` -/
def isIsobasic (c : UInt8) : Bool := (sch c).isprint || (sch c).isvsp || (sch c).isnvsp

def iscntrl (c : UInt8) : Bool := (sch c).iscntrl

def textLength : ℕ := 48

/-- A tab before the operation and one before the operand. -/
def dc (ty : Char) : List Char := ['\t', 'D', 'C', '\t', ty, '\'']

def close : List Char := ['\'', '\n']

/-- What `%X` prints. -/
def upperHex (v : ℕ) : List Char := (Nat.toDigits 16 v).map Char.toUpper

/-- Whether a byte is written in hexadecimal. -/
def numeric (c : UInt8) : Bool := !isIsobasic c || iscntrl c || c.toNat = '&'.toNat

def char (c : UInt8) : Char := .ofNat c.toNat

/-- What the loop of `ASM_OUTPUT_ASCII` prints for a byte, and its `j` at the next one. -/
def outputChar (j : ℕ) (c : UInt8) : List Char × ℕ :=
  if numeric c then ((if j % textLength ≠ 0 then close else []) ++ dc 'X' ++ upperHex (mapOutchar c).toNat ++ close, 0)
  else
    let opened := if j % textLength = 0 then dc 'C' else []
    let (printed, j) :=
      if char c = '\'' then
        -- two characters are printed, and there may be room for one only
        let (moved, j) := if j % textLength = textLength - 1 then (close ++ dc 'C', j + 1) else ([], j)
        (moved ++ [char c, char c], j + 1)
      else ([char c], j)
    (opened ++ printed ++ (if j % textLength = textLength - 1 then close else []), j + 1)

def outputLoop : ℕ → List UInt8 → List Char
  | j, [] => if j % textLength ≠ 0 then close else []
  | j, c :: s => (outputChar j c).1 ++ outputLoop (outputChar j c).2 s

/-- `ASM_OUTPUT_ASCII` -/
def asmOutputAscii (s : List UInt8) : List Char := outputLoop 0 s

/-- `i370_ifox_end`, from a column on. -/
def ifoxEnd : ℕ → List Char → List Char
  | _, [] => []
  | col, ch :: t =>
    if ch = '\t' then
      if col < 9 then .replicate (9 - col) ' ' ++ ifoxEnd 9 t
      else if col < 15 then .replicate (15 - col) ' ' ++ ifoxEnd 15 t
      else ' ' :: ifoxEnd (col + 1) t
    else if ch = '\n' then '\n' :: ifoxEnd 0 t
    else ch :: ifoxEnd (col + 1) t

/-- The text that the compiler writes for a string. -/
def asmText (s : List UInt8) : List Char := ifoxEnd 0 (asmOutputAscii s)

/-- A constant that is defined for a string: characters, or one byte in hexadecimal. -/
inductive Constant
  | chars (w : List UInt8)
  | hex (c : UInt8)

/-- A string between quotes. -/
def quoted (w : List UInt8) : List Char := w.flatMap fun c => if char c = '\'' then ['\'', '\''] else [char c]

namespace Constant

/-- What of the string the constant defines. -/
def bytes : Constant → List UInt8
  | chars w => w
  | hex c => [c]

def ty : Constant → Char
  | chars _ => 'C'
  | hex _ => 'X'

def body : Constant → List Char
  | chars w => quoted w
  | hex c => upperHex (mapOutchar c).toNat

def text (k : Constant) : List Char := dc k.ty ++ k.body ++ close

def operand (k : Constant) : List Char := k.ty :: '\'' :: k.body ++ ['\'']

/-- The operation in column 10 and the operand in column 16. -/
def card (k : Constant) : List Char := .replicate 9 ' ' ++ ['D', 'C'] ++ .replicate 4 ' ' ++ k.operand

/-- What holds of every constant that is defined for a string. -/
def Fits : Constant → Prop
  | chars w => w ≠ [] ∧ (∀ c ∈ w, numeric c = false) ∧ (quoted w).length ≤ textLength
  | hex _ => True

/-- The characters so far are a constant where there are any. -/
def pending (w : List UInt8) : List Constant := if w = [] then [] else [chars w]

end Constant

open Constant

/-- The constants for a string, with `w` in the one that is open. -/
def constants : List UInt8 → List UInt8 → List Constant
  | w, [] => pending w
  | w, c :: s =>
    if numeric c then pending w ++ hex c :: constants [] s
    else if textLength < (quoted (w ++ [c])).length then chars w :: constants [c] s
    else if (quoted (w ++ [c])).length = textLength then chars (w ++ [c]) :: constants [] s
    else constants (w ++ [c]) s

def opened (w : List UInt8) : List Char := if w = [] then [] else dc 'C' ++ quoted w

section Quoted

variable {c : UInt8} {w s : List UInt8}

theorem quoted_append (w v : List UInt8) : quoted (w ++ v) = quoted w ++ quoted v := List.flatMap_append

theorem quoted_singleton (c : UInt8) : quoted [c] = if char c = '\'' then ['\'', '\''] else [char c] := by
  rw [quoted, List.flatMap_cons, List.flatMap_nil, List.append_nil]

theorem quoted_singleton_length (c : UInt8) : (quoted [c]).length = if char c = '\'' then 2 else 1 := by
  rw [quoted_singleton]
  split <;> rfl

theorem quoted_eq_nil : (quoted w).length = 0 ↔ w = [] := by
  cases w with
  | nil => simp [quoted]
  | cons c w =>
    have hpos : 0 < (quoted [c]).length := by
      rw [quoted_singleton_length]
      split <;> decide
    rw [← List.singleton_append, quoted_append, List.length_append]
    exact iff_of_false (by omega) (List.cons_ne_nil c w)

end Quoted

section Loop

variable {j : ℕ} {c : UInt8} {w s : List UInt8}

/-- The position in the card is what the open constant holds. -/
structure At (j : ℕ) (w : List UInt8) : Prop where
  col : j % textLength = (quoted w).length

theorem At.eq_nil_iff (h : At j w) : j % textLength = 0 ↔ w = [] := by
  rw [h.col, quoted_eq_nil]

theorem At.lt (h : At j w) : (quoted w).length < textLength := by
  rw [← h.col]
  exact Nat.mod_lt _ (by decide)

theorem At.zero : At 0 [] := ⟨rfl⟩

theorem At.closed (h : At j w) : opened w ++ (if j % textLength ≠ 0 then close else []) = (pending w).flatMap text := by
  by_cases hw : w = []
  · rw [if_neg (not_not.mpr (h.eq_nil_iff.mpr hw)), opened, pending, if_pos hw, if_pos hw]
    rfl
  · rw [if_pos (mt h.eq_nil_iff.mp hw), opened, pending, if_neg hw, if_neg hw, List.flatMap_singleton]
    rfl

theorem opened_push (h : At j w) : opened w ++ (if j % textLength = 0 then dc 'C' else []) = dc 'C' ++ quoted w := by
  by_cases hw : w = []
  · rw [if_pos (h.eq_nil_iff.mpr hw), opened, if_pos hw, hw]
    rfl
  · rw [if_neg (mt h.eq_nil_iff.mp hw), opened, if_neg hw, List.append_nil]

theorem At.length_append (h : At j w) : (quoted (w ++ [c])).length = j % textLength + if char c = '\'' then 2 else 1 := by
  rw [quoted_append, List.length_append, quoted_singleton_length, h.col]

/-- A character that the open constant has room for. -/
theorem outputChar_fits (h : At j w) (hc : numeric c = false) (hfits : (quoted (w ++ [c])).length ≤ textLength) :
    outputChar j c = ((if j % textLength = 0 then dc 'C' else []) ++ quoted [c] ++
      (if (quoted (w ++ [c])).length = textLength then close else []), j + (quoted [c]).length) := by
  rw [h.length_append] at hfits ⊢
  rw [outputChar, if_neg (by rw [hc]; exact Bool.false_ne_true), quoted_singleton]
  by_cases hquote : char c = '\''
  · have hroom : j % textLength ≠ textLength - 1 := by
      rw [if_pos hquote, textLength] at hfits
      rw [textLength]
      omega
    have hfull : (j + 1) % textLength = textLength - 1 ↔ j % textLength + 2 = textLength := by
      rw [textLength]
      omega
    simp only [hquote, if_true, if_neg hroom, hfull, List.nil_append]
    rfl
  · have hfull : j % textLength = textLength - 1 ↔ j % textLength + 1 = textLength := by
      rw [textLength]
      omega
    simp only [if_neg hquote, hfull]
    rfl

/-- Two characters where there is room for one. -/
theorem outputChar_moved (h : At j w) (hc : numeric c = false) (hfits : textLength < (quoted (w ++ [c])).length) :
    outputChar j c = (close ++ dc 'C' ++ quoted [c], j + 3) := by
  have hlt := h.lt
  rw [← h.col] at hlt
  rw [h.length_append] at hfits
  have hquote : char c = '\'' := by
    by_contra hquote
    rw [if_neg hquote] at hfits
    omega
  rw [if_pos hquote] at hfits
  have hlast : j % textLength = textLength - 1 := by omega
  have hnot : (j + 1 + 1) % textLength ≠ textLength - 1 := by
    rw [textLength] at hlast ⊢
    omega
  have hfirst : j % textLength ≠ 0 := by
    rw [hlast]
    decide
  rw [outputChar, if_neg (by rw [hc]; exact Bool.false_ne_true), quoted_singleton]
  simp only [hquote, if_true, if_pos hlast, if_neg hnot, if_neg hfirst, List.nil_append, List.append_nil]

theorem At.push (h : At j w) (hc : (quoted (w ++ [c])).length < textLength) : At (j + (quoted [c]).length) (w ++ [c]) := by
  constructor
  rw [quoted_append, List.length_append] at hc ⊢
  rw [Nat.add_mod, h.col, Nat.mod_eq_of_lt (show (quoted [c]).length < textLength by omega), Nat.mod_eq_of_lt hc]

theorem At.full (h : At j w) (hc : (quoted (w ++ [c])).length = textLength) : At (j + (quoted [c]).length) [] := by
  constructor
  have hcol := h.col
  rw [quoted_append, List.length_append] at hc
  rw [quoted_eq_nil.mpr rfl]
  rw [textLength] at hc hcol ⊢
  omega

theorem At.moved (h : At j w) (hc : textLength < (quoted (w ++ [c])).length) : At (j + 3) [c] := by
  constructor
  have hlt := h.lt
  rw [← h.col] at hlt
  rw [h.length_append] at hc
  rw [quoted_singleton_length]
  rw [textLength] at *
  split at hc
  · rename_i hquote
    rw [if_pos hquote]
    omega
  · omega

/-- What the loop prints, behind the open constant, are the constants for the string. -/
theorem outputLoop_text (h : At j w) (s : List UInt8) : opened w ++ outputLoop j s = (constants w s).flatMap text := by
  induction s generalizing j w with
  | nil => exact h.closed
  | cons c s ih =>
    rw [outputLoop, constants]
    by_cases hc : numeric c = true
    · rw [outputChar, if_pos hc, if_pos hc, List.flatMap_append, List.flatMap_cons, ← h.closed, ← ih At.zero]
      simp only [opened, text, Constant.ty, Constant.body, List.append_assoc, List.nil_append, if_true]
    · have hplain := Bool.not_eq_true _ ▸ hc
      rw [if_neg hc]
      by_cases hmoved : textLength < (quoted (w ++ [c])).length
      · have hw : w ≠ [] := by
          rintro rfl
          rw [List.nil_append, quoted_singleton_length] at hmoved
          split at hmoved <;> exact absurd hmoved (by decide)
        rw [outputChar_moved h hplain hmoved, if_pos hmoved, List.flatMap_cons, ← ih (h.moved hmoved)]
        simp only [opened, if_neg hw, if_neg (List.cons_ne_nil c []), text, Constant.ty, Constant.body, List.append_assoc]
      · have hfits := not_lt.mp hmoved
        rw [outputChar_fits h hplain hfits, if_neg hmoved]
        have hopened := opened_push h
        by_cases hfull : (quoted (w ++ [c])).length = textLength
        · rw [if_pos hfull, if_pos hfull, List.flatMap_cons, ← ih (h.full hfull)]
          dsimp only
          rw [← List.append_assoc, ← List.append_assoc, ← List.append_assoc, hopened]
          simp only [opened, if_true, text, Constant.ty, Constant.body, quoted_append, List.append_assoc, List.nil_append]
        · rw [if_neg hfull, if_neg hfull, List.append_nil, ← ih (h.push (lt_of_le_of_ne hfits hfull))]
          dsimp only
          rw [← List.append_assoc, ← List.append_assoc, hopened]
          simp only [opened, if_neg (List.append_ne_nil_of_right_ne_nil w (List.cons_ne_nil c [])), quoted_append, List.append_assoc]

theorem asmOutputAscii_eq (s : List UInt8) : asmOutputAscii s = (constants [] s).flatMap text := outputLoop_text At.zero s

end Loop

section Characters

/-- A printing character that is no ampersand. -/
def Plain (ch : Char) : Prop := 0x20 ≤ ch.toNat ∧ ch.toNat < 0x7F ∧ ch ≠ '&'

theorem Plain.no_tab {ch : Char} (h : Plain ch) : ch ≠ '\t' := by
  rintro rfl
  exact absurd h.1 (by decide)

theorem Plain.no_newline {ch : Char} (h : Plain ch) : ch ≠ '\n' := by
  rintro rfl
  exact absurd h.1 (by decide)

theorem numeric_iff (c : UInt8) : numeric c = false ↔ 0x20 ≤ c.toNat ∧ c.toNat < 0x7F ∧ c.toNat ≠ 0x26 := by
  have hall : ∀ n < 256, numeric (.ofNat n) = false ↔ 0x20 ≤ n ∧ n < 0x7F ∧ n ≠ 0x26 := by decide +kernel
  rw [← hall c.toNat c.toNat_lt, UInt8.ofNat_toNat]

theorem char_toNat (c : UInt8) : (char c).toNat = c.toNat := by
  have hall : ∀ n < 256, (Char.ofNat n).toNat = n := by decide +kernel
  exact hall c.toNat c.toNat_lt

theorem char_plain {c : UInt8} (h : numeric c = false) : Plain (char c) := by
  rw [numeric_iff] at h
  refine ⟨?_, ?_, ?_⟩
  · rw [char_toNat]
    exact h.1
  · rw [char_toNat]
    exact h.2.1
  · intro heq
    apply h.2.2
    rw [← char_toNat, heq]
    rfl

theorem quoted_plain {w : List UInt8} (h : ∀ c ∈ w, numeric c = false) : ∀ ch ∈ quoted w, Plain ch := by
  intro ch hch
  obtain ⟨c, hc, hch⟩ := List.mem_flatMap.mp hch
  have hplain := char_plain (h c hc)
  split at hch
  · rename_i hquote
    rw [hquote] at hplain
    simp only [List.mem_cons, List.not_mem_nil, or_false, or_self] at hch
    exact hch ▸ hplain
  · exact List.mem_singleton.mp hch ▸ hplain

theorem upperHex_plain (v : UInt8) : ∀ ch ∈ upperHex v.toNat, Plain ch := by
  have hall : ∀ n < 256, (upperHex n).all fun ch => 0x20 ≤ ch.toNat ∧ ch.toNat < 0x7F ∧ ch ≠ '&' := by decide +kernel
  have hv := hall v.toNat v.toNat_lt
  simp only [List.all_eq_true, decide_eq_true_eq] at hv
  exact hv

theorem Constant.Fits.plain {k : Constant} (h : k.Fits) : ∀ ch ∈ k.body, Plain ch :=
  match k, h with
  | chars _, h => quoted_plain h.2.1
  | hex c, _ => upperHex_plain (mapOutchar c)

end Characters

section Cards

theorem ifoxEnd_plain (col : ℕ) {l : List Char} (h : ∀ ch ∈ l, Plain ch) (t : List Char) :
    ifoxEnd col (l ++ t) = l ++ ifoxEnd (col + l.length) t := by
  induction l generalizing col with
  | nil => rfl
  | cons ch l ih =>
    have hch := h ch List.mem_cons_self
    rw [List.cons_append, ifoxEnd, if_neg hch.no_tab, if_neg hch.no_newline, ih (col + 1) fun x hx => h x (List.mem_cons_of_mem ch hx),
      List.length_cons, Nat.add_assoc, Nat.add_comm 1]
    rfl

theorem operand_plain {k : Constant} (h : k.Fits) : ∀ ch ∈ k.operand, Plain ch := by
  have hty : Plain k.ty := by
    cases k with
    | chars w => exact (by decide : 0x20 ≤ 'C'.toNat ∧ 'C'.toNat < 0x7F ∧ 'C' ≠ '&')
    | hex c => exact (by decide : 0x20 ≤ 'X'.toNat ∧ 'X'.toNat < 0x7F ∧ 'X' ≠ '&')
  have hquote : Plain '\'' := (by decide : 0x20 ≤ '\''.toNat ∧ '\''.toNat < 0x7F ∧ '\'' ≠ '&')
  intro ch hch
  simp only [Constant.operand, List.cons_append, List.mem_cons, List.mem_append, List.not_mem_nil, or_false] at hch
  rcases hch with rfl | rfl | hch | rfl
  · exact hty
  · exact hquote
  · exact h.plain ch hch
  · exact hquote

theorem ifoxEnd_text {k : Constant} (h : k.Fits) (t : List Char) : ifoxEnd 0 (k.text ++ t) = k.card ++ '\n' :: ifoxEnd 0 t := by
  have htext : k.text ++ t = '\t' :: 'D' :: 'C' :: '\t' :: (k.operand ++ '\n' :: t) := by
    simp only [Constant.text, Constant.operand, dc, close, List.cons_append, List.nil_append, List.append_assoc]
  have hcard : k.card ++ '\n' :: ifoxEnd 0 t =
      List.replicate 9 ' ' ++ 'D' :: 'C' :: (List.replicate 4 ' ' ++ (k.operand ++ '\n' :: ifoxEnd 0 t)) := by
    simp only [Constant.card, List.cons_append, List.nil_append, List.append_assoc]
  have hline (col : ℕ) : ifoxEnd col ('\n' :: t) = '\n' :: ifoxEnd 0 t := rfl
  rw [htext, hcard, ← hline, ← ifoxEnd_plain 15 (operand_plain h)]
  rfl

theorem constants_bytes (w s : List UInt8) : (constants w s).flatMap bytes = w ++ s := by
  have hpending (w : List UInt8) : (pending w).flatMap bytes = w := by
    rw [pending]
    split
    · rename_i hw
      exact hw.symm
    · exact List.append_nil w
  induction s generalizing w with
  | nil => rw [constants, hpending, List.append_nil]
  | cons c s ih =>
    rw [constants]
    split
    · rw [List.flatMap_append, hpending, List.flatMap_cons, ih]
      rfl
    · split
      · rw [List.flatMap_cons, ih]
        rfl
      · split
        · rw [List.flatMap_cons, ih, bytes, List.append_assoc, List.singleton_append, List.nil_append]
        · rw [ih, List.append_assoc, List.singleton_append]

/-- The characters of an open constant that is not full. -/
def Open (w : List UInt8) : Prop := (∀ c ∈ w, numeric c = false) ∧ (quoted w).length ≤ textLength

theorem Open.nil : Open [] := ⟨nofun, Nat.zero_le _⟩

theorem pending_fits {w : List UInt8} (h : Open w) : ∀ k ∈ pending w, k.Fits := by
  intro k hk
  rw [pending] at hk
  split at hk
  · exact absurd hk List.not_mem_nil
  · rename_i hw
    exact List.mem_singleton.mp hk ▸ ⟨hw, h.1, h.2⟩

theorem Open.push {c : UInt8} {w : List UInt8} (h : Open w) (hc : numeric c = false) (hfits : (quoted (w ++ [c])).length ≤ textLength) :
    Open (w ++ [c]) := by
  refine ⟨?_, hfits⟩
  intro d hd
  rcases List.mem_append.mp hd with hd | hd
  · exact h.1 d hd
  · exact List.mem_singleton.mp hd ▸ hc

theorem constants_fits {w : List UInt8} (h : Open w) (s : List UInt8) : ∀ k ∈ constants w s, k.Fits := by
  induction s generalizing w with
  | nil => exact pending_fits h
  | cons c s ih =>
    rw [constants]
    split
    · rw [List.forall_mem_append, List.forall_mem_cons]
      exact ⟨pending_fits h, trivial, ih Open.nil⟩
    · rename_i hc
      have hc := Bool.not_eq_true _ ▸ hc
      have hone : Open [c] := by
        refine Open.nil.push hc ?_
        rw [List.nil_append, quoted_singleton_length]
        split <;> decide
      split
      · rename_i hmoved
        rw [List.forall_mem_cons]
        refine ⟨⟨?_, h⟩, ih hone⟩
        rintro rfl
        exact absurd hone.2 (not_le.mpr hmoved)
      · rename_i hfits
        have hpush := h.push hc (not_lt.mp hfits)
        split
        · rw [List.forall_mem_cons]
          exact ⟨⟨List.append_ne_nil_of_right_ne_nil w (List.cons_ne_nil c []), hpush⟩, ih Open.nil⟩
        · exact ih hpush

/-- The cards that the compiler writes for a string. -/
def cards (s : List UInt8) : List (List Char) := (constants [] s).map card

theorem asmText_eq (s : List UInt8) : asmText s = (cards s).flatMap fun card => card ++ ['\n'] := by
  have hlines (ks : List Constant) (h : ∀ k ∈ ks, k.Fits) : ifoxEnd 0 (ks.flatMap text) = (ks.map card).flatMap fun card => card ++ ['\n'] := by
    induction ks with
    | nil => rfl
    | cons k ks ih =>
      rw [List.forall_mem_cons] at h
      rw [List.flatMap_cons, ifoxEnd_text h.1, ih h.2, List.map_cons, List.flatMap_cons, List.append_assoc]
      rfl
  rw [asmText, asmOutputAscii_eq]
  exact hlines _ (constants_fits Open.nil s)

theorem upperHex_length (v : UInt8) : (upperHex v.toNat).length ≤ 2 := by
  have hall : ∀ n < 256, (upperHex n).length ≤ 2 := by decide +kernel
  exact hall v.toNat v.toNat_lt

theorem card_length {k : Constant} (h : k.Fits) : k.card.length ≤ 66 := by
  have hbody : k.body.length ≤ 48 :=
    match k, h with
    | chars _, h => h.2.2
    | hex c, _ => (upperHex_length (mapOutchar c)).trans (by decide)
  simp only [Constant.card, Constant.operand, List.length_append, List.length_cons, List.length_replicate, List.length_nil]
  omega

end Cards

end Cc370.I370.AsciiOutput
