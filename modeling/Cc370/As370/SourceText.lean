import Cc370.As370.Diagnostics

namespace Cc370.As370.SourceText

def SRC_SUB : UInt8 := 0x1A

/-- The bytes that follow a leading one, and the bits it gives. -/
def lead (c : UInt8) : Option (ℕ × ℕ) :=
  if 0xC2 ≤ c ∧ c ≤ 0xDF then some (1, c.toNat &&& 0x1F)
  else if 0xE0 ≤ c ∧ c ≤ 0xEF then some (2, c.toNat &&& 0x0F)
  else if 0xF0 ≤ c ∧ c ≤ 0xF4 then some (3, c.toNat &&& 0x07)
  else none

def push (cp : ℕ) (x : UInt8) : ℕ := cp <<< 6 ||| (x.toNat &&& 0x3F)

def follow : ℕ → List UInt8 → ℕ → Option ℕ
  | 0, _, cp => some cp
  | _ + 1, [], _ => none
  | k + 1, x :: t, cp => if x &&& 0xC0 ≠ 0x80 then none else follow k t (push cp x)

def refused (k cp : ℕ) : Bool :=
  k = 2 && cp < 0x800 || k = 3 && (cp < 0x10000 || 0x10FFFF < cp) || 0xD800 ≤ cp && cp ≤ 0xDFFF

/-- Whether the bytes are UTF-8, and whether one of them is above X'7F'. -/
def scan : ℕ → List UInt8 → Bool → Bool × Bool
  | 0, _, high => (true, high)
  | _ + 1, [], high => (true, high)
  | n + 1, c :: t, high =>
    if c < 0x80 then scan n t high
    else
      match lead c with
      | none => (false, true)
      | some (k, cp) =>
        if t.length < k then (false, true)
        else
          match follow k t cp with
          | none => (false, true)
          | some cp => if refused k cp then (false, true) else scan n (t.drop k) true

structure Decoded where
  out : List UInt8
  line : ℕ
  sub : Bool
  diags : Diags

namespace Decoded

def put (c : UInt8) (d : Decoded) : Decoded := { d with out := d.out ++ [c], line := if c = 10 then d.line + 1 else d.line }

def take (member : Option (List Char)) (cp : ℕ) (d : Decoded) : Decoded :=
  if cp = 0xFEFF ∧ d.out = [] then d
  else if cp ≤ 0xFF then { d with out := d.out ++ [.ofNat cp] }
  else { d with out := d.out ++ [SRC_SUB], sub := true, diags := d.diags.noteChar cp d.line member }

end Decoded

def decode (member : Option (List Char)) : ℕ → List UInt8 → Decoded → Decoded
  | 0, _, d => d
  | _ + 1, [], d => d
  | n + 1, c :: t, d =>
    if c < 0x80 then decode member n t (d.put c)
    else
      let k := if 0xF0 ≤ c then 3 else if 0xE0 ≤ c then 2 else 1
      let cp := c.toNat &&& if k = 1 then 0x1F else if k = 2 then 0x0F else 0x07
      decode member n (t.drop k) (d.take member ((t.take k).foldl push cp))

/-- What is read of a file, and what is noted of it. -/
def srcFopen (member : Option (List Char)) (b : List UInt8) (sub : Bool) (st : Diags) : Decoded :=
  let (ok, high) := scan b.length b false
  if ok && high then decode member b.length b ⟨[], 1, sub, st⟩ else ⟨b, 1, sub, st⟩

/-- The bytes of a text in UTF-8. -/
def utf8 (cs : List Char) : List UInt8 := cs.flatMap String.utf8EncodeChar

theorem push_eq (cp : ℕ) (x : UInt8) : push cp x = cp * 64 + x.toNat % 64 := by
  have hmask : x.toNat &&& 0x3F = x.toNat % 2 ^ 6 := Nat.and_two_pow_sub_one_eq_mod _ 6
  rw [push, hmask, ← Nat.shiftLeft_add_eq_or_of_lt (Nat.mod_lt _ (by decide)), Nat.shiftLeft_eq]

theorem tail_iff (x : UInt8) : x &&& 0xC0 = 0x80 ↔ 0x80 ≤ x.toNat ∧ x.toNat < 0xC0 := by
  have hall : ∀ n < 256, (n &&& 0xC0 = 0x80 ↔ 0x80 ≤ n ∧ n < 0xC0) := by decide +kernel
  rw [← hall x.toNat x.toNat_lt, ← UInt8.toNat_inj, UInt8.toNat_and]
  rfl

theorem lead_iff (c : UInt8) (k cp : ℕ) : lead c = some (k, cp) ↔
    0xC2 ≤ c.toNat ∧ c.toNat ≤ 0xDF ∧ k = 1 ∧ cp = c.toNat % 32 ∨ 0xE0 ≤ c.toNat ∧ c.toNat ≤ 0xEF ∧ k = 2 ∧ cp = c.toNat % 16 ∨
      0xF0 ≤ c.toNat ∧ c.toNat ≤ 0xF4 ∧ k = 3 ∧ cp = c.toNat % 8 := by
  have h5 : c.toNat &&& 0x1F = c.toNat % 32 := Nat.and_two_pow_sub_one_eq_mod _ 5
  have h4 : c.toNat &&& 0x0F = c.toNat % 16 := Nat.and_two_pow_sub_one_eq_mod _ 4
  have h3 : c.toNat &&& 0x07 = c.toNat % 8 := Nat.and_two_pow_sub_one_eq_mod _ 3
  rw [lead, h5, h4, h3]
  simp only [UInt8.le_iff_toNat_le, UInt8.reduceToNat]
  split
  · simp only [Option.some.injEq, Prod.mk.injEq]
    omega
  · split
    · simp only [Option.some.injEq, Prod.mk.injEq]
      omega
    · split
      · simp only [Option.some.injEq, Prod.mk.injEq]
        omega
      · simp only [reduceCtorEq, false_iff]
        omega

theorem follow_iff {k : ℕ} {t : List UInt8} (hk : k ≤ t.length) (cp v : ℕ) :
    follow k t cp = some v ↔ (∀ x ∈ t.take k, 0x80 ≤ x.toNat ∧ x.toNat < 0xC0) ∧ (t.take k).foldl push cp = v := by
  induction k generalizing t cp with
  | zero => simp [follow]
  | succ k ih =>
    cases t with
    | nil => exact absurd hk (Nat.not_succ_le_zero k)
    | cons x t =>
      rw [follow, List.take_succ_cons, List.forall_mem_cons, List.foldl_cons, ← tail_iff, and_assoc, ← ih (Nat.le_of_succ_le_succ hk)]
      by_cases hx : x &&& 0xC0 = 0x80
      · rw [if_neg (not_not.mpr hx), and_iff_right hx]
      · rw [if_pos hx]
        exact iff_of_false nofun fun h => hx h.1

/-- A leading byte and those behind it that are accepted, and the scalar value they give. -/
structure Sequence (c : UInt8) (u : List UInt8) (v : ℕ) : Prop where
  lead : ∃ cp, lead c = some (u.length, cp) ∧ u.foldl push cp = v
  tails : ∀ x ∈ u, 0x80 ≤ x.toNat ∧ x.toNat < 0xC0
  accepted : refused u.length v = false

theorem ofNat_eq_iff (n : ℕ) (x : UInt8) : UInt8.ofNat n = x ↔ n % 256 = x.toNat := by
  rw [← UInt8.toNat_inj, UInt8.toNat_ofNat']

theorem exists_char {v : ℕ} (h : v < 0x110000) (hs : ¬ (0xD800 ≤ v ∧ v ≤ 0xDFFF)) : ∃ ch : Char, ch.val.toNat = v := by
  have hvalid : v.isValidChar := by
    rw [Nat.isValidChar]
    omega
  exact ⟨Char.ofNatAux v hvalid, rfl⟩

theorem char_range (ch : Char) : ch.val.toNat < 0x110000 ∧ ¬ (0xD800 ≤ ch.val.toNat ∧ ch.val.toNat ≤ 0xDFFF) := by
  have hvalid := ch.valid
  rw [UInt32.isValidChar, Nat.isValidChar] at hvalid
  omega

theorem two_bytes {c x : UInt8} {v : ℕ} : Sequence c [x] v ↔
    0xC2 ≤ c.toNat ∧ c.toNat ≤ 0xDF ∧ 0x80 ≤ x.toNat ∧ x.toNat < 0xC0 ∧ v = c.toNat % 32 * 64 + x.toNat % 64 := by
  constructor
  · rintro ⟨⟨cp, hlead, hfold⟩, htails, -⟩
    rw [lead_iff, List.length_singleton] at hlead
    rw [List.foldl_cons, List.foldl_nil, push_eq] at hfold
    have hx := htails x (List.mem_singleton_self x)
    omega
  · rintro ⟨hlow, hhigh, hx, hx', hv⟩
    refine ⟨⟨c.toNat % 32, ?_, ?_⟩, ?_, ?_⟩
    · rw [lead_iff, List.length_singleton]
      omega
    · rw [List.foldl_cons, List.foldl_nil, push_eq, hv]
    · rw [List.forall_mem_singleton]
      exact ⟨hx, hx'⟩
    · have hbound : v < 0x800 := by omega
      simp [refused]
      omega

theorem three_bytes {c x y : UInt8} {v : ℕ} : Sequence c [x, y] v ↔
    0xE0 ≤ c.toNat ∧ c.toNat ≤ 0xEF ∧ (0x80 ≤ x.toNat ∧ x.toNat < 0xC0) ∧ (0x80 ≤ y.toNat ∧ y.toNat < 0xC0) ∧
      v = (c.toNat % 16 * 64 + x.toNat % 64) * 64 + y.toNat % 64 ∧ 0x7FF < v ∧ ¬ (0xD800 ≤ v ∧ v ≤ 0xDFFF) := by
  have hlength : [x, y].length = 2 := rfl
  constructor
  · rintro ⟨⟨cp, hlead, hfold⟩, htails, haccepted⟩
    rw [lead_iff, hlength] at hlead
    rw [List.foldl_cons, List.foldl_cons, List.foldl_nil, push_eq, push_eq] at hfold
    have hx := htails x List.mem_cons_self
    have hy := htails y (List.mem_cons_of_mem x (List.mem_singleton_self y))
    simp [refused] at haccepted
    omega
  · rintro ⟨hlow, hhigh, hx, hy, hv, hlong, hsurrogate⟩
    refine ⟨⟨c.toNat % 16, ?_, ?_⟩, ?_, ?_⟩
    · rw [lead_iff, hlength]
      omega
    · rw [List.foldl_cons, List.foldl_cons, List.foldl_nil, push_eq, push_eq, hv]
    · rw [List.forall_mem_cons, List.forall_mem_singleton]
      exact ⟨hx, hy⟩
    · simp [refused]
      omega

theorem four_bytes {c x y z : UInt8} {v : ℕ} : Sequence c [x, y, z] v ↔
    0xF0 ≤ c.toNat ∧ c.toNat ≤ 0xF4 ∧ (0x80 ≤ x.toNat ∧ x.toNat < 0xC0) ∧ (0x80 ≤ y.toNat ∧ y.toNat < 0xC0) ∧
      (0x80 ≤ z.toNat ∧ z.toNat < 0xC0) ∧ v = ((c.toNat % 8 * 64 + x.toNat % 64) * 64 + y.toNat % 64) * 64 + z.toNat % 64 ∧
      0xFFFF < v ∧ v ≤ 0x10FFFF := by
  have hlength : [x, y, z].length = 3 := rfl
  constructor
  · rintro ⟨⟨cp, hlead, hfold⟩, htails, haccepted⟩
    rw [lead_iff, hlength] at hlead
    rw [List.foldl_cons, List.foldl_cons, List.foldl_cons, List.foldl_nil, push_eq, push_eq, push_eq] at hfold
    have hx := htails x List.mem_cons_self
    have hy := htails y (List.mem_cons_of_mem x List.mem_cons_self)
    have hz := htails z (List.mem_cons_of_mem x (List.mem_cons_of_mem y (List.mem_singleton_self z)))
    simp [refused] at haccepted
    omega
  · rintro ⟨hlow, hhigh, hx, hy, hz, hv, hlong, hlast⟩
    refine ⟨⟨c.toNat % 8, ?_, ?_⟩, ?_, ?_⟩
    · rw [lead_iff, hlength]
      omega
    · rw [List.foldl_cons, List.foldl_cons, List.foldl_cons, List.foldl_nil, push_eq, push_eq, push_eq, hv]
    · rw [List.forall_mem_cons, List.forall_mem_cons, List.forall_mem_singleton]
      exact ⟨hx, hy, hz⟩
    · simp [refused]
      omega

theorem Sequence.length {c : UInt8} {u : List UInt8} {v : ℕ} (h : Sequence c u v) : u.length = 1 ∨ u.length = 2 ∨ u.length = 3 := by
  obtain ⟨cp, hlead, -⟩ := h.lead
  rw [lead_iff] at hlead
  omega

/-- What is accepted is the form of one character. -/
theorem Sequence.encodes {c : UInt8} {u : List UInt8} {v : ℕ} (h : Sequence c u v) :
    ∃ ch : Char, ch.val.toNat = v ∧ 0x7F < v ∧ String.utf8EncodeChar ch = c :: u := by
  have hc := c.toNat_lt
  rcases h.length with hu | hu | hu
  · obtain ⟨x, rfl⟩ := List.length_eq_one_iff.mp hu
    obtain ⟨hlow, hhigh, hx, hx', hv⟩ := two_bytes.mp h
    obtain ⟨ch, hch⟩ := exists_char (by omega : v < 0x110000) (by omega)
    refine ⟨ch, hch, by omega, ?_⟩
    have hvalue : v = (c.toNat - 0xC0) * 64 + (x.toNat - 0x80) := by omega
    rw [String.utf8EncodeChar, hch, if_neg (by omega), if_pos (by omega)]
    simp only [List.cons.injEq, ofNat_eq_iff, and_true]
    omega
  · obtain ⟨x, y, rfl⟩ := List.length_eq_two.mp hu
    obtain ⟨hlow, hhigh, hx, hy, hv, hlong, hsurrogate⟩ := three_bytes.mp h
    obtain ⟨ch, hch⟩ := exists_char (by omega : v < 0x110000) hsurrogate
    refine ⟨ch, hch, by omega, ?_⟩
    have hvalue : v = ((c.toNat - 0xE0) * 64 + (x.toNat - 0x80)) * 64 + (y.toNat - 0x80) := by omega
    rw [String.utf8EncodeChar, hch, if_neg (by omega), if_neg (by omega), if_pos (by omega)]
    simp only [List.cons.injEq, ofNat_eq_iff, and_true]
    omega
  · obtain ⟨x, y, z, rfl⟩ := List.length_eq_three.mp hu
    obtain ⟨hlow, hhigh, hx, hy, hz, hv, hlong, hlast⟩ := four_bytes.mp h
    obtain ⟨ch, hch⟩ := exists_char (by omega : v < 0x110000) (by omega)
    refine ⟨ch, hch, by omega, ?_⟩
    have hvalue : v = (((c.toNat - 0xF0) * 64 + (x.toNat - 0x80)) * 64 + (y.toNat - 0x80)) * 64 + (z.toNat - 0x80) := by omega
    rw [String.utf8EncodeChar, hch, if_neg (by omega), if_neg (by omega), if_neg (by omega)]
    simp only [List.cons.injEq, ofNat_eq_iff, and_true]
    omega

theorem sequence_of_char (ch : Char) (h : 0x7F < ch.val.toNat) : ∃ c u, String.utf8EncodeChar ch = c :: u ∧ Sequence c u ch.val.toNat := by
  obtain ⟨hrange, hsurrogate⟩ := char_range ch
  rw [String.utf8EncodeChar]
  generalize ch.val.toNat = v at *
  rw [if_neg (by omega)]
  split
  · refine ⟨_, _, rfl, two_bytes.mpr ?_⟩
    simp only [UInt8.toNat_ofNat']
    omega
  · split
    · refine ⟨_, _, rfl, three_bytes.mpr ?_⟩
      simp only [UInt8.toNat_ofNat']
      omega
    · refine ⟨_, _, rfl, four_bytes.mpr ?_⟩
      simp only [UInt8.toNat_ofNat']
      omega

theorem ascii_of_char (ch : Char) (h : ch.val.toNat ≤ 0x7F) : String.utf8EncodeChar ch = [.ofNat ch.val.toNat] := by
  rw [String.utf8EncodeChar, if_pos h]

theorem ascii_iff (c : UInt8) : c < 0x80 ↔ c.toNat < 0x80 := UInt8.lt_iff_toNat_lt

theorem Sequence.not_ascii {c : UInt8} {u : List UInt8} {v : ℕ} (h : Sequence c u v) : ¬ c < 0x80 := by
  obtain ⟨cp, hlead, -⟩ := h.lead
  rw [lead_iff] at hlead
  rw [ascii_iff]
  omega

theorem scan_sequence {c : UInt8} {u : List UInt8} {v : ℕ} (h : Sequence c u v) (n : ℕ) (t : List UInt8) (high : Bool) :
    scan (n + 1) (c :: (u ++ t)) high = scan n t true := by
  obtain ⟨cp, hlead, hfold⟩ := h.lead
  have hlong : u.length ≤ (u ++ t).length := by simp
  have hfollow : follow u.length (u ++ t) cp = some v := by
    rw [follow_iff hlong, List.take_left]
    exact ⟨h.tails, hfold⟩
  rw [scan, if_neg h.not_ascii, hlead]
  dsimp only
  rw [if_neg (not_lt.mpr hlong), hfollow]
  dsimp only
  rw [h.accepted, if_neg Bool.false_ne_true, List.drop_left]

theorem scan_refuses {c : UInt8} {t : List UInt8} (hc : ¬ c < 0x80) (h : ∀ u t' v, t = u ++ t' → ¬ Sequence c u v) (n : ℕ) (high : Bool) :
    scan (n + 1) (c :: t) high = (false, true) := by
  rw [scan, if_neg hc]
  cases hlead : lead c with
  | none => rfl
  | some p =>
    obtain ⟨k, cp⟩ := p
    dsimp only
    by_cases hshort : t.length < k
    · rw [if_pos hshort]
    · rw [if_neg hshort]
      cases hfollow : follow k t cp with
      | none => rfl
      | some v =>
        have hlong := not_lt.mp hshort
        obtain ⟨htails, hfold⟩ := (follow_iff hlong cp v).mp hfollow
        have hlength : (t.take k).length = k := List.length_take_of_le hlong
        dsimp only
        by_cases hrefused : refused k v = true
        · rw [if_pos hrefused]
        · refine absurd ⟨⟨cp, ?_, hfold⟩, htails, ?_⟩ (h (t.take k) (t.drop k) v (List.take_append_drop k t).symm)
          · rw [hlength, hlead]
          · rw [hlength]
            exact Bool.eq_false_of_not_eq_true hrefused

theorem utf8_cons (ch : Char) (cs : List Char) : utf8 (ch :: cs) = String.utf8EncodeChar ch ++ utf8 cs := rfl

theorem scan_utf8 (cs : List Char) {n : ℕ} (hn : (utf8 cs).length ≤ n) (high : Bool) :
    scan n (utf8 cs) high = (true, high || cs.any (0x7F < ·.val.toNat)) := by
  induction cs generalizing n high with
  | nil =>
    cases n <;> simp [utf8, scan]
  | cons ch cs ih =>
    by_cases hch : ch.val.toNat ≤ 0x7F
    · rw [utf8_cons, ascii_of_char ch hch] at hn ⊢
      have hbyte : UInt8.ofNat ch.val.toNat < 0x80 := by
        rw [ascii_iff, UInt8.toNat_ofNat']
        omega
      obtain ⟨n, rfl⟩ : ∃ m, n = m + 1 := ⟨n - 1, by simp at hn; omega⟩
      have hrest := ih (Nat.le_of_succ_le_succ hn) high
      rw [List.singleton_append, scan, if_pos hbyte, hrest, List.any_cons, decide_eq_false (not_lt.mpr hch), Bool.false_or]
    · obtain ⟨c, u, hencode, hsequence⟩ := sequence_of_char ch (not_le.mp hch)
      rw [utf8_cons, hencode] at hn ⊢
      rw [List.cons_append, List.length_cons, List.length_append] at hn
      obtain ⟨n, rfl⟩ : ∃ m, n = m + 1 := ⟨n - 1, by omega⟩
      rw [List.cons_append, scan_sequence hsequence, ih (by omega) true, List.any_cons, decide_eq_true (not_le.mp hch)]
      simp

theorem utf8_of_scan {n : ℕ} {b : List UInt8} (hn : b.length ≤ n) {high : Bool} (h : (scan n b high).1 = true) : ∃ cs, b = utf8 cs := by
  induction n generalizing b high with
  | zero => exact ⟨[], List.length_eq_zero_iff.mp (Nat.le_zero.mp hn)⟩
  | succ n ih =>
    cases b with
    | nil => exact ⟨[], rfl⟩
    | cons c t =>
      rw [List.length_cons] at hn
      by_cases hc : c < 0x80
      · rw [scan, if_pos hc] at h
        obtain ⟨cs, hcs⟩ := ih (Nat.le_of_succ_le_succ hn) h
        rw [ascii_iff] at hc
        obtain ⟨ch, hch⟩ := exists_char (by omega : c.toNat < 0x110000) (by omega)
        refine ⟨ch :: cs, ?_⟩
        rw [utf8_cons, ascii_of_char ch (by omega), hch, UInt8.ofNat_toNat, hcs]
        rfl
      · by_cases hsome : ∃ u t' v, t = u ++ t' ∧ Sequence c u v
        · obtain ⟨u, t', v, rfl, hsequence⟩ := hsome
          rw [scan_sequence hsequence] at h
          rw [List.length_append] at hn
          obtain ⟨cs, hcs⟩ := ih (by omega) h
          obtain ⟨ch, -, -, hencode⟩ := hsequence.encodes
          refine ⟨ch :: cs, ?_⟩
          rw [utf8_cons, hencode, hcs]
          rfl
        · rw [scan_refuses hc fun u t' v ht hs => hsome ⟨u, t', v, ht, hs⟩] at h
          exact absurd h nofun

/-- The bytes are taken for UTF-8 exactly when they are the form of a text. -/
theorem scan_iff (b : List UInt8) : (scan b.length b false).1 = true ↔ ∃ cs, b = utf8 cs := by
  constructor
  · exact utf8_of_scan le_rfl
  · rintro ⟨cs, rfl⟩
    rw [scan_utf8 cs le_rfl]

namespace Decoded

/-- What a character does. -/
def char (member : Option (List Char)) (d : Decoded) (ch : Char) : Decoded :=
  if ch.val.toNat ≤ 0x7F then d.put (.ofNat ch.val.toNat) else d.take member ch.val.toNat

end Decoded

variable {member : Option (List Char)}

theorem decode_sequence {c : UInt8} {u : List UInt8} {v : ℕ} (h : Sequence c u v) (n : ℕ) (t : List UInt8) (d : Decoded) :
    decode member (n + 1) (c :: (u ++ t)) d = decode member n t (d.take member v) := by
  obtain ⟨cp, hlead, hfold⟩ := h.lead
  have hk : (if 0xF0 ≤ c then 3 else if 0xE0 ≤ c then 2 else 1) = u.length := by
    rw [lead_iff] at hlead
    simp only [UInt8.le_iff_toNat_le, UInt8.reduceToNat]
    split <;> [skip; split] <;> omega
  have hcp : (c.toNat &&& if u.length = 1 then 0x1F else if u.length = 2 then 0x0F else 0x07) = cp := by
    have h5 : c.toNat &&& 0x1F = c.toNat % 32 := Nat.and_two_pow_sub_one_eq_mod _ 5
    have h4 : c.toNat &&& 0x0F = c.toNat % 16 := Nat.and_two_pow_sub_one_eq_mod _ 4
    have h3 : c.toNat &&& 0x07 = c.toNat % 8 := Nat.and_two_pow_sub_one_eq_mod _ 3
    rw [lead_iff] at hlead
    split <;> [rw [h5]; split <;> [rw [h4]; rw [h3]]] <;> omega
  rw [decode, if_neg h.not_ascii]
  dsimp only
  rw [hk, hcp, List.drop_left, List.take_left, hfold]

theorem decode_utf8 (cs : List Char) {n : ℕ} (hn : (utf8 cs).length ≤ n) (d : Decoded) :
    decode member n (utf8 cs) d = cs.foldl (Decoded.char member) d := by
  induction cs generalizing n d with
  | nil => cases n <;> rfl
  | cons ch cs ih =>
    rw [List.foldl_cons, Decoded.char]
    by_cases hch : ch.val.toNat ≤ 0x7F
    · rw [utf8_cons, ascii_of_char ch hch] at hn ⊢
      have hbyte : UInt8.ofNat ch.val.toNat < 0x80 := by
        rw [ascii_iff, UInt8.toNat_ofNat']
        omega
      obtain ⟨n, rfl⟩ : ∃ m, n = m + 1 := ⟨n - 1, by simp at hn; omega⟩
      rw [List.singleton_append, decode, if_pos hbyte, if_pos hch]
      exact ih (Nat.le_of_succ_le_succ hn) _
    · obtain ⟨c, u, hencode, hsequence⟩ := sequence_of_char ch (not_le.mp hch)
      rw [utf8_cons, hencode] at hn ⊢
      rw [List.cons_append, List.length_cons, List.length_append] at hn
      obtain ⟨n, rfl⟩ : ∃ m, n = m + 1 := ⟨n - 1, by omega⟩
      rw [List.cons_append, decode_sequence hsequence, if_neg hch]
      exact ih (by omega) _

end Cc370.As370.SourceText
