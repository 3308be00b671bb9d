import Cc370.Lib.BigEndian

namespace Cc370

open BigEndian

/-- A C buffer; the bytes past the end of the object it points to are whatever storage holds. -/
abbrev Buffer := ℕ → UInt8

def mvsBe16 (b : Buffer) (p : ℕ) : ℕ := (b p).toNat * 256 + (b (p + 1)).toNat

def mvsBe24 (b : Buffer) (p : ℕ) : ℕ :=
  (b p).toNat * 65536 + (b (p + 1)).toNat * 256 + (b (p + 2)).toNat

def mvsPut16 (v : ℤ) : List UInt8 := [.ofInt (v / 256), .ofInt v]

def mvsPut24 (v : ℤ) : List UInt8 := [.ofInt (v / 65536), .ofInt (v / 256), .ofInt v]

def mvsRdval (m : BigEndian.Memory) (p : ℤ) (n : ℕ) : ℤ := BigEndian.read m p n

def mvsWrval (m : BigEndian.Memory) (p v : ℤ) (n : ℕ) : BigEndian.Memory := BigEndian.write m p v n

abbrev Name := Vector UInt8 8

def nameAt (b : Buffer) (p : ℕ) : Name := Vector.ofFn fun i => b (p + i)

def blankName : Name := Vector.replicate 8 0x40

/-- A one-letter external name, as its EBCDIC code. -/
def letterName (c : UInt8) : Name := blankName.set 0 c (by decide)

def mvsA2eTab : List ℕ :=
  [0x00, 0x01, 0x02, 0x03, 0x37, 0x2D, 0x2E, 0x2F, 0x16, 0x05, 0x15, 0x0B, 0x0C, 0x0D, 0x0E, 0x0F,
    0x10, 0x11, 0x12, 0x13, 0x3C, 0x3D, 0x32, 0x26, 0x18, 0x19, 0x3F, 0x27, 0x1C, 0x1D, 0x1E, 0x1F,
    0x40, 0x5A, 0x7F, 0x7B, 0x5B, 0x6C, 0x50, 0x7D, 0x4D, 0x5D, 0x5C, 0x4E, 0x6B, 0x60, 0x4B, 0x61,
    0xF0, 0xF1, 0xF2, 0xF3, 0xF4, 0xF5, 0xF6, 0xF7, 0xF8, 0xF9, 0x7A, 0x5E, 0x4C, 0x7E, 0x6E, 0x6F,
    0x7C, 0xC1, 0xC2, 0xC3, 0xC4, 0xC5, 0xC6, 0xC7, 0xC8, 0xC9, 0xD1, 0xD2, 0xD3, 0xD4, 0xD5, 0xD6,
    0xD7, 0xD8, 0xD9, 0xE2, 0xE3, 0xE4, 0xE5, 0xE6, 0xE7, 0xE8, 0xE9, 0xBA, 0xE0, 0xBB, 0xB0, 0x6D,
    0x79, 0x81, 0x82, 0x83, 0x84, 0x85, 0x86, 0x87, 0x88, 0x89, 0x91, 0x92, 0x93, 0x94, 0x95, 0x96,
    0x97, 0x98, 0x99, 0xA2, 0xA3, 0xA4, 0xA5, 0xA6, 0xA7, 0xA8, 0xA9, 0xC0, 0x4F, 0xD0, 0xA1, 0x07,
    0x20, 0x21, 0x22, 0x23, 0x24, 0x15, 0x06, 0x17, 0x28, 0x29, 0x2A, 0x2B, 0x2C, 0x09, 0x0A, 0x1B,
    0x30, 0x31, 0x1A, 0x33, 0x34, 0x35, 0x36, 0x08, 0x38, 0x39, 0x3A, 0x3B, 0x04, 0x14, 0x3E, 0xFF,
    0x41, 0xAA, 0x4A, 0xB1, 0x9F, 0xB2, 0x6A, 0xB5, 0xBD, 0xB4, 0x9A, 0x8A, 0x5F, 0xCA, 0xAF, 0xBC,
    0x90, 0x8F, 0xEA, 0xFA, 0xBE, 0xA0, 0xB6, 0xB3, 0x9D, 0xDA, 0x9B, 0x8B, 0xB7, 0xB8, 0xB9, 0xAB,
    0x64, 0x65, 0x62, 0x66, 0x63, 0x67, 0x9E, 0x68, 0x74, 0x71, 0x72, 0x73, 0x78, 0x75, 0x76, 0x77,
    0xAC, 0x69, 0xED, 0xEE, 0xEB, 0xEF, 0xEC, 0xBF, 0x80, 0xFD, 0xFE, 0xFB, 0xFC, 0xAD, 0xAE, 0x59,
    0x44, 0x45, 0x42, 0x46, 0x43, 0x47, 0x9C, 0x48, 0x54, 0x51, 0x52, 0x53, 0x58, 0x55, 0x56, 0x57,
    0x8C, 0x49, 0xCD, 0xCE, 0xCB, 0xCF, 0xCC, 0xE1, 0x70, 0xDD, 0xDE, 0xDB, 0xDC, 0x8D, 0x8E, 0xDF]

def mvsA2e (c : UInt8) : UInt8 := .ofNat (mvsA2eTab.getD c.toNat 0)

def mvsName8 (s : List UInt8) : Name := Vector.ofFn fun i => if h : i.val < s.length then mvsA2e (s.get ⟨i, h⟩) else 0x40

theorem mvsBe16_lt (b : Buffer) (p : ℕ) : mvsBe16 b p < 65536 := by
  have h0 := (b p).toNat_lt
  have h1 := (b (p + 1)).toNat_lt
  simp only [mvsBe16]
  omega

theorem mvsBe24_lt (b : Buffer) (p : ℕ) : mvsBe24 b p < 16777216 := by
  have h0 := (b p).toNat_lt
  have h1 := (b (p + 1)).toNat_lt
  have h2 := (b (p + 2)).toNat_lt
  simp only [mvsBe24]
  omega

@[simp] theorem mvsPut16_length (v : ℤ) : (mvsPut16 v).length = 2 := rfl

@[simp] theorem mvsPut24_length (v : ℤ) : (mvsPut24 v).length = 3 := rfl

/-- The bytes of a list, as a buffer. -/
def ofBytes (l : List UInt8) : Buffer := fun p => l.getD p 0

theorem ofBytes_append_right (pre l : List UInt8) (k : ℕ) :
    ofBytes (pre ++ l) (pre.length + k) = ofBytes l k := by
  simp [ofBytes, List.getElem?_append_right]

theorem ofBytes_append_left {l : List UInt8} {k : ℕ} (h : k < l.length) (rest : List UInt8) :
    ofBytes (l ++ rest) k = ofBytes l k := by
  simp [ofBytes, List.getElem?_append_left h]

/-- A field of a record in the middle of a stream. -/
theorem ofBytes_middle {l : List UInt8} {k : ℕ} (h : k < l.length) (pre rest : List UInt8) :
    ofBytes (pre ++ l ++ rest) (pre.length + k) = ofBytes l k := by
  rw [List.append_assoc, ofBytes_append_right, ofBytes_append_left h]

theorem mvsBe16_middle {l : List UInt8} {k : ℕ} (h : k + 1 < l.length) (pre rest : List UInt8) :
    mvsBe16 (ofBytes (pre ++ l ++ rest)) (pre.length + k) = mvsBe16 (ofBytes l) k := by
  rw [mvsBe16, mvsBe16, ofBytes_middle (by omega), add_assoc, ofBytes_middle h]

theorem mvsBe16_put16 {v : ℤ} (h0 : 0 ≤ v) (h1 : v < 65536) (pre post : List UInt8) :
    (mvsBe16 (ofBytes (pre ++ mvsPut16 v ++ post)) pre.length : ℤ) = v := by
  have ha : ofBytes (pre ++ mvsPut16 v ++ post) pre.length = UInt8.ofInt (v / 256) := by
    simp [ofBytes, mvsPut16]
  have hb : ofBytes (pre ++ mvsPut16 v ++ post) (pre.length + 1) = UInt8.ofInt v := by
    simp [ofBytes, mvsPut16]
  simp only [mvsBe16, ha, hb]
  push_cast
  rw [toNat_ofInt, toNat_ofInt]
  omega

theorem mvsBe24_put24 {v : ℤ} (h0 : 0 ≤ v) (h1 : v < 2 ^ 24) (pre post : List UInt8) :
    (mvsBe24 (ofBytes (pre ++ mvsPut24 v ++ post)) pre.length : ℤ) = v := by
  have ha : ofBytes (pre ++ mvsPut24 v ++ post) pre.length = UInt8.ofInt (v / 65536) := by
    simp [ofBytes, mvsPut24]
  have hb : ofBytes (pre ++ mvsPut24 v ++ post) (pre.length + 1) = UInt8.ofInt (v / 256) := by
    simp [ofBytes, mvsPut24]
  have hc : ofBytes (pre ++ mvsPut24 v ++ post) (pre.length + 2) = UInt8.ofInt v := by
    simp [ofBytes, mvsPut24]
  simp only [mvsBe24, ha, hb, hc]
  push_cast
  rw [toNat_ofInt, toNat_ofInt, toNat_ofInt]
  omega

end Cc370
