import Cc370.Mvs370
import Cc370.Lib.Tracks
import Cc370.Lib.Slices

namespace Cc370

open Tracks Slices BigEndian

def mvsTrkLen3350 : ℕ := 19254

def mvsTrkOvh3350 : ℕ := 185

def mvsTrkMaxblk3350 : ℕ := mvsTrkLen3350 - mvsTrkOvh3350

def mvsTrkPackCap3350 : ℕ := mvsTrkMaxblk3350

def mvsTrkpercyl3350 : ℕ := 30

def mvsUnloadDataCc : ℕ := 0x8D

def mvsEnvHdrLen : ℕ := 328

def mvsCopyr1Len : ℕ := 52

/-- COPYR1 and COPYR2, as a real unload has them. -/
def mvsUnloadEnvHdr : List UInt8 :=
  [0x00, 0xCA, 0x6D, 0x0F, 0x02, 0x00, 0x4A, 0x7D, 0x00, 0x00, 0xC0, 0x00,
    0x00, 0x00, 0x4A, 0x7D, 0x30, 0x50, 0x20, 0x0B, 0x00, 0x00, 0x4A, 0x7D,
    0x02, 0x30, 0x00, 0x1E, 0x4B, 0x36, 0x01, 0x0B, 0x52, 0x08, 0x02, 0x00,
    0x00, 0x00, 0x00, 0x00, 0x00, 0x00, 0x00, 0x00, 0x00, 0x00, 0x00, 0x00,
    0x00, 0x00, 0x00, 0x00, 0x01, 0x00, 0x00, 0x00, 0xFF, 0x00, 0x00, 0x00,
    0x8F, 0x09, 0x66, 0x44, 0x04, 0x9B, 0xD0, 0xE8, 0x50, 0x00, 0x27, 0xC8,
    0x00, 0x00, 0x00, 0x8D, 0x00, 0x00, 0x00, 0x8D, 0x00, 0x1D, 0x00, 0x1E] ++
    List.replicate 244 0x00

theorem mvsUnloadEnvHdr_length : mvsUnloadEnvHdr.length = 328 := by
  rw [mvsUnloadEnvHdr, List.length_append, List.length_replicate]
  rfl

def mvsPutCount (cc hh r kl dl : ℕ) : List UInt8 :=
  [0x00, 0x00, 0x00, 0x00] ++ mvsPut16 cc ++ mvsPut16 hh ++ [.ofNat r, .ofNat kl] ++ mvsPut16 dl

/-- The data extent in the header, in whole cylinders. -/
def mvsUdebxExtent (hdr : List UInt8) (ntracks : ℕ) : List UInt8 :=
  let ncyl := max 1 ((ntracks + mvsTrkpercyl3350 - 1) / mvsTrkpercyl3350)
  put (put (put hdr 78 (mvsPut16 (mvsUnloadDataCc + ncyl - 1 : ℕ))) 80 (mvsPut16 (mvsTrkpercyl3350 - 1 : ℕ)))
    82 (mvsPut16 (ncyl * mvsTrkpercyl3350 : ℕ))

section Put

variable {l new : List UInt8} {p : ℕ}

theorem ofBytes_put (h : p + new.length ≤ l.length) (k : ℕ) :
    ofBytes (put l p new) k = if p ≤ k ∧ k < p + new.length then ofBytes new (k - p) else ofBytes l k := by
  simp only [ofBytes, List.getD_eq_getElem?_getD, put_getElem? h]
  split_ifs
  · rfl
  · rfl

theorem mvsBe16_put_self (h : p + 2 ≤ l.length) (v : ℕ) : mvsBe16 (ofBytes (put l p (mvsPut16 v))) p = v % 65536 := by
  have hlen : p + (mvsPut16 v).length ≤ l.length := h
  rw [mvsBe16, ofBytes_put hlen, ofBytes_put hlen, if_pos ⟨Nat.le_refl p, by simp⟩, if_pos ⟨Nat.le_succ p, by simp⟩,
    Nat.sub_self, Nat.add_sub_cancel_left]
  have h0 : ofBytes (mvsPut16 v) 0 = .ofInt ((v : ℤ) / 256) := rfl
  have h1 : ofBytes (mvsPut16 v) 1 = .ofInt (v : ℤ) := rfl
  rw [h0, h1]
  have hv0 := toNat_ofInt ((v : ℤ) / 256)
  have hv1 := toNat_ofInt (v : ℤ)
  omega

theorem mvsBe16_put_other (h : p + new.length ≤ l.length) {k : ℕ} (hk : k + 2 ≤ p ∨ p + new.length ≤ k) :
    mvsBe16 (ofBytes (put l p new)) k = mvsBe16 (ofBytes l) k := by
  rw [mvsBe16, ofBytes_put h, ofBytes_put h, if_neg (by omega), if_neg (by omega)]
  rfl

/-- A header whose data extent begins at the base cylinder. -/
structure ExtentAt (hdr : List UInt8) : Prop where
  length : hdr.length = mvsEnvHdrLen
  startCc : mvsBe16 (ofBytes hdr) 74 = mvsUnloadDataCc
  startHh : mvsBe16 (ofBytes hdr) 76 = 0

theorem ExtentAt.template : ExtentAt mvsUnloadEnvHdr := ⟨mvsUnloadEnvHdr_length, rfl, rfl⟩

theorem ExtentAt.length_le (h : ExtentAt l) : 84 ≤ l.length := by
  rw [h.length, mvsEnvHdrLen]
  omega

theorem ExtentAt.put (h : ExtentAt l) (p : ℕ) (new : List UInt8) (hp : p + new.length ≤ 74) : ExtentAt (put l p new) := by
  have hlen : p + new.length ≤ l.length := by
    rw [h.length, mvsEnvHdrLen]
    omega
  refine ⟨(put_length hlen).trans h.length, ?_, ?_⟩
  · rw [mvsBe16_put_other hlen (.inr hp)]
    exact h.startCc
  · rw [mvsBe16_put_other hlen (.inr (by omega))]
    exact h.startHh

end Put

/-- A record with the place it is given. -/
structure Ckd where
  spot : Spot
  data : List UInt8

def Ckd.bytes (c : Ckd) : List UInt8 :=
  mvsPutCount (mvsUnloadDataCc + c.spot.tt / mvsTrkpercyl3350) (c.spot.tt % mvsTrkpercyl3350) c.spot.r 0 c.spot.len ++ c.data

/-- The parts of an unloaded library. -/
structure Unload where
  header : List UInt8
  directory : List (List UInt8)
  data : List Ckd

namespace Unload

def spots (u : Unload) : List Spot := u.data.map Ckd.spot

def bytes (u : Unload) : List UInt8 :=
  u.header ++ u.directory.flatten ++ List.replicate 12 0x00 ++ u.data.flatMap Ckd.bytes

/-- The extent of the header has the track: from the first cylinder and head of the extent to the last,
and by the number of its tracks. -/
def Covers (u : Unload) (tt : ℕ) : Prop :=
  let hdr := ofBytes u.header
  let cc := mvsUnloadDataCc + tt / mvsTrkpercyl3350
  let hh := tt % mvsTrkpercyl3350
  (mvsBe16 hdr 74 < cc ∨ mvsBe16 hdr 74 = cc ∧ mvsBe16 hdr 76 ≤ hh) ∧
    (cc < mvsBe16 hdr 78 ∨ cc = mvsBe16 hdr 78 ∧ hh ≤ mvsBe16 hdr 80) ∧ tt < mvsBe16 hdr 82

/-- The records can be on a 3350, within the extent. -/
def Possible (u : Unload) : Prop := Tracks.Possible mvsTrkOvh3350 mvsTrkLen3350 u.spots ∧ ∀ s ∈ u.spots, u.Covers s.tt

section Extent

variable {hdr : List UInt8} {n : ℕ}

theorem mvsUdebxExtent_length (hlen : 84 ≤ hdr.length) : (mvsUdebxExtent hdr n).length = hdr.length := by
  unfold mvsUdebxExtent
  dsimp only
  rw [put_length, put_length, put_length]
  · rw [mvsPut16_length]
    omega
  · rw [put_length, mvsPut16_length]
    · omega
    · rw [mvsPut16_length]
      omega
  · rw [put_length, put_length, mvsPut16_length]
    · omega
    · rw [mvsPut16_length]
      omega
    · rw [put_length, mvsPut16_length]
      · omega
      · rw [mvsPut16_length]
        omega

/-- The fields of the extent. -/
theorem mvsUdebxExtent_fields (hlen : 84 ≤ hdr.length) :
    let ncyl := max 1 ((n + mvsTrkpercyl3350 - 1) / mvsTrkpercyl3350)
    let b := ofBytes (mvsUdebxExtent hdr n)
    mvsBe16 b 74 = mvsBe16 (ofBytes hdr) 74 ∧ mvsBe16 b 76 = mvsBe16 (ofBytes hdr) 76 ∧
      mvsBe16 b 78 = (mvsUnloadDataCc + ncyl - 1) % 65536 ∧ mvsBe16 b 80 = 29 ∧
      mvsBe16 b 82 = ncyl * mvsTrkpercyl3350 % 65536 := by
  intro ncyl b
  set h1 := put hdr 78 (mvsPut16 (mvsUnloadDataCc + ncyl - 1 : ℕ)) with hh1
  set h2 := put h1 80 (mvsPut16 (mvsTrkpercyl3350 - 1 : ℕ)) with hh2
  have hb : b = ofBytes (put h2 82 (mvsPut16 (ncyl * mvsTrkpercyl3350 : ℕ))) := rfl
  have hl1 : h1.length = hdr.length := put_length (by rw [mvsPut16_length]; omega)
  have hl2 : h2.length = hdr.length := (put_length (by rw [mvsPut16_length]; omega)).trans hl1
  have hp1 : 78 + (mvsPut16 (mvsUnloadDataCc + ncyl - 1 : ℕ)).length ≤ hdr.length := by rw [mvsPut16_length]; omega
  have hp2 : 80 + (mvsPut16 (mvsTrkpercyl3350 - 1 : ℕ)).length ≤ h1.length := by rw [mvsPut16_length]; omega
  have hp3 : 82 + (mvsPut16 (ncyl * mvsTrkpercyl3350 : ℕ)).length ≤ h2.length := by rw [mvsPut16_length]; omega
  rw [hb]
  refine ⟨?_, ?_, ?_, ?_, mvsBe16_put_self (by omega) _⟩
  · rw [mvsBe16_put_other hp3 (.inl (by omega)), hh2, mvsBe16_put_other hp2 (.inl (by omega)), hh1,
      mvsBe16_put_other hp1 (.inl (by omega))]
  · rw [mvsBe16_put_other hp3 (.inl (by omega)), hh2, mvsBe16_put_other hp2 (.inl (by omega)), hh1,
      mvsBe16_put_other hp1 (.inl (by omega))]
  · rw [mvsBe16_put_other hp3 (.inl (by omega)), hh2, mvsBe16_put_other hp2 (.inl (by omega)), hh1,
      mvsBe16_put_self (by omega)]
  · rw [mvsBe16_put_other hp3 (.inl (by omega)), hh2, mvsBe16_put_self (by omega)]
    rfl

/-- The most tracks that the header can say: 2184 cylinders. -/
def tracksMax : ℕ := 65520

theorem covers_of_le {u : Unload} (hu : u.header = mvsUdebxExtent hdr n) (hx : ExtentAt hdr) (hn : n ≤ tracksMax)
    {tt : ℕ} (ht : tt < n) : u.Covers tt := by
  obtain ⟨f74, f76, f78, f80, f82⟩ := mvsUdebxExtent_fields (n := n) hx.length_le
  have hcyl : mvsTrkpercyl3350 = 30 := rfl
  have hcc : mvsUnloadDataCc = 141 := rfl
  have hmax : tracksMax = 65520 := rfl
  rw [hcyl, hcc] at f78
  rw [hcyl] at f82
  simp only [Covers, hu, f74, hx.startCc, f76, hx.startHh, f78, f80, f82, hcyl, hcc]
  omega

theorem not_covers_last {u : Unload} (hu : u.header = mvsUdebxExtent hdr n) (hx : ExtentAt hdr) (hn : tracksMax < n) :
    ¬ u.Covers (n - 1) := by
  obtain ⟨-, -, -, -, f82⟩ := mvsUdebxExtent_fields (n := n) hx.length_le
  have hcyl : mvsTrkpercyl3350 = 30 := rfl
  have hmax : tracksMax = 65520 := rfl
  rw [hcyl] at f82
  rintro ⟨-, -, h⟩
  rw [hu, f82] at h
  omega

/-- A layout on tracks is possible when every record fits on one, and the header can say how many there are. -/
theorem possible_iff {u : Unload} {cap : ℕ} {lens : List ℕ} (hspots : u.spots = layout mvsTrkOvh3350 cap .start lens)
    (hu : u.header = mvsUdebxExtent hdr (tracks mvsTrkOvh3350 cap lens)) (hx : ExtentAt hdr) (hcap : cap ≤ mvsTrkPackCap3350) :
    u.Possible ↔ (∀ len ∈ lens, len ≤ mvsTrkMaxblk3350) ∧ tracks mvsTrkOvh3350 cap lens ≤ tracksMax := by
  have hlo : mvsTrkPackCap3350 = 19069 := rfl
  have hov : mvsTrkOvh3350 = 185 := rfl
  have htrk : mvsTrkLen3350 = 19254 := rfl
  have hmb : mvsTrkMaxblk3350 = 19069 := rfl
  have hle : cap ≤ mvsTrkLen3350 := by omega
  have hfit := Tracks.possible_iff mvsTrkOvh3350 cap hle (by omega) lens
  rw [Possible, hspots, hfit]
  refine and_congr ?_ ?_
  · refine forall₂_congr fun len _ => ?_
    omega
  · constructor
    · intro h
      by_contra hmax
      rw [not_le] at hmax
      have hne : lens ≠ [] := by
        rintro rfl
        have hone : tracks mvsTrkOvh3350 cap [] = 1 := rfl
        have htm : tracksMax = 65520 := rfl
        omega
      obtain ⟨s, hs, htt⟩ := exists_last mvsTrkOvh3350 cap hne
      apply not_covers_last hu hx hmax
      have hs' := h s hs
      rwa [htt] at hs'
    · intro hmax s hs
      exact covers_of_le hu hx hmax (Nat.lt_succ_of_le (tt_le_of_mem hs))

end Extent

end Unload

end Cc370
