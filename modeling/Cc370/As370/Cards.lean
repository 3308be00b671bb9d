import Cc370.As370.EmitObj

namespace Cc370.As370

open Obj370

@[simp] theorem blanks_length (n : ℕ) : (blanks n).length = n := List.length_replicate

theorem cebc_length (s : List UInt8) (w : ℕ) : (cebc s w).length = w := by
  simp [cebc]

section Fields

variable {name : List UInt8} (hname : name.length = 3) (addr count id : Option ℤ)
  (data seq : List UInt8)

@[simp] theorem elim_put24_length (v : Option ℤ) : (v.elim (blanks 3) mvsPut24).length = 3 := by
  cases v <;> simp

@[simp] theorem elim_put16_length (v : Option ℤ) : (v.elim (blanks 2) mvsPut16).length = 2 := by
  cases v <;> simp

include hname

theorem card_addr {v : ℤ} (h0 : 0 ≤ v) (h1 : v < 2 ^ 24) :
    (mvsBe24 (ofBytes (card name (some v) count id data seq)) 5 : ℤ) = v := by
  have hpre : ([0x02] ++ name ++ [0x40] : List UInt8).length = 5 := by simp [hname]
  have hput := mvsBe24_put24 h0 h1 ([0x02] ++ name ++ [0x40]) (blanks 2 ++
    count.elim (blanks 2) mvsPut16 ++ blanks 2 ++ id.elim (blanks 2) mvsPut16 ++ data ++
    blanks (56 - data.length) ++ seq)
  rw [hpre] at hput
  simpa only [card, List.append_assoc, Option.elim_some] using hput

theorem card_count {v : ℤ} (h0 : 0 ≤ v) (h1 : v < 65536) :
    (mvsBe16 (ofBytes (card name addr (some v) id data seq)) 10 : ℤ) = v := by
  have hpre : ([0x02] ++ name ++ [0x40] ++ addr.elim (blanks 3) mvsPut24 ++ blanks 2 :
      List UInt8).length = 10 := by simp [hname]
  have hput := mvsBe16_put16 h0 h1 ([0x02] ++ name ++ [0x40] ++ addr.elim (blanks 3) mvsPut24 ++
    blanks 2) (blanks 2 ++ id.elim (blanks 2) mvsPut16 ++ data ++ blanks (56 - data.length) ++ seq)
  rw [hpre] at hput
  simpa only [card, List.append_assoc, Option.elim_some] using hput

theorem card_id {v : ℤ} (h0 : 0 ≤ v) (h1 : v < 65536) :
    (mvsBe16 (ofBytes (card name addr count (some v) data seq)) 14 : ℤ) = v := by
  have hpre : ([0x02] ++ name ++ [0x40] ++ addr.elim (blanks 3) mvsPut24 ++ blanks 2 ++
      count.elim (blanks 2) mvsPut16 ++ blanks 2 : List UInt8).length = 14 := by simp [hname]
  have hput := mvsBe16_put16 h0 h1 ([0x02] ++ name ++ [0x40] ++ addr.elim (blanks 3) mvsPut24 ++
    blanks 2 ++ count.elim (blanks 2) mvsPut16 ++ blanks 2)
    (data ++ blanks (56 - data.length) ++ seq)
  rw [hpre] at hput
  simpa only [card, List.append_assoc, Option.elim_some] using hput

theorem card_data {i : ℕ} (hi : i < data.length) :
    ofBytes (card name addr count id data seq) (16 + i) = ofBytes data i := by
  set pre : List UInt8 := [0x02] ++ name ++ [0x40] ++ addr.elim (blanks 3) mvsPut24 ++ blanks 2 ++
      count.elim (blanks 2) mvsPut16 ++ blanks 2 ++ id.elim (blanks 2) mvsPut16 with hpre
  have hlen : pre.length = 16 := by simp [hpre, hname]
  have hmid := ofBytes_middle hi pre (blanks (56 - data.length) ++ seq)
  rw [hlen] at hmid
  simpa only [card, hpre, List.append_assoc] using hmid

end Fields

section Types

variable (addr count id : Option ℤ) (data seq : List UInt8)

theorem esd_cardType : cardType (ofBytes (card esdName addr count id data seq)) = .esd := rfl

theorem txt_cardType : cardType (ofBytes (card txtName addr count id data seq)) = .txt := rfl

theorem rld_cardType : cardType (ofBytes (card rldName addr count id data seq)) = .rld := rfl

theorem end_cardType : cardType (ofBytes (card endName addr count id data seq)) = .end := rfl

end Types

end Cc370.As370
