import Cc370.As370.Cards
import Cc370.RldItems

namespace Cc370.As370

open Obj370

namespace Reloc

def key (r : Reloc) : ℕ × ℕ := (r.rel, r.pos)

structure Fits (r : Reloc) : Prop where
  rel : r.rel < 65536
  pos : r.pos < 65536
  type : r.isV < 4
  len : 1 ≤ r.len ∧ r.len ≤ 4
  addr : 0 ≤ r.addr ∧ r.addr < 2 ^ 24

/-- The flag of an item, with the bit that says that the next one leaves out R and P. -/
def flagBefore (r : Reloc) (rs : List Reloc) : UInt8 :=
  if rs.head?.map key = some r.key then r.flag ||| 0x01 else r.flag

/-- The items of a card behind one with the pointers `prev`. -/
def encode (prev : Option (ℕ × ℕ)) : List Reloc → List UInt8
  | [] => []
  | r :: rs =>
    (if prev = some r.key then [] else mvsPut16 r.rel ++ mvsPut16 r.pos) ++
      r.flagBefore rs :: mvsPut24 r.addr ++ encode (some r.key) rs

theorem flag_toNat {r : Reloc} (h : r.Fits) :
    r.flag.toNat = r.isV * 16 + (r.len - 1) * 4 + (if r.neg then 2 else 0) := by
  have h1 := h.type
  have h2 := h.len
  rw [flag, UInt8.toNat_ofNat']
  split_ifs <;> omega

theorem flagBefore_toNat {r : Reloc} (h : r.Fits) (rs : List Reloc) :
    (r.flagBefore rs).toNat = r.flag.toNat + if rs.head?.map key = some r.key then 1 else 0 := by
  have hflag := flag_toNat h
  unfold flagBefore
  split_ifs with hk
  · rw [or_one_toNat]
    split_ifs at hflag <;> omega
  · rfl

/-- The relocation that an item of the deck stands for. -/
def ofRld (it : Rld) : Reloc := ⟨it.addr, it.p, it.r, it.type, it.len, it.negative⟩

theorem ofRld_item {r : Reloc} (h : r.Fits) (rs : List Reloc) {addr : ℕ} (ha : (addr : ℤ) = r.addr) :
    ofRld ⟨r.rel, r.pos, r.flagBefore rs, addr⟩ = r := by
  have hflag := flag_toNat h
  have hbefore := flagBefore_toNat h rs
  have h1 := h.type
  have h2 := h.len
  obtain ⟨raddr, pos, rel, isV, len, neg⟩ := r
  simp only [ofRld, Rld.type, Rld.len, Rld.negative, mk.injEq, true_and] at *
  refine ⟨ha, ?_, ?_, ?_⟩
  · split_ifs at hflag hbefore <;> omega
  · split_ifs at hflag hbefore <;> omega
  · cases neg
    · simp only [Bool.false_eq_true, ↓reduceIte] at hflag
      rw [decide_eq_false_iff_not]
      split_ifs at hbefore <;> omega
    · simp only [↓reduceIte] at hflag
      rw [decide_eq_true_eq]
      split_ifs at hbefore <;> omega

/-- The relocation as an item to be written. -/
def code (r : Reloc) : RldCode := ⟨r.rel, r.pos, r.flag, r.addr⟩

theorem encode_eq (prev : Option (ℕ × ℕ)) (rs : List Reloc) : encode prev rs = RldCode.encode prev (rs.map code) := by
  induction rs generalizing prev with
  | nil => rfl
  | cons r rs ih =>
    have hkey : (rs.map code).head?.map RldCode.key = rs.head?.map key := by
      rw [List.head?_map, Option.map_map]
      rfl
    have hflag : r.flagBefore rs = r.code.flagBefore (rs.map code) := by
      rw [flagBefore, RldCode.flagBefore, hkey]
      rfl
    rw [encode, ih, hflag]
    rfl

theorem encode_same {y r : Reloc} {ys : List Reloc} (hlast : ys.getLast? = some y) (hkey : y.key = r.key) :
    encode none (ys ++ [r]) = (encode none ys).modify ((encode none ys).length - 4) (· ||| 0x01) ++ r.tail := by
  have hlast' : (ys.map code).getLast? = some y.code := by rw [List.getLast?_map, hlast]; rfl
  rw [encode_eq, encode_eq, List.map_append]
  exact RldCode.encode_same hlast' hkey

theorem encode_other {r : Reloc} {ys : List Reloc} (hlast : ys.getLast?.map key ≠ some r.key) :
    encode none (ys ++ [r]) = encode none ys ++ r.leader := by
  have hlast' : (((ys.map code).getLast?.map RldCode.key).or none) ≠ some r.code.key := by
    rw [Option.or_none, List.getLast?_map, Option.map_map]
    exact hlast
  rw [encode_eq, encode_eq, List.map_append]
  exact RldCode.encode_other hlast'

theorem ofRld_decoded {rs : List Reloc} (hfits : ∀ r ∈ rs, r.Fits) : (RldCode.decoded (rs.map code)).map ofRld = rs := by
  induction rs with
  | nil => rfl
  | cons r rs ih =>
    have hr := hfits r List.mem_cons_self
    have hkey : (rs.map code).head?.map RldCode.key = rs.head?.map key := by
      rw [List.head?_map, Option.map_map]
      rfl
    have hflag : r.code.flagBefore (rs.map code) = r.flagBefore rs := by
      rw [flagBefore, RldCode.flagBefore, hkey]
      rfl
    have haddr : (((r.addr % 16777216).toNat : ℕ) : ℤ) = r.addr := by
      have := hr.addr
      omega
    have hitem := ofRld_item hr rs haddr
    rw [List.map_cons, RldCode.decoded, List.map_cons, ih fun x hx => hfits x (List.mem_cons_of_mem _ hx), hflag]
    have hrel : r.code.r % 65536 = r.rel := Nat.mod_eq_of_lt hr.rel
    have hpos : r.code.p % 65536 = r.pos := Nat.mod_eq_of_lt hr.pos
    rw [hrel, hpos]
    exact congrArg (· :: rs) hitem

theorem code_even {r : Reloc} (h : r.Fits) : r.code.flag.toNat % 2 = 0 := by
  have hflag : r.code.flag.toNat = _ := flag_toNat h
  rw [hflag]
  split_ifs
  · omega
  · omega

end Reloc

namespace RldOut

/-- An open card holds the items `ys`. -/
structure Holds (st : RldOut) (ys : List Reloc) : Prop where
  data : st.data = Reloc.encode none ys
  prevflag : st.prevflag = st.data.length - 4
  last : st.last = ys.getLast?.map Reloc.key
  short : st.data.length ≤ 56

theorem data_eq_nil_iff {st : RldOut} {ys : List Reloc} (h : Holds st ys) : st.data = [] ↔ ys = [] := by
  rw [h.data]
  constructor
  · intro hnil
    cases ys with
    | nil => rfl
    | cons y ys =>
      have : 4 ≤ (Reloc.encode none (y :: ys)).length := by
        rw [Reloc.encode_eq]
        exact RldCode.encode_length_pos y.code (ys.map Reloc.code)
      rw [hnil] at this
      simp at this
  · rintro rfl
    rfl

theorem fill_spec (rs : List Reloc) : ∀ {st : RldOut} {ys : List Reloc}, Holds st ys →
    ∃ mid rest, fill rs st = (Reloc.encode none (ys ++ mid), rest) ∧ rs = mid ++ rest ∧
      (Reloc.encode none (ys ++ mid)).length ≤ 56 ∧ (ys = [] → rs ≠ [] → mid ≠ []) := by
  induction rs with
  | nil =>
    intro st ys h
    exact ⟨[], [], by simp [fill, h.data], rfl, by simpa [← h.data] using h.short, by simp⟩
  | cons r rs ih =>
    intro st ys h
    have hnil := data_eq_nil_iff h
    rw [fill]
    by_cases hreuse : st.data ≠ [] ∧ st.last = some (r.rel, r.pos)
    · simp only [hreuse, ne_eq, not_false_eq_true, and_self, ↓reduceIte]
      obtain ⟨hne, hlast⟩ := hreuse
      rw [h.last] at hlast
      obtain ⟨y, hy, hkey⟩ := Option.map_eq_some_iff.mp hlast
      have hys : ys ≠ [] := fun hys => hne (hnil.mpr hys)
      by_cases hfull : 56 < st.data.length + 4
      · rw [if_pos hfull]
        exact ⟨[], r :: rs, by simp [h.data], rfl, by simpa [← h.data] using h.short,
          fun hys' => absurd hys' hys⟩
      · rw [if_neg hfull]
        have hlen : (st.data.modify st.prevflag (· ||| 0x01) ++ r.tail).length = st.data.length + 4 := by
          rw [List.length_append, List.length_modify]
          rfl
        have henc : st.data.modify st.prevflag (· ||| 0x01) ++ r.tail = Reloc.encode none (ys ++ [r]) := by
          rw [Reloc.encode_same hy hkey, h.prevflag, h.data]
        have hst : Holds ⟨st.data.modify st.prevflag (· ||| 0x01) ++ r.tail, st.data.length,
            some (r.rel, r.pos)⟩ (ys ++ [r]) := by
          refine ⟨henc, ?_, by simp [Reloc.key], ?_⟩
          · dsimp only
            omega
          · dsimp only
            omega
        obtain ⟨mid, rest, h1, h2, h3, -⟩ := ih hst
        refine ⟨r :: mid, rest, ?_, by rw [h2]; rfl, ?_, by simp⟩
        · rw [h1, List.append_assoc]
          rfl
        · simpa using h3
    · simp only [hreuse, ↓reduceIte]
      have hother : ys.getLast?.map Reloc.key ≠ some r.key := by
        rw [← h.last]
        intro hlast
        apply hreuse
        refine ⟨?_, hlast⟩
        intro hempty
        rw [h.last, hnil.mp hempty] at hlast
        simp at hlast
      by_cases hfull : 56 < st.data.length + 8
      · rw [if_pos hfull]
        refine ⟨[], r :: rs, by simp [h.data], rfl, by simpa [← h.data] using h.short, ?_⟩
        intro hys _
        rw [hnil.mpr hys] at hfull
        simp at hfull
      · rw [if_neg hfull]
        have henc : st.data ++ r.leader = Reloc.encode none (ys ++ [r]) := by
          rw [Reloc.encode_other hother, h.data]
        have hlen : (st.data ++ r.leader).length = st.data.length + 8 := by
          rw [List.length_append]
          rfl
        have hst : Holds ⟨st.data ++ r.leader, st.data.length + 4, some (r.rel, r.pos)⟩ (ys ++ [r]) := by
          refine ⟨henc, ?_, by simp [Reloc.key], ?_⟩
          · dsimp only
            omega
          · dsimp only
            omega
        obtain ⟨mid, rest, h1, h2, h3, -⟩ := ih hst
        refine ⟨r :: mid, rest, ?_, by rw [h2]; rfl, ?_, by simp⟩
        · rw [h1, List.append_assoc]
          rfl
        · simpa using h3

end RldOut

/-- One RLD card reads back as the relocations on it. -/
theorem rldWalk_card {ys : List Reloc} (hfits : ∀ r ∈ ys, r.Fits)
    (hlen : (Reloc.encode none ys).length ≤ 56) (seq : List UInt8) :
    (rldWalk (ofBytes (card rldName none (some (Reloc.encode none ys).length) none
      (Reloc.encode none ys) seq))).map Reloc.ofRld = ys := by
  set data := Reloc.encode none ys with hdata
  set c := ofBytes (card rldName none (some data.length) none data seq) with hc
  have hname : rldName.length = 3 := rfl
  have hcount : (mvsBe16 c 10 : ℤ) = data.length :=
    card_count hname none none data seq (by omega) (by omega)
  have hitems : 4 * (ys.map Reloc.code).length ≤ data.length := by
    rw [hdata, Reloc.encode_eq]
    exact RldCode.encode_length_ge none _
  have hat : Slices.At (fun i => c (16 + i)) 0 (RldCode.encode none (ys.map Reloc.code)) := by
    rw [← Reloc.encode_eq]
    intro i hi
    rw [Nat.zero_add]
    exact (card_data hname none (some (data.length : ℤ)) none data seq hi).trans (List.getD_eq_getElem _ _ hi)
  have hdec := RldCode.rldItems_encode (ys.map Reloc.code) ?_ none 0 17 0 0 false (by omega) (by cases ys <;> simp) (by simp) hat
  · rw [Nat.zero_add, ← Reloc.encode_eq] at hdec
    rw [rldWalk, if_pos (rld_cardType ..)]
    dsimp only
    rw [if_neg (by omega), Nat.cast_inj.mp hcount, hdec]
    exact Reloc.ofRld_decoded hfits
  · intro x hx
    obtain ⟨r, hr, rfl⟩ := List.mem_map.mp hx
    exact Reloc.code_even (hfits r hr)

theorem deckRld_rldCards (deckId : List UInt8) (fuel : ℕ) : ∀ (rs : List Reloc) (seq : ℕ),
    (∀ r ∈ rs, r.Fits) → rs.length < fuel →
      (deckRld ((rldCards deckId fuel rs seq).map ofBytes)).map Reloc.ofRld = rs := by
  induction fuel with
  | zero => intro rs seq _ h; omega
  | succ fuel ih =>
    intro rs seq hfits hfuel
    cases rs with
    | nil => simp [rldCards, deckRld]
    | cons r rs =>
      have hst : RldOut.Holds ⟨[], 0, none⟩ [] := ⟨rfl, rfl, rfl, by simp⟩
      obtain ⟨mid, rest, h1, h2, h3, h4⟩ := RldOut.fill_spec (r :: rs) hst
      rw [List.nil_append] at h1 h3
      have hmid := List.length_pos_iff.mpr (h4 rfl (by simp))
      have hlen := congrArg List.length h2
      rw [List.length_append] at hlen
      have hmem (x : Reloc) (hx : x ∈ mid ∨ x ∈ rest) : x.Fits := by
        apply hfits
        rw [h2, List.mem_append]
        exact hx
      have hcard := rldWalk_card (fun x hx => hmem x (.inl hx)) h3 (cseq deckId (seq + 1))
      have hrest := ih rest (seq + 1) (fun x hx => hmem x (.inr hx)) (by omega)
      rw [rldCards, h1]
      · rw [List.map_cons, deckRld, List.flatMap_cons, List.map_append, hcard, h2]
        exact congrArg _ hrest
      · simp

theorem sort_perm (rs : List Reloc) : (Reloc.sort rs).Perm rs := by
  unfold Reloc.sort
  exact (List.reverse_perm _).trans ((List.perm_insertionSort _ _).trans (List.reverse_perm _))

end Cc370.As370
