import Cc370.Ld370.ArchiveReader
import Cc370.Lib.Slices

namespace Cc370

open Slices Decimal

theorem be32_put32 {b : Buffer} {p v : ℕ} (hv : v < 2 ^ 32) (h : At b p (mvsPut32 v)) : Ld370.be32 b p = v := by
  rw [mvsPut32, at_cons, at_cons, at_cons, at_cons] at h
  obtain ⟨h0, h1, h2, h3, -⟩ := h
  rw [Ld370.be32, h0, h1, h2, h3]
  simp only [UInt8.toNat_ofNat']
  omega

namespace Ar370

open Ld370 (be32 cString readSyms sizeAt memberBytes loadArchive readMems)

@[simp] theorem mvsPut32_length (v : ℕ) : (mvsPut32 v).length = 4 := rfl

theorem field_length (n : ℕ) (l : List UInt8) : (field n l).length = n := by
  simp only [field, List.length_append, List.length_take, List.length_replicate]
  omega

theorem numberField_length {n v : ℕ} (hn : 0 < n) (hv : v < 10 ^ n) : (numberField n v).length = n := by
  have hle := (decimal_length_le hn).mpr hv
  simp only [numberField, List.length_append, List.length_replicate]
  omega

section Header

variable {namefield : List UInt8} {size : ℕ} {b : Buffer} {q : ℕ}

/-- A header: the name field, the size field at its place, and 60 bytes in all. -/
theorem arHdr_eq (namefield : List UInt8) (h : size ≤ arSizeMax) : ∃ mid, (field 16 namefield ++ mid).length = 48 ∧
    arHdr namefield size = field 16 namefield ++ mid ++ numberField 10 size ++ [0x60, 0x0A] := by
  refine ⟨numberField 12 0 ++ numberField 6 0 ++ numberField 6 0 ++ field 8 [0x31, 0x30, 0x30, 0x36, 0x34, 0x34], ?_, ?_⟩
  · simp only [List.length_append, field_length, numberField_length (n := 12) (v := 0) (by decide) (by decide),
      numberField_length (n := 6) (v := 0) (by decide) (by decide)]
  · rw [arHdr, List.take_of_length_le]
    · simp only [List.append_assoc]
    · have hsize : (numberField 10 size).length = 10 := numberField_length (by decide) (by rw [arSizeMax] at h; omega)
      simp only [List.length_append, field_length, numberField_length (n := 12) (v := 0) (by decide) (by decide),
        numberField_length (n := 6) (v := 0) (by decide) (by decide), hsize, List.length_cons, List.length_nil]
      omega

theorem arHdr_length (h : size ≤ arSizeMax) : (arHdr namefield size).length = 60 := by
  obtain ⟨mid, hmid, heq⟩ := arHdr_eq namefield h
  have hsize : (numberField 10 size).length = 10 := numberField_length (by decide) (by rw [arSizeMax] at h; omega)
  rw [heq, List.length_append, List.length_append, hmid, hsize]
  rfl

theorem arHdr_size (h : size ≤ arSizeMax) (hq : At b q (arHdr namefield size)) : sizeAt b q = size := by
  obtain ⟨mid, hmid, heq⟩ := arHdr_eq namefield h
  have hsize : (numberField 10 size).length = 10 := numberField_length (by decide) (by rw [arSizeMax] at h; omega)
  rw [heq] at hq
  have hfield := hq.left.right
  rw [hmid] at hfield
  have hread := hfield.map_range
  rw [hsize] at hread
  rw [sizeAt, hread, numberField, atol_decimal]
  · exact Int.toNat_natCast size
  · intro c hc
    have hmem := List.mem_of_mem_head? hc
    rw [(List.mem_replicate.mp hmem).2]
    decide

theorem arHdr_name (h : size ≤ arSizeMax) (hq : At b q (arHdr namefield size)) : At b q (field 16 namefield) := by
  obtain ⟨mid, -, heq⟩ := arHdr_eq namefield h
  rw [heq] at hq
  exact hq.left.left.left

/-- A member is found with its header. -/
theorem memberBytes_at {data : List UInt8} (h : data.length ≤ arSizeMax) (hq : At b q (arHdr namefield data.length ++ data)) :
    memberBytes b q = data := by
  have hdata := hq.right
  rw [arHdr_length h] at hdata
  rw [memberBytes, arHdr_size h hq.left]
  exact hdata.map_range

end Header

section Strings

variable {b : Buffer} {p : ℕ}

theorem cString_at {s : List UInt8} (hs : ∀ c ∈ s, c ≠ 0) {fuel : ℕ} (hfuel : s.length < fuel) (h : At b p (s ++ [0x00])) :
    cString b fuel p = s := by
  induction s generalizing p fuel with
  | nil =>
    obtain ⟨fuel, rfl⟩ := Nat.exists_eq_add_one_of_ne_zero (Nat.ne_of_gt hfuel)
    rw [cString, if_pos (at_cons.mp h).1]
  | cons c s ih =>
    obtain ⟨fuel, rfl⟩ := Nat.exists_eq_add_one_of_ne_zero (Nat.ne_of_gt (Nat.zero_lt_of_lt hfuel))
    rw [List.cons_append] at h
    obtain ⟨hc, hrest⟩ := at_cons.mp h
    rw [cString, hc, if_neg (hs c List.mem_cons_self),
      ih (fun x hx => hs x (List.mem_cons_of_mem _ hx)) (by simpa using hfuel) hrest]

theorem mvsE2aPr_ne_zero (c : UInt8) : mvsE2aPr c ≠ 0 := by
  simp only [mvsE2aPr]
  split_ifs with h
  · intro h0
    have hz := congrArg UInt8.toNat h0
    rw [UInt8.toNat_ofNat'] at hz
    have h0' : (0 : UInt8).toNat = 0 := rfl
    omega
  · decide

theorem mem_mvsNm {n : Name} {c : UInt8} (h : c ∈ mvsNm n) : ∃ x ∈ n.toList, mvsE2aPr x = c := by
  rw [mvsNm, List.mem_reverse] at h
  have hmem := (List.dropWhile_sublist _).mem h
  rw [List.mem_reverse] at hmem
  obtain ⟨x, hx, rfl⟩ := List.mem_map.mp hmem
  exact ⟨x, hx, rfl⟩

theorem mvsNm_length (n : Name) : (mvsNm n).length ≤ 8 := by
  rw [mvsNm, List.length_reverse]
  refine (List.dropWhile_sublist _).length_le.trans ?_
  simp

/-- A symbol of an archive is a name of at most eight characters. -/
theorem symbols_name {objs : List Objf} {s : List UInt8 × ℕ} (hs : s ∈ symbols objs) :
    (∃ n : Name, s.1 = mvsNm n) ∧ s.2 < objs.length := by
  obtain ⟨⟨o, i⟩, ho, hmem⟩ := List.mem_flatMap.mp hs
  obtain ⟨nm, hnm, rfl⟩ := List.mem_map.mp hmem
  obtain ⟨c, -, hc⟩ := List.mem_flatMap.mp hnm
  refine ⟨?_, (List.mem_zipIdx' ho).1⟩
  rw [cardSymbols] at hc
  split_ifs at hc with hesd
  · obtain ⟨k, -, hk⟩ := List.mem_filterMap.mp hc
    dsimp only at hk
    split_ifs at hk
    · exact ⟨_, (Option.some.inj hk).symm⟩
  · exact absurd hc List.not_mem_nil

/-- The names and offsets of a symbol table, in order. -/
theorem readSyms_at {n q : ℕ} (ss : List (List UInt8 × ℕ)) (hname : ∀ s ∈ ss, (∀ c ∈ s.1, c ≠ 0) ∧ s.1.length ≤ 63 ∧ s.1.length < n)
    (hoff : ∀ s ∈ ss, s.2 < 2 ^ 32) (k names : ℕ) (h₁ : At b (q + 4 + 4 * k) (ss.flatMap fun s => mvsPut32 s.2))
    (h₂ : At b names (ss.flatMap fun s => s.1 ++ [0x00])) :
    readSyms b n q ss.length k names = ss.map fun s => ⟨s.1, s.2⟩ := by
  induction ss generalizing k names with
  | nil => rfl
  | cons s ss ih =>
    obtain ⟨hzero, h63, hn⟩ := hname s List.mem_cons_self
    rw [List.flatMap_cons] at h₁ h₂
    have hstr := cString_at hzero hn h₂.left
    have hrest₁ := h₁.right
    have hrest₂ := h₂.right
    rw [mvsPut32_length, add_assoc _ (4 * k) 4] at hrest₁
    rw [List.length_append, List.length_singleton, ← add_assoc] at hrest₂
    have hih := ih (fun x hx => hname x (List.mem_cons_of_mem _ hx)) (fun x hx => hoff x (List.mem_cons_of_mem _ hx))
      (k + 1) _ hrest₁ hrest₂
    rw [List.length_cons, readSyms, hstr, List.take_of_length_le h63, be32_put32 (hoff s List.mem_cons_self) h₁.left, hih,
      List.map_cons]

end Strings

section Layout

variable {objs : List Objf} {bytes : List UInt8}

theorem pad_length (n : ℕ) : (pad n).length = n % 2 := by
  unfold pad
  split_ifs with h
  · exact h.symm
  · rw [List.length_nil]
    omega

/-- An archive that is written: its parts, and sizes that the headers can express. -/
theorem create_eq (h : create objs = some bytes) :
    bytes = magic ++ writeSymtab objs ++ writeLongNames objs ++ (writeMembers objs).flatten ∧
      symdata objs ≤ arSizeMax ∧ (longNames objs).length ≤ arSizeMax ∧ ∀ o ∈ objs, o.data.length ≤ arSizeMax := by
  rw [create] at h
  split_ifs at h with hbad hbig
  rw [not_or, not_or, not_lt, not_lt] at hbig
  refine ⟨(Option.some.inj h).symm, hbig.1, hbig.2.1, ?_⟩
  intro o ho
  by_contra hlt
  exact hbig.2.2 (List.any_eq_true.mpr ⟨o, ho, decide_eq_true (not_le.mp hlt)⟩)

theorem offsets_length (ss : List (List UInt8 × ℕ)) (f : List UInt8 × ℕ → ℕ) :
    (ss.flatMap fun s => mvsPut32 (f s)).length = 4 * ss.length := by
  induction ss with
  | nil => rfl
  | cons s ss ih =>
    rw [List.flatMap_cons, List.length_append, ih, mvsPut32_length, List.length_cons]
    ring

theorem writeSymtab_length (h : symdata objs ≤ arSizeMax) : (writeSymtab objs).length = symmember objs := by
  rw [writeSymtab, symmember]
  simp only [List.length_append, arHdr_length h, mvsPut32_length, offsets_length, pad_length]
  rw [symdata]
  omega

theorem writeLongNames_length (h : (longNames objs).length ≤ arSizeMax) : (writeLongNames objs).length = lnmember objs := by
  rw [writeLongNames, lnmember]
  split_ifs with h0
  · rfl
  · simp only [List.length_append, arHdr_length h, pad_length]

theorem lnoff_length (n : ℕ) (os : List Objf) : (lnoff n os).length = os.length := by
  induction os generalizing n with
  | nil => rfl
  | cons o os ih =>
    rw [lnoff]
    split_ifs
    · rw [List.length_cons, ih, List.length_cons]
    · rw [List.length_cons, ih, List.length_cons]

theorem writeMembers_length : (writeMembers objs).length = objs.length := by
  rw [writeMembers, List.length_map, List.length_zip, lnoff_length, min_self]

theorem writeMember_length {o : Objf} (h : o.data.length ≤ arSizeMax) (ln : Option ℕ) :
    (writeMember o ln).length = memberSize o := by
  rw [writeMember, memberSize]
  simp only [List.length_append, arHdr_length h, pad_length]

theorem writeMembers_lengths (h : ∀ o ∈ objs, o.data.length ≤ arSizeMax) :
    (writeMembers objs).map List.length = objs.map memberSize := by
  apply List.ext_getElem
  · rw [List.length_map, List.length_map, writeMembers_length]
  · intro i hi hi'
    rw [List.length_map] at hi'
    simp only [writeMembers, List.getElem_map, List.getElem_zip]
    exact writeMember_length (h _ (List.getElem_mem hi')) _

end Layout

section Archive

variable {objs : List Objf} {bytes : List UInt8} {b : Buffer}

theorem archive_parts (h : create objs = some bytes) (hb : At b 0 bytes) :
    At b 0 magic ∧ At b 8 (writeSymtab objs) ∧ At b (8 + symmember objs) (writeLongNames objs) ∧
      At b (8 + symmember objs + lnmember objs) (writeMembers objs).flatten := by
  obtain ⟨rfl, hsym, hln, -⟩ := create_eq h
  rw [at_append, at_append, at_append] at hb
  obtain ⟨⟨⟨hmagic, hs⟩, hl⟩, hm⟩ := hb
  have hmagicLen : magic.length = 8 := rfl
  rw [zero_add] at hs hl hm
  rw [List.length_append, hmagicLen, writeSymtab_length hsym] at hl
  rw [List.length_append, List.length_append, hmagicLen, writeSymtab_length hsym, writeLongNames_length hln] at hm
  exact ⟨hmagic, hs, hl, hm⟩

theorem objoff_lt (h : create objs = some bytes) {i : ℕ} (hi : i < objs.length) : objoff objs i < bytes.length := by
  obtain ⟨rfl, hsym, hln, hdata⟩ := create_eq h
  have hmagicLen : magic.length = 8 := rfl
  have htotal : ((writeMembers objs).map List.length).sum = (objs.map memberSize).sum := by
    rw [writeMembers_lengths hdata]
  have hsplit : (objs.map memberSize).sum = ((objs.take i).map memberSize).sum + ((objs.drop i).map memberSize).sum := by
    rw [← List.sum_append, ← List.map_append, List.take_append_drop]
  have hlast : memberSize objs[i] ≤ ((objs.drop i).map memberSize).sum := by
    rw [List.drop_eq_getElem_cons hi, List.map_cons, List.sum_cons]
    exact Nat.le_add_right _ _
  have hpos : 60 ≤ memberSize objs[i] := by
    rw [memberSize]
    omega
  rw [objoff, List.length_append, List.length_append, List.length_append, List.length_flatten, htotal, hmagicLen,
    writeSymtab_length hsym, writeLongNames_length hln]
  omega

/-- The member with its header stands at the offset that the symbol table has for it. -/
theorem member_at (h : create objs = some bytes) (hb : At b 0 bytes) {i : ℕ} (hi : i < objs.length) :
    ∃ ln, (objs[i], ln) ∈ objs.zip (lnoff 0 objs) ∧ At b (objoff objs i) (writeMember objs[i] ln) := by
  obtain ⟨-, -, -, hdata⟩ := create_eq h
  obtain ⟨-, -, -, hmem⟩ := archive_parts h hb
  have hi' : i < (writeMembers objs).length := by rwa [writeMembers_length]
  have hat := hmem.flatten hi'
  rw [List.map_take, writeMembers_lengths hdata, ← List.map_take] at hat
  have hi'' : i < (objs.zip (lnoff 0 objs)).length := by rwa [List.length_zip, lnoff_length, min_self]
  refine ⟨(lnoff 0 objs).get ⟨i, by rwa [lnoff_length]⟩, ?_, ?_⟩
  · have hzip := List.getElem_mem hi''
    rwa [List.getElem_zip] at hzip
  simpa only [writeMembers, List.getElem_map, List.getElem_zip, objoff, List.get_eq_getElem] using hat

theorem symtab_parts (h : create objs = some bytes) (hb : At b 0 bytes) : At b 8 (arHdr [0x2F] (symdata objs)) ∧
    At b 68 (mvsPut32 (symbols objs).length) ∧ At b 72 ((symbols objs).flatMap fun s => mvsPut32 (objoff objs s.2)) ∧
      At b (72 + 4 * (symbols objs).length) (stringtab objs) := by
  obtain ⟨-, hsym, -, -⟩ := create_eq h
  obtain ⟨-, hs, -, -⟩ := archive_parts h hb
  rw [writeSymtab, at_append, at_append, at_append, at_append] at hs
  obtain ⟨⟨⟨⟨hhdr, hcnt⟩, hoffs⟩, hstr⟩, -⟩ := hs
  rw [arHdr_length hsym] at hcnt
  rw [List.length_append, arHdr_length hsym, mvsPut32_length] at hoffs
  rw [List.length_append, List.length_append, arHdr_length hsym, mvsPut32_length, offsets_length] at hstr
  refine ⟨hhdr, hcnt, hoffs, ?_⟩
  rwa [show 8 + (60 + 4 + 4 * (symbols objs).length) = 72 + 4 * (symbols objs).length by omega] at hstr

theorem loadArchive_sym (h : create objs = some bytes) (hlen : bytes.length < 2 ^ 32) (hb : At b 0 bytes) :
    ∃ ar, loadArchive b bytes.length = some ar ∧
      ar.sym = (symbols objs).map fun s => ⟨s.1, objoff objs s.2⟩ := by
  obtain ⟨hbytes, hsym, -, -⟩ := create_eq h
  obtain ⟨hmagic, hs, -, -⟩ := archive_parts h hb
  obtain ⟨hhdr, hcnt, hoffs, hstr⟩ := symtab_parts h hb
  have hfield := arHdr_name hsym hhdr
  have h8 : b 8 = 0x2F := hfield 0 (by decide)
  have h9 : b 9 = 0x20 := hfield 1 (by decide)
  have hread : (List.range 8).map b = magic := by
    have hr := hmagic.map_range
    simp only [zero_add] at hr
    exact hr
  have hsize : 8 + symmember objs ≤ bytes.length := by
    rw [hbytes]
    simp only [List.length_append, writeSymtab_length hsym]
    rw [show magic.length = 8 from rfl]
    omega
  have hn : (symbols objs).length < 2 ^ 32 ∧ 68 ≤ bytes.length := by
    rw [symmember, symdata] at hsize
    omega
  rw [loadArchive, if_neg (by rw [hread]; simp; omega), h8, h9, if_pos ⟨rfl, rfl⟩, be32_put32 hn.1 hcnt]
  refine ⟨_, rfl, ?_⟩
  have hsyms := readSyms_at (b := b) (n := bytes.length) (q := 68)
    ((symbols objs).map fun s => (s.1, objoff objs s.2)) ?_ ?_ 0 (68 + 4 + 4 * (symbols objs).length) ?_ ?_
  · rw [List.length_map, List.map_map] at hsyms
    exact hsyms
  · intro x hx
    obtain ⟨s, hs, rfl⟩ := List.mem_map.mp hx
    obtain ⟨⟨nm, hnm⟩, -⟩ := symbols_name hs
    have h8' := mvsNm_length nm
    refine ⟨?_, ?_, ?_⟩
    · intro c hc
      rw [hnm] at hc
      obtain ⟨x, -, rfl⟩ := mem_mvsNm hc
      exact mvsE2aPr_ne_zero x
    · rw [hnm]
      omega
    · rw [hnm]
      omega
  · intro x hx
    obtain ⟨s, hs, rfl⟩ := List.mem_map.mp hx
    exact (objoff_lt h (symbols_name hs).2).trans hlen
  · rw [List.flatMap_map]
    exact hoffs
  · rw [List.flatMap_map]
    exact hstr

/-- What the archiver writes, the linker reads: the symbols in their order, each with the offset of
the header of its member, and at that offset the bytes of the member. -/
theorem archive_read_back (h : create objs = some bytes) (hlen : bytes.length < 2 ^ 32) (hb : At b 0 bytes) :
    ∃ ar, loadArchive b bytes.length = some ar ∧
      ar.sym = ((symbols objs).map fun s => ⟨s.1, objoff objs s.2⟩) ∧
      ∀ i (hi : i < objs.length), (∃ nf, At b (objoff objs i) (arHdr nf (objs.get ⟨i, hi⟩).data.length)) ∧
        memberBytes b (objoff objs i) = (objs.get ⟨i, hi⟩).data := by
  obtain ⟨ar, har, hsym⟩ := loadArchive_sym h hlen hb
  obtain ⟨-, -, -, hdata⟩ := create_eq h
  refine ⟨ar, har, hsym, ?_⟩
  intro i hi
  obtain ⟨ln, -, hat⟩ := member_at h hb hi
  have hsize := hdata _ (List.getElem_mem hi)
  rw [List.get_eq_getElem]
  exact ⟨⟨_, hat.left.left⟩, memberBytes_at hsize hat.left⟩

end Archive

def cardOf (l : List UInt8) : List UInt8 := l ++ List.replicate (80 - l.length) 0x40

/-- The file `a.o` with one control section, A. -/
def oneObject : Objf where
  member := [0x61, 0x2E, 0x6F]
  data := cardOf (Ld370.Deck.esdCard 1 [Ld370.Deck.esdItem (letterName 0xC1) 0x00 0 8]) ++ cardOf Ld370.Deck.endCard

theorem oneObject_created : create [oneObject] = some ((create [oneObject]).getD []) ∧
    ((create [oneObject]).getD []).length = 298 := by
  have hsome : (create [oneObject]).isSome = true := by decide +kernel
  obtain ⟨bytes, hbytes⟩ := Option.isSome_iff_exists.mp hsome
  refine ⟨by rw [hbytes]; rfl, by decide +kernel⟩

theorem oneObject_read_back : symbols [oneObject] = [([0x41], 0)] ∧ ∃ ar,
    loadArchive (ofBytes ((create [oneObject]).getD [])) 298 = some ar ∧ ar.sym = [⟨[0x41], objoff [oneObject] 0⟩] ∧
      memberBytes (ofBytes ((create [oneObject]).getD [])) (objoff [oneObject] 0) = oneObject.data := by
  have hsym : symbols [oneObject] = [([0x41], 0)] := by decide +kernel
  obtain ⟨hcreate, hlen⟩ := oneObject_created
  have hat : At (ofBytes ((create [oneObject]).getD [])) 0 ((create [oneObject]).getD []) := by
    intro k hk
    rw [zero_add, ofBytes, List.getD_eq_getElem?_getD, List.getElem?_eq_getElem hk]
    rfl
  obtain ⟨ar, har, hs, hm⟩ := archive_read_back hcreate (by rw [hlen]; decide) hat
  rw [hlen] at har
  rw [hsym] at hs
  exact ⟨hsym, ar, har, hs, (hm 0 (by decide)).2⟩

section Walk

variable {b : Buffer}

/-- A member of the archive is told from the symbol table and the long names by its name field. -/
theorem memberField_head {o : Objf} (hne : o.member ≠ []) (hslash : ∀ c ∈ o.member, c ≠ 0x2F) (ln : Option ℕ) {q : ℕ}
    (h : At b q (field 16 (memberField o ln))) : ¬ (b q = 0x2F ∧ b (q + 1) = 0x2F) ∧
      ¬ (b q = 0x2F ∧ (b (q + 1) = 0x20 ∨ b (q + 1) = 0x60)) := by
  cases ln with
  | none =>
    obtain ⟨c, t, hct⟩ := List.exists_cons_of_ne_nil hne
    have hq : b q = c := by
      have h0 := h 0 (by rw [field_length]; decide)
      simpa [field, memberField, hct] using h0
    have hc := hslash c (by rw [hct]; exact List.mem_cons_self)
    rw [hq]
    exact ⟨fun hx => hc hx.1, fun hx => hc hx.1⟩
  | some n =>
    obtain ⟨d, t, hdt⟩ := List.exists_cons_of_ne_nil (decimal_ne_nil n)
    have hd := decimal_digit (n := n) (b := d) (by rw [hdt]; exact List.mem_cons_self)
    have hq : b (q + 1) = d := by
      have h1 := h 1 (by rw [field_length]; decide)
      simpa [field, memberField, hdt] using h1
    rw [hq]
    refine ⟨?_, ?_⟩
    · rintro ⟨-, rfl⟩
      exact absurd hd (by decide)
    · rintro ⟨-, rfl | rfl⟩
      · exact absurd hd (by decide)
      · exact absurd hd (by decide)

/-- Where the headers of members stand, the first of them at `q`. -/
def memberOffsets (q : ℕ) : List Objf → List ℕ
  | [] => []
  | o :: os => q :: memberOffsets (q + memberSize o) os

theorem memberOffsets_eq (q : ℕ) (os : List Objf) :
    memberOffsets q os = (List.range os.length).map fun i => q + ((os.take i).map memberSize).sum := by
  induction os generalizing q with
  | nil => rfl
  | cons o os ih =>
    rw [memberOffsets, ih, List.length_cons, List.range_succ_eq_map, List.map_cons, List.map_map]
    congr 1
    apply List.map_congr_left
    intro i _
    simp only [Function.comp, List.take_succ_cons, List.map_cons, List.sum_cons]
    omega

theorem memberOffsets_objoff (objs : List Objf) :
    memberOffsets (8 + symmember objs + lnmember objs) objs = (List.range objs.length).map (objoff objs) :=
  memberOffsets_eq _ _

/-- Where the long names stand, and how long they are. -/
def longTable (objs : List Objf) : Option (ℕ × ℕ) :=
  if (longNames objs).length = 0 then none else some (8 + symmember objs + 60, (longNames objs).length)

theorem readMems_members (ms : List (Objf × Option ℕ)) (hname : ∀ m ∈ ms, m.1.member ≠ [] ∧ ∀ c ∈ m.1.member, c ≠ 0x2F)
    (hdata : ∀ m ∈ ms, m.1.data.length ≤ arSizeMax) {n fuel q : ℕ} (ln : Option (ℕ × ℕ)) (hfuel : ms.length < fuel)
    (h : At b q (ms.map fun m => writeMember m.1 m.2).flatten) (hn : n = q + (ms.map fun m => memberSize m.1).sum) :
    readMems b n fuel q ln = (memberOffsets q (ms.map Prod.fst)).map fun q => ⟨Ld370.memberName b n q ln, q⟩ := by
  induction ms generalizing q fuel with
  | nil =>
    obtain ⟨fuel, rfl⟩ := Nat.exists_eq_add_one_of_ne_zero (Nat.ne_of_gt hfuel)
    rw [readMems, if_neg (by simp at hn; omega)]
    rfl
  | cons m ms ih =>
    obtain ⟨fuel, rfl⟩ := Nat.exists_eq_add_one_of_ne_zero (Nat.ne_of_gt (Nat.zero_lt_of_lt hfuel))
    obtain ⟨hne, hslash⟩ := hname m List.mem_cons_self
    have hsize := hdata m List.mem_cons_self
    rw [List.map_cons, List.flatten_cons] at h
    have hrest := h.right
    rw [writeMember_length hsize] at hrest
    have hhdr : At b q (arHdr (memberField m.1 m.2) m.1.data.length) := h.left.left.left
    obtain ⟨hno, hno'⟩ := memberField_head hne hslash m.2 (arHdr_name hsize hhdr)
    rw [List.map_cons, List.sum_cons] at hn
    have hms : q + 60 + m.1.data.length + m.1.data.length % 2 = q + memberSize m.1 := by
      rw [memberSize]
      omega
    rw [readMems, if_pos (by rw [memberSize] at hn; omega)]
    dsimp only
    rw [if_neg hno, if_neg hno', arHdr_size hsize hhdr, hms,
      ih (fun x hx => hname x (List.mem_cons_of_mem _ hx)) (fun x hx => hdata x (List.mem_cons_of_mem _ hx))
        (by simpa using hfuel) hrest (by omega)]
    rw [List.map_cons, memberOffsets, List.map_cons]

theorem zip_lnoff_fst (objs : List Objf) : (objs.zip (lnoff 0 objs)).map Prod.fst = objs :=
  List.map_fst_zip (by rw [lnoff_length])

theorem archive_length {objs : List Objf} {bytes : List UInt8} (h : create objs = some bytes) :
    bytes.length = 8 + symmember objs + lnmember objs + (objs.map memberSize).sum := by
  obtain ⟨hbytes, hsym, hln, hdata⟩ := create_eq h
  rw [hbytes, List.length_append, List.length_append, List.length_append, List.length_flatten, writeMembers_lengths hdata,
    writeSymtab_length hsym, writeLongNames_length hln]
  rfl

theorem archive_members_lt {objs : List Objf} {bytes : List UInt8} (h : create objs = some bytes) :
    objs.length + 2 < bytes.length := by
  have hlen := archive_length h
  have hcount : objs.length ≤ (objs.map memberSize).sum := by
    have := List.card_nsmul_le_sum (objs.map memberSize) 1 fun x hx => by
      obtain ⟨o, -, rfl⟩ := List.mem_map.mp hx
      rw [memberSize]
      omega
    simpa using this
  rw [symmember] at hlen
  omega

/-- The walk over the headers finds every member, and nothing else. -/
theorem loadArchive_mem {objs : List Objf} {bytes : List UInt8} (h : create objs = some bytes) (hb : At b 0 bytes)
    (hname : ∀ o ∈ objs, o.member ≠ [] ∧ ∀ c ∈ o.member, c ≠ 0x2F) {ar : Ld370.Archive}
    (har : loadArchive b bytes.length = some ar) : ar.mem = (List.range objs.length).map fun i =>
      ⟨Ld370.memberName b bytes.length (objoff objs i) (longTable objs), objoff objs i⟩ := by
  obtain ⟨hbytes, hsym, hln, hdata⟩ := create_eq h
  obtain ⟨-, -, hl, hm⟩ := archive_parts h hb
  obtain ⟨hhdr, -, -, -⟩ := symtab_parts h hb
  have hmem : ∀ m ∈ objs.zip (lnoff 0 objs), m.1 ∈ objs := by
    intro m hm
    rw [← zip_lnoff_fst objs]
    exact List.mem_map_of_mem hm
  have hsum : ((objs.zip (lnoff 0 objs)).map fun m => memberSize m.1).sum = (objs.map memberSize).sum := by
    conv_rhs => rw [← zip_lnoff_fst objs, List.map_map]
    rfl
  have hlen := archive_length h
  have hfuel := archive_members_lt h
  obtain ⟨fuel, hf⟩ : ∃ fuel, bytes.length = fuel + 2 := ⟨bytes.length - 2, by omega⟩
  -- the members, wherever the walk has come from
  have hwalk : ∀ fuel ln, objs.length < fuel → readMems b bytes.length fuel (8 + symmember objs + lnmember objs) ln =
      (List.range objs.length).map fun i => ⟨Ld370.memberName b bytes.length (objoff objs i) ln, objoff objs i⟩ := by
    intro fuel ln hfuel
    rw [readMems_members (objs.zip (lnoff 0 objs)) (fun m hm => hname m.1 (hmem m hm)) (fun m hm => hdata m.1 (hmem m hm)) ln
      (by rwa [List.length_zip, lnoff_length, min_self]) hm (by rw [hsum]; exact hlen)]
    rw [zip_lnoff_fst, memberOffsets_objoff, List.map_map]
    rfl
  have hfield := arHdr_name hsym hhdr
  have h8 : b 8 = 0x2F := hfield 0 (by decide)
  have h9 : b 9 = 0x20 := hfield 1 (by decide)
  have hsymsize : 8 + 60 + symdata objs + symdata objs % 2 = 8 + symmember objs := by
    rw [symmember]
    omega
  have hstep : readMems b bytes.length bytes.length 8 none = readMems b bytes.length (fuel + 1) (8 + symmember objs) none := by
    conv_lhs => rw [hf, readMems]
    rw [← hf, if_pos (by rw [symmember] at hlen; omega)]
    dsimp only
    rw [arHdr_size hsym hhdr, h8, h9, if_neg (by decide), if_pos (by decide), hsymsize]
  have har' : ar.mem = readMems b bytes.length bytes.length 8 none := by
    rw [loadArchive] at har
    split_ifs at har
    all_goals
      rw [← Option.some.inj har]
  rw [har', hstep]
  by_cases h0 : (longNames objs).length = 0
  · have hz : lnmember objs = 0 := if_pos h0
    have hw := hwalk (fuel + 1) none (by omega)
    rw [longTable, if_pos h0]
    rwa [hz, add_zero] at hw
  · rw [writeLongNames, if_neg h0] at hl
    have hlhdr := hl.left.left
    have hlfield := arHdr_name hln hlhdr
    have hl0 : b (8 + symmember objs) = 0x2F := hlfield 0 (by decide)
    have hl1 : b (8 + symmember objs + 1) = 0x2F := hlfield 1 (by decide)
    have hsize : 8 + symmember objs + 60 + (longNames objs).length + (longNames objs).length % 2 =
        8 + symmember objs + lnmember objs := by
      rw [lnmember, if_neg h0]
      omega
    rw [readMems, if_pos (by rw [lnmember, if_neg h0] at hlen; omega)]
    dsimp only
    rw [hl0, hl1, if_pos ⟨rfl, rfl⟩, arHdr_size hln hlhdr, hsize]
    rw [longTable, if_neg h0]
    exact hwalk fuel _ (by omega)

end Walk

end Ar370

end Cc370
