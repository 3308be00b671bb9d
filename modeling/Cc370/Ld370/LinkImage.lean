import Cc370.Ld370.BarePack
import Cc370.Ld370.Repack

namespace Cc370.Ld370

open Lmod BigEndian

section Pack

theorem toChunks_ne_nil {α : Type} {n : ℕ} (hn : 0 < n) {xs : List α} (h : xs ≠ []) : xs.toChunks n ≠ [] := by
  intro hnil
  have hflat := toChunks_flatten hn xs
  rw [hnil] at hflat
  exact h hflat.symm

/-- A member with a symbol begins with the first record of its CESD. -/
theorem member_begins (L : Layout) (opt : Options) (ident : LkedIdent) (h : L.G ≠ []) :
    cesdRecords L.G ≠ [] ∧ ∃ x rest, L.member opt ident = [0x20, 0x00, 0x00, 0x00, 0x00, 0x01] ++ mvsPut16 x ++ rest := by
  have hlen : (byGid L.G).length = L.G.length := by simp [byGid]
  have hne : byGid L.G ≠ [] := by
    intro hnil
    rw [hnil] at hlen
    exact h (List.eq_nil_of_length_eq_zero hlen.symm)
  have hrecords := cesdRecords_eq L.G
  cases hchunks : (byGid L.G).toChunks 15 with
  | nil => exact absurd hchunks (toChunks_ne_nil (by decide) hne)
  | cons c cs =>
    rw [hchunks, List.zipIdx_cons, List.map_cons] at hrecords
    constructor
    · rw [hrecords]
      exact List.cons_ne_nil _ _
    · refine ⟨16 * c.length, c.flatMap (cesdEntry L.G) ++ ((cs.zipIdx 1).map (cesdRecord L.G)).flatten ++ spzapIdr ++ lkedIdr ident ++
        ((L.textRecords opt).flatMap fun r => r.control ++ r.text) ++ (rldRecords L.rldItems).flatten, ?_⟩
      rw [Layout.member, hrecords, List.flatten_cons, cesdRecord]
      simp only [List.append_assoc]
      rfl

theorem member_any_cesd (L : Layout) (opt : Options) (ident : LkedIdent) (h : cesdRecords L.G ≠ []) :
    ((walkMember (ofBytes (L.member opt ident)) (L.member opt ident).length).items.any fun r => r.kind = .cesd ∨ r.kind = .ctl) = true := by
  have hlead := member_leading L opt ident
  cases hrec : cesdRecords L.G with
  | nil => exact absurd hrec h
  | cons x xs =>
    rw [hrec, List.map_cons, blockItems, Block.items] at hlead
    generalize (walkMember (ofBytes (L.member opt ident)) (L.member opt ident).length).items = items at hlead ⊢
    have hsub := (List.takeWhile_sublist (l := items) fun r => decide (r.kind = .sym ∨ r.kind = .cesd)).subset
    rw [hlead] at hsub
    rw [List.any_eq_true]
    exact ⟨_, hsub List.mem_cons_self, rfl⟩

/-- The member of a link is packed as a bare one. -/
theorem packMember_linked (L : Layout) (opt : Options) (ident : LkedIdent) (h : L.G ≠ []) (name : Name) (entryname : Option Name) :
    packMember (L.member opt ident) name entryname = bareMember (L.member opt ident) name entryname := by
  obtain ⟨hcesd, x, rest, hbytes⟩ := member_begins L opt ident h
  have hany := member_any_cesd L opt ident hcesd
  have hnot : packNotMember (L.member opt ident) = false := by
    rw [hbytes]
    simp [packNotMember, ofBytes, mvsPut16]
  have hload : isUnload (L.member opt ident) = false := by
    rw [hbytes]
    simp [isUnload, ofBytes]
  have hplausible : lmodPlausible (L.member opt ident) = true := by
    unfold lmodPlausible
    dsimp only
    rw [hany, hbytes]
    simp [ofBytes]
  rw [packMember, hnot, hload, hplausible]
  rfl

end Pack

section Image

variable {a : Attributes} {blksize : ℕ} {name : Name} {bytes : List UInt8} {v w modlen : ℤ} {u : Unload} {blk : List Lmblock}

/-- A member without aliases, as the link and `--pack` have it before it is written. -/
def plainMember (name : Name) (bytes : List UInt8) (entry modlen : ℤ) : Umember := ⟨name, bytes, entry, modlen, none, []⟩

def plainPlaced (name : Name) (bytes : List UInt8) (entry modlen : ℤ) (blk : List Lmblock) : Uplaced :=
  placeMember (trackCap 1) .start (plainMember name bytes entry modlen) blk

theorem writeUnloadMem_plain (hsplit : splitMember bytes = some blk) (hfit : ∀ x ∈ blk, x.len ≤ blksize) :
    writeUnloadMem a blksize [plainMember name bytes v modlen] = some
      { header := mvsUdebxExtent (Slices.put (Slices.put mvsUnloadEnvHdr 6 (mvsPut16 blksize)) 14 (mvsPut16 (12 + 8 + 0 + blksize : ℕ)))
          ((Tracks.after mvsTrkOvh3350 (trackCap 1) .start (recordLens blk)).tt + 1)
        directory := [dirBlock a true [⟨name, plainPlaced name bytes v modlen blk, none⟩]]
        data := (plainPlaced name bytes v modlen blk).ckds } := by
  have hmapM : ([plainMember name bytes v modlen].mapM fun m => (splitMember m.bytes).map fun blk => (m, blk)) =
      some [(plainMember name bytes v modlen, blk)] := by
    simp [plainMember, hsplit]
  have hany : ([(plainMember name bytes v modlen, blk)].any fun m => m.2.any fun b => decide (blksize < b.len)) = false := by
    simpa using hfit
  rw [writeUnloadMem, hmapM, Option.bind_some, emitUnload]
  have hsort : ([(plainMember name bytes v modlen, blk)].insertionSort fun m n => nameLe m.1.name n.1.name) = [(plainMember name bytes v modlen, blk)] := rfl
  rw [hsort]
  dsimp only
  rw [hany]
  simp [dirLayout, placeMembers, plainPlaced, dents, plainMember, placeMember, dirGroups, Dent.len, directory]

theorem dent_bytes (p : Uplaced) : Dent.bytes a ⟨name, p, none⟩ = (name.toList ++ mvsPut16 p.first.1 ++ [.ofNat p.first.2, 0x2C]) ++ buildUserdata a p := by
  simp [Dent.bytes]

theorem dirBlock_single (d : Dent) : dirBlock a true [d] =
    (mvsPutCount 0 0 0 8 256 ++ List.replicate 8 0xFF ++ mvsPut16 (2 + d.len + 12 : ℕ)) ++
      (d.bytes a ++ (List.replicate 8 0xFF ++ List.replicate (256 - (2 + ((d.bytes a).length + 8))) 0x00)) := by
  simp [dirBlock, dirBody]

theorem userdata_plain (name : Name) (bytes : List UInt8) (v modlen : ℤ) (blk : List Lmblock) :
    buildUserdata a (plainPlaced name bytes v modlen blk) = userdataHead a (plainPlaced name bytes v modlen blk) ++
      ((if 0 ≤ v then mvsPut24 v else [0x00, 0x00, 0x00]) ++ ((unloadUserdata.drop 18).take 3 ++ [0x01, .ofNat a.apfcode, 0x00])) := by
  rw [← List.append_assoc, ← List.append_assoc]
  rfl

theorem userdata_plain_length (v modlen : ℤ) : (buildUserdata a (plainPlaced name bytes v modlen blk)).length = 24 := by
  rw [userdata_plain, List.length_append, userdataHead_length]
  split_ifs
  · rfl
  · rfl

/-- Two images of one member are the same exactly when their user data are. -/
theorem image_eq_iff (h : writeUnloadMem a blksize [plainMember name bytes v modlen] = some u) (w modlen' : ℤ) :
    ∃ blk, splitMember bytes = some blk ∧ (writeUnloadMem a blksize [plainMember name bytes w modlen'] = some u ↔
      buildUserdata a (plainPlaced name bytes w modlen' blk) = buildUserdata a (plainPlaced name bytes v modlen blk)) := by
  obtain ⟨blk, hsplit, hfit, -⟩ := writeUnloadMem_single h
  have hsplit' : splitMember bytes = some blk := hsplit
  refine ⟨blk, hsplit, ?_⟩
  have hblock : dirBlock a true [⟨name, plainPlaced name bytes w modlen' blk, none⟩] =
      dirBlock a true [⟨name, plainPlaced name bytes v modlen blk, none⟩] ↔
        buildUserdata a (plainPlaced name bytes w modlen' blk) = buildUserdata a (plainPlaced name bytes v modlen blk) := by
    have hfirst : (plainPlaced name bytes w modlen' blk).first = (plainPlaced name bytes v modlen blk).first := rfl
    have hlen : ∀ v modlen, (Dent.bytes a ⟨name, plainPlaced name bytes v modlen blk, none⟩).length = 36 := by
      intro v modlen
      simp [dent_bytes, userdata_plain_length]
    have hdent : ∀ p, Dent.len ⟨name, p, none⟩ = 36 := fun _ => rfl
    rw [dirBlock_single, dirBlock_single, hlen, hlen, hdent, hdent, List.append_cancel_left_eq, List.append_cancel_right_eq, dent_bytes, dent_bytes,
      hfirst, List.append_cancel_left_eq]
  rw [← h, writeUnloadMem_plain hsplit' hfit, writeUnloadMem_plain hsplit' hfit, Option.some.injEq, ← hblock]
  constructor
  · intro heq
    exact List.singleton_injective (congrArg Unload.directory heq)
  · intro heq
    rw [heq]
    rfl

/-- The second byte of the attributes, from the facts it tells. -/
def attributeBits (rld org0 refr entry0 : Bool) : UInt8 :=
  let atr : UInt8 := (0xF2 &&& ~~~0x70) ||| (if rld then 0x00 else 0x10) ||| (if org0 then 0x40 else 0x00) ||| (if entry0 then 0x20 else 0x00)
  if refr then atr ||| 0x01 else atr

theorem attributeBits_inj : ∀ rld org0 refr x y, attributeBits rld org0 refr x = attributeBits rld org0 refr y ↔ x = y := by
  decide

/-- The attributes say of the entry point only whether it is zero. -/
theorem attributes_eq_iff : (commandAttributes a (recordAttributes (plainMember name bytes w modlen) blk (0x03, 0xF2))).2 =
    (commandAttributes a (recordAttributes (plainMember name bytes v modlen) blk (0x03, 0xF2))).2 ↔ (w = 0 ↔ v = 0) := by
  have hbits : ∀ v, (commandAttributes a (recordAttributes (plainMember name bytes v modlen) blk (0x03, 0xF2))).2 =
      attributeBits (blk.any (Lmblock.hasRld bytes)) (textOrigin bytes blk = 0) a.setRefr (v = 0) := by
    intro v
    simp only [attributeBits, decide_eq_true_eq]
    rfl
  rw [hbits, hbits, attributeBits_inj, decide_eq_decide]

theorem userdataHead_eq_iff (hmod : 0 ≤ modlen) : userdataHead a (plainPlaced name bytes w modlen blk) =
    userdataHead a (plainPlaced name bytes v modlen blk) ↔ (w = 0 ↔ v = 0) := by
  have hhead : ∀ v, userdataHead a (plainPlaced name bytes v modlen blk) =
      let p := plainPlaced name bytes 0 modlen blk
      let atr := commandAttributes a (recordAttributes (plainMember name bytes v modlen) blk (0x03, 0xF2))
      (mvsPut16 p.text.1 ++ [.ofNat p.text.2] ++ (unloadUserdata.drop 3).take 5) ++
        ((commandAttributes a (recordAttributes (plainMember name bytes 0 modlen) blk (0x03, 0xF2))).1 :: atr.2 ::
          (mvsPut24 modlen ++ mvsPut16 (firstTextLen p.mem blk))) := by
    intro v
    have hm : (plainPlaced name bytes v modlen blk).mem.modlen = modlen := rfl
    unfold userdataHead
    simp only [hm, if_pos hmod, List.append_assoc]
    rfl
  rw [hhead, hhead]
  dsimp only
  rw [List.append_cancel_left_eq, List.cons.injEq, List.cons.injEq, attributes_eq_iff]
  simp

theorem mvsPut24_emod (v : ℤ) : mvsPut24 (v % 16777216) = mvsPut24 v := by
  have hbyte : ∀ x y : ℤ, x % 256 = y % 256 → UInt8.ofInt x = UInt8.ofInt y := by
    intro x y h
    apply UInt8.toNat_inj.mp
    zify
    rw [toNat_ofInt, toNat_ofInt, h]
  rw [mvsPut24, mvsPut24, hbyte (v % 16777216 / 65536) (v / 65536) (by omega), hbyte (v % 16777216 / 256) (v / 256) (by omega),
    hbyte (v % 16777216) v (by omega)]

theorem mvsPut24_eq_zero {v : ℤ} (h0 : 0 ≤ v) (h1 : v < 2 ^ 24) (h : mvsPut24 v = [0x00, 0x00, 0x00]) : v = 0 := by
  have hback := mvsBe24_put24 h0 h1 [] []
  rw [h] at hback
  exact hback.symm

/-- The entry point of the link and the three bytes of it give the same user data. -/
theorem userdata_eq_iff (hmod : 0 ≤ modlen) : buildUserdata a (plainPlaced name bytes (v % 16777216) modlen blk) =
    buildUserdata a (plainPlaced name bytes v modlen blk) ↔ 0 ≤ v ∧ (v % 16777216 = 0 → v = 0) := by
  have hhead : userdataHead a (plainPlaced name bytes (v % 16777216) modlen blk) = userdataHead a (plainPlaced name bytes v modlen blk) ↔
      (v % 16777216 = 0 ↔ v = 0) := userdataHead_eq_iff hmod
  have hpos : 0 ≤ v % 16777216 := by omega
  rw [userdata_plain, userdata_plain, if_pos hpos, mvsPut24_emod]
  constructor
  · intro h
    obtain ⟨hh, ht⟩ := List.append_inj h (by rw [userdataHead_length, userdataHead_length])
    have hzero := hhead.mp hh
    refine ⟨?_, hzero.mp⟩
    by_contra hneg
    rw [if_neg hneg, List.append_cancel_right_eq, ← mvsPut24_emod] at ht
    have h0 := hzero.mp (mvsPut24_eq_zero hpos (by omega) ht)
    omega
  · rintro ⟨h0, hzero⟩
    rw [if_pos h0, hhead.mpr ⟨hzero, fun hv => by omega⟩]

end Image

section Link

variable {ds : List Deck} {opt : Options} {L : Layout} {E : Name} {v : ℤ} (a : Attributes) (blksize : ℕ) (name : Name) (ident : LkedIdent)

/-- The image that the link itself writes. -/
def linkImage (L : Layout) (opt : Options) (entry : ℤ) : Option Unload :=
  writeUnloadMem a blksize [plainMember name (L.member opt ident) entry L.modlen]

/-- The image of the bare member packed with `--pack`. -/
def packImage (bytes : List UInt8) (entryname : Option Name) : Option Unload :=
  (packMember bytes name entryname).bind fun m => writeUnloadMem a blksize [m]

/-- The bare member is packed to the image of the link, unless the entry point is one that three bytes make zero. -/
theorem packImage_eq_iff (hL : linkLayout opt (ds.map parseObject) = some L) (hE : opt.entryname = some E)
    (hone : (definitionsOf L.G E).length = 1) (hv : findSymbol L.G E = some v) (hs : SectionsStand (ds.map parseObject)) (hb : SectionsBelow L)
    {u : Unload} (hu : linkImage a blksize name ident L opt v = some u) :
    packImage a blksize name (L.member opt ident) opt.entryname = some u ↔ 0 ≤ v ∧ (v % 16777216 = 0 → v = 0) := by
  obtain ⟨rfl, -⟩ := linkLayout_some hL
  have hne : (linked (ds.map parseObject)).G ≠ [] := by
    intro hnil
    rw [hnil] at hone
    exact absurd hone (by simp [definitionsOf])
  have hmember : packMember ((linked (ds.map parseObject)).member opt ident) name opt.entryname =
      some (plainMember name ((linked (ds.map parseObject)).member opt ident) (v % 16777216) (linked (ds.map parseObject)).modlen) := by
    rw [hE, packMember_linked _ opt ident hne, bareMember, bareEntry_linked hs hone hv, memberModlen_linked hs hb]
    rfl
  obtain ⟨blk, -, himage⟩ := image_eq_iff hu (v % 16777216) (linked (ds.map parseObject)).modlen
  rw [packImage, hmember, Option.bind_some, himage]
  obtain ⟨R, hR, hmod, -⟩ := modlen_reached hs
  exact userdata_eq_iff (hmod ▸ hR.trans (roundup8_le R))

end Link

theorem twoSections_stand : SectionsStand ([twoSections].map parseObject) := by
  have hitems : liveItems ([twoSections].map parseObject) =
      [.sect 0 1 ⟨letterName 0xC1, .sd, 0, 8⟩, .sect 0 2 ⟨letterName 0xC2, .sd, 8, 4⟩] := by decide +kernel
  rintro q x r hsplit
  rw [hitems] at hsplit
  have hpc : ∀ y ∈ q, y.type ≠ .pc := by
    intro y hy
    have hin : y ∈ q ++ x :: r := List.mem_append_left _ hy
    rw [← hsplit] at hin
    fin_cases hin <;> decide
  have hx : x ∈ q ++ x :: r := by simp
  rw [← hsplit] at hx
  have hfirst : ∀ n y, firstEntry q n = some y → y.type ≠ .pc := fun n y hy => hpc y (List.mem_of_find?_eq_some hy)
  fin_cases hx
  · rintro ⟨-, y, hy, ht⟩
    exact hfirst _ y hy ht
  · rintro ⟨-, y, hy, ht⟩
    exact hfirst _ y hy ht

theorem twoSections_packImage : ∃ L u, linkLayout ⟨false, false, 15040, some (letterName 0xC1)⟩ ([twoSections].map parseObject) = some L ∧
    linkImage ⟨0, false, false, false, false, false⟩ 15040 (letterName 0xC1) (Vector.replicate 19 0) L ⟨false, false, 15040, some (letterName 0xC1)⟩ 0 = some u ∧
    packImage ⟨0, false, false, false, false, false⟩ 15040 (letterName 0xC1) (L.member ⟨false, false, 15040, some (letterName 0xC1)⟩ (Vector.replicate 19 0))
      (some (letterName 0xC1)) = some u := by
  obtain ⟨L, hL⟩ : ∃ L, linkLayout ⟨false, false, 15040, some (letterName 0xC1)⟩ ([twoSections].map parseObject) = some L :=
    Option.isSome_iff_exists.mp (by decide +kernel)
  have hlinked := (linkLayout_some hL).1
  obtain ⟨u, hu⟩ : ∃ u, linkImage ⟨0, false, false, false, false, false⟩ 15040 (letterName 0xC1) (Vector.replicate 19 0) L
      ⟨false, false, 15040, some (letterName 0xC1)⟩ 0 = some u := by
    rw [hlinked]
    exact Option.isSome_iff_exists.mp (by decide +kernel)
  refine ⟨L, u, hL, hu, ?_⟩
  refine (packImage_eq_iff (v := 0) _ _ _ _ hL rfl ?_ ?_ twoSections_stand ?_ hu).mpr ⟨le_rfl, fun _ => rfl⟩
  · rw [hlinked]
    decide +kernel
  · rw [hlinked]
    decide +kernel
  · rw [hlinked]
    intro g
    revert g
    decide +kernel

/-- A section X with a label of its own name, as the assembler once wrote for an ENTRY that names the section, and the label A. -/
def ownLabel : Deck :=
  .ofCards [Deck.esdCard 1 [Deck.esdItem (letterName 0xE7) 0x00 0 8, Deck.esdItem (letterName 0xE7) 0x01 0 1,
      Deck.esdItem (letterName 0xC1) 0x01 4 1],
    Deck.txtCard 0 1 [1, 2, 3, 4, 5, 6, 7, 8], Deck.endCard]

/-- The composite entry of X is that of a label, so that the length of X is missing from the recomputed one. -/
theorem ownLabel_packImage : notADeck ownLabel = none ∧
    ∃ L u, linkLayout ⟨false, false, 15040, some (letterName 0xC1)⟩ ([ownLabel].map parseObject) = some L ∧
      (definitionsOf L.G (letterName 0xC1)).length = 1 ∧ findSymbol L.G (letterName 0xC1) = some 4 ∧
      linkImage ⟨0, false, false, false, false, false⟩ 15040 (letterName 0xC1) (Vector.replicate 19 0) L ⟨false, false, 15040, some (letterName 0xC1)⟩ 4 = some u ∧
      packImage ⟨0, false, false, false, false, false⟩ 15040 (letterName 0xC1) (L.member ⟨false, false, 15040, some (letterName 0xC1)⟩ (Vector.replicate 19 0))
        (some (letterName 0xC1)) ≠ some u := by
  refine ⟨by decide +kernel, ?_⟩
  obtain ⟨L, hL⟩ : ∃ L, linkLayout ⟨false, false, 15040, some (letterName 0xC1)⟩ ([ownLabel].map parseObject) = some L :=
    Option.isSome_iff_exists.mp (by decide +kernel)
  obtain ⟨rfl, -⟩ := linkLayout_some hL
  obtain ⟨u, hu⟩ : ∃ u, linkImage ⟨0, false, false, false, false, false⟩ 15040 (letterName 0xC1) (Vector.replicate 19 0) (linked ([ownLabel].map parseObject))
      ⟨false, false, 15040, some (letterName 0xC1)⟩ 4 = some u := Option.isSome_iff_exists.mp (by decide +kernel)
  refine ⟨_, u, hL, by decide +kernel, by decide +kernel, hu, ?_⟩
  generalize hbytes : (linked ([ownLabel].map parseObject)).member ⟨false, false, 15040, some (letterName 0xC1)⟩ (Vector.replicate 19 0) = bytes at hu ⊢
  have hpack : packMember bytes (letterName 0xC1) (some (letterName 0xC1)) = some (plainMember (letterName 0xC1) bytes 4 0) := by
    rw [← hbytes]
    decide +kernel
  have hmodlen : (linked ([ownLabel].map parseObject)).modlen = 8 := by decide +kernel
  rw [linkImage, hbytes, hmodlen] at hu
  obtain ⟨blk, -, himage⟩ := image_eq_iff hu 4 0
  rw [packImage, hpack, Option.bind_some, ne_eq, himage]
  intro hud
  have hname : (letterName 0xC1)[0] ≠ 0xFF := by decide
  have hok : ∀ modlen, (plainPlaced (letterName 0xC1) bytes 4 modlen blk).mem.Ok := fun modlen => .plain hname rfl rfl
  have hback : ∀ (a : Attributes) (modlen : ℤ), 0 ≤ modlen ∧ modlen < 2 ^ 24 →
      (mvsBe24 (ofBytes (buildUserdata a (plainPlaced (letterName 0xC1) bytes 4 modlen blk))) 10 : ℤ) = modlen :=
    fun a modlen h => (buildUserdata_modlen (hok modlen)).mpr h
  have h0 := hback ⟨0, false, false, false, false, false⟩ 0 (by decide)
  rw [hud, hback _ 8 (by decide)] at h0
  exact absurd h0 (by decide)

end Cc370.Ld370
