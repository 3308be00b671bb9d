import Cc370.Ld370.Unload
import Cc370.Xmit370.Create

namespace Cc370

open Tracks

theorem layout_length (ovh cap : ℕ) (h : Head) (l : List ℕ) : (layout ovh cap h l).length = l.length := by
  rw [← List.length_map Spot.len, layout_lens]

namespace Ld370

variable {cap : ℕ}

theorem placeMember_spots (h : Head) (m : Umember) (blk : List Lmblock) :
    (placeMember cap h m blk).ckds.map Ckd.spot = layout mvsTrkOvh3350 cap h (recordLens blk) := by
  have hlen : (layout mvsTrkOvh3350 cap h (blk.map Lmblock.len)).length = blk.length := by
    rw [layout_length, List.length_map]
  rw [recordLens, layout_append, Uplaced.ckds, List.map_append, List.map_map]
  congr 1
  exact List.map_snd_zip hlen.le

theorem placeMembers_spots (h : Head) (mem : List (Umember × List Lmblock)) :
    ((placeMembers cap h mem).flatMap Uplaced.ckds).map Ckd.spot =
      layout mvsTrkOvh3350 cap h (mem.flatMap fun m => recordLens m.2) := by
  induction mem generalizing h with
  | nil => rfl
  | cons m mem ih =>
    rw [placeMembers, List.flatMap_cons, List.map_append, placeMember_spots, ih, List.flatMap_cons, layout_append]

/-- The lengths of the records that the members take, in the order in which they are written. -/
def partLens (parts : List (Umember × List Lmblock)) : List ℕ :=
  (parts.insertionSort fun m n => nameLe m.1.name n.1.name).flatMap fun m => recordLens m.2

theorem trackCap_le (n : ℕ) : trackCap n ≤ mvsTrkPackCap3350 := by
  unfold trackCap
  split_ifs
  · exact Nat.zero_le _
  · exact Nat.le_refl _

/-- What the image is when it is written. -/
theorem emitUnload_some {a : Attributes} {blksize : ℕ} {parts : List (Umember × List Lmblock)} {u : Unload}
    (h : emitUnload a blksize parts = some u) :
    u.spots = layout mvsTrkOvh3350 (trackCap parts.length) .start (partLens parts) ∧
      u.header = mvsUdebxExtent (Slices.put (Slices.put mvsUnloadEnvHdr 6 (mvsPut16 blksize)) 14 (mvsPut16 (12 + 8 + 0 + blksize : ℕ)))
        (tracks mvsTrkOvh3350 (trackCap parts.length) (partLens parts)) := by
  unfold emitUnload at h
  dsimp only at h
  split_ifs at h
  obtain ⟨groups, -, rfl⟩ := Option.map_eq_some_iff.mp h
  rw [List.length_insertionSort]
  exact ⟨placeMembers_spots _ _, rfl⟩

theorem emitUnload_header (blksize : ℕ) :
    ExtentAt (Slices.put (Slices.put mvsUnloadEnvHdr 6 (mvsPut16 blksize)) 14 (mvsPut16 (12 + 8 + 0 + blksize : ℕ))) := by
  have h6 := ExtentAt.template.put 6 (mvsPut16 blksize) (by rw [mvsPut16_length]; omega)
  exact h6.put 14 _ (by rw [mvsPut16_length]; omega)

end Ld370

namespace Xmit370

variable {o : Options}

theorem placeMember_spots (h : Head) (m : Member) :
    (placeMember o h m).ckds.map Ckd.spot = layout mvsTrkOvh3350 mvsTrkPackCap3350 h (recordLens o m) := by
  have hlen : (layout mvsTrkOvh3350 mvsTrkPackCap3350 h ((blocks o m).map Blk.len)).length = (blocks o m).length := by
    rw [layout_length, List.length_map]
  rw [recordLens, layout_append, Placed.ckds, List.map_append, List.map_map]
  congr 1
  exact List.map_snd_zip hlen.le

theorem assignGeometry_spots (h : Head) (mem : List Member) : ((assignGeometry o h mem).flatMap Placed.ckds).map Ckd.spot =
    layout mvsTrkOvh3350 mvsTrkPackCap3350 h (mem.flatMap (recordLens o)) := by
  induction mem generalizing h with
  | nil => rfl
  | cons m mem ih =>
    rw [assignGeometry, List.flatMap_cons, List.map_append, placeMember_spots, ih, List.flatMap_cons, layout_append]

/-- The last track of a member is that of its end. -/
theorem placeMember_tracks (h : Head) (m : Member) :
    let p := placeMember o h m
    max ((p.spots.getLast?.map fun s => s.tt + 1).getD 0) (p.eof.tt + 1) =
      (after mvsTrkOvh3350 mvsTrkPackCap3350 h (recordLens o m)).tt + 1 := by
  intro p
  have heof : p.eof.tt = (after mvsTrkOvh3350 mvsTrkPackCap3350 h (recordLens o m)).tt := by
    rw [recordLens, after_append]
    rfl
  rw [heof]
  refine max_eq_right ?_
  cases hl : p.spots.getLast? with
  | none => exact Nat.zero_le _
  | some s =>
    have hs : s ∈ layout mvsTrkOvh3350 mvsTrkPackCap3350 h ((blocks o m).map Blk.len) := List.mem_of_getLast? hl
    have hle := tt_le_of_mem hs
    have hmono := tt_mono mvsTrkOvh3350 mvsTrkPackCap3350
      (after mvsTrkOvh3350 mvsTrkPackCap3350 h ((blocks o m).map Blk.len)) [0]
    rw [recordLens, after_append]
    exact Nat.succ_le_succ (hle.trans hmono)

theorem le_foldl_max (x : ℕ) (l : List ℕ) : x ≤ l.foldl max x := by
  induction l generalizing x with
  | nil => exact Nat.le_refl x
  | cons y l ih => exact (Nat.le_max_left x y).trans (ih _)

theorem tracksUsed_eq (mem : List Member) :
    tracksUsed (assignGeometry o .start mem) = tracks mvsTrkOvh3350 mvsTrkPackCap3350 (mem.flatMap (recordLens o)) := by
  -- the greatest track so far lies at the head, wherever the members begin
  have hmax : ∀ (h : Head) (x : ℕ), x ≤ h.tt + 1 → max (h.tt + 1)
      (((assignGeometry o h mem).map fun p => max ((p.spots.getLast?.map fun s => s.tt + 1).getD 0) (p.eof.tt + 1)).foldl max x) =
        (after mvsTrkOvh3350 mvsTrkPackCap3350 h (mem.flatMap (recordLens o))).tt + 1 := by
    induction mem with
    | nil =>
      intro h x hx
      exact max_eq_left hx
    | cons m mem ih =>
      intro h x hx
      have hmono := tt_mono mvsTrkOvh3350 mvsTrkPackCap3350 h (recordLens o m)
      have hx' : max x ((after mvsTrkOvh3350 mvsTrkPackCap3350 h (recordLens o m)).tt + 1) = _ := max_eq_right (by omega)
      rw [assignGeometry, List.map_cons, placeMember_tracks, List.foldl_cons, hx', List.flatMap_cons, after_append,
        ← ih _ _ (Nat.le_refl _)]
      have hle := le_foldl_max ((after mvsTrkOvh3350 mvsTrkPackCap3350 h (recordLens o m)).tt + 1)
        ((assignGeometry o (after mvsTrkOvh3350 mvsTrkPackCap3350 h (recordLens o m)) mem).map
          fun p => max ((p.spots.getLast?.map fun s => s.tt + 1).getD 0) (p.eof.tt + 1))
      rw [max_eq_right hle, max_eq_right (by omega)]
  exact hmax .start 0 (Nat.zero_le _)

theorem sourceHeader_extent (o : Options) : ExtentAt (sourceHeader o) := by
  have h4 := ExtentAt.template.put 4 (mvsPut16 0x0200) (by rw [mvsPut16_length]; omega)
  have h6 := h4.put 6 (mvsPut16 o.blksize) (by rw [mvsPut16_length]; omega)
  have h8 := h6.put 8 (mvsPut16 o.lrecl) (by rw [mvsPut16_length]; omega)
  have h10 := h8.put 10 [.ofNat o.recfm.code] (by simp)
  have h11 := h10.put 11 [0x00] (by simp)
  exact h11.put 14 _ (by rw [mvsPut16_length]; omega)

end Xmit370

/-- The images that the two programs write, with the lengths of their records in order and the limit
for a track. -/
inductive Emits : ℕ → List ℕ → Unload → Prop
  | ld370 {a : Ld370.Attributes} {blksize : ℕ} {mem : List Ld370.Umember} {parts : List (Ld370.Umember × List Ld370.Lmblock)}
      {u : Unload} (hlo : 1024 ≤ blksize) (hhi : blksize ≤ 32740)
      (hsplit : (mem.mapM fun m => (Ld370.splitMember m.bytes).map fun blk => (m, blk)) = some parts)
      (hemit : Ld370.emitUnload a blksize parts = some u) : Emits (Ld370.trackCap parts.length) (Ld370.partLens parts) u
  | xmit370 {o : Xmit370.Options} {srcs : List Xmit370.Source} {mem : List Xmit370.Member}
      (hmem : Xmit370.createMembers o srcs = some mem) :
      Emits mvsTrkPackCap3350 (mem.flatMap (Xmit370.recordLens o)) (Xmit370.emitUnload o mem)

/-- The image can be on a 3350 exactly when no record is longer than a track has room for and the
header can say how many tracks there are. -/
theorem unload_possible_iff {cap : ℕ} {lens : List ℕ} {u : Unload} (h : Emits cap lens u) :
    u.Possible ↔ (∀ len ∈ lens, len ≤ mvsTrkMaxblk3350) ∧ tracks mvsTrkOvh3350 cap lens ≤ Unload.tracksMax := by
  cases h with
  | ld370 hlo hhi hsplit hemit =>
    obtain ⟨hspots, hheader⟩ := Ld370.emitUnload_some hemit
    exact Unload.possible_iff hspots hheader (Ld370.emitUnload_header _) (Ld370.trackCap_le _)
  | @xmit370 o srcs mem hmem =>
    refine Unload.possible_iff (Xmit370.assignGeometry_spots .start mem) ?_ (Xmit370.sourceHeader_extent o) (Nat.le_refl _)
    rw [Xmit370.emitUnload, Xmit370.tracksUsed_eq]

/-- The text of an empty member, packed by itself. -/
theorem emptyMember_possible : ∃ mem u, Emits mvsTrkPackCap3350 mem u ∧
    (u.Possible ↔ (∀ len ∈ mem, len ≤ mvsTrkMaxblk3350) ∧ tracks mvsTrkOvh3350 mvsTrkPackCap3350 mem ≤ Unload.tracksMax) := by
  let t : Xmit370.Tm := ⟨2000, 1, 1, 0, 0, 0, 0⟩
  let o : Xmit370.Options := ⟨[0x41], 80, none, .fb, false, 8, false, [], none, t⟩
  have hmem : Xmit370.createMembers o [⟨[0x41], [], t⟩] = some [⟨mvsName8 [0x41], [], 0, t⟩] := by decide
  exact ⟨_, _, .xmit370 hmem, unload_possible_iff (.xmit370 hmem)⟩

namespace Ld370

/-- A module of one section, with its text in one record of 19,070 bytes. -/
def longText (text : List UInt8) : List Lmod.Block := [
  ⟨.cesd, [0x20, 0x00, 0x00, 0x00, 0x00, 0x01, 0x00, 0x10] ++ (letterName 0xC1).toList ++
    [0x00, 0x00, 0x00, 0x00, 0x01, 0x00, 0x4A, 0x7E], []⟩,
  ⟨.ctl, [0x0D, 0x00, 0x00, 0x00, 0x00, 0x04, 0x00, 0x00, 0x06, 0x00, 0x00, 0x00, 0x40, 0x00, 0x4A, 0x7E,
    0x00, 0x01, 0x4A, 0x7E], text⟩]

section LongText

variable {text : List UInt8} (h : text.length = 19070)

include h

theorem longText_framed : ∀ b ∈ longText text, b.Framed := by
  intro b hb
  rcases List.mem_pair.mp hb with rfl | rfl
  · exact ⟨by decide, by decide, by decide, rfl⟩
  · refine ⟨by simp, by simp [Lmod.Block.byte0, ofBytes], by simp [ofBytes, mvsBe16], ?_⟩
    simp [h, Lmod.ctlText, Lmod.Block.byte0, ofBytes, mvsBe16]

theorem longText_split :
    splitMember ((longText text).flatMap Lmod.Block.bytes) = some [⟨0, 24, false⟩, ⟨24, 20, false⟩, ⟨44, 19070, true⟩] := by
  have hwalk := Lmod.walkMember_blocks (longText_framed h) (by simp [longText, Lmod.Block.ends])
  have hne : text ≠ [] := by
    rintro rfl
    exact absurd h (by decide)
  rw [splitMember, hwalk]
  simp [Lmod.blockItems, longText, Lmod.Block.items, Lmod.Block.bytes, hne, h]

end LongText

theorem dirLayout_single {p : Uplaced} : (dirLayout [p]).isSome = true ↔ (p.mem.name :: p.mem.aliases.map Ualias.name).Nodup := by
  have hnames : (dents p).map Dent.name = p.mem.name :: p.mem.aliases.map Ualias.name := by simp [dents]
  have hperm : ((dents p).insertionSort fun d e => nameLe d.name e.name).Perm (dents p) := List.perm_insertionSort _ _
  have hpair : ((dents p).insertionSort fun d e => nameLe d.name e.name).Pairwise (fun d e => d.name ≠ e.name) ↔
      (dents p).Pairwise fun d e => d.name ≠ e.name := hperm.pairwise_iff fun h => h.symm
  rw [← hnames, List.Nodup, List.pairwise_map, ← hpair, dirLayout]
  simp

/-- The only member of a library is written when its blocks fit the library's and its names differ. -/
theorem emitUnload_single (a : Attributes) (blksize : ℕ) (m : Umember) (blk : List Lmblock) (hnames : (m.name :: m.aliases.map Ualias.name).Nodup)
    (hblk : ∀ b ∈ blk, b.len ≤ blksize) : (emitUnload a blksize [(m, blk)]).isSome = true := by
  have hany : ([(m, blk)].any fun m => m.2.any fun b => blksize < b.len) = false := by
    simpa using hblk
  have hsort : ([(m, blk)].insertionSort fun m n => nameLe m.1.name n.1.name) = [(m, blk)] := rfl
  unfold emitUnload
  rw [hsort]
  dsimp only
  rw [hany, if_neg (by simp), Option.isSome_map]
  exact dirLayout_single.mpr hnames

def longMember (text : List UInt8) : Umember := ⟨letterName 0xC1, (longText text).flatMap Lmod.Block.bytes, 0, 19072, none, []⟩

/-- The module is accepted for a library of 32,740-byte blocks. -/
theorem longText_impossible : ∃ u, writeUnloadMem ⟨0, false, false, false, false, false⟩ 32740 [longMember (List.replicate 19070 0x00)] =
    some u ∧ ¬ u.Possible := by
  have hlen : (List.replicate 19070 (0x00 : UInt8)).length = 19070 := List.length_replicate
  generalize List.replicate 19070 (0x00 : UInt8) = text at hlen
  let blk : List Lmblock := [⟨0, 24, false⟩, ⟨24, 20, false⟩, ⟨44, 19070, true⟩]
  have hsplit : ([longMember text].mapM fun m => (splitMember m.bytes).map fun blk => (m, blk)) = some [(longMember text, blk)] := by
    simp [longMember, blk, longText_split hlen]
  have hsome := emitUnload_single ⟨0, false, false, false, false, false⟩ 32740 (longMember text) blk (List.nodup_singleton _) (by decide)
  obtain ⟨u, hu⟩ := Option.isSome_iff_exists.mp hsome
  refine ⟨u, by rw [writeUnloadMem, hsplit, Option.bind_some, hu], ?_⟩
  obtain ⟨hspots, hheader⟩ := emitUnload_some hu
  rw [Unload.possible_iff hspots hheader (emitUnload_header _) (trackCap_le _)]
  rintro ⟨hall, -⟩
  have hmem : 19070 ∈ partLens [(longMember text, blk)] := by simp [partLens, recordLens, blk]
  exact absurd (hall 19070 hmem) (by decide)

end Ld370

end Cc370
