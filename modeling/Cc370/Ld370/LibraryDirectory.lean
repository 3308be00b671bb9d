import Cc370.Ld370.Repack

namespace Cc370.Ld370

open Slices

section Size

/-- A member before its records have places. -/
def unplaced (m : Umember × List Lmblock) : Uplaced := ⟨m.1, m.2, [], (0, 0), (0, 0), ⟨0, 0, 0⟩⟩

def unloadSize (mem : List (Umember × List Lmblock)) : Option ℕ :=
  (dirLayout (mem.map unplaced)).map fun groups =>
    mvsEnvHdrLen + 12 + groups.length * (12 + 8 + 256) + (mem.map fun m => (m.2.map fun b => 12 + b.len).sum + 12).sum

end Size

section Valid

/-- A directory block: its record, the bytes it says are used, its entries and, behind the last, the terminator. -/
structure DirectoryBlock (a : Attributes) (last : Bool) (ds : List Dent) (blk : List UInt8) : Prop where
  length : blk.length = 12 + 8 + 256
  count : blk.take 12 = mvsPutCount 0 0 0 8 256
  used : mvsBe16 (ofBytes blk) 20 = 2 + (ds.map Dent.len).sum + (if last then 12 else 0) ∧ mvsBe16 (ofBytes blk) 20 ≤ 256
  entries : At (ofBytes blk) 22 (ds.flatMap (Dent.bytes a)) ∧ ∀ d ∈ ds, (d.bytes a).length = d.len
  ends : last = true → At (ofBytes blk) (22 + (ds.map Dent.len).sum) (List.replicate 8 0xFF)
  key : if last then (blk.drop 12).take 8 = List.replicate 8 0xFF
    else ∃ d ∈ ds, (blk.drop 12).take 8 = d.name.toList ∧ ∀ e ∈ ds, nameLe e.name d.name

/-- A directory of a library: the entries of the members and their aliases, in the order of their names, by blocks. -/
def ValidDirectory (a : Attributes) (ds : List Dent) (blocks : List (List UInt8)) : Prop :=
  ∃ (init : List (List Dent)) (last : List Dent) (inits : List (List UInt8)) (final : List UInt8), blocks = inits ++ [final] ∧
    List.Forall₂ (DirectoryBlock a false) init inits ∧ DirectoryBlock a true last final ∧ (init.flatten ++ last).Perm ds ∧
      (init.flatten ++ last).Pairwise fun d e => d.name.toList < e.name.toList

theorem getLast_highest {g : List Dent} (hne : g ≠ []) (hsort : g.Pairwise fun d e => d.name.toList < e.name.toList) :
    ∃ d ∈ g, dirKey false g = d.name.toList ∧ ∀ e ∈ g, nameLe e.name d.name := by
  obtain ⟨init, d, rfl⟩ := (List.eq_nil_or_concat' g).resolve_left hne
  refine ⟨d, by simp, by simp [dirKey], ?_⟩
  intro e he
  rw [List.pairwise_append] at hsort
  rcases List.mem_append.mp he with he | he
  · exact List.le_of_lt (hsort.2.2 e he d (List.mem_singleton_self d))
  · rw [List.mem_singleton.mp he]
    exact List.le_refl _

theorem dirBlock_valid {a : Attributes} {g : List Dent} (hg : ∀ d ∈ g, (d.bytes a).length = d.len) (last : Bool)
    (hroom : 2 + lens g + (if last then 12 else 0) ≤ 256) (hne : last = false → g ≠ [])
    (hsort : g.Pairwise fun d e => d.name.toList < e.name.toList) : DirectoryBlock a last g (dirBlock a last g) := by
  have hlens := group_length hg
  have hkey := dirKey_length last g
  have hroom' : 2 + (g.map (Dent.bytes a)).flatten.length + (if last then 12 else 0) ≤ 256 := by rw [hlens]; exact hroom
  have hat : At (ofBytes (dirBlock a last g)) 0 (dirRecord (dirKey last g) last (g.map (Dent.bytes a))) := by
    rw [dirBlock_eq hg last]
    exact at_getD _ 0x00
  have hdir := dirRecord_at hkey hroom' hat
  have hused : mvsBe16 (ofBytes (dirBlock a last g)) 20 = 2 + lens g + (if last then 12 else 0) := by
    have h := hdir.used
    rw [hlens] at h
    exact h
  constructor
  · rw [dirBlock_eq hg last]
    exact dirRecord_length hkey hroom'
  · rfl
  · exact ⟨hused, hused.trans_le hroom⟩
  · refine ⟨?_, hg⟩
    rw [List.flatMap_def]
    exact hdir.entries
  · intro hl
    have h := hdir.ends hl
    rw [hlens] at h
    exact h
  · have hkeyAt : ((dirBlock a last g).drop 12).take 8 = dirKey last g := by
      rw [dirBlock_eq hg last, dirRecord, List.append_assoc, List.drop_left' (mvsPutCount_length 0 0 0 8 256), List.take_left' hkey]
    rw [hkeyAt]
    cases last with
    | true => rfl
    | false => exact getLast_highest (hne rfl) hsort

/-- The groups of sorted entries are the blocks of a directory. -/
theorem directory_valid {a : Attributes} {ds es : List Dent} (hes : ∀ d ∈ es, (d.bytes a).length = d.len) (hperm : es.Perm ds)
    (hsort : es.Pairwise fun d e => d.name.toList < e.name.toList) : ValidDirectory a ds (directory a (dirGroups 2 [] es)) := by
  obtain ⟨init, last, heq, hinit, hlast, hflat⟩ := dirGroups_fit es [] 2 rfl (by omega)
  rw [List.nil_append, List.flatten_append, List.flatten_singleton] at hflat
  have hmem : ∀ g ∈ init, ∀ d ∈ g, d ∈ es := by
    intro g hg d hd
    rw [← hflat]
    exact List.mem_append_left _ (List.mem_flatten.mpr ⟨g, hg, hd⟩)
  rw [← hflat] at hperm hsort
  have hpieces := List.pairwise_append.mp hsort
  refine ⟨init, last, init.map (dirBlock a false), dirBlock a true last, ?_, ?_, ?_, hperm, hsort⟩
  · rw [heq, directory_records]
  · rw [List.forall₂_map_right_iff, List.forall₂_same]
    intro g hg
    obtain ⟨hne, hroom⟩ := hinit g hg
    exact dirBlock_valid (fun d hd => hes d (hmem g hg d hd)) false hroom (fun _ => hne) ((List.pairwise_flatten.mp hpieces.1).1 g hg)
  · refine dirBlock_valid (fun d hd => hes d ?_) true hlast nofun hpieces.2.1
    rw [← hflat]
    exact List.mem_append_right _ hd

end Valid

section Sorted

/-- What the layout of the directory reads of an entry. -/
def Dent.key (d : Dent) : Name × Bool := (d.name, d.alias?.isNone)

theorem dirGroups_length {ds es : List Dent} (h : ds.map Dent.key = es.map Dent.key) (used : ℕ) (cur cur' : List Dent) :
    (dirGroups used cur ds).length = (dirGroups used cur' es).length := by
  induction ds generalizing es used cur cur' with
  | nil =>
    obtain rfl : es = [] := by simpa using h.symm
    rw [dirGroups, dirGroups]
    split_ifs
    · rfl
    · rfl
  | cons d ds ih =>
    cases es with
    | nil => exact absurd h (by simp)
    | cons e es =>
      rw [List.map_cons, List.map_cons, List.cons.injEq] at h
      have hlen : d.len = e.len := by
        have halias : d.alias?.isNone = e.alias?.isNone := congrArg Prod.snd h.1
        rw [Dent.len, Dent.len, halias]
      rw [dirGroups, dirGroups, hlen]
      split_ifs
      · rw [List.length_cons, List.length_cons, ih h.2]
      · exact ih h.2 _ _ _

def nameSort (ds : List Dent) : List Dent := ds.insertionSort fun d e => nameLe d.name e.name

theorem nameLe_total (m n : Name) : nameLe m n ∨ nameLe n m := List.le_total m.toList n.toList

theorem nameLe_antisymm {m n : Name} (h : nameLe m n) (h' : nameLe n m) : m = n := Vector.toList_inj.mp (List.le_antisymm h h')

theorem nameSort_sorted (ds : List Dent) : (nameSort ds).Pairwise fun d e => nameLe d.name e.name := by
  have htotal : Std.Total (fun d e : Dent => nameLe d.name e.name) := ⟨fun d e => nameLe_total d.name e.name⟩
  have htrans : IsTrans Dent (fun d e => nameLe d.name e.name) := ⟨fun _ _ _ h h' => List.le_trans h h'⟩
  exact List.pairwise_insertionSort _ ds

theorem nameSort_perm (ds : List Dent) : (nameSort ds).Perm ds := List.perm_insertionSort _ _

theorem nameSort_strict {ds : List Dent} (h : (ds.map Dent.name).Nodup) : (nameSort ds).Pairwise fun d e => d.name.toList < e.name.toList := by
  have hnodup : (nameSort ds).Pairwise fun d e => d.name ≠ e.name := List.pairwise_map.mp (((nameSort_perm ds).map Dent.name).nodup_iff.mpr h)
  refine (nameSort_sorted ds).imp₂ ?_ hnodup
  intro d e hle hne
  rcases List.le_iff_lt_or_eq.mp hle with hlt | heq
  · exact hlt
  · exact absurd (Vector.toList_inj.mp heq) hne

/-- The order of the entries does not depend on the order in which they were brought. -/
theorem nameSort_key {ds es : List Dent} (h : (ds.map Dent.key).Perm (es.map Dent.key)) (hn : (ds.map Dent.name).Nodup) :
    (nameSort ds).map Dent.key = (nameSort es).map Dent.key := by
  have hds := (nameSort_perm ds).map Dent.key
  have hes := (nameSort_perm es).map Dent.key
  have hperm := hds.trans (h.trans hes.symm)
  have hsorted : ∀ ds : List Dent, ((nameSort ds).map Dent.key).Pairwise fun x y => nameLe x.1 y.1 :=
    fun ds => List.pairwise_map.mpr (nameSort_sorted ds)
  have hnames : (((nameSort ds).map Dent.key).map Prod.fst).Nodup := by
    rw [List.map_map]
    exact ((nameSort_perm ds).map Dent.name).nodup_iff.mpr hn
  refine hperm.eq_of_pairwise ?_ (hsorted ds) (hsorted es)
  intro x y hx hy hxy hyx
  exact List.inj_on_of_nodup_map hnames hx (hperm.mem_iff.mpr hy) (nameLe_antisymm hxy hyx)

end Sorted

section Library

variable {a : Attributes} {blksize : ℕ} {ms : List Umember} {parts : List (Umember × List Lmblock)}

/-- The name of a member and those of its aliases. -/
def Umember.names (m : Umember) : List Name := m.name :: m.aliases.map Ualias.name

theorem dents_key (p : Uplaced) : (dents p).map Dent.key = (p.mem.name, true) :: p.mem.aliases.map fun al => (al.name, false) := by
  simp [dents, Dent.key, Function.comp_def]

theorem placeMembers_mems (cap : ℕ) (h : Tracks.Head) (mem : List (Umember × List Lmblock)) :
    (placeMembers cap h mem).map Uplaced.mem = mem.map Prod.fst := by
  induction mem generalizing h with
  | nil => rfl
  | cons m mem ih =>
    rw [placeMembers, List.map_cons, List.map_cons, ih]
    rfl

/-- What the layout of the directory reads of the entries comes from the members alone. -/
theorem flatMap_key (ps : List Uplaced) : (ps.flatMap dents).map Dent.key =
    (ps.map Uplaced.mem).flatMap fun m => (m.name, true) :: m.aliases.map fun al => (al.name, false) := by
  rw [List.map_flatMap, List.flatMap_map]
  apply List.flatMap_congr
  intro p _
  exact dents_key p

theorem flatMap_name (ps : List Uplaced) : (ps.flatMap dents).map Dent.name = (ps.map Uplaced.mem).flatMap Umember.names := by
  have hkey := congrArg (List.map Prod.fst) (flatMap_key ps)
  rw [List.map_map] at hkey
  refine hkey.trans ?_
  rw [List.map_flatMap]
  apply List.flatMap_congr
  intro m _
  simp [Umember.names, Function.comp_def]

theorem dirLayout_nodup {ps : List Uplaced} (h : ((ps.map Uplaced.mem).flatMap Umember.names).Nodup) :
    dirLayout ps = some (dirGroups 2 [] (nameSort (ps.flatMap dents))) := by
  have hnodup : (nameSort (ps.flatMap dents)).Pairwise fun d e => d.name ≠ e.name := by
    rw [← flatMap_name] at h
    exact List.pairwise_map.mp (((nameSort_perm _).map Dent.name).nodup_iff.mpr h)
  unfold dirLayout
  exact if_pos hnodup

theorem mapM_split (h : (ms.mapM fun m => (splitMember m.bytes).map fun blk => (m, blk)) = some parts) :
    parts.map Prod.fst = ms ∧ ∀ x ∈ parts, splitMember x.1.bytes = some x.2 := by
  induction ms generalizing parts with
  | nil =>
    obtain rfl : parts = [] := by simpa using h.symm
    exact ⟨rfl, nofun⟩
  | cons m ms ih =>
    rw [List.mapM_cons] at h
    obtain ⟨y, hy, hrest⟩ := Option.bind_eq_some_iff.mp h
    obtain ⟨ys, hys, heq⟩ := Option.bind_eq_some_iff.mp hrest
    obtain rfl : y :: ys = parts := Option.some.inj heq
    obtain ⟨blk, hblk, rfl⟩ := Option.map_eq_some_iff.mp hy
    obtain ⟨hfst, hall⟩ := ih hys
    refine ⟨by rw [List.map_cons, hfst], ?_⟩
    intro x hx
    rcases List.mem_cons.mp hx with rfl | hx
    · exact hblk
    · exact hall x hx

/-- The bytes of the records of a member. -/
def recordBytes (m : Umember × List Lmblock) : ℕ := (m.2.map fun b => 12 + b.len).sum + 12

theorem ckds_length {m : Umember} {blk : List Lmblock} (hsplit : splitMember m.bytes = some blk) (cap : ℕ) (h : Tracks.Head) :
    ((placeMember cap h m blk).ckds.flatMap Ckd.bytes).length = recordBytes (m, blk) := by
  have hlen : (Tracks.layout mvsTrkOvh3350 cap h (blk.map Lmblock.len)).length = blk.length := by rw [layout_length, List.length_map]
  have hfst : (blk.zip (Tracks.layout mvsTrkOvh3350 cap h (blk.map Lmblock.len))).map Prod.fst = blk := List.map_fst_zip hlen.ge
  have hlast : ∀ s, (Ckd.bytes ⟨s, []⟩).length = 12 := by simp [Ckd.bytes]
  have hdata : ∀ b ∈ blk, 12 + (b.data m.bytes).length = 12 + b.len := by
    intro b hb
    rw [(block_length hsplit hb).1]
  have hckd : ∀ s d, (Ckd.bytes ⟨s, d⟩).length = 12 + d.length := by simp [Ckd.bytes]
  rw [Uplaced.ckds, List.flatMap_append, List.length_append, List.length_flatMap, List.map_map, List.flatMap_singleton, hlast, recordBytes]
  congr 1
  calc ((blk.zip (Tracks.layout mvsTrkOvh3350 cap h (blk.map Lmblock.len))).map
        ((fun c => c.bytes.length) ∘ fun b => (⟨b.2, b.1.data m.bytes⟩ : Ckd))).sum
      = ((blk.zip (Tracks.layout mvsTrkOvh3350 cap h (blk.map Lmblock.len))).map ((fun b => 12 + (b.data m.bytes).length) ∘ Prod.fst)).sum := by
        congr 1
        apply List.map_congr_left
        intro b _
        exact hckd b.2 _
    _ = (blk.map fun b => 12 + (b.data m.bytes).length).sum := by rw [← List.map_map, hfst]
    _ = (blk.map fun b => 12 + b.len).sum := by rw [List.map_congr_left hdata]

theorem placeMembers_length (cap : ℕ) (h : Tracks.Head) {mem : List (Umember × List Lmblock)} (hsplit : ∀ x ∈ mem, splitMember x.1.bytes = some x.2) :
    (((placeMembers cap h mem).flatMap Uplaced.ckds).flatMap Ckd.bytes).length = (mem.map recordBytes).sum := by
  induction mem generalizing h with
  | nil => rfl
  | cons m mem ih =>
    rw [placeMembers, List.flatMap_cons, List.flatMap_append, List.length_append, ckds_length (hsplit m List.mem_cons_self),
      ih _ fun x hx => hsplit x (List.mem_cons_of_mem _ hx), List.map_cons, List.sum_cons]

theorem directory_groups_length {es : List Dent} (hes : ∀ d ∈ es, (d.bytes a).length = d.len) :
    (directory a (dirGroups 2 [] es)).flatten.length = (dirGroups 2 [] es).length * (12 + 8 + 256) := by
  obtain ⟨init, last, heq, hinit, hlast, hflat⟩ := dirGroups_fit es [] 2 rfl (by omega)
  rw [List.nil_append] at hflat
  rw [heq, directory_length ?_ (fun g hg => (hinit g hg).2) hlast, List.length_append, List.length_singleton]
  · ring
  · intro g hg d hd
    apply hes
    rw [← hflat]
    exact List.mem_flatten.mpr ⟨g, hg, hd⟩

/-- The directory has as many blocks when the members are counted as when they are written. -/
theorem dirGroups_length_perm {ps qs : List Uplaced} (h : (ps.map Uplaced.mem).Perm (qs.map Uplaced.mem))
    (hn : ((ps.map Uplaced.mem).flatMap Umember.names).Nodup) :
    (dirGroups 2 [] (nameSort (ps.flatMap dents))).length = (dirGroups 2 [] (nameSort (qs.flatMap dents))).length := by
  apply dirGroups_length
  apply nameSort_key
  · rw [flatMap_key, flatMap_key]
    exact h.flatMap_right _
  · rw [flatMap_name]
    exact hn

/-- The directory of a library is one as IEBCOPY has it, and the image is as long as the buffer for it. -/
theorem library_directory (hsplit : (ms.mapM fun m => (splitMember m.bytes).map fun blk => (m, blk)) = some parts)
    (hfit : ∀ m ∈ parts, ∀ b ∈ m.2, b.len ≤ blksize) (hsized : ∀ m ∈ ms, m.Sized) (hnames : (ms.flatMap Umember.names).Nodup) :
    ∃ (u : Unload) (placed : List Uplaced), writeUnloadMem a blksize ms = some u ∧ (placed.map Uplaced.mem).Perm ms ∧
      ValidDirectory a (placed.flatMap dents) u.directory ∧ unloadSize parts = some u.bytes.length := by
  obtain ⟨hms, hparts⟩ := mapM_split hsplit
  generalize hsorted : (parts.insertionSort fun m n => nameLe m.1.name n.1.name) = sorted
  have hperm : sorted.Perm parts := hsorted ▸ List.perm_insertionSort _ _
  generalize hplaced : placeMembers (trackCap sorted.length) .start sorted = placed
  have hmems : (placed.map Uplaced.mem).Perm ms := by
    rw [← hplaced, placeMembers_mems, ← hms]
    exact hperm.map Prod.fst
  have hunplaced : ((parts.map unplaced).map Uplaced.mem) = ms := by
    rw [List.map_map, ← hms]
    rfl
  have hnodup : ((placed.map Uplaced.mem).flatMap Umember.names).Nodup := (hmems.flatMap_right _).nodup_iff.mpr hnames
  have hlayout := dirLayout_nodup hnodup
  have hcount : dirLayout (parts.map unplaced) = _ := dirLayout_nodup (by rw [hunplaced]; exact hnames)
  have hsame : _ = (dirGroups 2 [] (nameSort ((parts.map unplaced).flatMap dents))).length :=
    dirGroups_length_perm (by rw [hunplaced]; exact hmems) hnodup
  have hlens : ∀ d ∈ nameSort (placed.flatMap dents), (d.bytes a).length = d.len := by
    intro d hd
    obtain ⟨p, hp, hdp⟩ := List.mem_flatMap.mp ((nameSort_perm _).mem_iff.mp hd)
    exact dent_length (hsized p.mem (hmems.mem_iff.mp (List.mem_map_of_mem hp))) hdp
  have hany : (sorted.any fun m => m.2.any fun b => decide (blksize < b.len)) = false := by
    rw [List.any_eq_false]
    intro m hm
    simpa using hfit m (hperm.mem_iff.mp hm)
  have hrecords := placeMembers_length (trackCap sorted.length) .start fun x hx => hparts x (hperm.mem_iff.mp hx)
  rw [hplaced, (hperm.map recordBytes).sum_eq] at hrecords
  have hwrite : writeUnloadMem a blksize ms = some
      { header := mvsUdebxExtent (put (put mvsUnloadEnvHdr 6 (mvsPut16 blksize)) 14 (mvsPut16 (12 + 8 + 0 + blksize : ℕ)))
          ((Tracks.after mvsTrkOvh3350 (trackCap sorted.length) .start (sorted.flatMap fun m => recordLens m.2)).tt + 1)
        directory := directory a (dirGroups 2 [] (nameSort (placed.flatMap dents)))
        data := placed.flatMap Uplaced.ckds } := by
    rw [writeUnloadMem, hsplit, Option.bind_some, emitUnload]
    dsimp only
    rw [hsorted, hany, if_neg (by simp), hplaced, hlayout]
    rfl
  refine ⟨_, placed, hwrite, hmems, directory_valid hlens (nameSort_perm _) (nameSort_strict ?_), ?_⟩
  · rw [flatMap_name]
    exact hnodup
  · have hheader := Unload.mvsUdebxExtent_length (n := (Tracks.after mvsTrkOvh3350 (trackCap sorted.length) .start
      (sorted.flatMap fun m => recordLens m.2)).tt + 1) (emitUnload_header blksize).length_le
    rw [unloadSize, hcount, Option.map_some, ← hsame, Unload.bytes]
    simp only [List.length_append, hheader, (emitUnload_header blksize).length, directory_groups_length hlens, hrecords, List.length_replicate]
    apply congrArg some
    have hsum : (parts.map recordBytes).sum = (parts.map fun m => (m.2.map fun b => 12 + b.len).sum + 12).sum := rfl
    rw [hsum]
    ring

end Library

theorem shortMember_directory : ∃ (u : Unload) (placed : List Uplaced),
    writeUnloadMem ⟨0, false, false, false, false, false⟩ 1024 [shortMember] = some u ∧ (placed.map Uplaced.mem).Perm [shortMember] ∧
      ValidDirectory ⟨0, false, false, false, false, false⟩ (placed.flatMap dents) u.directory ∧
      unloadSize [(shortMember, [⟨0, 24, false⟩, ⟨24, 20, false⟩, ⟨44, 8, true⟩])] = some u.bytes.length := by
  have hsplit : splitMember shortMember.bytes = some [⟨0, 24, false⟩, ⟨24, 20, false⟩, ⟨44, 8, true⟩] := by decide
  refine library_directory ?_ (by decide) ?_ (by decide)
  · simp [hsplit]
  · intro m hm
    rw [List.mem_singleton.mp hm]
    exact ⟨nofun, by simp [shortMember]⟩

end Cc370.Ld370
