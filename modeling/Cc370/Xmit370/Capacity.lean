import Cc370.Xmit370.LogicalRecords

namespace Cc370.Xmit370

section Control

variable (o : Options)

theorem inmr01_length : (inmr01 o).length = 85 + 2 * min 44 o.userid.length := by
  have hname : (ascii "ORIGNODE").length = 8 := by decide
  have htime : (xmitFtime o).length = 16 := by
    simp [xmitFtime, padded]
  simp only [inmr01, List.length_append, mvsInmrHdr_length, mvsTui_length, mvsTus_length, mvsTu_length, hname, htime]
  omega

theorem inmr02Iebcopy_length (nmem dataSize : ℕ) :
    (inmr02Iebcopy o nmem dataSize).length = 84 + o.dsn.length + o.dsn.count 0x2E := by
  have hname : (ascii "IEBCOPY").length = 7 := by decide
  simp only [inmr02Iebcopy, List.length_append, mvsInmrHdr_length, mvsTui_length, mvsTus_length, mvsTuDsname_length, hname,
    List.length_cons, List.length_nil]
  omega

theorem inmr02Inmcopy_length (unlSize : ℕ) : (inmr02Inmcopy o unlSize).length = 69 := by
  have hname : (ascii "INMCOPY").length = 7 := by decide
  simp only [inmr02Inmcopy, List.length_append, mvsInmrHdr_length, mvsTui_length, mvsTus_length, hname,
    List.length_cons, List.length_nil]
  omega

theorem inmr03_length (dataSize : ℕ) : (inmr03 dataSize).length = 42 := by
  simp only [inmr03, List.length_append, mvsInmrHdr_length, mvsTui_length]

end Control

section Sizes

variable (o : Options)

/-- The bytes of a record of `n` bytes with the headers of its segments. -/
def segmentedSize (n : ℕ) : ℕ := n + 2 * segmentCount n

/-- The bytes that the control records take. -/
def controlSize : ℕ :=
  segmentedSize (85 + 2 * min 44 o.userid.length) + segmentedSize (84 + o.dsn.length + o.dsn.count 0x2E) + segmentedSize 69 +
    segmentedSize 42 + segmentedSize 6

/-- The segments that a member of `n` lines takes. -/
def memberSegments (n : ℕ) : ℕ :=
  let dl := n % rpb o * o.lrecl
  n / rpb o * segmentCount (o.blksize + 12) +
    if n % rpb o = 0 then 1 else if dl + 4 ≤ o.blksize then segmentCount (dl + 24) else segmentCount (dl + 12) + 1

/-- The bytes that a member of `n` lines takes in the unloaded image. -/
def memberBytes (n : ℕ) : ℕ := n * o.lrecl + 12 * ((n + rpb o - 1) / rpb o) + 12

/-- The bytes of the unloaded image of members with so many lines each. -/
def unloadBytes (lines : List ℕ) : ℕ := 340 + 276 * countDirBlocks o lines.length + (lines.map (memberBytes o)).sum

/-- The bytes of the transmission, before the last card is filled up. -/
def xmitBytes (lines : List ℕ) : ℕ :=
  controlSize o + unloadBytes o lines + 2 * (3 + 2 * countDirBlocks o lines.length + (lines.map (memberSegments o)).sum)

variable {o}

theorem memberFrames_segments (n : ℕ) : ((memberFrames o n).map segmentCount).sum = memberSegments o n := by
  have h12 : segmentCount 12 = 1 := rfl
  rw [memberFrames, memberSegments]
  simp only [List.map_append, List.map_replicate, List.sum_append, List.sum_replicate, smul_eq_mul]
  split_ifs
  · simp [h12]
  · simp
  · simp [h12]

theorem memberFrames_sum (hacc : o.Accepted) (n : ℕ) : (memberFrames o n).sum = memberBytes o n := by
  have hpos := rpb_pos hacc
  have hdiv := Nat.div_add_mod n (rpb o)
  have hmod := Nat.mod_lt n hpos
  have hbytes : n * o.lrecl = n / rpb o * o.blksize + n % rpb o * o.lrecl := by
    conv_lhs => rw [← hdiv, Nat.add_mul, Nat.mul_comm (rpb o), Nat.mul_assoc, rpb_mul hacc]
  rw [memberFrames, memberBytes, hbytes, blockCount_eq hpos]
  simp only [List.sum_append, List.sum_replicate, smul_eq_mul, Nat.mul_add]
  split_ifs with h0
  · simp only [h0, List.sum_singleton]
    omega
  · simp only [List.sum_singleton]
    omega
  · simp only [List.sum_cons, List.sum_nil]
    omega

theorem blocks_bytes (hacc : o.Accepted) (m : Member) : ((blocks o m).map fun b => 12 + b.len).sum + 12 = memberBytes o m.nrec := by
  have hpos := rpb_pos hacc
  have hdiv := Nat.div_add_mod m.nrec (rpb o)
  have hbytes : m.nrec * o.lrecl = m.nrec / rpb o * o.blksize + m.nrec % rpb o * o.lrecl := by
    conv_lhs => rw [← hdiv, Nat.add_mul, Nat.mul_comm (rpb o), Nat.mul_assoc, rpb_mul hacc]
  have hmap : (blocks o m).map (fun b => 12 + b.len) = (blockLens o m.nrec).map (12 + ·) := by
    rw [← blocks_lens hacc, List.map_map]
    rfl
  rw [hmap, blockLens, memberBytes, hbytes, blockCount_eq hpos]
  simp only [List.map_append, List.map_replicate, List.sum_append, List.sum_replicate, smul_eq_mul, Nat.mul_add]
  split_ifs with h0
  · simp only [h0, List.map_nil, List.sum_nil]
    omega
  · simp only [List.map_singleton, List.sum_singleton]
    omega

theorem unloadSize_eq (hacc : o.Accepted) (mem : List Member) : unloadSize o mem = unloadBytes o (mem.map Member.nrec) := by
  have hmap : mem.map (fun m => ((blocks o m).map fun b => 12 + b.len).sum + 12) = (mem.map Member.nrec).map (memberBytes o) := by
    rw [List.map_map]
    apply List.map_congr_left
    intro m _
    exact blocks_bytes hacc m
  rw [unloadSize, hmap, unloadBytes, List.length_map, mvsEnvHdrLen, dirBlk]
  omega

theorem logRecs_length (rs : List LogRec) : (rs.flatMap mvsNetdataSeg).length = (rs.map fun r => segmentedSize r.b.length).sum := by
  induction rs with
  | nil => rfl
  | cons r rs ih => rw [List.flatMap_cons, List.length_append, ih, mvsNetdataSeg_length, List.map_cons, List.sum_cons, segmentedSize]

theorem segmentedSize_sum (ls : List ℕ) : (ls.map segmentedSize).sum = ls.sum + 2 * (ls.map segmentCount).sum := by
  induction ls with
  | nil => rfl
  | cons n ls ih =>
    rw [List.map_cons, List.sum_cons, ih, List.sum_cons, List.map_cons, List.sum_cons, segmentedSize]
    ring

theorem dirRecords_size (mem : List Member) : ((dirRecords (emitUnload o mem)).map fun b => segmentedSize b.length).sum =
    280 * countDirBlocks o mem.length + 12 := by
  obtain ⟨ds, d, hrecs, -, hckd, hcount⟩ := dirRecords_spec (o := o) mem
  have hds : ∀ n ∈ ds.map (fun b => segmentedSize b.length), n = 280 := by
    intro n hn
    obtain ⟨b, hb, rfl⟩ := List.mem_map.mp hn
    rw [(hckd b (List.mem_append_left _ hb)).2.1]
    rfl
  have hd : segmentedSize (d ++ List.replicate 12 0x00).length = 292 := by
    rw [List.length_append, (hckd d (List.mem_append_right _ List.mem_cons_self)).2.1, List.length_replicate]
    rfl
  rw [hrecs, List.map_append, List.sum_append, List.eq_replicate_of_mem hds, List.sum_replicate, List.length_map, smul_eq_mul,
    List.map_singleton, List.sum_singleton, hd]
  omega

theorem dataRecords_size (hacc : o.Accepted) {mem : List Member} (hmem : ∀ m ∈ mem, m.data.length = m.nrec * o.lrecl) :
    ((dataRecords o (emitUnload o mem)).map fun b => segmentedSize b.length).sum =
      ((mem.map Member.nrec).map (memberBytes o)).sum + 2 * ((mem.map Member.nrec).map (memberSegments o)).sum := by
  obtain ⟨gs, hrecs, -, hlens⟩ := dataRecords_spec hacc hmem
  have hmap : (dataRecords o (emitUnload o mem)).map (fun b => segmentedSize b.length) =
      (mem.flatMap fun m => memberFrames o m.nrec).map segmentedSize := by
    rw [hrecs, ← hlens, List.map_map, List.map_map]
    rfl
  rw [hmap]
  clear hmap hlens hrecs hmem
  induction mem with
  | nil => rfl
  | cons m mem ih =>
    rw [List.flatMap_cons, List.map_append, List.sum_append, ih, segmentedSize_sum, memberFrames_sum hacc, memberFrames_segments]
    simp only [List.map_cons, List.sum_cons]
    ring

theorem copyRecords_size (mem : List Member) : ((copyRecords (emitUnload o mem)).map fun b => segmentedSize b.length).sum = 334 := by
  have hlen : 328 ≤ (emitUnload o mem).bytes.length := by
    simp only [Unload.bytes, List.length_append, header_length]
    omega
  have h1 : ((emitUnload o mem).bytes.take mvsCopyr1Len).length = 52 := by
    rw [List.length_take, mvsCopyr1Len]
    omega
  have h2 : (((emitUnload o mem).bytes.drop mvsCopyr1Len).take (mvsEnvHdrLen - mvsCopyr1Len)).length = 276 := by
    rw [List.length_take, List.length_drop, mvsCopyr1Len, mvsEnvHdrLen]
    omega
  rw [copyRecords, List.map_cons, List.map_singleton, h1, h2]
  rfl

end Sizes

section Transmission

variable {o : Options} {mem : List Member}

theorem segmentCount_one {n : ℕ} (h : n ≤ 253) : segmentCount n = 1 := by
  rw [segmentCount]
  omega

theorem controlRecords_size (mem : List Member) (u : Unload) :
    ((controlRecords o mem u).map fun b => segmentedSize b.length).sum + segmentedSize inmr06.length = controlSize o := by
  have h6 : inmr06.length = 6 := rfl
  rw [controlRecords, controlSize]
  simp only [List.map_cons, List.map_nil, List.sum_cons, List.sum_nil, inmr01_length, inmr02Iebcopy_length,
    inmr02Inmcopy_length, inmr03_length, h6]
  ring

theorem logRecs_size (hacc : o.Accepted) (hmem : ∀ m ∈ mem, m.data.length = m.nrec * o.lrecl) :
    ((logRecs o mem).flatMap mvsNetdataSeg).length = xmitBytes o (mem.map Member.nrec) := by
  have hcontrol := controlRecords_size (o := o) mem (emitUnload o mem)
  have hcopy := copyRecords_size (o := o) mem
  have hdir := dirRecords_size (o := o) mem
  have hdata := dataRecords_size hacc hmem
  rw [logRecs_length, logRecs]
  simp only [List.map_append, List.map_map, List.sum_append, List.map_singleton, List.sum_singleton, Function.comp_def]
  rw [hcopy, hdir, hdata, xmitBytes, unloadBytes, List.length_map]
  omega

theorem emitXmit_length (hacc : o.Accepted) (hmem : ∀ m ∈ mem, m.data.length = m.nrec * o.lrecl) :
    (emitXmit o mem).length = (xmitBytes o (mem.map Member.nrec) + 79) / 80 * 80 := by
  rw [emitXmit, List.length_append, List.length_replicate, logRecs_size hacc hmem]
  omega

/-- Every control record but the one with the name of the data set has room in any case. -/
theorem controlRecords_fit_iff (mem : List Member) : (∀ r ∈ logRecs o mem, r.control = true → r.b.length ≤ 1024) ↔
    o.dsn.length + o.dsn.count 0x2E ≤ 940 := by
  have hcontrol : (∀ r ∈ logRecs o mem, r.control = true → r.b.length ≤ 1024) ↔
      ∀ b ∈ controlRecords o mem (emitUnload o mem) ++ [inmr06], b.length ≤ 1024 := by
    simp only [logRecs, List.mem_append, List.mem_map, List.mem_singleton]
    constructor
    · rintro h b (hb | rfl)
      · exact h ⟨true, b⟩ (.inl (.inl ⟨b, hb, rfl⟩)) rfl
      · exact h ⟨true, inmr06⟩ (.inr rfl) rfl
    · rintro h r ((⟨b, hb, rfl⟩ | ⟨b, -, rfl⟩) | rfl) hr
      · exact h b (.inl hb)
      · exact absurd hr (by simp)
      · exact h inmr06 (.inr rfl)
  have h6 : inmr06.length = 6 := rfl
  rw [hcontrol, controlRecords]
  simp only [List.mem_append, List.mem_cons, List.not_mem_nil, or_false, or_imp, forall_and, forall_eq, inmr01_length,
    inmr02Iebcopy_length, inmr02Inmcopy_length, inmr03_length, h6]
  omega

theorem xmitBytes_perm {ls ls' : List ℕ} (h : ls.Perm ls') : xmitBytes o ls = xmitBytes o ls' ∧ unloadBytes o ls = unloadBytes o ls' := by
  have hbytes := (h.map (memberBytes o)).sum_eq
  have hsegs := (h.map (memberSegments o)).sum_eq
  have hunload : unloadBytes o ls = unloadBytes o ls' := by rw [unloadBytes, unloadBytes, h.length_eq, hbytes]
  exact ⟨by rw [xmitBytes, xmitBytes, hunload, h.length_eq, hsegs], hunload⟩

/-- The transmission fits its buffer, and each control record its work area, exactly when the headers of
the segments are few enough for the size of the image, and the name of the data set is short enough. -/
theorem capacity_iff {srcs : List Source} (h : createMembers o srcs = some mem) :
    ((emitXmit o mem).length ≤ xcap o mem ∧ ∀ r ∈ logRecs o mem, r.control = true → r.b.length ≤ 1024) ↔
    (xmitBytes o (srcs.map fun s => (rawLines s.raw).length) + 79) / 80 * 80 ≤
        unloadBytes o (srcs.map fun s => (rawLines s.raw).length) +
          unloadBytes o (srcs.map fun s => (rawLines s.raw).length) / 32 + 65536 ∧
      o.dsn.length + o.dsn.count 0x2E ≤ 940 := by
  obtain ⟨hacc, srcs', hperm, hpairs⟩ := createMembers_spec h
  have hmem : ∀ m ∈ mem, m.data.length = m.nrec * o.lrecl := by
    intro m hm
    obtain ⟨s, -, hs⟩ := Pairing.exists_left hpairs hm
    exact (toMember_spec hs).1
  have hlines : (srcs'.map fun s => (rawLines s.raw).length) = mem.map Member.nrec := by
    apply Pairing.map_eq_map
    apply hpairs.imp
    intro s m hsm
    exact (toMember_spec hsm).2.symm
  have hperm' : (mem.map Member.nrec).Perm (srcs.map fun s => (rawLines s.raw).length) := by
    rw [← hlines]
    exact hperm.map _
  obtain ⟨hxmit, hunload⟩ := xmitBytes_perm (o := o) hperm'
  rw [emitXmit_length hacc hmem, xcap, unloadSize_eq hacc, hxmit, hunload, controlRecords_fit_iff]

end Transmission

section Examples

theorem rawLines_newlines (n : ℕ) : rawLines (List.replicate n 0x0A) = List.replicate n [] := by
  have hflat : List.replicate n 0x0A = (List.replicate n []).flatMap fun l : List UInt8 => l ++ [0x0A] := by
    rw [List.flatMap_replicate]
    simp
  rw [hflat]
  apply rawLines_unlines
  intro l hl
  rw [(List.mem_replicate.mp hl).2]
  exact List.not_mem_nil

theorem textToRecords_newlines (o : Options) (n : ℕ) :
    textToRecords o (List.replicate n 0x0A) = some (List.replicate n (List.replicate o.lrecl 0x40)) := by
  have hline : lineRecord o [] = some (List.replicate o.lrecl 0x40) := rfl
  rw [textToRecords, rawLines_newlines]
  induction n with
  | zero => rfl
  | succ n ih =>
    rw [List.replicate_succ, List.mapM_cons, hline, ih]
    rfl

theorem createMembers_newlines {o : Options} (hacc : o.Accepted) (n : ℕ) : ∃ mem, createMembers o [emptyLines n] = some mem := by
  have hsort : [emptyLines n].insertionSort (fun s t => (mvsName8 s.name).toList ≤ (mvsName8 t.name).toList) = [emptyLines n] := rfl
  have hone : ∀ s ∈ [emptyLines n], 1 ≤ s.name.length ∧ s.name.length ≤ 8 := by
    intro s hs
    rw [List.mem_singleton.mp hs]
    have hlen : (emptyLines n).name.length = 1 := rfl
    omega
  have hmember : toMember o (emptyLines n) = some ⟨mvsName8 [0x41], (List.replicate n (List.replicate o.lrecl 0x40)).flatten,
      (List.replicate n (List.replicate o.lrecl (0x40 : UInt8))).length, ⟨2026, 1, 1, 0, 0, 0, 0⟩⟩ := by
    rw [toMember, emptyLines, textToRecords_newlines]
    rfl
  rw [createMembers, if_pos ⟨hacc, List.cons_ne_nil _ _, hone, by rw [hsort]; exact List.pairwise_singleton _ _⟩, hsort,
    List.mapM_cons, hmember]
  exact ⟨_, rfl⟩

theorem oneLine_fits : ∃ mem, createMembers shortRecords [emptyLines 1] = some mem ∧
    (emitXmit shortRecords mem).length ≤ xcap shortRecords mem := by
  obtain ⟨mem, hmem⟩ := createMembers_newlines (o := shortRecords) (by decide) 1
  refine ⟨mem, hmem, ?_⟩
  apply ((capacity_iff hmem).mpr _).1
  decide +kernel

/-- Unblocked records of one byte. -/
def oneByteRecords : Options := { shortRecords with lrecl := 1, blocksize := none, recfm := .f }

/-- A name of 941 characters without a period. -/
def longName : Options := { shortRecords with dsn := List.replicate 941 0x41 }

theorem manyLines_overflow : (∃ mem, createMembers oneByteRecords [emptyLines 41500] = some mem ∧
      (emitXmit oneByteRecords mem).length = 623440 ∧ xcap oneByteRecords mem = 622543) ∧
    ∃ mem, createMembers longName [emptyLines 1] = some mem ∧ ∃ r ∈ logRecs longName mem, r.control = true ∧ r.b.length = 1025 := by
  constructor
  · have hacc : oneByteRecords.Accepted := by decide
    obtain ⟨mem, hmem⟩ := createMembers_newlines hacc 41500
    obtain ⟨-, srcs', hperm, hpairs⟩ := createMembers_spec hmem
    have hsizes : ∀ m ∈ mem, m.data.length = m.nrec * oneByteRecords.lrecl := by
      intro m hm
      obtain ⟨s, -, hs⟩ := Pairing.exists_left hpairs hm
      exact (toMember_spec hs).1
    obtain rfl : srcs' = [emptyLines 41500] := List.perm_singleton.mp hperm
    obtain ⟨m, hm, rfl⟩ : ∃ m, toMember oneByteRecords (emptyLines 41500) = some m ∧ mem = [m] := by
      cases hpairs with
      | cons hm hnil =>
        cases hnil with
        | nil => exact ⟨_, hm, rfl⟩
    have hlines : m.nrec = 41500 := by
      rw [(toMember_spec hm).2, emptyLines, rawLines_newlines, List.length_replicate]
    refine ⟨[m], hmem, ?_, ?_⟩
    · rw [emitXmit_length hacc hsizes, List.map_singleton, hlines]
      decide +kernel
    · rw [xcap, unloadSize_eq hacc, List.map_singleton, hlines]
      decide +kernel
  · obtain ⟨mem, hmem⟩ := createMembers_newlines (o := longName) (by decide) 1
    refine ⟨mem, hmem, ⟨true, inmr02Iebcopy longName mem.length (bounds3 (emitUnload longName mem) - bounds2 (emitUnload longName mem))⟩,
      ?_, rfl, ?_⟩
    · rw [logRecs]
      exact List.mem_append_left _ (List.mem_append_left _ (List.mem_cons_of_mem _ List.mem_cons_self))
    · rw [inmr02Iebcopy_length]
      decide +kernel

end Examples

end Cc370.Xmit370
