import Cc370.Xmit370.Transmission
import Cc370.Xmit370.TextLines
import Cc370.Directory
import Cc370.Lib.Packing

namespace Cc370.Xmit370

open Slices Tracks Packing

section Ckd

variable {u : Buffer} {q : ℕ} {r : List UInt8}

/-- The data length that a CKD record says it has. -/
def dlOf (r : List UInt8) : ℕ := mvsBe16 (ofBytes r) 10

/-- A CKD record: the count, the key and the data. -/
def IsCkd (r : List UInt8) : Prop := r.length = 12 + (ofBytes r 9).toNat + dlOf r

theorem at_getElem (h : At u q r) {k : ℕ} (hk : k < r.length) : u (q + k) = ofBytes r k := by
  rw [h k hk, ofBytes, List.getD_eq_getElem _ _ hk]

theorem IsCkd.dl (hr : IsCkd r) (h : At u q r) : mvsBe16 u (q + 10) = dlOf r := by
  have hlen : 12 ≤ r.length := by
    rw [hr]
    omega
  rw [mvsBe16, at_getElem h (by omega), add_assoc, at_getElem h (by omega)]
  rfl

theorem IsCkd.len (hr : IsCkd r) (h : At u q r) : ckdLen u q = r.length := by
  have hlen : 12 ≤ r.length := by
    rw [hr]
    omega
  rw [ckdLen, hr.dl h, at_getElem h (by omega), hr]

def endsMember (r : List UInt8) : Bool := dlOf r = 0

theorem IsCkd.pos (hr : IsCkd r) : 0 < r.length := by
  rw [hr]
  omega

theorem frameLen_eq {rs : List (List UInt8)} (hrs : ∀ r ∈ rs, IsCkd r) {limit b3 fuel : ℕ} (clen : ℕ) (h : At u q rs.flatten)
    (hb3 : b3 = q + rs.flatten.length) (hfuel : rs.length ≤ fuel) :
    frameLen u b3 limit fuel q clen = clen + (fill List.length endsMember limit clen rs).1.flatten.length := by
  induction rs generalizing q clen fuel with
  | nil =>
    rw [List.flatten_nil, List.length_nil, add_zero] at hb3
    cases fuel with
    | zero => rfl
    | succ fuel =>
      rw [frameLen, if_neg (by omega)]
      rfl
  | cons r rs ih =>
    obtain ⟨fuel, rfl⟩ := Nat.exists_eq_add_one_of_ne_zero (Nat.ne_of_gt (Nat.zero_lt_of_lt hfuel))
    have hr := hrs r List.mem_cons_self
    have hpos := hr.pos
    rw [List.flatten_cons] at h hb3
    rw [List.length_append] at hb3
    rw [frameLen, if_pos (by omega), hr.len h.left, hr.dl h.left, fill]
    simp only [endsMember, decide_eq_true_eq]
    split_ifs
    · rfl
    · simp
    · simp
    · have hih := ih (fun x hx => hrs x (List.mem_cons_of_mem _ hx)) (clen + r.length) h.right (by omega)
        (by simpa using hfuel)
      rw [hih, List.flatten_cons, List.length_append, add_assoc]

theorem slice_middle (pre mid post : List UInt8) : slice (pre ++ mid ++ post) (pre.length, mid.length) = mid := by
  rw [slice, List.append_assoc, List.drop_left, List.take_left]

theorem at_ofBytes_middle (pre l : List UInt8) : At (ofBytes (pre ++ l)) pre.length l := by
  intro k hk
  rw [ofBytes_append_right, ofBytes, List.getD_eq_getElem _ _ hk]

theorem length_le_flatten {rs : List (List UInt8)} (hrs : ∀ r ∈ rs, IsCkd r) : rs.length ≤ rs.flatten.length := by
  induction rs with
  | nil => exact Nat.le_refl 0
  | cons r rs ih =>
    have hpos := (hrs r List.mem_cons_self).pos
    have hle := ih fun x hx => hrs x (List.mem_cons_of_mem _ hx)
    rw [List.length_cons, List.flatten_cons, List.length_append]
    omega

/-- The logical records of the members are their CKD records, packed. -/
theorem dataFrames_eq {rs : List (List UInt8)} (hrs : ∀ r ∈ rs, IsCkd r) {limit fuel : ℕ} (pre : List UInt8)
    (hfuel : rs.length ≤ fuel) :
    (dataFrames (ofBytes (pre ++ rs.flatten)) (pre ++ rs.flatten).length limit fuel pre.length).map (slice (pre ++ rs.flatten)) =
      (pack List.length endsMember limit rs).map List.flatten := by
  fun_induction pack List.length endsMember limit rs generalizing pre fuel with
  | case1 =>
    cases fuel with
    | zero => rfl
    | succ fuel =>
      rw [dataFrames, if_neg (by simp)]
      rfl
  | case2 r rs ih =>
    obtain ⟨fuel, rfl⟩ := Nat.exists_eq_add_one_of_ne_zero (Nat.ne_of_gt (Nat.zero_lt_of_lt hfuel))
    have happend := fill_append List.length endsMember limit 0 (r :: rs)
    have hrest := fill_rest_lt List.length endsMember limit r rs
    have hle : (r :: rs).length ≤ (pre ++ (r :: rs).flatten).length := by
      apply (length_le_flatten hrs).trans
      rw [List.length_append]
      exact Nat.le_add_left _ _
    have hlen : frameLen (ofBytes (pre ++ (r :: rs).flatten)) (pre ++ (r :: rs).flatten).length limit
        (pre ++ (r :: rs).flatten).length pre.length 0 = (fill List.length endsMember limit 0 (r :: rs)).1.flatten.length := by
      rw [frameLen_eq hrs 0 (at_ofBytes_middle pre _) (List.length_append ..) hle, zero_add]
    have hpos := (hrs r List.mem_cons_self).pos
    rw [dataFrames, if_pos (by rw [List.length_append, List.flatten_cons, List.length_append]; omega), hlen, List.map_cons,
      List.map_cons]
    generalize fill List.length endsMember limit 0 (r :: rs) = f at *
    have hsplit : pre ++ (r :: rs).flatten = (pre ++ f.1.flatten) ++ f.2.flatten := by
      rw [← happend, List.flatten_append, List.append_assoc]
    have hfuel' : f.2.length ≤ fuel := by
      simp only [List.length_cons] at hrest hfuel
      omega
    have hih := ih (fun x hx => hrs x (by rw [← happend]; exact List.mem_append_right _ hx)) (pre ++ f.1.flatten) hfuel'
    rw [← hsplit] at hih
    rw [← List.length_append, hih]
    congr 1
    rw [hsplit, slice_middle]

/-- Every logical record is made of whole CKD records, and none has one that ends a member before its last. -/
theorem mem_dataFrames {rs : List (List UInt8)} (hrs : ∀ r ∈ rs, IsCkd r) {limit : ℕ} {g : List (List UInt8)}
    (hg : g ∈ pack List.length endsMember limit rs) : (∀ r ∈ g, IsCkd r) ∧ ∀ r ∈ g.dropLast, dlOf r ≠ 0 := by
  constructor
  · intro r hr
    exact hrs r (mem_pack_subset hg hr)
  · intro r hr
    have hstop := mem_pack_dropLast hg hr
    simpa [endsMember] using hstop

/-- The end of the directory goes with the last block. -/
theorem dirFrames_eq {ds : List (List UInt8)} (hds : ∀ d ∈ ds, IsCkd d) (hne : ds ≠ []) {eod : List UInt8} (heod : IsCkd eod)
    {fuel : ℕ} (pre post : List UInt8) (hfuel : ds.length ≤ fuel) :
    (dirFrames (ofBytes (pre ++ (ds.flatten ++ (eod ++ post)))) (pre.length + ds.flatten.length + eod.length) fuel pre.length).map
        (slice (pre ++ (ds.flatten ++ (eod ++ post)))) = ds.dropLast ++ [(ds.getLast hne) ++ eod] := by
  have heodPos := heod.pos
  induction ds generalizing pre fuel with
  | nil => exact absurd rfl hne
  | cons d ds ih =>
    obtain ⟨fuel, rfl⟩ := Nat.exists_eq_add_one_of_ne_zero (Nat.ne_of_gt (Nat.zero_lt_of_lt hfuel))
    have hd := hds d List.mem_cons_self
    have hpos := hd.pos
    have hat := at_ofBytes_middle pre ((d :: ds).flatten ++ (eod ++ post))
    rw [List.flatten_cons, List.append_assoc] at hat
    rw [dirFrames, List.flatten_cons, List.append_assoc, List.length_append, if_pos (by omega), hd.len hat.left]
    cases ds with
    | nil =>
      have hnext : ckdLen (ofBytes (pre ++ (d ++ (eod ++ post)))) (pre.length + d.length) = eod.length := by
        have hright := hat.right
        rw [List.flatten_nil, List.nil_append] at hright
        exact heod.len hright.left
      have hdone : ∀ fuel b, dirFrames (ofBytes (pre ++ (d ++ (eod ++ post)))) b fuel b = [] := by
        intro fuel b
        cases fuel with
        | zero => rfl
        | succ fuel => rw [dirFrames, if_neg (Nat.lt_irrefl b)]
      simp only [List.flatten_nil, List.nil_append, List.length_nil, add_zero, hnext]
      rw [if_pos (by omega), ← add_assoc, hdone, List.map_singleton, List.dropLast_singleton, List.nil_append,
        List.getLast_singleton, ← List.length_append, ← List.append_assoc d, ← List.append_assoc pre, slice_middle]
    | cons d' ds =>
      have hd' := hds d' (List.mem_cons_of_mem _ List.mem_cons_self)
      have hnext : ckdLen (ofBytes (pre ++ (d ++ ((d' :: ds).flatten ++ (eod ++ post))))) (pre.length + d.length) = d'.length := by
        apply hd'.len
        have hblocks := hat.right.left
        rw [← List.singleton_append, List.flatten_append, List.flatten_singleton] at hblocks
        exact hblocks.left
      have hsum : (d' :: ds).flatten.length = d'.length + ds.flatten.length := by rw [List.flatten_cons, List.length_append]
      have hih := ih (fun x hx => hds x (List.mem_cons_of_mem _ hx)) (List.cons_ne_nil d' ds) (pre ++ d)
        (by simpa using hfuel)
      rw [List.length_append, List.append_assoc] at hih
      dsimp only
      rw [hnext, if_neg (by omega), List.map_cons, ← add_assoc, hih, List.dropLast_cons_of_ne_nil (List.cons_ne_nil d' ds),
        List.getLast_cons (List.cons_ne_nil d' ds), List.cons_append]
      congr 1
      rw [← List.append_assoc pre, slice_middle]

end Ckd

section Image

variable {o : Options}

theorem ckd_bytes_length {c : Ckd} (hc : c.data.length = c.spot.len) : c.bytes.length = c.spot.len + 12 := by
  rw [Ckd.bytes, List.length_append, mvsPutCount_length, hc, Nat.add_comm]

theorem mvsPutCount_fields (cc hh r kl dl : ℕ) (rest : List UInt8) :
    ofBytes (mvsPutCount cc hh r kl dl ++ rest) 9 = .ofNat kl ∧ mvsBe16 (ofBytes (mvsPutCount cc hh r kl dl ++ rest)) 10 = dl % 65536 := by
  refine ⟨rfl, ?_⟩
  have hat : At (ofBytes (mvsPutCount cc hh r kl dl ++ rest)) 10 (mvsPut16 dl) := by
    intro k hk
    have hk' : k = 0 ∨ k = 1 := by
      rw [mvsPut16_length] at hk
      omega
    rcases hk' with rfl | rfl
    · rfl
    · rfl
  have hbe := mvsBe16_at hat
  omega

theorem ckd_isCkd {c : Ckd} (hc : c.data.length = c.spot.len) (hlt : c.spot.len < 65536) :
    IsCkd c.bytes ∧ dlOf c.bytes = c.spot.len := by
  obtain ⟨hkl, hdl⟩ := mvsPutCount_fields (mvsUnloadDataCc + c.spot.tt / mvsTrkpercyl3350) (c.spot.tt % mvsTrkpercyl3350)
    c.spot.r 0 c.spot.len c.data
  rw [← Ckd.bytes] at hkl hdl
  have hdl' : dlOf c.bytes = c.spot.len := by
    rw [dlOf, hdl]
    omega
  refine ⟨?_, hdl'⟩
  have hzero : (UInt8.ofNat 0).toNat = 0 := rfl
  rw [IsCkd, ckd_bytes_length hc, hkl, hdl', hzero, Nat.add_comm]

theorem eod_isCkd : IsCkd (List.replicate 12 0x00) := rfl

theorem entry_length (p : Placed) : (entry o p).length = entLen o := by
  have hstats : ∀ m, (buildIspfStats o m).length = 30 := by
    intro m
    simp [buildIspfStats, packedDate]
  rw [entry, entLen, udLen]
  split_ifs
  · simp [hstats]
  · simp

theorem dirBody_length {last : Bool} {g : List Placed} (hroom : g.length ≤ if last then perLast o else perFull o) :
    (dirBody o last g).length = 256 := by
  have hflat : (g.flatMap (entry o)).length = g.length * entLen o := by
    induction g with
    | nil => simp
    | cons p g ih =>
      rw [List.flatMap_cons, List.length_append, entry_length, ih (by simp only [List.length_cons] at hroom; omega),
        List.length_cons, Nat.succ_mul, Nat.add_comm]
  have hpos : 0 < entLen o := by
    rw [entLen]
    omega
  have hfit : g.length * entLen o ≤ if last then 256 - 2 - 12 else 256 - 2 := by
    cases last with
    | false => exact (Nat.mul_le_mul_right _ hroom).trans (Nat.div_mul_le_self _ _)
    | true => exact (Nat.mul_le_mul_right _ hroom).trans (Nat.div_mul_le_self _ _)
  rw [dirBody]
  simp only [List.length_append, List.length_replicate, mvsPut16_length, hflat, dirBlk]
  cases last with
  | false =>
    simp only [Bool.false_eq_true, if_false, List.length_nil] at hfit ⊢
    omega
  | true =>
    simp only [if_true, List.length_replicate] at hfit ⊢
    omega

theorem dirBlock_isCkd {last : Bool} {g : List Placed} (hroom : g.length ≤ if last then perLast o else perFull o)
    (hne : last = false → g ≠ []) :
    IsCkd (dirBlock o last g) ∧ (dirBlock o last g).length = 276 ∧ dlOf (dirBlock o last g) = 256 := by
  have hlen : (dirBlock o last g).length = 276 := by
    rw [dirBlock, List.length_append, List.length_append, mvsPutCount_length, dirBody_length hroom]
    cases last with
    | true => rfl
    | false =>
      obtain ⟨p, hp⟩ := List.getLast?_isSome.mpr (hne rfl) |> Option.isSome_iff_exists.mp
      simp [hp]
  obtain ⟨hkl, hdl⟩ := mvsPutCount_fields 0 0 0 8 dirBlk
    ((if last then List.replicate 8 0xFF else (g.getLast?.map fun p => p.mem.ebc.toList).getD []) ++ dirBody o last g)
  rw [← List.append_assoc, ← dirBlock] at hkl hdl
  refine ⟨?_, hlen, hdl⟩
  rw [IsCkd, hlen, hkl, dlOf, hdl]
  rfl

/-- The groups of a directory: each has room, none but the last is empty. -/
theorem dirGroups_spec (mem : List Placed) : ∃ gs g, dirGroups o mem = gs ++ [g] ∧ g.length ≤ perLast o ∧
    (∀ h ∈ gs, h.length ≤ perFull o ∧ h ≠ []) ∧ gs.length + 1 = countDirBlocks o mem.length := by
  fun_induction dirGroups o mem with
  | case1 mem h =>
    refine ⟨[], mem, rfl, h, nofun, ?_⟩
    rw [countDirBlocks, if_pos h]
    rfl
  | case2 mem h ih =>
    obtain ⟨gs, g, hgs, hg, hroom, hcount⟩ := ih
    have hpos := perFull_pos o
    refine ⟨mem.take (perFull o) :: gs, g, ?_, hg, ?_, ?_⟩
    · rw [hgs, List.cons_append]
    · intro x hx
      rcases List.mem_cons.mp hx with rfl | hx
      · refine ⟨List.length_take_le _ _, ?_⟩
        rw [ne_eq, List.take_eq_nil_iff]
        rintro (h0 | rfl)
        · omega
        · exact h (Nat.zero_le _)
      · exact hroom x hx
    · rw [countDirBlocks, if_neg h, ← List.length_drop, ← hcount, List.length_cons]
      omega

theorem zipIdx_append_singleton {α : Type} (gs : List α) (g : α) :
    (gs ++ [g]).zipIdx = gs.zipIdx ++ [(g, gs.length)] := by
  rw [List.zipIdx_append]
  simp

/-- The blocks of a directory. -/
theorem directory_spec (mem : List Placed) : ∃ ds d, directory o (dirGroups o mem) = ds ++ [d] ∧
    (∀ b ∈ ds ++ [d], IsCkd b ∧ b.length = 276 ∧ dlOf b = 256) ∧ ds.length + 1 = countDirBlocks o mem.length := by
  obtain ⟨gs, g, hgs, hg, hroom, hcount⟩ := dirGroups_spec (o := o) mem
  have hflag : ∀ x ∈ gs.zipIdx, decide (x.2 + 1 = (gs ++ [g]).length) = false := by
    intro x hx
    have hlt := (List.mem_zipIdx' hx).1
    rw [decide_eq_false_iff_not, List.length_append, List.length_singleton]
    omega
  refine ⟨gs.zipIdx.map fun x => dirBlock o false x.1, dirBlock o true g, ?_, ?_, ?_⟩
  · rw [directory, hgs, zipIdx_append_singleton, List.map_append, List.map_singleton]
    congr 1
    · apply List.map_congr_left
      intro x hx
      rw [hflag x hx]
    · simp
  · intro b hb
    rcases List.mem_append.mp hb with hb | hb
    · obtain ⟨x, hx, rfl⟩ := List.mem_map.mp hb
      obtain ⟨hle, hne⟩ := hroom x.1 (List.fst_mem_of_mem_zipIdx hx)
      exact dirBlock_isCkd hle fun _ => hne
    · rw [List.mem_singleton.mp hb]
      exact dirBlock_isCkd hg nofun
  · rw [List.length_map, List.length_zipIdx, hcount]

end Image

section Members

variable {o : Options} {srcs : List Source} {mem : List Member}

/-- The members are the sources in another order. -/
theorem createMembers_spec (h : createMembers o srcs = some mem) : o.Accepted ∧
    ∃ srcs', srcs'.Perm srcs ∧ List.Forall₂ (fun s m => toMember o s = some m) srcs' mem := by
  rw [createMembers] at h
  split_ifs at h with hok
  exact ⟨hok.1, _, List.perm_insertionSort _ _, Pairing.forall₂_of_mapM h⟩

theorem toMember_spec {s : Source} {m : Member} (h : toMember o s = some m) :
    m.data.length = m.nrec * o.lrecl ∧ m.nrec = (rawLines s.raw).length := by
  obtain ⟨rs, hrs, rfl⟩ := Option.map_eq_some_iff.mp h
  have hrecs := textToRecords_eq hrs
  refine ⟨?_, hrecs.length_eq.symm⟩
  have hlen : ∀ l ∈ rs.map List.length, l = o.lrecl := by
    intro l hl
    obtain ⟨r, hr, rfl⟩ := List.mem_map.mp hl
    obtain ⟨line, -, hline⟩ := Pairing.exists_left hrecs hr
    exact record_length hline
  dsimp only
  rw [List.length_flatten, List.eq_replicate_of_mem hlen, List.sum_replicate, List.length_map, smul_eq_mul]

def rpb (o : Options) : ℕ := o.blksize / o.lrecl

theorem rpb_mul (h : o.Accepted) : rpb o * o.lrecl = o.blksize := Nat.div_mul_cancel (Nat.dvd_of_mod_eq_zero h.2.2.1)

theorem rpb_pos (h : o.Accepted) : 0 < rpb o := Nat.div_pos h.2.1.1 h.1.1

theorem blockCount_eq {r : ℕ} (hpos : 0 < r) (n : ℕ) : (n + r - 1) / r = n / r + if n % r = 0 then 0 else 1 := by
  have hdiv := Nat.div_add_mod n r
  have hmod := Nat.mod_lt n hpos
  rw [Nat.mul_comm] at hdiv
  split_ifs with h0
  · rw [add_zero]
    apply Nat.div_eq_of_lt_le
    · omega
    · rw [Nat.succ_mul]
      omega
  · apply Nat.div_eq_of_lt_le
    · rw [Nat.succ_mul]
      omega
    · rw [Nat.succ_mul, Nat.succ_mul]
      omega

/-- The lengths of the blocks that `n` lines take. -/
def blockLens (o : Options) (n : ℕ) : List ℕ :=
  List.replicate (n / rpb o) o.blksize ++ if n % rpb o = 0 then [] else [n % rpb o * o.lrecl]

theorem blocks_lens (h : o.Accepted) (m : Member) : (blocks o m).map Blk.len = blockLens o m.nrec := by
  have hpos := rpb_pos h
  have hmul := rpb_mul h
  have hdiv := Nat.div_add_mod m.nrec (rpb o)
  have hmod := Nat.mod_lt m.nrec hpos
  rw [blocks, blockLens, ← rpb, List.map_map]
  generalize hk : m.nrec / rpb o = k at *
  generalize hr : m.nrec % rpb o = r at *
  have hfull : ∀ j < k, min (m.nrec - j * rpb o) (rpb o) * o.lrecl = o.blksize := by
    intro j hj
    have hle : (j + 1) * rpb o ≤ k * rpb o := Nat.mul_le_mul_right _ hj
    rw [Nat.succ_mul] at hle
    rw [Nat.mul_comm (rpb o) k] at hdiv
    rw [min_eq_right (by omega), hmul]
  have hmap : (List.range k).map (Blk.len ∘ fun j => (⟨j * rpb o * o.lrecl, min (m.nrec - j * rpb o) (rpb o) * o.lrecl⟩ : Blk)) =
      List.replicate k o.blksize := by
    apply List.eq_replicate_iff.mpr
    refine ⟨by simp, ?_⟩
    intro x hx
    obtain ⟨j, hj, rfl⟩ := List.mem_map.mp hx
    exact hfull j (List.mem_range.mp hj)
  rw [Nat.mul_comm (rpb o) k] at hdiv
  rw [blockCount_eq hpos, hk, hr]
  split_ifs with h0
  · rw [add_zero, hmap, List.append_nil]
  · rw [List.range_succ, List.map_append, hmap, List.map_singleton]
    congr 2
    simp only [Function.comp]
    rw [min_eq_left (by omega)]
    congr 1
    omega

theorem blocks_fit (hacc : o.Accepted) {m : Member} (hm : m.data.length = m.nrec * o.lrecl) {b : Blk} (hb : b ∈ blocks o m) :
    b.off + b.len ≤ m.data.length := by
  obtain ⟨j, hj, rfl⟩ := List.mem_map.mp hb
  have hpos := rpb_pos hacc
  have hlt : j * rpb o < m.nrec := by
    have hj' : (j + 1) * rpb o ≤ m.nrec + rpb o - 1 := (Nat.le_div_iff_mul_le hpos).mp (List.mem_range.mp hj)
    rw [Nat.succ_mul] at hj'
    omega
  dsimp only
  rw [← rpb, ← Nat.add_mul, hm]
  apply Nat.mul_le_mul_right
  omega

theorem placeMember_ckds (hacc : o.Accepted) (h : Head) {m : Member} (hm : m.data.length = m.nrec * o.lrecl) :
    ∀ c ∈ (placeMember o h m).ckds, c.data.length = c.spot.len := by
  intro c hc
  rw [Placed.ckds] at hc
  rcases List.mem_append.mp hc with hc | hc
  · obtain ⟨⟨b, s⟩, hbs, rfl⟩ := List.mem_map.mp hc
    have hlens : List.Forall₂ (fun b s => b.len = s.len) (blocks o m)
        (layout mvsTrkOvh3350 mvsTrkPackCap3350 h ((blocks o m).map Blk.len)) := by
      have heq : List.Forall₂ (· = ·) ((blocks o m).map Blk.len)
          ((layout mvsTrkOvh3350 mvsTrkPackCap3350 h ((blocks o m).map Blk.len)).map Spot.len) := by
        rw [layout_lens, List.forall₂_eq_eq_eq]
      exact List.forall₂_map_right_iff.mp (List.forall₂_map_left_iff.mp heq)
    have hfit : b.off + b.len ≤ (placeMember o h m).mem.data.length := blocks_fit hacc hm (List.of_mem_zip hbs).1
    have heq := List.forall₂_zip hlens hbs
    dsimp only
    rw [List.length_take, List.length_drop, ← heq]
    exact min_eq_left (by omega)
  · rw [List.mem_singleton.mp hc]
    rfl

theorem recordLens_lt (hacc : o.Accepted) (m : Member) {len : ℕ} (hlen : len ∈ recordLens o m) : len < 65536 := by
  have hmax : o.blksize ≤ 19069 := hacc.2.2.2.2
  rw [recordLens, blocks_lens hacc, blockLens] at hlen
  have hmod := Nat.mod_lt m.nrec (rpb_pos hacc)
  have hshort : m.nrec % rpb o * o.lrecl ≤ rpb o * o.lrecl := Nat.mul_le_mul_right _ hmod.le
  rw [rpb_mul hacc] at hshort
  rcases List.mem_append.mp hlen with hlen | hlen
  · rcases List.mem_append.mp hlen with hlen | hlen
    · rw [(List.mem_replicate.mp hlen).2]
      omega
    · split_ifs at hlen
      · exact absurd hlen List.not_mem_nil
      · rw [List.mem_singleton.mp hlen]
        omega
  · rw [List.mem_singleton.mp hlen]
    decide

/-- The CKD records of the members. -/
theorem data_isCkd (hacc : o.Accepted) (h : Head) {mem : List Member} (hmem : ∀ m ∈ mem, m.data.length = m.nrec * o.lrecl) :
    (∀ c ∈ (assignGeometry o h mem).flatMap Placed.ckds, IsCkd c.bytes ∧ dlOf c.bytes = c.spot.len ∧
      c.bytes.length = c.spot.len + 12) ∧
    (((assignGeometry o h mem).flatMap Placed.ckds).map fun c => c.bytes.length) = (mem.flatMap (recordLens o)).map (· + 12) := by
  have hspots := assignGeometry_spots (o := o) h mem
  have hsized : ∀ c ∈ (assignGeometry o h mem).flatMap Placed.ckds, c.data.length = c.spot.len := by
    clear hspots
    induction mem generalizing h with
    | nil => exact nofun
    | cons m mem ih =>
      intro c hc
      rw [assignGeometry, List.flatMap_cons, List.mem_append] at hc
      rcases hc with hc | hc
      · exact placeMember_ckds hacc h (hmem m List.mem_cons_self) c hc
      · exact ih _ (fun x hx => hmem x (List.mem_cons_of_mem _ hx)) c hc
  have hlens : ((assignGeometry o h mem).flatMap Placed.ckds).map (fun c => c.spot.len) = mem.flatMap (recordLens o) := by
    rw [← layout_lens mvsTrkOvh3350 mvsTrkPackCap3350 h (mem.flatMap (recordLens o)), ← hspots, List.map_map]
    rfl
  have hlt : ∀ c ∈ (assignGeometry o h mem).flatMap Placed.ckds, c.spot.len < 65536 := by
    intro c hc
    have hmemLen : c.spot.len ∈ mem.flatMap (recordLens o) := by
      rw [← hlens]
      exact List.mem_map_of_mem hc
    obtain ⟨m, -, hlen⟩ := List.mem_flatMap.mp hmemLen
    exact recordLens_lt hacc m hlen
  constructor
  · intro c hc
    obtain ⟨hckd, hdl⟩ := ckd_isCkd (hsized c hc) (hlt c hc)
    exact ⟨hckd, hdl, ckd_bytes_length (hsized c hc)⟩
  · rw [← hlens, List.map_map]
    apply List.map_congr_left
    intro c hc
    exact ckd_bytes_length (hsized c hc)

end Members

section Lengths

variable {o : Options}

/-- The lengths of the logical records that a member of `n` lines takes. -/
def memberFrames (o : Options) (n : ℕ) : List ℕ :=
  let dl := n % rpb o * o.lrecl
  List.replicate (n / rpb o) (o.blksize + 12) ++
    if n % rpb o = 0 then [12] else if dl + 4 ≤ o.blksize then [dl + 24] else [dl + 12, 12]

def endLen (n : ℕ) : Bool := n = 12

def packLens (o : Options) (ls : List ℕ) : List ℕ := (pack id endLen (o.blksize + 20) ls).map List.sum

section Steps

variable {x y : ℕ} (ys : List ℕ)

theorem packLens_end : packLens o (12 :: ys) = 12 :: packLens o ys := by
  have hstop : endLen 12 = true := rfl
  rw [packLens, pack_stop hstop]
  rfl

theorem packLens_single (hx : x ≠ 12) (hlt : x < o.blksize + 20) (hpos : 0 < x) (hy : o.blksize + 20 < x + y) :
    packLens o (x :: y :: ys) = x :: packLens o (y :: ys) := by
  have hstop : endLen x = false := decide_eq_false hx
  rw [packLens, pack_single hstop hlt hpos hy]
  rfl

theorem packLens_pair (hx : x ≠ 12) (hlt : x < o.blksize + 20) (hy : x + 12 ≤ o.blksize + 20) :
    packLens o (x :: 12 :: ys) = (x + 12) :: packLens o ys := by
  have hstop : endLen x = false := decide_eq_false hx
  have hend : endLen 12 = true := rfl
  rw [packLens, pack_pair hstop hlt hy hend]
  rfl

end Steps

theorem packLens_full (hpos : 0 < o.blksize) (k : ℕ) {y : ℕ} (hy : 8 < y) (ys : List ℕ) :
    packLens o (List.replicate k (o.blksize + 12) ++ y :: ys) =
      List.replicate k (o.blksize + 12) ++ packLens o (y :: ys) := by
  induction k with
  | zero => rfl
  | succ k ih =>
    obtain ⟨z, zs, hzs, hz⟩ : ∃ z zs, List.replicate k (o.blksize + 12) ++ y :: ys = z :: zs ∧ 8 < z := by
      cases k with
      | zero => exact ⟨y, ys, rfl, hy⟩
      | succ k => exact ⟨o.blksize + 12, _, rfl, by omega⟩
    rw [List.replicate_succ, List.cons_append, hzs, packLens_single zs (by omega) (by omega) (by omega) (by omega), ← hzs, ih,
      List.cons_append]

theorem packLens_short {dl : ℕ} (hdl : 0 < dl) (hle : dl ≤ o.blksize) (rest : List ℕ) :
    packLens o ((dl + 12) :: 12 :: rest) = (if dl + 4 ≤ o.blksize then [dl + 24] else [dl + 12, 12]) ++ packLens o rest := by
  split_ifs with hroom
  · rw [packLens_pair rest (by omega) (by omega) (by omega)]
    rfl
  · rw [packLens_single rest (by omega) (by omega) (by omega) (by omega), packLens_end]
    rfl

theorem packLens_member (hacc : o.Accepted) (m : Member) (rest : List ℕ) :
    packLens o ((recordLens o m).map (· + 12) ++ rest) = memberFrames o m.nrec ++ packLens o rest := by
  have hpos : 0 < o.blksize := lt_of_lt_of_le hacc.1.1 hacc.2.1.1
  have hmod := Nat.mod_lt m.nrec (rpb_pos hacc)
  have hshort : m.nrec % rpb o * o.lrecl ≤ rpb o * o.lrecl := Nat.mul_le_mul_right _ hmod.le
  rw [rpb_mul hacc] at hshort
  rw [recordLens, blocks_lens hacc, blockLens, memberFrames, List.append_assoc, List.map_append, List.map_replicate,
    List.append_assoc, List.append_assoc]
  by_cases h0 : m.nrec % rpb o = 0
  · rw [if_pos h0, if_pos h0, List.nil_append, List.map_singleton, List.singleton_append, zero_add,
      packLens_full hpos _ (by decide), packLens_end, List.singleton_append]
  · have hdl : 0 < m.nrec % rpb o * o.lrecl := Nat.mul_pos (Nat.pos_of_ne_zero h0) hacc.1.1
    rw [if_neg h0, if_neg h0, List.singleton_append, List.map_cons, List.map_singleton, List.cons_append, List.singleton_append,
      zero_add, packLens_full hpos _ (by omega), packLens_short hdl hshort]

theorem packLens_members (hacc : o.Accepted) (mem : List Member) :
    packLens o ((mem.flatMap (recordLens o)).map (· + 12)) = mem.flatMap fun m => memberFrames o m.nrec := by
  induction mem with
  | nil =>
    rw [List.flatMap_nil, List.map_nil, packLens, pack]
    rfl
  | cons m mem ih => rw [List.flatMap_cons, List.map_append, packLens_member hacc, ih, List.flatMap_cons]

theorem maxrec_eq (hacc : o.Accepted) : maxrec o = o.blksize + 20 := by
  have hmax : o.blksize ≤ 19069 := hacc.2.2.2.2
  rw [maxrec, recvMaxrec]
  omega

end Lengths

section Records

variable {o : Options} {mem : List Member}

theorem header_length (mem : List Member) : (emitUnload o mem).header.length = 328 := by
  rw [emitUnload]
  dsimp only
  rw [Unload.mvsUdebxExtent_length (sourceHeader_extent o).length_le]
  exact (sourceHeader_extent o).length

theorem assignGeometry_length (h : Head) (mem : List Member) : (assignGeometry o h mem).length = mem.length := by
  induction mem generalizing h with
  | nil => rfl
  | cons m mem ih => rw [assignGeometry, List.length_cons, ih, List.length_cons]

/-- The logical records of the directory, and their lengths. -/
theorem dirRecords_spec (mem : List Member) : ∃ ds d, dirRecords (emitUnload o mem) = ds ++ [d ++ List.replicate 12 0x00] ∧
    (emitUnload o mem).directory = ds ++ [d] ∧ (∀ b ∈ ds ++ [d], IsCkd b ∧ b.length = 276 ∧ dlOf b = 256) ∧
      ds.length + 1 = countDirBlocks o mem.length := by
  obtain ⟨ds, d, hdir, hckd, hcount⟩ := directory_spec (o := o) (assignGeometry o .start mem)
  rw [assignGeometry_length] at hcount
  have hdir' : (emitUnload o mem).directory = ds ++ [d] := hdir
  have hne : ds ++ [d] ≠ [] := by simp
  have hfuel : (ds ++ [d]).length ≤ bounds2 (emitUnload o mem) := by
    have hle := length_le_flatten fun b hb => (hckd b hb).1
    rw [bounds2, hdir']
    omega
  have hframes := dirFrames_eq (fun b hb => (hckd b hb).1) hne eod_isCkd (emitUnload o mem).header
    ((emitUnload o mem).data.flatMap Ckd.bytes) hfuel
  refine ⟨ds, d, ?_, hdir', hckd, hcount⟩
  rw [header_length, List.dropLast_concat, List.getLast_concat] at hframes
  rw [dirRecords, Unload.bytes, bounds2, header_length, hdir', List.append_assoc, List.append_assoc]
  rw [bounds2, header_length, hdir'] at hframes
  exact hframes

/-- The logical records of the members, and their lengths. -/
theorem dataRecords_spec (hacc : o.Accepted) (hmem : ∀ m ∈ mem, m.data.length = m.nrec * o.lrecl) :
    ∃ gs : List (List (List UInt8)), dataRecords o (emitUnload o mem) = gs.map List.flatten ∧
      (∀ g ∈ gs, (∀ r ∈ g, IsCkd r) ∧ ∀ r ∈ g.dropLast, dlOf r ≠ 0) ∧
      (gs.map fun g => g.flatten.length) = mem.flatMap fun m => memberFrames o m.nrec := by
  obtain ⟨hckd, hlens⟩ := data_isCkd hacc .start hmem
  have hrs : ∀ r ∈ (emitUnload o mem).data.map Ckd.bytes, IsCkd r := by
    intro r hr
    obtain ⟨c, hc, rfl⟩ := List.mem_map.mp hr
    exact (hckd c hc).1
  have hbytes : (emitUnload o mem).bytes = ((emitUnload o mem).header ++ (emitUnload o mem).directory.flatten ++
      List.replicate 12 0x00) ++ ((emitUnload o mem).data.map Ckd.bytes).flatten := rfl
  have hlen : bounds2 (emitUnload o mem) = ((emitUnload o mem).header ++ (emitUnload o mem).directory.flatten ++
      List.replicate 12 0x00).length := by
    rw [bounds2, List.length_append, List.length_append, List.length_replicate]
  have hfuel : ((emitUnload o mem).data.map Ckd.bytes).length ≤ bounds3 (emitUnload o mem) := by
    apply (length_le_flatten hrs).trans
    rw [bounds3, hbytes, List.length_append]
    exact Nat.le_add_left _ _
  refine ⟨pack List.length endsMember (maxrec o) ((emitUnload o mem).data.map Ckd.bytes), ?_, ?_, ?_⟩
  · rw [dataRecords, hlen, bounds3, hbytes]
    rw [bounds3, hbytes] at hfuel
    exact dataFrames_eq hrs _ hfuel
  · intro g hg
    exact mem_dataFrames hrs hg
  · have hstop : ∀ r ∈ (emitUnload o mem).data.map Ckd.bytes, endsMember r = endLen r.length := by
      intro r hr
      obtain ⟨c, hc, rfl⟩ := List.mem_map.mp hr
      obtain ⟨-, hdl, hlen⟩ := hckd c hc
      rw [endsMember, endLen, hdl, hlen]
      simp
    have hdata : (emitUnload o mem).data.map (fun c => c.bytes.length) = (mem.flatMap (recordLens o)).map (· + 12) := hlens
    have hcongr : pack List.length endsMember (maxrec o) ((emitUnload o mem).data.map Ckd.bytes) =
        pack (id ∘ List.length) (endLen ∘ List.length) (o.blksize + 20) ((emitUnload o mem).data.map Ckd.bytes) := by
      rw [maxrec_eq hacc]
      exact pack_congr hstop
    have hmap : pack id endLen (o.blksize + 20) (((emitUnload o mem).data.map Ckd.bytes).map List.length) =
        (pack (id ∘ List.length) (endLen ∘ List.length) (o.blksize + 20) ((emitUnload o mem).data.map Ckd.bytes)).map
          (List.map List.length) := pack_map List.length _
    rw [List.map_map] at hmap
    rw [hcongr, ← packLens_members hacc, ← hdata, packLens]
    rw [show (fun c : Ckd => c.bytes.length) = List.length ∘ Ckd.bytes from rfl, hmap, List.map_map]
    apply List.map_congr_left
    intro g _
    exact List.length_flatten

/-- A logical record of whole CKD records, of at most `limit` bytes and with nothing behind the end of a member. -/
structure WholeCkds (limit : ℕ) (b : List UInt8) : Prop where
  short : b.length ≤ limit
  whole : ∃ rs : List (List UInt8), b = rs.flatten ∧ (∀ r ∈ rs, IsCkd r) ∧ ∀ r ∈ rs.dropLast, dlOf r ≠ 0

theorem dirRecords_whole {b : List UInt8} (hb : b ∈ dirRecords (emitUnload o mem)) : WholeCkds 288 b := by
  obtain ⟨ds, d, hrecs, -, hckd, -⟩ := dirRecords_spec (o := o) mem
  rw [hrecs] at hb
  rcases List.mem_append.mp hb with hb | hb
  · obtain ⟨hb', hlen, -⟩ := hckd b (List.mem_append_left _ hb)
    refine ⟨by omega, [b], (List.flatten_singleton).symm, ?_, nofun⟩
    intro r hr
    rwa [List.mem_singleton.mp hr]
  · obtain ⟨hd, hlen, hdl⟩ := hckd d (List.mem_append_right _ List.mem_cons_self)
    rw [List.mem_singleton.mp hb]
    refine ⟨?_, [d, List.replicate 12 0x00], ?_, ?_, ?_⟩
    · rw [List.length_append, hlen, List.length_replicate]
    · simp
    · intro r hr
      rcases List.mem_cons.mp hr with rfl | hr
      · exact hd
      · rw [List.mem_singleton.mp hr]
        exact eod_isCkd
    · intro r hr
      rw [List.mem_singleton.mp hr, hdl]
      decide

theorem copyRecords_length {b : List UInt8} (hb : b ∈ copyRecords (emitUnload o mem)) : b.length ≤ 276 := by
  have h52 : mvsCopyr1Len ≤ 276 := by decide
  have h276 : mvsEnvHdrLen - mvsCopyr1Len ≤ 276 := by decide
  rw [copyRecords, List.mem_cons, List.mem_singleton] at hb
  rcases hb with hb | hb
  · rw [hb]
    exact (List.length_take_le _ _).trans h52
  · rw [hb]
    exact (List.length_take_le _ _).trans h276

theorem memberFrames_le_iff (hacc : o.Accepted) (n : ℕ) : (∀ len ∈ memberFrames o n, len ≤ unlBlksize o - 8) ↔
    (n % rpb o = 0 ∨ n % rpb o * o.lrecl + 32 ≤ unlBlksize o ∨ o.blksize < n % rpb o * o.lrecl + 4) := by
  have hmod := Nat.mod_lt n (rpb_pos hacc)
  have hshort : n % rpb o * o.lrecl ≤ rpb o * o.lrecl := Nat.mul_le_mul_right _ hmod.le
  rw [rpb_mul hacc] at hshort
  have hunl : 296 ≤ unlBlksize o ∧ o.blksize + 20 ≤ unlBlksize o := by
    rw [unlBlksize]
    omega
  have hfull : ∀ len ∈ List.replicate (n / rpb o) (o.blksize + 12), len ≤ unlBlksize o - 8 := by
    intro len hlen
    rw [(List.mem_replicate.mp hlen).2]
    omega
  rw [memberFrames]
  simp only [List.mem_append, or_imp, forall_and, and_iff_right hfull]
  split_ifs with h0 hroom
  · simp only [List.mem_singleton, forall_eq, h0, true_or, iff_true]
    omega
  · simp only [List.mem_singleton, forall_eq, h0, false_or]
    omega
  · simp only [List.mem_cons, List.not_mem_nil, or_false, forall_eq_or_imp, forall_eq, h0, false_or]
    omega

theorem mem_logRecs {r : LogRec} (hr : r ∈ logRecs o mem) (hcontrol : r.control = false) :
    r.b ∈ copyRecords (emitUnload o mem) ∨ r.b ∈ dirRecords (emitUnload o mem) ∨ r.b ∈ dataRecords o (emitUnload o mem) := by
  rw [logRecs] at hr
  rcases List.mem_append.mp hr with hr | hr
  · rcases List.mem_append.mp hr with hr | hr
    · obtain ⟨b, -, rfl⟩ := List.mem_map.mp hr
      exact absurd hcontrol (by simp)
    · obtain ⟨b, hb, rfl⟩ := List.mem_map.mp hr
      rw [List.append_assoc, List.mem_append, List.mem_append] at hb
      exact hb
  · rw [List.mem_singleton.mp hr] at hcontrol
    exact absurd hcontrol (by simp)

/-- What holds of the line counts of the members holds of those of the files. -/
theorem lines_iff {srcs srcs' : List Source} (hpairs : List.Forall₂ (fun s m => toMember o s = some m) srcs' mem)
    (hperm : srcs'.Perm srcs) {P Q : ℕ → Prop} (hPQ : ∀ n, P n ↔ Q n) :
    (∀ m ∈ mem, P m.nrec) ↔ ∀ s ∈ srcs, Q (rawLines s.raw).length := by
  constructor
  · intro hall s hs
    obtain ⟨m, hm, hsm⟩ := Pairing.exists_right hpairs (hperm.mem_iff.mpr hs)
    rw [← (toMember_spec hsm).2, ← hPQ]
    exact hall m hm
  · intro hall m hm
    obtain ⟨s, hs, hsm⟩ := Pairing.exists_left hpairs hm
    rw [(toMember_spec hsm).2, hPQ]
    exact hall s (hperm.mem_iff.mp hs)

/-- A data record is whole and short enough for the declared length exactly when no member has a short
last block that is packed with its end although both together are too long. -/
theorem logical_records_iff {srcs : List Source} (h : createMembers o srcs = some mem) :
    ((∀ r ∈ logRecs o mem, r.control = false → r.b.length ≤ unlBlksize o - 8) ∧
      ∀ b ∈ dirRecords (emitUnload o mem) ++ dataRecords o (emitUnload o mem), WholeCkds (unlBlksize o - 8) b) ↔
    ∀ s ∈ srcs, (rawLines s.raw).length % rpb o = 0 ∨ (rawLines s.raw).length % rpb o * o.lrecl + 32 ≤ unlBlksize o ∨
      o.blksize < (rawLines s.raw).length % rpb o * o.lrecl + 4 := by
  obtain ⟨hacc, srcs', hperm, hpairs⟩ := createMembers_spec h
  have hmem : ∀ m ∈ mem, m.data.length = m.nrec * o.lrecl := by
    intro m hm
    obtain ⟨s, -, hs⟩ := Pairing.exists_left hpairs hm
    exact (toMember_spec hs).1
  obtain ⟨gs, hrecs, hwhole, hlens⟩ := dataRecords_spec hacc hmem
  have hunl : 296 ≤ unlBlksize o := Nat.le_max_left _ _
  -- only the lengths of the members' records are in question
  have hiff : (∀ m ∈ mem, ∀ len ∈ memberFrames o m.nrec, len ≤ unlBlksize o - 8) ↔
      ∀ b ∈ dataRecords o (emitUnload o mem), b.length ≤ unlBlksize o - 8 := by
    have hmap : (dataRecords o (emitUnload o mem)).map List.length = mem.flatMap fun m => memberFrames o m.nrec := by
      rw [hrecs, List.map_map, ← hlens]
      rfl
    rw [← List.forall_mem_map (P := fun len => len ≤ unlBlksize o - 8), hmap]
    simp only [List.mem_flatMap, forall_exists_index, and_imp]
    exact ⟨fun hall len m hm hlen => hall m hm len hlen, fun hall m hm len hlen => hall len m hm hlen⟩
  rw [← lines_iff hpairs hperm fun n => memberFrames_le_iff hacc n, hiff]
  constructor
  · rintro ⟨-, hall⟩ b hb
    exact (hall b (List.mem_append_right _ hb)).short
  · intro hdata
    refine ⟨?_, ?_⟩
    · intro r hr hcontrol
      rcases mem_logRecs hr hcontrol with hcopy | hdir | hmember
      · exact (copyRecords_length hcopy).trans (by omega)
      · exact (dirRecords_whole hdir).short.trans (by omega)
      · exact hdata r.b hmember
    · intro b hb
      rcases List.mem_append.mp hb with hdir | hmember
      · obtain ⟨hshort, hckds⟩ := dirRecords_whole hdir
        exact ⟨hshort.trans (by omega), hckds⟩
      · refine ⟨hdata b hmember, ?_⟩
        rw [hrecs] at hmember
        obtain ⟨g, hg, rfl⟩ := List.mem_map.mp hmember
        exact ⟨g, rfl, hwhole g hg⟩

end Records

/-- Records of eight bytes, 35 to a block. -/
def shortRecords : Options where
  dsn := [0x41]
  lrecl := 8
  blocksize := some 280
  recfm := .fb
  stats := false
  tabs := 8
  latin1 := false
  userid := [0x41]
  statsDate := none
  now := ⟨2026, 1, 1, 0, 0, 0, 0⟩

/-- A file of `n` empty lines. -/
def emptyLines (n : ℕ) : Source := ⟨[0x41], List.replicate n 0x0A, ⟨2026, 1, 1, 0, 0, 0, 0⟩⟩

theorem oneLine_whole : ∃ mem, createMembers shortRecords [emptyLines 1] = some mem ∧
    ∀ r ∈ logRecs shortRecords mem, r.control = false → r.b.length ≤ 292 := by
  have hsome : (createMembers shortRecords [emptyLines 1]).isSome = true := by decide +kernel
  obtain ⟨mem, hmem⟩ := Option.isSome_iff_exists.mp hsome
  refine ⟨mem, hmem, ?_⟩
  exact ((logical_records_iff hmem).mpr (by decide +kernel)).1

theorem shortBlock_too_long : unlBlksize shortRecords - 8 = 292 ∧
    ∃ mem, createMembers shortRecords [emptyLines 34] = some mem ∧
      ∃ b ∈ dataRecords shortRecords (emitUnload shortRecords mem), b.length = 296 := by
  have hsome : (createMembers shortRecords [emptyLines 34]).isSome = true := by decide +kernel
  obtain ⟨mem, hmem⟩ := Option.isSome_iff_exists.mp hsome
  refine ⟨rfl, mem, hmem, ?_⟩
  obtain ⟨hacc, srcs', hperm, hpairs⟩ := createMembers_spec hmem
  have hsizes : ∀ m ∈ mem, m.data.length = m.nrec * shortRecords.lrecl := by
    intro m hm
    obtain ⟨s, -, hs⟩ := Pairing.exists_left hpairs hm
    exact (toMember_spec hs).1
  obtain ⟨gs, hrecs, -, hlens⟩ := dataRecords_spec hacc hsizes
  obtain ⟨m, hm, hsm⟩ := Pairing.exists_right hpairs (hperm.mem_iff.mpr (List.mem_singleton_self _))
  have hlines : (rawLines (emptyLines 34).raw).length = 34 := by decide +kernel
  have hframe : 296 ∈ mem.flatMap fun m => memberFrames shortRecords m.nrec := by
    refine List.mem_flatMap.mpr ⟨m, hm, ?_⟩
    rw [(toMember_spec hsm).2, hlines]
    decide
  rw [← hlens] at hframe
  obtain ⟨g, hg, hlen⟩ := List.mem_map.mp hframe
  rw [hrecs]
  exact ⟨g.flatten, List.mem_map_of_mem hg, hlen⟩

end Cc370.Xmit370
