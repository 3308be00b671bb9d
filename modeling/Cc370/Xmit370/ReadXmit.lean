import Cc370.Netdata
import Cc370.Xmit370.Transmission

namespace Cc370.Xmit370

def netsegFirst (flags : UInt8) : Bool := flags &&& 0x80 ≠ 0

def netsegLast (flags : UInt8) : Bool := flags &&& 0x40 ≠ 0

def netsegCtl (flags : UInt8) : Bool := flags &&& 0x20 ≠ 0

/-- The segment stream, with the record that is under way. -/
def readSegments : ℕ → List UInt8 → List UInt8 → Bool → List LogRec
  | fuel + 1, len :: flags :: d, cur, curctl =>
    if len.toNat < 2 then []
    else if d.length < len.toNat - 2 then []
    else
      let ctl := if netsegFirst flags then netsegCtl flags else curctl
      let b := (if netsegFirst flags then [] else cur) ++ d.take (len.toNat - 2)
      if netsegLast flags then ⟨ctl, b⟩ :: readSegments fuel (d.drop (len.toNat - 2)) [] ctl
      else readSegments fuel (d.drop (len.toNat - 2)) b ctl
  | _, _, _, _ => []

/-- The text `INMR01`. -/
def inmr01Id : List UInt8 := mvsInmrHdr 1

def readXmit (d : List UInt8) : Option (List LogRec) :=
  if d.length < 8 ∨ (d.drop 2).take 6 ≠ inmr01Id then none else some (readSegments d.length d [] false)

/-- Zeros up to a full record of the file. -/
def padTo80 (s : List UInt8) : List UInt8 := s ++ List.replicate ((80 - s.length % 80) % 80) 0x00

theorem emitXmit_eq (o : Options) (mem : List Member) : emitXmit o mem = padTo80 ((logRecs o mem).flatMap mvsNetdataSeg) := rfl

section Segments

theorem flags_bits (s : Segment) (ctl : Bool) : netsegFirst (.ofNat (s.flags ctl)) = s.first ∧ netsegLast (.ofNat (s.flags ctl)) = s.last ∧
    netsegCtl (.ofNat (s.flags ctl)) = ctl := by
  have hbits : ∀ first last ctl : Bool, netsegFirst (.ofNat ((⟨first, last, []⟩ : Segment).flags ctl)) = first ∧
      netsegLast (.ofNat ((⟨first, last, []⟩ : Segment).flags ctl)) = last ∧
        netsegCtl (.ofNat ((⟨first, last, []⟩ : Segment).flags ctl)) = ctl := by
    decide
  exact hbits s.first s.last ctl

theorem readSegments_segment {s : Segment} (h : s.data.length ≤ 253) (fuel : ℕ) (ctl : Bool) (rest cur : List UInt8) (curctl : Bool) :
    readSegments (fuel + 1) (s.bytes ctl ++ rest) cur curctl =
      if s.last then ⟨if s.first then ctl else curctl, (if s.first then [] else cur) ++ s.data⟩ ::
        readSegments fuel rest [] (if s.first then ctl else curctl)
      else readSegments fuel rest ((if s.first then [] else cur) ++ s.data) (if s.first then ctl else curctl) := by
  obtain ⟨hfirst, hlast, hctl⟩ := flags_bits s ctl
  have hlen : (UInt8.ofNat (s.data.length + 2)).toNat = s.data.length + 2 := UInt8.toNat_ofNat_of_lt' (show _ < 256 by omega)
  rw [Segment.bytes, List.append_assoc, List.cons_append, List.cons_append, List.nil_append, readSegments]
  dsimp only
  rw [hfirst, hlast, hctl, hlen, if_neg (by omega), Nat.add_sub_cancel, if_neg (by rw [List.length_append]; omega), List.take_left,
    List.drop_left]

/-- The segments of a record are put together again. -/
theorem readSegments_record (first : Bool) (r : List UInt8) (ctl : Bool) (fuel : ℕ) (rest cur : List UInt8) (curctl : Bool)
    (h : first = false → curctl = ctl) :
    readSegments (fuel + (netSegments first r).length) ((netSegments first r).flatMap (Segment.bytes ctl) ++ rest) cur curctl =
      ⟨ctl, (if first then [] else cur) ++ r⟩ :: readSegments fuel rest [] ctl := by
  have hctl : (if first then ctl else curctl) = ctl := by
    cases first with
    | true => rfl
    | false => exact h rfl
  fun_induction netSegments first r generalizing cur curctl with
  | case1 first r hlen =>
    rw [List.flatMap_singleton, List.length_singleton, readSegments_segment hlen, if_pos rfl, hctl]
  | case2 first r hlen ih =>
    have htake : (r.take 253).length ≤ 253 := List.length_take_le _ _
    rw [List.flatMap_cons, List.append_assoc, List.length_cons, ← Nat.add_assoc, readSegments_segment htake, if_neg Bool.false_ne_true, hctl,
      ih _ _ (fun _ => rfl) rfl, if_neg Bool.false_ne_true, List.append_assoc, List.take_append_drop]

/-- Zeros at the end are no segment. -/
theorem readSegments_zeros (fuel k : ℕ) (cur : List UInt8) (curctl : Bool) : readSegments fuel (List.replicate k 0x00) cur curctl = [] := by
  match fuel, k with
  | 0, _ => rw [readSegments]; exact nofun
  | _ + 1, 0 => rfl
  | _ + 1, 1 => rfl
  | _ + 1, _ + 2 => rfl

theorem readSegments_records (rs : List LogRec) (fuel k : ℕ) (cur : List UInt8) (curctl : Bool) :
    readSegments (fuel + (rs.map fun r => (netSegments true r.b).length).sum) (rs.flatMap mvsNetdataSeg ++ List.replicate k 0x00) cur curctl = rs := by
  induction rs generalizing cur curctl with
  | nil => exact readSegments_zeros _ _ _ _
  | cons r rs ih =>
    rw [List.flatMap_cons, List.append_assoc, List.map_cons, List.sum_cons, Nat.add_comm (List.length _), ← Nat.add_assoc, mvsNetdataSeg,
      readSegments_record true r.b r.control _ _ _ _ (by simp), ih]
    rfl

end Segments

theorem mvsNetdataSeg_head {r : LogRec} (h : inmr01Id <+: r.b) : ∃ len flags t, mvsNetdataSeg r = len :: flags :: (inmr01Id ++ t) := by
  obtain ⟨t, ht⟩ := h
  rw [mvsNetdataSeg, netSegments]
  split_ifs with hlen
  · rw [List.flatMap_singleton, Segment.bytes, ← ht]
    exact ⟨_, _, t, rfl⟩
  · have htake : r.b.take 253 = inmr01Id ++ t.take 247 := by
      rw [← ht, List.take_append]
      rfl
    rw [List.flatMap_cons, Segment.bytes, htake, List.append_assoc, List.append_assoc, List.cons_append, List.cons_append, List.nil_append]
    exact ⟨_, _, _, rfl⟩

theorem segments_le (rs : List LogRec) : (rs.map fun r => (netSegments true r.b).length).sum ≤ (rs.flatMap mvsNetdataSeg).length := by
  rw [List.length_flatMap]
  apply List.sum_le_sum
  intro r _
  rw [mvsNetdataSeg_length, netSegments_length]
  omega

/-- The records that a transmission is made of are read back from it. -/
theorem readXmit_records (r : LogRec) (rs : List LogRec) (h : inmr01Id <+: r.b) :
    readXmit (padTo80 ((r :: rs).flatMap mvsNetdataSeg)) = some (r :: rs) := by
  obtain ⟨len, flags, t, hhead⟩ := mvsNetdataSeg_head h
  obtain ⟨t', hd⟩ : ∃ t', padTo80 ((r :: rs).flatMap mvsNetdataSeg) = len :: flags :: (inmr01Id ++ t') := by
    obtain ⟨zeros, hzeros⟩ : ∃ zeros, padTo80 ((r :: rs).flatMap mvsNetdataSeg) = (r :: rs).flatMap mvsNetdataSeg ++ zeros := ⟨_, rfl⟩
    rw [hzeros, List.flatMap_cons, hhead]
    exact ⟨t ++ rs.flatMap mvsNetdataSeg ++ zeros, by simp only [List.cons_append, List.append_assoc]⟩
  have hlong : ¬ (padTo80 ((r :: rs).flatMap mvsNetdataSeg)).length < 8 := by
    have hid : inmr01Id.length = 6 := rfl
    rw [hd, List.length_cons, List.length_cons, List.length_append]
    omega
  have hbegin : ((padTo80 ((r :: rs).flatMap mvsNetdataSeg)).drop 2).take 6 = inmr01Id := by
    rw [hd]
    exact List.take_left' rfl
  obtain ⟨fuel, hfuel⟩ : ∃ fuel, (padTo80 ((r :: rs).flatMap mvsNetdataSeg)).length =
      fuel + ((r :: rs).map fun r => (netSegments true r.b).length).sum := by
    apply Nat.exists_eq_add_of_le'
    refine (segments_le (r :: rs)).trans ?_
    rw [padTo80, List.length_append]
    exact Nat.le_add_right _ _
  rw [readXmit, if_neg (not_or.mpr ⟨hlong, not_not.mpr hbegin⟩), hfuel, padTo80, readSegments_records]

theorem readXmit_padTo80 (rs : List LogRec) (h : ∃ r ∈ rs.head?, inmr01Id <+: r.b) :
    readXmit (padTo80 (rs.flatMap mvsNetdataSeg)) = some rs := by
  obtain ⟨r, hr, hid⟩ := h
  obtain ⟨rs, rfl⟩ := List.head?_eq_some_iff.mp hr
  exact readXmit_records r rs hid

theorem readXmit_control : readXmit (padTo80 ([⟨true, inmr01Id⟩, ⟨false, []⟩].flatMap mvsNetdataSeg)) = some [⟨true, inmr01Id⟩, ⟨false, []⟩] :=
  readXmit_padTo80 _ ⟨_, rfl, List.prefix_refl _⟩

/-- What `emit_xmit` writes is read as the records that it wrote. -/
theorem readXmit_emitXmit (o : Options) (mem : List Member) : readXmit (emitXmit o mem) = some (logRecs o mem) := by
  obtain ⟨r, rs, hrecs, hid⟩ : ∃ r rs, logRecs o mem = r :: rs ∧ inmr01Id <+: r.b := by
    refine ⟨_, _, rfl, ?_⟩
    rw [inmr01, List.append_assoc, List.append_assoc, List.append_assoc, List.append_assoc, List.append_assoc]
    exact List.prefix_append _ _
  rw [emitXmit_eq, hrecs]
  exact readXmit_records r rs hid

end Cc370.Xmit370
