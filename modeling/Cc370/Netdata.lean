import Cc370.Mvs370

namespace Cc370

/-- The keys of the text units. -/
inductive InmKey
  | dsnam | dir | blksz | dsorg | lrecl | recfm | tnode | tuid | fnode | fuid | ftime | utiln | size | numf
deriving DecidableEq

def InmKey.code : InmKey → ℕ
  | .dsnam => 0x0002
  | .dir => 0x000C
  | .blksz => 0x0030
  | .dsorg => 0x003C
  | .lrecl => 0x0042
  | .recfm => 0x0049
  | .tnode => 0x1001
  | .tuid => 0x1002
  | .fnode => 0x1011
  | .fuid => 0x1012
  | .ftime => 0x1024
  | .utiln => 0x1028
  | .size => 0x102C
  | .numf => 0x102F

section TextUnits

/-- The low `n` bytes of a number, the high one first. -/
def bytesOf (v n : ℕ) : List UInt8 := (List.range n).map fun i => .ofNat (v / 256 ^ (n - 1 - i))

def mvsTu (key : InmKey) (val : List UInt8) : List UInt8 := mvsPut16 key.code ++ mvsPut16 1 ++ mvsPut16 val.length ++ val

def mvsTui (key : InmKey) (v n : ℕ) : List UInt8 := mvsTu key (bytesOf v n)

def mvsTus (key : InmKey) (s : List UInt8) : List UInt8 := mvsTu key ((s.take 44).map mvsA2e)

/-- One value for each qualifier of the name. -/
def mvsTuDsname (dsn : List UInt8) : List UInt8 :=
  mvsPut16 InmKey.dsnam.code ++ mvsPut16 (1 + dsn.count 0x2E : ℕ) ++
    (dsn.splitOn 0x2E).flatMap fun q => mvsPut16 q.length ++ q.map mvsA2e

def mvsInmrHdr (n : ℕ) : List UInt8 := [0xC9, 0xD5, 0xD4, 0xD9, 0xF0, .ofNat (0xF0 + n)]

@[simp] theorem mvsTu_length (key : InmKey) (val : List UInt8) : (mvsTu key val).length = 6 + val.length := by
  simp only [mvsTu, List.length_append, mvsPut16_length]

@[simp] theorem mvsTui_length (key : InmKey) (v n : ℕ) : (mvsTui key v n).length = 6 + n := by
  rw [mvsTui, mvsTu_length, bytesOf, List.length_map, List.length_range]

@[simp] theorem mvsTus_length (key : InmKey) (s : List UInt8) : (mvsTus key s).length = 6 + min 44 s.length := by
  rw [mvsTus, mvsTu_length, List.length_map, List.length_take]

@[simp] theorem mvsInmrHdr_length (n : ℕ) : (mvsInmrHdr n).length = 6 := rfl

theorem qualifiers_length (dsn : List UInt8) :
    ((dsn.splitOn 0x2E).flatMap fun q => mvsPut16 q.length ++ q.map mvsA2e).length = dsn.length + dsn.count 0x2E + 2 := by
  have hstep : ∀ ls : List (List UInt8), (ls.flatMap fun q => mvsPut16 q.length ++ q.map mvsA2e).length =
      2 * ls.length + (ls.map List.length).sum := by
    intro ls
    induction ls with
    | nil => rfl
    | cons q ls ih =>
      rw [List.flatMap_cons, List.length_append, ih, List.length_append, mvsPut16_length, List.length_map,
        List.length_cons, List.map_cons, List.sum_cons]
      ring
  have hpieces : (dsn.splitOn 0x2E).length = dsn.count 0x2E + 1 ∧
      ((dsn.splitOn 0x2E).map List.length).sum + dsn.count 0x2E = dsn.length := by
    induction dsn with
    | nil => exact ⟨rfl, rfl⟩
    | cons c dsn ih =>
      obtain ⟨q, ls, hls⟩ := List.exists_cons_of_ne_nil (List.splitOn_ne_nil 0x2E dsn)
      rw [hls] at ih
      rw [List.splitOn_cons_eq_if_modifyHead, List.count_cons, hls]
      simp only [List.length_cons, List.map_cons, List.sum_cons] at ih
      split_ifs with hc
      · simp only [List.length_cons, List.map_cons, List.sum_cons, List.length_nil]
        omega
      · simp only [List.modifyHead_cons, List.length_cons, List.map_cons, List.sum_cons]
        omega
  rw [hstep]
  omega

theorem mvsTuDsname_length (dsn : List UInt8) : (mvsTuDsname dsn).length = dsn.length + dsn.count 0x2E + 6 := by
  rw [mvsTuDsname, List.length_append, List.length_append, mvsPut16_length, mvsPut16_length, qualifiers_length]
  omega

end TextUnits

section Segments

structure Segment where
  first : Bool
  last : Bool
  data : List UInt8
deriving DecidableEq

def netSegments (first : Bool) (r : List UInt8) : List Segment :=
  if r.length ≤ 253 then [⟨first, true, r⟩] else ⟨first, false, r.take 253⟩ :: netSegments false (r.drop 253)
termination_by r.length
decreasing_by
  rw [List.length_drop]
  omega

def Segment.flags (s : Segment) (control : Bool) : ℕ :=
  (if control then 0x20 else 0) + (if s.first then 0x80 else 0) + if s.last then 0x40 else 0

def Segment.bytes (control : Bool) (s : Segment) : List UInt8 :=
  [.ofNat (s.data.length + 2), .ofNat (s.flags control)] ++ s.data

/-- A logical record, control or data. -/
structure LogRec where
  control : Bool
  b : List UInt8
deriving DecidableEq

/-- A logical record as segments of at most 253 bytes. -/
def mvsNetdataSeg (r : LogRec) : List UInt8 := (netSegments true r.b).flatMap (Segment.bytes r.control)

/-- How many segments `n` bytes take. -/
def segmentCount (n : ℕ) : ℕ := max 1 ((n + 252) / 253)

theorem netSegments_length (first : Bool) (r : List UInt8) : (netSegments first r).length = segmentCount r.length := by
  fun_induction netSegments first r with
  | case1 first r h =>
    rw [segmentCount, List.length_singleton]
    omega
  | case2 first r h ih =>
    rw [List.length_cons, ih, List.length_drop, segmentCount, segmentCount]
    omega

theorem netSegments_data (first : Bool) (r : List UInt8) : ((netSegments first r).map Segment.data).flatten = r := by
  fun_induction netSegments first r with
  | case1 first r h => rw [List.map_singleton, List.flatten_singleton]
  | case2 first r h ih => rw [List.map_cons, List.flatten_cons, ih, List.take_append_drop]

theorem mvsNetdataSeg_length (r : LogRec) : (mvsNetdataSeg r).length = r.b.length + 2 * segmentCount r.b.length := by
  have hstep : ∀ ss : List Segment, (ss.flatMap (Segment.bytes r.control)).length =
      ((ss.map Segment.data).flatten).length + 2 * ss.length := by
    intro ss
    induction ss with
    | nil => rfl
    | cons s ss ih =>
      rw [List.flatMap_cons, List.length_append, ih, Segment.bytes, List.length_append, List.map_cons, List.flatten_cons,
        List.length_append, List.length_cons]
      simp only [List.length_cons, List.length_nil]
      ring
  rw [mvsNetdataSeg, hstep, netSegments_data, netSegments_length]

end Segments

end Cc370
