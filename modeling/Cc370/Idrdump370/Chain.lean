import Cc370.Directory
import Cc370.Lmod370
import Cc370.Ar370.Archive
import Cc370.Ld370.Bare

/-! The IDR records of a load module, as the reader lists them. -/

namespace Cc370

namespace Idrdump370

open Lmod Slices

def idrSpzap : ℕ := 0x01

def idrLked : ℕ := 0x02

def idrXlate : ℕ := 0x04

def idrUser : ℕ := 0x08

def spzapHdr : ℕ := 4

def spzapEntlen : ℕ := 13

def maxsect : ℕ := 1024

def bytesAt (b : Buffer) (p n : ℕ) : List UInt8 := (List.range n).map fun j => b (p + j)

/-- A field in printable characters, without its trailing blanks. -/
def efield (l : List UInt8) : List UInt8 := ((l.map mvsE2aPr).reverse.dropWhile (· = 0x20)).reverse

def nibbles (l : List UInt8) : List ℕ := l.flatMap fun c => [c.toNat / 16, c.toNat % 16]

def hexLower (d : ℕ) : UInt8 := .ofNat (if d < 10 then 0x30 + d else 0x57 + d)

def hexUpper (d : ℕ) : UInt8 := .ofNat (if d < 10 then 0x30 + d else 0x37 + d)

def packedDate (d : List UInt8) : List UInt8 := ((nibbles d).take 5).map hexLower

def packedTime (t : List UInt8) : List UInt8 := (((nibbles t).drop 1).take 6).map hexLower

/-- What is reported of a record or of an entry of it; a CSECT is its name, or its ESDID. -/
inductive Line
  | zap (off : ℕ) (last chain : Bool) (owner : Option (List UInt8)) (cesdid : ℕ) (date zap : List UInt8)
  | noZap (off : ℕ) (last : Bool)
  | user (off : ℕ) (last : Bool) (owner : Option (List UInt8)) (cesdid : ℕ) (date id : List UInt8)
  | lked (off : ℕ) (last : Bool) (program version modification date : List UInt8) (time : Option (List UInt8))
  | translator (off : ℕ) (last : Bool) (csects : List (List UInt8 ⊕ ℕ)) (program version modification date : List UInt8)
  | other (off subtype bytes : ℕ) (last : Bool)
deriving DecidableEq

abbrev Sections := List (ℕ × List UInt8)

/-- The sections that the CESD names. -/
def sections (m : Buffer) (n : ℕ) : Sections :=
  (((cesdWalk m n).filter fun e => e.type = 0x00 ∨ e.type = 0x04).take maxsect).map fun e => (e.esdid, efield e.name.toList)

section Report

variable (sect : Sections) (only : Option (List UInt8))

def sectName (esdid : ℕ) : Option (List UInt8) := (sect.find? fun e => e.1 = esdid).map Prod.snd

def wanted (owner : Option (List UInt8)) : Bool := only.all fun o => owner = some o

def owners (ids : List ℕ) : List (List UInt8 ⊕ ℕ) := (ids.take 64).map fun id => (sectName sect id).elim (.inr id) .inl

variable (r : Buffer) (rlen : ℕ) (last : Bool) (o : ℕ)

def showZaps : List Line :=
  let raw := (r (o + 3)).toNat
  (((List.range (raw % 64)).takeWhile fun k => spzapHdr + (k + 1) * spzapEntlen ≤ rlen).filterMap fun k =>
    let e := o + (spzapHdr + k * spzapEntlen)
    let owner := sectName sect (mvsBe16 r e)
    if wanted only owner then
      some (.zap o last (raw / 64 % 2 = 1) owner (mvsBe16 r e) (packedDate (bytesAt r (e + 2) 3)) (efield (bytesAt r (e + 5) 8)))
    else none) ++
    if raw % 64 = 0 ∧ only = none then [.noZap o last] else []

def showUser : ℕ → ℕ → List Line
  | 0, _ => []
  | fuel + 1, q =>
    let e := o + q
    let tl := (r (e + 5)).toNat
    if q + 6 ≤ rlen ∧ q + 6 + tl ≤ rlen then
      let owner := sectName sect (mvsBe16 r e)
      (if wanted only owner then
        [.user o last owner (mvsBe16 r e) (packedDate (bytesAt r (e + 2) 3)) (((bytesAt r (e + 6) tl).take 63).map mvsE2aPr)]
      else []) ++ showUser fuel (q + 6 + tl)
    else []

def showLked : List Line :=
  if rlen < 18 then []
  else
    [.lked o last (efield (bytesAt r (o + 3) 10)) ((nibbles (bytesAt r (o + 13) 1)).map hexUpper)
      ((nibbles (bytesAt r (o + 14) 1)).map hexUpper) (packedDate (bytesAt r (o + 15) 3))
      (if 22 ≤ rlen then some (packedTime (bytesAt r (o + 18) 4)) else none)]

/-- The CESDIDs from `q` on, and the offset behind them. -/
def xlateIds : ℕ → ℕ → List ℕ × ℕ
  | 0, q => ([], q)
  | fuel + 1, q =>
    if q + 2 ≤ rlen then
      if (r (o + q)).toNat < 128 then (mvsBe16 r (o + q) % 32768 :: (xlateIds fuel (q + 2)).1, (xlateIds fuel (q + 2)).2)
      else ([mvsBe16 r (o + q) % 32768], q + 2)
    else ([], q)

/-- One translator: id and level at `t`, date at `t + 12`. -/
def xlateOne (t : ℕ) (ids : List ℕ) : Line :=
  .translator o last (owners sect ids) (efield (bytesAt r t 10)) ((nibbles (bytesAt r (t + 10) 1)).map hexUpper)
    ((nibbles (bytesAt r (t + 11) 1)).map hexUpper) (packedDate (bytesAt r (t + 12) 3))

def showXlate : ℕ → ℕ → List Line
  | 0, _ => []
  | fuel + 1, q =>
    if q + 2 ≤ rlen then
      let (ids, q) := xlateIds r rlen o rlen q
      let ntr := if r (o + q) ≠ 0 then 2 else 1
      if rlen < q + 1 ∨ rlen < q + 1 + 15 * ntr then []
      else
        xlateOne sect r last o (o + (q + 1)) ids ::
          ((if ntr = 2 then [xlateOne sect r last o (o + (q + 1 + 15)) ids] else []) ++ showXlate fuel (q + 1 + 15 * ntr))
    else []

/-- `show_idr` of the record at an offset. -/
def showIdr : List Line :=
  let sub := (r (o + 2)).toNat
  let last := decide (128 ≤ sub)
  if sub % 128 = idrSpzap then showZaps sect only r rlen last o
  else if sub % 128 = idrUser then showUser sect only r rlen last o rlen 3
  else if sub % 128 = idrLked then showLked r rlen last o
  else if sub % 128 = idrXlate then showXlate sect r rlen last o rlen 3
  else if only = none then [.other o (sub % 128) rlen last]
  else []

end Report

/-- The report on a file; `none` if it is no load module. -/
def idrdump (only : Option (List UInt8)) (l : List UInt8) : Option (List Line) :=
  if Ld370.lmodPlausible l then
    some (((walkMember (ofBytes l) l.length).items.filter fun r => r.kind = .idr).flatMap fun r =>
      showIdr (sections (ofBytes l) l.length) only (ofBytes l) r.len r.off)
  else none

section Records

/-- A service entry: a section, when, and the name of the zap. -/
structure Zap where
  esdid : ℕ
  date : Vector UInt8 3
  name : Vector UInt8 8
  esdid_lt : esdid < 65536

/-- An entry of the user: a section, when, and the text. -/
structure Apar where
  esdid : ℕ
  date : Vector UInt8 3
  text : List UInt8
  esdid_lt : esdid < 65536
  text_lt : text.length < 256

/-- What made a section, at which level, and when. -/
structure Translator where
  id : Vector UInt8 10
  version : Vector UInt8 1
  modification : Vector UInt8 1
  date : Vector UInt8 3

/-- The sections that one translator made, or two, the second from what the first had made. -/
structure Made where
  ids : List ℕ
  lastId : ℕ
  one : Translator
  two : Option Translator
  ids_lt : ∀ id ∈ ids, id < 32768
  lastId_lt : lastId < 32768

/-- What an IDR record says. -/
inductive Idr
  | zaps (chain : Bool) (es : List Zap) (room : ℕ)
  | apars (es : List Apar)
  | lked (maker : Translator) (time : Option (Vector UInt8 4))
  | translators (es : List Made)

def Zap.bytes (e : Zap) : List UInt8 := mvsPut16 e.esdid ++ (e.date.toList ++ e.name.toList)

def Apar.bytes (e : Apar) : List UInt8 := mvsPut16 e.esdid ++ (e.date.toList ++ (.ofNat e.text.length :: e.text))

def Translator.bytes (e : Translator) : List UInt8 := e.id.toList ++ (e.version.toList ++ (e.modification.toList ++ e.date.toList))

def Made.bytes (e : Made) : List UInt8 :=
  e.ids.flatMap (fun id : ℕ => mvsPut16 id) ++ (mvsPut16 (e.lastId + 32768 : ℕ) ++
    ((if e.two.isSome then 1 else 0) :: (e.one.bytes ++ e.two.elim [] Translator.bytes)))

namespace Idr

def subtype : Idr → ℕ
  | zaps .. => idrSpzap
  | apars .. => idrUser
  | lked .. => idrLked
  | translators .. => idrXlate

def body : Idr → List UInt8
  | zaps chain es room => .ofNat (es.length + if chain then 64 else 0) :: (es.flatMap Zap.bytes ++ List.replicate room 0)
  | apars es => es.flatMap Apar.bytes
  | lked e time => e.bytes ++ time.elim [] Vector.toList
  | translators es => es.flatMap Made.bytes

/-- The record, which ends the chain or does not. -/
def record (last : Bool) (i : Idr) : List UInt8 :=
  0x80 :: .ofNat (i.body.length + 2) :: .ofNat (i.subtype + if last then 128 else 0) :: i.body

/-- The length fits its byte, and the record is one that the iterator can frame. -/
def Fits (i : Idr) : Prop := 5 ≤ i.body.length ∧ i.body.length + 2 < 256

section Lines

variable (sect : Sections) (only : Option (List UInt8)) (o : ℕ) (last : Bool)

def zapLine (chain : Bool) (e : Zap) : Line :=
  .zap o last chain (sectName sect e.esdid) e.esdid (packedDate e.date.toList) (efield e.name.toList)

def aparLine (e : Apar) : Line :=
  .user o last (sectName sect e.esdid) e.esdid (packedDate e.date.toList) ((e.text.take 63).map mvsE2aPr)

def translatorLine (ids : List ℕ) (e : Translator) : Line :=
  .translator o last (owners sect ids) (efield e.id.toList) ((nibbles e.version.toList).map hexUpper)
    ((nibbles e.modification.toList).map hexUpper) (packedDate e.date.toList)

/-- What a reader should report of a record. -/
def lines : Idr → List Line
  | zaps chain es _ =>
    (es.filter fun e => wanted only (sectName sect e.esdid)).map (zapLine sect o last chain) ++
      if es = [] ∧ only = none then [.noZap o last] else []
  | apars es => (es.filter fun e => wanted only (sectName sect e.esdid)).map (aparLine sect o last)
  | lked e time =>
    [.lked o last (efield e.id.toList) ((nibbles e.version.toList).map hexUpper) ((nibbles e.modification.toList).map hexUpper)
      (packedDate e.date.toList) (time.map fun t => packedTime t.toList)]
  | translators es =>
    es.flatMap fun e => translatorLine sect o last (e.ids ++ [e.lastId]) e.one ::
      (e.two.map (translatorLine sect o last (e.ids ++ [e.lastId]))).toList

end Lines

end Idr

end Records

section Read

variable {sect : Sections} {only : Option (List UInt8)} {r : Buffer} {rlen o q : ℕ} {last : Bool} {l : List UInt8}

theorem bytesAt_at {p n : ℕ} (h : At r p l) (hn : l.length = n) : bytesAt r p n = l := by
  subst hn
  exact h.map_range

theorem filterMap_range {α β : Type*} {f : ℕ → Option β} {g : α → Option β} (l : List α) (h : ∀ k (hk : k < l.length), f k = g l[k]) :
    (List.range l.length).filterMap f = l.filterMap g := by
  induction l generalizing f with
  | nil => rfl
  | cons a l ih =>
    have h0 : f 0 = g a := h 0 (Nat.succ_pos _)
    have hrest : (List.range l.length).filterMap (f ∘ Nat.succ) = l.filterMap g := by
      apply ih
      intro k hk
      exact h (k + 1) (Nat.succ_lt_succ hk)
    rw [List.length_cons, List.range_succ_eq_map, List.filterMap_cons, List.filterMap_map, hrest, h0, List.filterMap_cons]

theorem filterMap_ite {α β : Type*} (c : α → Bool) (f : α → β) (l : List α) :
    l.filterMap (fun a => if c a = true then some (f a) else none) = (l.filter c).map f := by
  induction l with
  | nil => rfl
  | cons a l ih =>
    rw [List.filterMap_cons, List.filter_cons, ih]
    split <;> simp_all

theorem zap_length (e : Zap) : e.bytes.length = spzapEntlen := by simp [Zap.bytes, spzapEntlen]

theorem zaps_length (es : List Zap) : (es.flatMap Zap.bytes).length = spzapEntlen * es.length := by
  rw [List.length_flatMap, List.map_congr_left (fun e _ => zap_length e), List.map_const', List.sum_replicate, smul_eq_mul, mul_comm]

/-- The entries of a kind stand one after the other. -/
theorem zap_at {es : List Zap} {p : ℕ} (h : At r p (es.flatMap Zap.bytes)) {k : ℕ} (hk : k < es.length) :
    At r (p + k * spzapEntlen) es[k].bytes := by
  rw [List.flatMap_def] at h
  have hget := h.flatten (i := k) (by simpa using hk)
  have hsum : (((es.map Zap.bytes).take k).map List.length).sum = k * spzapEntlen := by
    rw [← List.map_take, List.map_map, Function.comp_def]
    simp only [zap_length, List.map_const', List.sum_replicate, List.length_take, Nat.min_eq_left hk.le, smul_eq_mul]
  rw [hsum] at hget
  simpa using hget

theorem zap_fields {e : Zap} {p : ℕ} (h : At r p e.bytes) :
    mvsBe16 r p = e.esdid ∧ bytesAt r (p + 2) 3 = e.date.toList ∧ bytesAt r (p + 5) 8 = e.name.toList := by
  have hrest := h.right
  refine ⟨mvsBe16_at_nat h.left e.esdid_lt, ?_, ?_⟩
  · exact bytesAt_at hrest.left (by simp)
  · have hname := hrest.right
    rw [mvsPut16_length, Vector.length_toList, add_assoc] at hname
    exact bytesAt_at hname (by simp)

theorem showZaps_record {chain : Bool} {es : List Zap} {room : ℕ} (hf : (Idr.zaps chain es room).Fits)
    (h : At r (o + 3) (Idr.zaps chain es room).body) (hlen : rlen = (Idr.zaps chain es room).body.length + 3) :
    showZaps sect only r rlen last o = (Idr.zaps chain es room).lines sect only o last := by
  have hbody : (Idr.zaps chain es room).body.length = 1 + (spzapEntlen * es.length + room) := by
    rw [Idr.body, List.length_cons, List.length_append, zaps_length, List.length_replicate, add_comm]
  have hfew : es.length < 20 := by
    have := hf.2
    rw [hbody, spzapEntlen] at this
    omega
  rw [Idr.body, at_cons] at h
  obtain ⟨hraw, hes⟩ := h
  have hn : (r (o + 3)).toNat = es.length + if chain then 64 else 0 := by
    rw [hraw, UInt8.toNat_ofNat']
    apply Nat.mod_eq_of_lt
    cases chain <;> simp <;> omega
  have hcount : (r (o + 3)).toNat % 64 = es.length := by
    rw [hn]
    cases chain <;> simp <;> omega
  have hchain : decide ((r (o + 3)).toNat / 64 % 2 = 1) = chain := by
    rw [hn]
    cases chain <;> simp <;> omega
  have hall : (List.range es.length).takeWhile (fun k => decide (spzapHdr + (k + 1) * spzapEntlen ≤ rlen)) = List.range es.length := by
    apply List.takeWhile_eq_self_iff.mpr
    intro k hk
    have hk := List.mem_range.mp hk
    apply decide_eq_true
    rw [hlen, hbody, spzapHdr, spzapEntlen]
    omega
  unfold showZaps
  simp only [hcount, hchain, hall]
  rw [Idr.lines, ← filterMap_ite]
  simp only [List.length_eq_zero_iff]
  congr 1
  apply filterMap_range
  intro k hk
  have hat := zap_at hes.left hk
  rw [show o + 3 + 1 = o + spzapHdr from rfl, add_assoc] at hat
  obtain ⟨hid, hdate, hname⟩ := zap_fields hat
  simp only [hid, hdate, hname]
  rfl

theorem apar_length (e : Apar) : e.bytes.length = 6 + e.text.length := by
  simp [Apar.bytes]
  omega

theorem apar_fields {e : Apar} {p : ℕ} (h : At r p e.bytes) : mvsBe16 r p = e.esdid ∧ bytesAt r (p + 2) 3 = e.date.toList ∧
    (r (p + 5)).toNat = e.text.length ∧ bytesAt r (p + 6) e.text.length = e.text := by
  have hrest := h.right
  have htext := hrest.right
  rw [mvsPut16_length, Vector.length_toList, add_assoc, at_cons] at htext
  refine ⟨mvsBe16_at_nat h.left e.esdid_lt, bytesAt_at hrest.left (by simp), ?_, bytesAt_at htext.2 rfl⟩
  rw [htext.1, UInt8.toNat_ofNat']
  exact Nat.mod_eq_of_lt e.text_lt

theorem showUser_entries (es : List Apar) : ∀ {fuel q : ℕ}, At r (o + q) (es.flatMap Apar.bytes) → q + (es.flatMap Apar.bytes).length = rlen →
    es.length ≤ fuel → showUser sect only r rlen last o fuel q = (Idr.apars es).lines sect only o last := by
  induction es with
  | nil =>
    intro fuel q _ hq _
    cases fuel with
    | zero => rfl
    | succ fuel =>
      rw [List.flatMap_nil, List.length_nil] at hq
      unfold showUser
      rw [if_neg (by omega)]
      rfl
  | cons e es ih =>
    intro fuel q h hq hfuel
    obtain ⟨fuel, rfl⟩ : ∃ f, fuel = f + 1 := ⟨fuel - 1, by rw [List.length_cons] at hfuel; omega⟩
    rw [List.flatMap_cons] at h hq
    rw [List.length_append, apar_length] at hq
    obtain ⟨hid, hdate, htl, htext⟩ := apar_fields h.left
    have hrest := h.right
    rw [apar_length, add_assoc] at hrest
    have hih := @ih fuel (q + (6 + e.text.length)) hrest (by omega) (by rw [List.length_cons] at hfuel; omega)
    unfold showUser
    simp only [hid, hdate, htl, htext]
    rw [if_pos (by omega), show q + 6 + e.text.length = q + (6 + e.text.length) by omega, hih]
    simp only [Idr.lines, List.filter_cons]
    split <;> rfl

variable (rlen) in
theorem xlateIds_ids (ids : List ℕ) {lastId : ℕ} {rest : List UInt8} (hids : ∀ id ∈ ids, id < 32768) (hlast : lastId < 32768) :
    ∀ {fuel q : ℕ}, At r (o + q) (ids.flatMap (fun id : ℕ => mvsPut16 id) ++ (mvsPut16 (lastId + 32768 : ℕ) ++ rest)) →
      q + 2 * ids.length + 2 ≤ rlen → ids.length < fuel → xlateIds r rlen o fuel q = (ids ++ [lastId], q + 2 * ids.length + 2) := by
  induction ids with
  | nil =>
    intro fuel q h hq hfuel
    obtain ⟨fuel, rfl⟩ : ∃ f, fuel = f + 1 := ⟨fuel - 1, by rw [List.length_nil] at hfuel; omega⟩
    rw [List.flatMap_nil, List.nil_append] at h
    have hid := mvsBe16_at_nat h.left (by omega : lastId + 32768 < 65536)
    have hhigh : ¬ (r (o + q)).toNat < 128 := by
      have hlow := (r (o + q + 1)).toNat_lt
      rw [mvsBe16] at hid
      omega
    rw [List.length_nil] at hq
    rw [xlateIds, if_pos (by omega), if_neg hhigh, hid, Nat.add_mod_right, Nat.mod_eq_of_lt hlast]
    rfl
  | cons id ids ih =>
    intro fuel q h hq hfuel
    rw [List.length_cons] at hq hfuel
    obtain ⟨fuel, rfl⟩ : ∃ f, fuel = f + 1 := ⟨fuel - 1, by omega⟩
    rw [List.flatMap_cons, List.append_assoc] at h
    have hlt := hids id List.mem_cons_self
    have hid := mvsBe16_at_nat h.left (by omega)
    have hlow : (r (o + q)).toNat < 128 := by
      rw [mvsBe16] at hid
      omega
    have hrest := h.right
    rw [mvsPut16_length, add_assoc] at hrest
    have hih := ih (fun i hi => hids i (List.mem_cons_of_mem _ hi)) hrest (by omega) (by omega : ids.length < fuel)
    rw [xlateIds, if_pos (by omega), if_pos hlow, hih, hid, Nat.mod_eq_of_lt hlt, List.length_cons]
    simp only [List.cons_append, Prod.mk.injEq, true_and]
    omega

theorem translator_length (e : Translator) : e.bytes.length = 15 := by simp [Translator.bytes]

variable (sect last o) in
theorem xlateOne_at {e : Translator} {p : ℕ} (ids : List ℕ) (h : At r p e.bytes) :
    xlateOne sect r last o p ids = Idr.translatorLine sect o last ids e := by
  have hv := h.right
  have hm := hv.right
  have hd := hm.right
  rw [Vector.length_toList] at hv hm hd
  rw [Vector.length_toList, add_assoc] at hm hd
  rw [Vector.length_toList, add_assoc] at hd
  rw [xlateOne, bytesAt_at h.left (by simp), bytesAt_at hv.left (by simp), bytesAt_at (p := p + 11) hm.left (by simp),
    bytesAt_at (p := p + 12) hd (by simp)]
  rfl

theorem ids_length (ids : List ℕ) : (ids.flatMap fun id : ℕ => mvsPut16 id).length = 2 * ids.length := by
  rw [List.length_flatMap]
  simp only [mvsPut16_length, List.map_const', List.sum_replicate, smul_eq_mul]
  omega

theorem made_length (e : Made) : e.bytes.length = 2 * e.ids.length + 2 + 1 + 15 * if e.two.isSome then 2 else 1 := by
  rw [Made.bytes, List.length_append, List.length_append, List.length_cons, List.length_append, ids_length, translator_length, mvsPut16_length]
  cases htwo : e.two with
  | none => simp
  | some t => simp [translator_length]

theorem showXlate_items (es : List Made) : ∀ {fuel q : ℕ}, At r (o + q) (es.flatMap Made.bytes) → q + (es.flatMap Made.bytes).length = rlen →
    es.length ≤ fuel → showXlate sect r rlen last o fuel q = (Idr.translators es).lines sect only o last := by
  induction es with
  | nil =>
    intro fuel q _ hq _
    cases fuel with
    | zero => rfl
    | succ fuel =>
      rw [List.flatMap_nil, List.length_nil] at hq
      unfold showXlate
      rw [if_neg (by omega)]
      rfl
  | cons e es ih =>
    intro fuel q h hq hfuel
    rw [List.length_cons] at hfuel
    obtain ⟨fuel, rfl⟩ : ∃ f, fuel = f + 1 := ⟨fuel - 1, by omega⟩
    rw [List.flatMap_cons] at h hq
    have hlen := made_length e
    rw [List.length_append] at hq
    have hmade := h.left
    have hrest := h.right
    have hidsAt := hmade
    rw [Made.bytes] at hidsAt hmade
    have hids := xlateIds_ids rlen e.ids e.ids_lt e.lastId_lt hidsAt (by split at hlen <;> omega) (by split at hlen <;> omega : e.ids.length < rlen)
    have hflag := hmade.right.right
    rw [ids_length, mvsPut16_length, show o + q + 2 * e.ids.length + 2 = o + (q + 2 * e.ids.length + 2) by omega, at_cons] at hflag
    obtain ⟨hflag, htrans⟩ := hflag
    unfold showXlate
    rw [if_pos (by split at hlen <;> omega), hids]
    dsimp only
    obtain ⟨p, hp⟩ : ∃ p, p = q + 2 * e.ids.length + 2 := ⟨_, rfl⟩
    rw [← hp] at hflag htrans ⊢
    have hone := xlateOne_at sect o last (e.ids ++ [e.lastId]) htrans.left
    rw [add_assoc] at hone
    rw [hlen] at hrest hq
    rw [hflag]
    cases htwo : e.two with
    | none =>
      simp only [htwo, Option.isSome_none, Bool.false_eq_true, ↓reduceIte] at hq hrest ⊢
      have hih := @ih fuel (p + 1 + 15) (by rw [show o + (p + 1 + 15) = o + q + (2 * e.ids.length + 2 + 1 + 15 * 1) by omega]; exact hrest)
        (by omega) (by omega)
      simp only [ne_eq, not_true_eq_false, ↓reduceIte, mul_one, OfNat.one_ne_ofNat, List.nil_append]
      rw [if_neg (by omega), hone, hih]
      simp [Idr.lines, htwo]
    | some t =>
      have hsecond := htrans.right
      simp only [htwo, Option.elim_some, translator_length] at hsecond
      have htwoLine := xlateOne_at sect o last (e.ids ++ [e.lastId]) hsecond
      rw [show o + p + 1 + 15 = o + (p + 1 + 15) by omega] at htwoLine
      simp only [htwo, Option.isSome_some, ↓reduceIte] at hq hrest ⊢
      have hih := @ih fuel (p + 1 + 15 * 2) (by rw [show o + (p + 1 + 15 * 2) = o + q + (2 * e.ids.length + 2 + 1 + 15 * 2) by omega]; exact hrest)
        (by omega) (by omega)
      simp only [ne_eq, (by decide : ¬ (1 : UInt8) = 0), not_false_eq_true, ↓reduceIte]
      rw [if_neg (by omega), hone, hih, htwoLine]
      simp [Idr.lines, htwo]

theorem showLked_record {maker : Translator} {time : Option (Vector UInt8 4)} (h : At r (o + 3) (Idr.lked maker time).body)
    (hlen : rlen = (Idr.lked maker time).body.length + 3) : showLked r rlen last o = (Idr.lked maker time).lines sect only o last := by
  rw [Idr.body, List.length_append, translator_length] at hlen
  rw [Idr.body] at h
  have hm := h.left
  have ht := h.right
  rw [translator_length, add_assoc] at ht
  have hv := hm.right
  have hmod := hv.right
  have hd := hmod.right
  rw [Vector.length_toList, add_assoc] at hv hmod hd
  rw [Vector.length_toList, add_assoc] at hmod hd
  rw [Vector.length_toList, add_assoc] at hd
  rw [showLked, if_neg (by omega), bytesAt_at hm.left (by simp), bytesAt_at (p := o + 13) hv.left (by simp),
    bytesAt_at (p := o + 14) hmod.left (by simp), bytesAt_at (p := o + 15) hd (by simp), Idr.lines]
  cases time with
  | none =>
    rw [Option.elim_none, List.length_nil] at hlen
    rw [if_neg (by omega), Option.map_none]
  | some t =>
    rw [Option.elim_some, Vector.length_toList] at hlen
    rw [if_pos (by omega), Option.map_some, bytesAt_at (p := o + 18) ht (by simp)]
    rfl

/-- A record that says something is reported as saying just that. -/
theorem showIdr_record {i : Idr} (hf : i.Fits) (h : At r o (i.record last)) :
    showIdr sect only r (i.record last).length o = i.lines sect only o last := by
  have hlen : (i.record last).length = i.body.length + 3 := by simp [Idr.record]
  rw [Idr.record, at_cons, at_cons, at_cons] at h
  obtain ⟨-, -, hsub, hbody⟩ := h
  change r (o + 2) = _ at hsub
  change At r (o + 3) _ at hbody
  have hsmall : i.subtype < 16 := by cases i <;> simp [Idr.subtype, idrSpzap, idrUser, idrLked, idrXlate]
  have hnat : (r (o + 2)).toNat = i.subtype + if last then 128 else 0 := by
    rw [hsub, UInt8.toNat_ofNat']
    apply Nat.mod_eq_of_lt
    split <;> omega
  have hmod : (r (o + 2)).toNat % 128 = i.subtype := by
    rw [hnat]
    split <;> omega
  have hlast : decide (128 ≤ (r (o + 2)).toNat) = last := by
    rw [hnat]
    cases last <;> simp
    omega
  unfold showIdr
  simp only [hmod, hlast, hlen]
  cases i with
  | zaps chain es room =>
    simp only [Idr.subtype, ↓reduceIte]
    exact showZaps_record hf hbody rfl
  | apars es =>
    simp only [Idr.subtype, idrSpzap, idrUser, ↓reduceIte, OfNat.ofNat_ne_one]
    apply showUser_entries es hbody (by rw [add_comm]; rfl)
    have hmany : es.length ≤ (es.flatMap Apar.bytes).length := by
      rw [List.length_flatMap]
      have hsum := List.length_le_sum_of_one_le (es.map fun e => e.bytes.length) (by simp [apar_length]; omega)
      rwa [List.length_map] at hsum
    exact hmany.trans (Nat.le_add_right _ 3)
  | lked maker time =>
    simp only [Idr.subtype, idrSpzap, idrUser, idrLked, ↓reduceIte, OfNat.ofNat_ne_one, Nat.reduceEqDiff]
    exact showLked_record hbody rfl
  | translators es =>
    simp only [Idr.subtype, idrSpzap, idrUser, idrLked, idrXlate, ↓reduceIte, OfNat.ofNat_ne_one, Nat.reduceEqDiff]
    apply showXlate_items es hbody (by rw [add_comm]; rfl)
    have hmany : es.length ≤ (es.flatMap Made.bytes).length := by
      rw [List.length_flatMap]
      have hsum := List.length_le_sum_of_one_le (es.map fun e => e.bytes.length) (by simp [made_length]; omega)
      rwa [List.length_map] at hsum
    exact hmany.trans (Nat.le_add_right _ 3)

end Read

end Idrdump370

end Cc370
