import Cc370.Ld370.Extents
import Cc370.Ld370.Emit
import Cc370.RldItems

namespace Cc370.Ld370

open Obj370 Slices

namespace RldItem

/-- The item as it is written. -/
def code (it : RldItem) : RldCode := ⟨it.R, it.P, it.flag, it.addr⟩

/-- The data of a record with the items. -/
def data (its : List RldItem) : List UInt8 := RldCode.encode none (its.map code)

variable {its : List RldItem} {it last : RldItem}

theorem data_same (hlast : its.getLast? = some last) (hR : it.R = last.R) (hP : it.P = last.P) :
    data (its ++ [it]) = (data its).modify ((data its).length - 4) (· ||| 0x01) ++ it.tail := by
  have hlast' : (its.map code).getLast? = some last.code := by rw [List.getLast?_map, hlast]; rfl
  have hkey : last.code.key = it.code.key := by simp [RldCode.key, code, hR, hP]
  rw [data, List.map_append]
  exact RldCode.encode_same hlast' hkey

theorem data_other (hlast : ∀ last, its.getLast? = some last → ¬ (it.R = last.R ∧ it.P = last.P)) :
    data (its ++ [it]) = data its ++ it.full := by
  have hlast' : ((its.map code).getLast?.map RldCode.key).or none ≠ some it.code.key := by
    rw [Option.or_none, List.getLast?_map, Option.map_map]
    intro hsome
    obtain ⟨last, hl, hkey⟩ := Option.map_eq_some_iff.mp hsome
    obtain ⟨hR, hP⟩ := Prod.mk.inj hkey
    exact hlast last hl ⟨hR.symm, hP.symm⟩
  rw [data, List.map_append]
  exact RldCode.encode_other hlast'

theorem data_single (it : RldItem) : data [it] = it.full := by
  have hsingle : data ([] ++ [it]) = data [] ++ it.full := data_other nofun
  exact hsingle

end RldItem

/-- The emitter has closed the records of some items and holds others in the open one. -/
structure RldOut.Holds (st : RldOut) (done : List (List RldItem)) (cur : List RldItem) : Prop where
  closed : st.closed = done.map fun its => rldRecord 0x02 (RldItem.data its)
  fits : ∀ its ∈ done, its ≠ [] ∧ (RldItem.data its).length ≤ rldmax
  openCur : st.cur = cur.getLast?.map fun last => (RldItem.data cur, last.R, last.P, (RldItem.data cur).length - 4)
  short : (RldItem.data cur).length ≤ rldmax

namespace RldOut

theorem Holds.emit {st : RldOut} {done : List (List RldItem)} {cur : List RldItem} (h : st.Holds done cur) (it : RldItem) :
    ∃ done' cur', (st.emit it).Holds done' cur' ∧ done'.flatten ++ cur' = done.flatten ++ cur ++ [it] ∧ cur' ≠ [] := by
  have hfull : it.full.length = 8 := rfl
  have htail : it.tail.length = 4 := rfl
  have hone : (RldItem.data [it]).length ≤ rldmax := by rw [RldItem.data_single, hfull]; decide
  have hstart : ∀ closed done, closed = done.map (fun its => rldRecord 0x02 (RldItem.data its)) →
      (∀ its ∈ done, its ≠ [] ∧ (RldItem.data its).length ≤ rldmax) →
        Holds ⟨closed, some (it.full, it.R, it.P, 4)⟩ done [it] := by
    intro closed done hclosed hfits
    refine ⟨hclosed, hfits, ?_, hone⟩
    rw [RldItem.data_single, hfull]
    rfl
  unfold RldOut.emit
  cases hlast : cur.getLast? with
  | none =>
    obtain rfl : cur = [] := by simpa using hlast
    have hcur : st.cur = none := h.openCur
    rw [hcur]
    refine ⟨done, [it], hstart st.closed done h.closed h.fits, by simp, by simp⟩
  | some last =>
    have hcur := h.openCur
    rw [hlast, Option.map_some] at hcur
    rw [hcur]
    dsimp only
    have hne : cur ≠ [] := by
      rintro rfl
      exact absurd hlast (by simp)
    by_cases hroom : rldmax < (RldItem.data cur).length + if it.R = last.R ∧ it.P = last.P then 4 else 8
    · rw [if_pos hroom]
      refine ⟨done ++ [cur], [it], hstart _ _ ?_ ?_, by simp, by simp⟩
      · rw [h.closed, List.map_append]
        rfl
      · intro its hits
        rcases List.mem_append.mp hits with hits | hits
        · exact h.fits its hits
        · rw [List.mem_singleton.mp hits]
          exact ⟨hne, h.short⟩
    · rw [if_neg hroom]
      by_cases hsame : it.R = last.R ∧ it.P = last.P
      · rw [if_pos hsame] at hroom ⊢
        have hdata := RldItem.data_same hlast hsame.1 hsame.2
        have hlen : (RldItem.data (cur ++ [it])).length = (RldItem.data cur).length + 4 := by
          rw [hdata, List.length_append, List.length_modify, htail]
        refine ⟨done, cur ++ [it], ⟨h.closed, h.fits, ?_, by omega⟩, by simp, by simp⟩
        rw [List.getLast?_concat, Option.map_some, hlen, hdata]
        rfl
      · rw [if_neg hsame] at hroom ⊢
        have hdata : RldItem.data (cur ++ [it]) = RldItem.data cur ++ it.full := by
          apply RldItem.data_other
          intro last' hlast'
          rw [← Option.some.inj (hlast.symm.trans hlast')]
          exact hsame
        have hlen : (RldItem.data (cur ++ [it])).length = (RldItem.data cur).length + 8 := by
          rw [hdata, List.length_append, hfull]
        refine ⟨done, cur ++ [it], ⟨h.closed, h.fits, ?_, by omega⟩, by simp, by simp⟩
        rw [List.getLast?_concat, Option.map_some, hlen, hdata]
        rfl

theorem Holds.foldl {st : RldOut} {done : List (List RldItem)} {cur : List RldItem} (h : st.Holds done cur) (items : List RldItem) :
    ∃ done' cur', (items.foldl RldOut.emit st).Holds done' cur' ∧ done'.flatten ++ cur' = done.flatten ++ cur ++ items := by
  induction items generalizing st done cur with
  | nil => exact ⟨done, cur, h, by simp⟩
  | cons it items ih =>
    obtain ⟨done', cur', h', heq, -⟩ := h.emit it
    obtain ⟨done'', cur'', h'', heq'⟩ := ih h'
    refine ⟨done'', cur'', h'', ?_⟩
    rw [heq', heq, List.append_assoc]
    rfl

end RldOut

section Read

/-- What `obj_rld_items` finds in a record: the data behind its header, as long as the header says. -/
def rldOf (rec : List UInt8) : List Rld :=
  let b := ofBytes rec
  rldItems (fun i => b (16 + i)) (mvsBe16 b 6) (mvsBe16 b 6 + 1) 0 0 0 false

/-- A record reads back as the items: a flag has the bit that repeats the pointers if the next item of the record has the same. -/
structure RldRead (its : List RldItem) (rec : List UInt8) : Prop where
  nonempty : its ≠ []
  length : rec.length = 16 + mvsBe16 (ofBytes rec) 6
  short : mvsBe16 (ofBytes rec) 6 ≤ 236
  items : rldOf rec = RldCode.decoded (its.map RldItem.code)
  last : ∀ it ∈ (rldOf rec).getLast?, it.flag.toNat % 2 = 0

theorem decoded_getLast {cs : List RldCode} (heven : ∀ c ∈ cs, c.flag.toNat % 2 = 0) : ∀ it ∈ (RldCode.decoded cs).getLast?, it.flag.toNat % 2 = 0 := by
  induction cs with
  | nil => exact nofun
  | cons c cs ih =>
    cases cs with
    | nil =>
      rintro it ⟨⟩
      exact heven c List.mem_cons_self
    | cons d cs =>
      intro it hit
      rw [RldCode.decoded, RldCode.decoded, List.getLast?_cons_cons] at hit
      exact ih (fun x hx => heven x (List.mem_cons_of_mem _ hx)) it hit

theorem rldRecord_read {its : List RldItem} (byte0 : UInt8) (hne : its ≠ []) (hlen : (RldItem.data its).length ≤ rldmax)
    (heven : ∀ it ∈ its, it.flag.toNat % 2 = 0) : RldRead its (rldRecord byte0 (RldItem.data its)) := by
  have hmax : rldmax = 236 := rfl
  set data := RldItem.data its with hdata
  have hat : At (ofBytes (rldRecord byte0 data)) 0 ([byte0, 0, 0, 0, 0, 0] ++ mvsPut16 data.length ++ List.replicate 8 0 ++ data) := at_getD _ 0
  have hcount : mvsBe16 (ofBytes (rldRecord byte0 data)) 6 = data.length := mvsBe16_at_nat hat.left.left.right (by omega)
  have hcodes : ∀ c ∈ its.map RldItem.code, c.flag.toNat % 2 = 0 := by
    intro c hc
    obtain ⟨it, hit, rfl⟩ := List.mem_map.mp hc
    exact heven it hit
  have hbody : At (fun i => ofBytes (rldRecord byte0 data) (16 + i)) 0 (RldCode.encode none (its.map RldItem.code)) := by
    intro i hi
    rw [Nat.zero_add]
    exact hat.right i hi
  have hitems : 4 * (its.map RldItem.code).length ≤ data.length := RldCode.encode_length_ge none _
  have hread : rldOf (rldRecord byte0 data) = RldCode.decoded (its.map RldItem.code) := by
    have hdec := RldCode.rldItems_encode (its.map RldItem.code) hcodes none 0 (data.length + 1) 0 0 false (by omega) (by cases its <;> simp) (by simp) hbody
    rw [Nat.zero_add] at hdec
    rw [rldOf, hcount]
    exact hdec
  refine ⟨hne, ?_, by omega, hread, ?_⟩
  · rw [hcount, rldRecord]
    simp
    omega
  · rw [hread]
    exact decoded_getLast hcodes

theorem rldRecords_groups (items : List RldItem) (heven : ∀ it ∈ items, it.flag.toNat % 2 = 0) :
    ∃ groups : List (List RldItem), groups.flatten = items ∧ List.Forall₂ RldRead groups (rldRecords items) := by
  have hstart : RldOut.Holds ⟨[], none⟩ [] [] := ⟨rfl, nofun, rfl, by simp [RldItem.data, RldCode.encode]⟩
  obtain ⟨done, cur, h, heq⟩ := hstart.foldl items
  rw [List.flatten_nil, List.nil_append, List.nil_append] at heq
  have hflag : ∀ its ∈ done ++ [cur], ∀ it ∈ its, it.flag.toNat % 2 = 0 := by
    intro its hits it hit
    apply heven
    rw [← heq]
    rcases List.mem_append.mp hits with hits | hits
    · exact List.mem_append_left _ (List.mem_flatten.mpr ⟨its, hits, hit⟩)
    · rw [List.mem_singleton] at hits
      exact List.mem_append_right _ (hits ▸ hit)
  have hclosed : List.Forall₂ RldRead done (done.map fun its => rldRecord 0x02 (RldItem.data its)) := by
    rw [List.forall₂_map_right_iff, List.forall₂_same]
    intro its hits
    exact rldRecord_read 0x02 (h.fits its hits).1 (h.fits its hits).2 (hflag its (List.mem_append_left _ hits))
  rw [rldRecords, RldOut.finish, h.closed, h.openCur]
  cases hlast : cur.getLast? with
  | none =>
    obtain rfl : cur = [] := by simpa using hlast
    refine ⟨done, by simpa using heq, ?_⟩
    simpa using hclosed
  | some last =>
    have hne : cur ≠ [] := by
      rintro rfl
      exact absurd hlast (by simp)
    refine ⟨done ++ [cur], by simpa using heq, ?_⟩
    refine List.rel_append hclosed (.cons ?_ .nil)
    exact rldRecord_read 0x0E hne h.short (hflag cur (by simp))

end Read

section Link

/-- The symbol an address constant refers to is a section, or a label in one. -/
def Placed.resolves (o : Placed) (G : List Gsym) (r : Orld) : Bool :=
  let Rg := (o.localToG r.R).map (gAt G)
  Rg.any Gsym.isSect ∨ Rg.any (fun g => g.type = .lr) ∧ ((Rg.bind Gsym.owner).map (gAt G)).any Gsym.isSect

/-- The ESDID of the section an address constant refers to, or else of the symbol. -/
def Placed.relocationId (o : Placed) (G : List Gsym) (r : Orld) : ℕ :=
  let Rg := (o.localToG r.R).map (gAt G)
  if !Rg.any Gsym.isSect ∧ o.resolves G r then ((Rg.bind Gsym.owner).map (gAt G)).elim 0 Gsym.gid else Rg.elim 0 Gsym.gid

def Placed.positionId (o : Placed) (G : List Gsym) (r : Orld) : ℕ := (o.localToG r.P).elim 0 fun Pg => (gAt G Pg).gid

/-- The kept RLD items of a link with their composite pointers and their addresses in the module. -/
def Layout.keptItems (L : Layout) : List RldItem :=
  L.objs.zipIdx.flatMap fun (o, i) => (o.obj.rld.filter fun r => !o.rldDropped r).map fun r =>
    ⟨o.relocationId L.G r, o.positionId L.G r, (r.flag &&& 0xFE) ||| (if o.resolves L.G r then 0x00 else 0x80), o.rldModaddr (objectBase L.objs i) r⟩

theorem rldItem_eq (o : Placed) (base : ℤ) (G : List Gsym) (r : Orld) : o.rldItem base G r = if o.rldDropped r then none else
    some ⟨o.relocationId G r, o.positionId G r, (r.flag &&& 0xFE) ||| (if o.resolves G r then 0x00 else 0x80), o.rldModaddr base r⟩ := by
  unfold Placed.rldItem
  by_cases hd : o.rldDropped r = true
  · rw [if_pos hd, if_pos hd]
  rw [if_neg hd, if_neg hd]
  dsimp only
  by_cases hs : ((o.localToG r.R).map (gAt G)).any Gsym.isSect = true
  · simp [hs, Placed.relocationId, Placed.positionId, Placed.resolves]
  · by_cases hv : ((o.localToG r.R).map (gAt G)).any (fun g => g.type = .lr) = true ∧
      ((((o.localToG r.R).map (gAt G)).bind Gsym.owner).map (gAt G)).any Gsym.isSect = true
    · have hres : o.resolves G r = true := decide_eq_true (.inr hv)
      rw [if_neg hs, if_pos hv, Placed.relocationId, if_pos ⟨by simp [hs], hres⟩, hres]
      simp only [if_true, UInt8.or_zero]
      rfl
    · have hres : o.resolves G r = false := decide_eq_false (not_or.mpr ⟨hs, hv⟩)
      rw [if_neg hs, if_neg hv, Placed.relocationId, if_neg (by simp [hres]), hres]
      rfl

theorem rldItems_kept (L : Layout) : L.rldItems = L.keptItems := by
  unfold Layout.rldItems Layout.keptItems
  apply List.flatMap_congr
  rintro ⟨o, i⟩ -
  dsimp only
  induction o.obj.rld with
  | nil => rfl
  | cons r rs ih =>
    rw [List.filterMap_cons, rldItem_eq]
    by_cases hd : o.rldDropped r = true
    · simp [hd, ih]
    · simp [hd, ih]

theorem keptItems_even (L : Layout) : ∀ it ∈ L.keptItems, it.flag.toNat % 2 = 0 := by
  have heven : ∀ f : UInt8, ((f &&& 0xFE) ||| 0x00).toNat % 2 = 0 ∧ ((f &&& 0xFE) ||| 0x80).toNat % 2 = 0 := by decide +kernel
  intro it hit
  obtain ⟨⟨o, i⟩, -, hin⟩ := List.mem_flatMap.mp hit
  obtain ⟨r, -, rfl⟩ := List.mem_map.mp hin
  dsimp only
  split_ifs
  · exact (heven r.flag).1
  · exact (heven r.flag).2

/-- The RLD records of a link, each read by itself, give its kept items. -/
theorem rldRecords_read (L : Layout) : ∃ groups : List (List RldItem), groups.flatten = L.keptItems ∧
    List.Forall₂ RldRead groups (rldRecords L.rldItems) := by
  rw [rldItems_kept]
  exact rldRecords_groups L.keptItems (keptItems_even L)

/-- The items as they are, without a bit that repeats the pointers. -/
def Layout.plainItems (L : Layout) : List Rld := L.keptItems.map fun it => ⟨it.R, it.P, it.flag, it.addr.toNat⟩

/-- A section with two address constants that refer to it. -/
def twoAdcons : Deck :=
  .ofCards [Deck.esdCard 1 [Deck.esdItem (letterName 0xC1) 0x00 0 8], Deck.txtCard 0 1 [0, 0, 0, 0, 0, 0, 0, 4],
    Deck.rldCard [0, 1, 0, 1, 0x0D, 0, 0, 0, 0x0C, 0, 0, 4], Deck.endCard]

/-- The flag of the first of them says that the second repeats its pointers. -/
theorem twoAdcons_repeat : notADeck twoAdcons = none ∧ ∃ L, linkLayout ⟨false, false, 15040, none⟩ [parseObject twoAdcons] = some L ∧
    (rldRecords L.rldItems).flatMap rldOf ≠ L.plainItems := by
  refine ⟨by decide +kernel, ?_⟩
  obtain ⟨L, hL⟩ : ∃ L, linkLayout ⟨false, false, 15040, none⟩ [parseObject twoAdcons] = some L :=
    Option.isSome_iff_exists.mp (by decide +kernel)
  refine ⟨L, hL, ?_⟩
  obtain ⟨rfl, -⟩ := linkLayout_some hL
  decide +kernel

end Link

end Cc370.Ld370
