import Cc370.Ar370.Archive
import Cc370.As370.ObjectDeck
import Cc370.Ld370.LinkImage
import Cc370.Xmit370.ReadXmit

/-! What a file is, and the line that sums up a load module. -/

namespace Cc370.File370

open Lmod Obj370

inductive Fmt
  | unknown | obj | ar | lmod | iebcopy | xmit
deriving DecidableEq

def detect (bytes : List UInt8) : Fmt :=
  let b := ofBytes bytes
  let n := bytes.length
  if 8 ≤ n ∧ bytes.take 8 = Ar370.magic then .ar
  else if 4 ≤ n ∧ b 0 = 0x00 ∧ b 1 = 0xCA ∧ b 2 = 0x6D ∧ b 3 = 0x0F then .iebcopy
  else if 8 ≤ n ∧ b 2 = 0xC9 ∧ b 3 = 0xD5 ∧ b 4 = 0xD4 ∧ b 5 = 0xD9 ∧ b 6 = 0xF0 ∧ b 7 = 0xF1 then .xmit
  else if 4 ≤ n ∧ cardType b ≠ .other then .obj
  else if 1 ≤ n ∧ (b 0 = 0x20 ∨ b 0 = 0x28) ∨ 8 ≤ n ∧ (b 0).toNat / 16 = 4 then
    if Ld370.lmodPlausible bytes then .lmod else .unknown
  else .unknown

/-- The counts of `show_lmod`. -/
structure LmodLine where
  ncesd : ℕ
  nidr : ℕ
  nscat : ℕ
  nsym : ℕ
  ntext : ℕ
  nctl : ℕ
  nrld : ℕ
  lastModend : Bool
  bad : Bool
deriving DecidableEq

def ctlRld (b0 : ℕ) : Bool := b0 / 2 % 2 = 1

def showLmod (bytes : List UInt8) : LmodLine :=
  let w := walkMember (ofBytes bytes) bytes.length
  let count (kind : Kind) := w.items.countP fun r => r.kind = kind
  ⟨count .cesd, count .idr, count .scatter, count .sym, count .text, count .ctl, w.items.countP fun r => r.kind = .ctl ∧ ctlRld r.flags,
    w.items.any fun r => r.kind = .ctl ∧ ctlEnd r.flags, w.malformed⟩

section Detect

variable (rest : List UInt8)

theorem detect_magic : detect (Ar370.magic ++ rest) = .ar := by
  unfold detect
  rw [if_pos]
  simp [Ar370.magic]

theorem detect_copyr1 : detect ([0x00, 0xCA, 0x6D, 0x0F] ++ rest) = .iebcopy := by
  unfold detect
  dsimp only
  rw [if_neg (by simp [Ar370.magic]), if_pos]
  simp [ofBytes]

theorem detect_inmr01 (x y : UInt8) : detect ([x, y, 0xC9, 0xD5, 0xD4, 0xD9, 0xF0, 0xF1] ++ rest) = .xmit := by
  unfold detect
  dsimp only
  rw [if_neg (by simp [Ar370.magic]), if_neg (by simp [ofBytes]), if_pos]
  simp [ofBytes]

theorem detect_esd : detect ([0x02, 0xC5, 0xE2, 0xC4] ++ rest) = .obj := by
  unfold detect
  dsimp only
  rw [if_neg (by simp [Ar370.magic]), if_neg (by simp [ofBytes]), if_neg (by simp [ofBytes]), if_pos]
  simp [ofBytes, cardType]

theorem detect_cesd (x y : UInt8) (h : Ld370.lmodPlausible ([0x20, 0x00, 0x00, 0x00, 0x00, 0x01, x, y] ++ rest) = true) :
    detect ([0x20, 0x00, 0x00, 0x00, 0x00, 0x01, x, y] ++ rest) = .lmod := by
  unfold detect
  dsimp only
  rw [if_neg (by simp [Ar370.magic]), if_neg (by simp [ofBytes]), if_neg (by simp [ofBytes]), if_neg (by simp [ofBytes, cardType]), if_pos, if_pos h]
  simp [ofBytes]

end Detect

section Writers

/-- A header that begins with the eye-catcher of COPYR1. -/
structure Copyr1 (hdr : List UInt8) : Prop where
  length : hdr.length = mvsEnvHdrLen
  eye : hdr.take 4 = [0x00, 0xCA, 0x6D, 0x0F]

theorem Copyr1.template : Copyr1 mvsUnloadEnvHdr := ⟨mvsUnloadEnvHdr_length, rfl⟩

/-- What is put behind the eye-catcher leaves it alone. -/
theorem Copyr1.put {hdr : List UInt8} (h : Copyr1 hdr) (p : ℕ) (new : List UInt8) (hp : 4 ≤ p) (hfit : p + new.length ≤ mvsEnvHdrLen) :
    Copyr1 (Slices.put hdr p new) := by
  have hlen := h.length
  constructor
  · rw [Slices.put_length (by omega), hlen]
  · rw [Slices.put, List.append_assoc, List.take_append_of_le_length (by rw [List.length_take]; omega), List.take_take, min_eq_left hp]
    exact h.eye

theorem Copyr1.extent {hdr : List UInt8} (h : Copyr1 hdr) (n : ℕ) : Copyr1 (mvsUdebxExtent hdr n) := by
  rw [mvsUdebxExtent]
  apply Copyr1.put
  · apply Copyr1.put
    · exact h.put 78 _ (by decide) (by rw [mvsPut16_length]; decide)
    · decide
    · rw [mvsPut16_length]
      decide
  · decide
  · rw [mvsPut16_length]
    decide

theorem Copyr1.detect {u : Unload} (h : Copyr1 u.header) : detect u.bytes = .iebcopy := by
  have hbytes : u.bytes = [0x00, 0xCA, 0x6D, 0x0F] ++ (u.header.drop 4 ++ u.directory.flatten ++ List.replicate 12 0x00 ++ u.data.flatMap Ckd.bytes) := by
    rw [← h.eye, Unload.bytes]
    conv_lhs => rw [← List.take_append_drop 4 u.header]
    simp only [List.append_assoc]
  rw [hbytes]
  exact detect_copyr1 _

theorem ldHeader_copyr1 (blksize : ℕ) :
    Copyr1 (Slices.put (Slices.put mvsUnloadEnvHdr 6 (mvsPut16 blksize)) 14 (mvsPut16 (12 + 8 + 0 + blksize : ℕ))) := by
  have h6 := Copyr1.template.put 6 (mvsPut16 blksize) (by decide) (by rw [mvsPut16_length]; decide)
  exact h6.put 14 _ (by decide) (by rw [mvsPut16_length]; decide)

theorem sourceHeader_copyr1 (o : Xmit370.Options) : Copyr1 (Xmit370.sourceHeader o) := by
  have h4 := Copyr1.template.put 4 (mvsPut16 0x0200) (by decide) (by rw [mvsPut16_length]; decide)
  have h6 := h4.put 6 (mvsPut16 o.blksize) (by decide) (by rw [mvsPut16_length]; decide)
  have h8 := h6.put 8 (mvsPut16 o.lrecl) (by decide) (by rw [mvsPut16_length]; decide)
  have h10 := h8.put 10 [.ofNat o.recfm.code] (by decide) (by rw [List.length_singleton]; decide)
  have h11 := h10.put 11 [0x00] (by decide) (by decide)
  exact h11.put 14 _ (by decide) (by rw [mvsPut16_length]; decide)

theorem detect_emitXmit (o : Xmit370.Options) (mem : List Xmit370.Member) : detect (Xmit370.emitXmit o mem) = .xmit := by
  obtain ⟨t, ht⟩ : ∃ t, Xmit370.inmr01 o = Xmit370.inmr01Id ++ t := ⟨_, by simp only [Xmit370.inmr01, Xmit370.inmr01Id, List.append_assoc]; rfl⟩
  obtain ⟨len, flags, t', hhead⟩ := Xmit370.mvsNetdataSeg_head (r := ⟨true, Xmit370.inmr01 o⟩) ⟨t, ht.symm⟩
  obtain ⟨rest, hrest⟩ : ∃ rest, Xmit370.emitXmit o mem = [len, flags, 0xC9, 0xD5, 0xD4, 0xD9, 0xF0, 0xF1] ++ rest := by
    rw [Xmit370.emitXmit, Xmit370.logRecs, Xmit370.controlRecords]
    simp only [List.map_cons, List.cons_append, List.flatMap_cons, hhead]
    simp only [Xmit370.inmr01Id, mvsInmrHdr, List.append_assoc, List.cons_append, List.nil_append]
    exact ⟨_, rfl⟩
  rw [hrest]
  exact detect_inmr01 rest len flags

theorem detect_emitObj (A : As370.Assembly) (hesd : A.esdord ≠ []) (hpunch : ∀ p ∈ A.punches, p.beforeEsd = false) :
    detect A.emitObj.flatten = .obj := by
  have hbefore : A.punches.filter As370.Punch.beforeEsd = [] := List.filter_eq_nil_iff.mpr fun p hp => by rw [hpunch p hp]; decide
  obtain ⟨e, es, he⟩ : ∃ e es, A.esd = e :: es := by
    obtain ⟨⟨s, role⟩, rest, hcons⟩ := List.exists_cons_of_ne_nil hesd
    rw [As370.Assembly.esd, hcons, As370.numberEsd]
    split <;> exact ⟨_, _, rfl⟩
  obtain ⟨rest, hrest⟩ : ∃ rest, A.emitObj.flatten = [0x02, 0xC5, 0xE2, 0xC4] ++ rest := by
    rw [As370.Assembly.emitObj]
    simp only [hbefore, he, As370.Assembly.esdCards, As370.card, As370.esdName, List.map_nil, List.nil_append, List.cons_append, List.flatten_cons,
      List.append_assoc]
    exact ⟨_, rfl⟩
  rw [hrest]
  exact detect_esd rest

theorem member_plausible (L : Ld370.Layout) (opt : Ld370.Options) (ident : Ld370.LkedIdent) (h : L.G ≠ []) :
    Ld370.lmodPlausible (L.member opt ident) = true := by
  obtain ⟨hcesd, x, rest, hbytes⟩ := Ld370.member_begins L opt ident h
  have hany := Ld370.member_any_cesd L opt ident hcesd
  unfold Ld370.lmodPlausible
  dsimp only
  rw [hany, hbytes]
  simp [ofBytes]

theorem detect_member (L : Ld370.Layout) (opt : Ld370.Options) (ident : Ld370.LkedIdent) (h : L.G ≠ []) :
    detect (L.member opt ident) = .lmod := by
  have hplausible := member_plausible L opt ident h
  obtain ⟨-, x, rest, hbytes⟩ := Ld370.member_begins L opt ident h
  rw [hbytes] at hplausible ⊢
  exact detect_cesd rest _ _ hplausible

/-- What the tools write is known for what it is: the archive, the object deck that begins with its ESD, the load module
    that has a symbol, the library unloaded by the linkage editor or for a transmission, and the transmission. -/
theorem outputs_detected :
    (∀ objs bytes, Ar370.create objs = some bytes → detect bytes = .ar) ∧
    (∀ A : As370.Assembly, A.esdord ≠ [] → (∀ p ∈ A.punches, p.beforeEsd = false) → detect A.emitObj.flatten = .obj) ∧
    (∀ (L : Ld370.Layout) opt ident, L.G ≠ [] → detect (L.member opt ident) = .lmod) ∧
    (∀ a blksize parts u, Ld370.emitUnload a blksize parts = some u → detect u.bytes = .iebcopy) ∧
    (∀ o mem, detect (Xmit370.emitUnload o mem).bytes = .iebcopy) ∧ ∀ o mem, detect (Xmit370.emitXmit o mem) = .xmit := by
  refine ⟨?_, detect_emitObj, detect_member, ?_, ?_, detect_emitXmit⟩
  · intro objs bytes h
    unfold Ar370.create at h
    split_ifs at h
    rw [← Option.some.inj h, List.append_assoc, List.append_assoc]
    exact detect_magic _
  · intro a blksize parts u h
    apply Copyr1.detect
    rw [(Ld370.emitUnload_some h).2]
    exact (ldHeader_copyr1 blksize).extent _
  · intro o mem
    exact Copyr1.detect ((sourceHeader_copyr1 o).extent _)

end Writers

section Line

variable {bs : List Block}

/-- A count over the records of a stream is the sum of the counts over its blocks. -/
theorem countP_blockItems (q : Item → Bool) (f : Block → ℕ) (hq : ∀ b off, (b.items off).countP q = f b) (bs : List Block) (off : ℕ) :
    (blockItems off bs).countP q = (bs.map f).sum := by
  induction bs generalizing off with
  | nil => rfl
  | cons b bs ih => rw [blockItems, List.countP_append, hq, ih, List.map_cons, List.sum_cons]

open Ld370

variable {L : Layout} {opt : Options}

def itemCount (k : Kind) (b : Block) : ℕ := (if b.kind = k then 1 else 0) + if k = .text ∧ b.text ≠ [] then 1 else 0

theorem items_itemCount (k : Kind) (b : Block) (off : ℕ) : (b.items off).countP (fun r => r.kind = k) = itemCount k b := by
  rw [Block.items, itemCount]
  by_cases ht : b.text = []
  · simp [ht, List.countP_singleton]
  · cases k <;> simp [ht, List.countP_cons, Nat.add_comm]

theorem sum_countP {α : Type} (l : List α) (q : α → Prop) [DecidablePred q] : (l.map fun a => if q a then 0 else 1).sum = l.countP fun a => !decide (q a) := by
  induction l with
  | nil => rfl
  | cons a l ih =>
    rw [List.map_cons, List.sum_cons, ih, List.countP_cons, Nat.add_comm]
    simp

theorem sum_itemCount (L : Layout) (opt : Options) (ident : LkedIdent) (k : Kind) : ((L.blocks opt ident).map (itemCount k)).sum =
    match k with
    | .cesd => (cesdRecords L.G).length
    | .idr => 2
    | .ctl => (L.textRecords opt).length + (rldRecords L.rldItems).length
    | .text => (L.textRecords opt).countP fun r => r.text ≠ []
    | .scatter | .sym => 0 := by
  have htext : L.textBlocks opt = (L.textRecords opt).map TextRecord.block := rfl
  rw [Layout.blocks, htext, Layout.rldBlocks]
  cases k <;> simp [itemCount, TextRecord.block, Function.comp_def, sum_countP]

/-- A text record carries no RLD items, and every RLD record does. -/
theorem sum_ctlRld (hp : Packed L opt) (ident : LkedIdent) :
    ((L.blocks opt ident).map fun b => if b.kind = .ctl ∧ ctlRld b.byte0 = true then 1 else 0).sum = (rldRecords L.rldItems).length := by
  have htext : (L.textBlocks opt).map (fun b => if b.kind = .ctl ∧ ctlRld b.byte0 = true then 1 else 0) = (L.textBlocks opt).map fun _ => 0 := by
    apply List.map_congr_left
    intro b hb
    obtain ⟨r, hr, rfl⟩ := List.mem_map.mp hb
    obtain ⟨c, -, -, -, modend, hcontrol⟩ := hp.record hr
    rw [hcontrol, control_byte0]
    cases modend <;> rfl
  have hrld : L.rldBlocks.map (fun b => if b.kind = .ctl ∧ ctlRld b.byte0 = true then 1 else 0) = L.rldBlocks.map fun _ => 1 := by
    apply List.map_congr_left
    intro b hb
    obtain ⟨h, hh, rfl⟩ := List.mem_map.mp hb
    obtain ⟨byte0, data, rfl, hbyte⟩ : ∃ byte0 data, h = rldRecord byte0 data ∧ (byte0 = 0x02 ∨ byte0 = 0x0E) := by
      rcases rldRecords_spec L.rldItems with ⟨-, hnil⟩ | ⟨-, rs, data, heq, -, hall⟩
      · rw [hnil] at hh
        exact absurd hh List.not_mem_nil
      · rw [heq] at hh
        rcases List.mem_append.mp hh with hh | hh
        · obtain ⟨d, rfl, -⟩ := hall h hh
          exact ⟨_, d, rfl, .inl rfl⟩
        · exact ⟨_, data, List.mem_singleton.mp hh, .inr rfl⟩
    rw [rld_byte0]
    obtain rfl | rfl := hbyte <;> rfl
  rw [Layout.blocks, List.map_append, List.map_append, List.map_append, htext, hrld]
  simp [Layout.rldBlocks, Function.comp_def]

theorem any_blockItems (bs : List Block) (off : ℕ) : (blockItems off bs).any (fun r => r.kind = .ctl ∧ ctlEnd r.flags) = bs.any Block.ends := by
  induction bs generalizing off with
  | nil => rfl
  | cons b bs ih =>
    rw [blockItems, List.any_append, ih, List.any_cons, Block.items, List.any_cons, Block.ends, Block.flags]
    by_cases hk : b.kind = .ctl <;> by_cases ht : b.text = [] <;> simp [hk, ht]

theorem any_ends {bs : List Block} (h : ∀ b ∈ bs.dropLast, b.ends = false) : bs.any Block.ends = bs.getLast?.any Block.ends := by
  cases hl : bs.getLast? with
  | none =>
    rw [List.getLast?_eq_none_iff.mp hl]
    rfl
  | some z =>
    have hinit : bs.dropLast.any Block.ends = false := List.any_eq_false.mpr fun b hb => by simp [h b hb]
    conv_lhs => rw [← List.dropLast_append_getLast? z (Option.mem_def.mpr hl)]
    rw [List.any_append, hinit, List.any_cons, List.any_nil, Bool.or_false, Bool.false_or]
    rfl

end Line

end Cc370.File370
