import Cc370.Idrdump370.Chain
import Cc370.Ld370.CesdEntries
import Cc370.Xmit370.Transmission

/-! The report on a stream of records, and on what the linkage editor writes. -/

namespace Cc370

open Lmod Slices

namespace Ld370

open Xmit370

/-- `decfield`; `none` is a character that is no digit. -/
def decfield (s : List UInt8) : Option ℕ :=
  s.foldlM (fun v c => if Decimal.isDigit c then some (v * 10 + (c.toNat - 0x30)) else none) 0

/-- The local time, as `localtime` gives it. -/
structure Clock where
  yy : ℕ
  ddd : ℕ
  hh : ℕ
  mm : ℕ
  ss : ℕ
  yy_lt : yy < 100
  ddd_lt : ddd < 1000
  hh_lt : hh < 100
  mm_lt : mm < 100
  ss_lt : ss < 100

/-- LDDATE, or the date of the clock; `none` ends the program. -/
def ldLddate (lddate : Option (List UInt8)) (now : ℕ × ℕ) : Option (ℕ × ℕ) :=
  match lddate.filter (· ≠ []) with
  | none => some now
  | some ed =>
    (decfield ed).bind fun v => if ed.length = 5 ∧ 1 ≤ v % 1000 ∧ v % 1000 ≤ 366 then some (v / 1000, v % 1000) else none

def ldLdtime (ldtime : Option (List UInt8)) (now : ℕ × ℕ × ℕ) : Option (ℕ × ℕ × ℕ) :=
  match ldtime.filter (· ≠ []) with
  | none => some now
  | some et =>
    (decfield et).bind fun v =>
      if et.length = 6 ∧ v / 10000 ≤ 23 ∧ v / 100 % 100 ≤ 59 ∧ v % 100 ≤ 59 then some (v / 10000, v / 100 % 100, v % 100) else none

def idrProd : List UInt8 := ascii "LD370"

/-- Two decimal digits in a byte. -/
def bcd (hi lo : ℕ) : UInt8 := .ofNat (hi * 16 + lo)

def idrProduct : Vector UInt8 10 := Vector.ofFn fun i => if h : i.val < idrProd.length then mvsA2e (idrProd.get ⟨i, h⟩) else 0x40

def idrStamp (vv mm yy ddd hh mi ss : ℕ) : Vector UInt8 9 :=
  #v[bcd (vv % 100 / 10) (vv % 100 % 10), bcd (mm % 100 / 10) (mm % 100 % 10), bcd (yy / 10) (yy % 10),
    bcd (ddd / 100) (ddd / 10 % 10), bcd (ddd % 10) 15, .ofNat (hh / 10), bcd (hh % 10) (mi / 10), bcd (mi % 10) (ss / 10), bcd (ss % 10) 15]

/-- `emit_lked_idr` behind the first three bytes, `vv` and `mm` from the version of the tools. -/
def emitLkedIdr (vv mm : ℕ) (clock : Clock) (lddate ldtime : Option (List UInt8)) : Option LkedIdent := do
  let (yy, ddd) ← ldLddate lddate (clock.yy, clock.ddd)
  let (hh, mi, ss) ← ldLdtime ldtime (clock.hh, clock.mm, clock.ss)
  some (idrProduct ++ idrStamp vv mm yy ddd hh mi ss)

end Ld370

namespace Idrdump370

/-- A record of a member: one of the chain, or another one. -/
inductive Rec
  | idr (last : Bool) (i : Idr)
  | other (b : Block)

namespace Rec

def block : Rec → Block
  | idr last i => ⟨.idr, i.record last, []⟩
  | other b => b

def Ok : Rec → Prop
  | idr _ i => i.Fits
  | other b => b.Framed ∧ b.kind ≠ .idr

def lines (sect : Sections) (only : Option (List UInt8)) (o : ℕ) : Rec → List Line
  | idr last i => i.lines sect only o last
  | other _ => []

end Rec

/-- What should be reported of a stream that starts at an offset. -/
def recLines (sect : Sections) (only : Option (List UInt8)) : ℕ → List Rec → List Line
  | _, [] => []
  | o, x :: xs => x.lines sect only o ++ recLines sect only (o + x.block.bytes.length) xs

section Stream

variable {sect : Sections} {only : Option (List UInt8)} {m : Buffer}

theorem record_framed {i : Idr} (last : Bool) (h : i.Fits) : (⟨.idr, i.record last, []⟩ : Block).Framed := by
  have hlen : (i.record last).length = i.body.length + 3 := by simp [Idr.record]
  obtain ⟨hlow, hhigh⟩ := h
  refine ⟨by change 8 ≤ (i.record last).length; omega, by simp [Block.byte0, Idr.record, ofBytes], ?_, rfl⟩
  change (i.record last).length = (UInt8.ofNat (i.body.length + 2)).toNat + 1
  rw [UInt8.toNat_ofNat', Nat.mod_eq_of_lt hhigh, hlen]

theorem Rec.Ok.framed {x : Rec} (h : x.Ok) : x.block.Framed := by
  cases x with
  | idr last i => exact record_framed last h
  | other b => exact h.1

theorem text_not_idr (b : Block) (o : ℕ) :
    (if b.text = [] then [] else [(⟨.text, o, b.text.length, 0⟩ : Item)]).filter (fun r => decide (r.kind = .idr)) = [] := by
  split <;> simp

/-- Wherever the records stand, the reader takes each of the chain for what it says, and passes over the
others. -/
theorem report_recs (recs : List Rec) : ∀ {o : ℕ}, (∀ x ∈ recs, x.Ok) → At m o ((recs.map Rec.block).flatMap Block.bytes) →
    ((blockItems o (recs.map Rec.block)).filter fun r => r.kind = .idr).flatMap (fun r => showIdr sect only m r.len r.off) =
      recLines sect only o recs := by
  induction recs with
  | nil => exact fun _ _ => rfl
  | cons x recs ih =>
    intro o hok hat
    rw [List.map_cons, List.flatMap_cons] at hat
    have hrest := ih (fun y hy => hok y (List.mem_cons_of_mem _ hy)) hat.right
    rw [List.map_cons, blockItems, List.filter_append, List.flatMap_append, hrest, recLines]
    congr 1
    cases x with
    | idr last i =>
      have hrec := hat.left.left
      rw [Block.items, List.filter_cons, text_not_idr]
      exact (List.append_nil _).trans (showIdr_record (hok _ List.mem_cons_self) hrec)
    | other b =>
      have hk : decide (b.kind = .idr) = false := decide_eq_false (hok _ List.mem_cons_self).2
      change ((b.items o).filter _).flatMap _ = []
      rw [Block.items, List.filter_cons, text_not_idr]
      simp [hk]

/-- The report on a module lists what the records of its chain say, in their order, and nothing of the
others. -/
theorem idrdump_stream (only : Option (List UInt8)) {b : Block} {rest : List Rec} (hok : ∀ x ∈ Rec.other b :: rest, x.Ok)
    (hend : ∀ x ∈ ((Rec.other b :: rest).map Rec.block).dropLast, x.ends = false) (hkind : b.kind = .cesd)
    (hbyte : b.byte0 = 0x20 ∨ b.byte0 = 0x28) {l : List UInt8} (hl : l = ((Rec.other b :: rest).map Rec.block).flatMap Block.bytes) :
    idrdump only l = some (recLines (sections (ofBytes l) l.length) only 0 (.other b :: rest)) := by
  have hframed : ∀ x ∈ (Rec.other b :: rest).map Rec.block, x.Framed := by
    intro x hx
    obtain ⟨y, hy, rfl⟩ := List.mem_map.mp hx
    exact (hok y hy).framed
  have hwalk := walkMember_blocks hframed hend
  rw [← hl] at hwalk
  have hitems : (walkMember (ofBytes l) l.length).items = blockItems 0 ((Rec.other b :: rest).map Rec.block) := by rw [hwalk]
  have h8 := (hframed b List.mem_cons_self).1
  have hhead : l = b.head ++ (b.text ++ (rest.map Rec.block).flatMap Block.bytes) := by
    rw [hl]
    simp [Rec.block, Block.bytes]
  have hfirst : (ofBytes l 0).toNat = b.byte0 := by
    rw [hhead, ofBytes_append_left (by omega)]
    rfl
  have hlong : 8 ≤ l.length := by
    rw [hhead, List.length_append]
    omega
  have hfirst' : ofBytes l 0 = 0x20 ∨ ofBytes l 0 = 0x28 := by
    rw [← hfirst] at hbyte
    exact hbyte.imp (fun h => UInt8.toNat_inj.mp h) fun h => UInt8.toNat_inj.mp h
  have hplausible : Ld370.lmodPlausible l = true := by
    unfold Ld370.lmodPlausible
    dsimp only
    rw [hitems, List.map_cons, blockItems, Rec.block, Block.items]
    simp only [List.cons_append, List.any_cons, hkind, true_or, decide_true, Bool.true_or, and_true, decide_eq_true_eq]
    exact .inl ⟨by omega, hfirst'⟩
  rw [idrdump, if_pos hplausible, hitems]
  congr 1
  apply report_recs _ hok
  rw [← hl]
  exact at_getD l 0

/-- A module of one empty CESD record, a service entry and the end. -/
def servedRecs : List Rec :=
  [.other ⟨.cesd, [0x20, 0, 0, 0, 0, 1, 0, 0], []⟩,
    .idr true (.zaps false [⟨1, #v[0x26, 0x22, 0x3F], #v[0xE4, 0xE8, 0xF1, 0xF3, 0xF4, 0xF3, 0xF1, 0x40], by decide⟩] 0),
    .other ⟨.ctl, [0x0D, 0, 0, 0, 0, 0, 0, 0, 0, 0, 0, 0, 0, 0, 0, 0], []⟩]

theorem servedRecs_reported : idrdump none ((servedRecs.map Rec.block).flatMap Block.bytes) =
    some (recLines (sections (ofBytes ((servedRecs.map Rec.block).flatMap Block.bytes)) ((servedRecs.map Rec.block).flatMap Block.bytes).length)
      none 0 servedRecs) := by
  refine idrdump_stream none (b := ⟨.cesd, [0x20, 0, 0, 0, 0, 1, 0, 0], []⟩) ?_ ?_ rfl (.inl rfl) rfl
  · simp only [List.forall_mem_cons]
    refine ⟨⟨⟨by decide, by decide, by decide, rfl⟩, by decide⟩, ⟨by decide, by decide⟩, ⟨⟨by decide, by decide, by decide, by decide⟩, by decide⟩, by simp⟩
  · intro x hx
    simp only [List.map_cons, List.map_nil, Rec.block, List.dropLast_cons_cons, List.dropLast_singleton, List.mem_cons, List.not_mem_nil, or_false] at hx
    obtain rfl | rfl := hx <;> rfl

end Stream

section Digits

open Ld370 Xmit370

theorem decfield_append (s : List UInt8) (c : UInt8) : decfield (s ++ [c]) =
    (decfield s).bind fun v => if Decimal.isDigit c then some (v * 10 + (c.toNat - 0x30)) else none := by
  rw [decfield, List.foldlM_append]
  simp only [List.foldlM_cons, List.foldlM_nil, bind_pure]
  rfl

theorem padded_succ (n v d : ℕ) (hd : d < 10) : padded (n + 1) (v * 10 + d) = padded n v ++ [.ofNat (0x30 + d)] := by
  rw [padded, List.range_succ, List.map_append, padded]
  congr 1
  · apply List.map_congr_left
    intro i hi
    have hlt := List.mem_range.mp hi
    have hpow : 10 ^ (n + 1 - 1 - i) = 10 * 10 ^ (n - 1 - i) := by
      rw [← pow_succ', show n + 1 - 1 - i = n - 1 - i + 1 by omega]
    rw [hpow, ← Nat.div_div_eq_div_mul, show (v * 10 + d) / 10 = v by omega]
  · rw [List.map_singleton, show n + 1 - 1 - n = 0 by omega, pow_zero, Nat.div_one, show (v * 10 + d) % 10 = d by omega]

/-- A field of digits is its value in as many digits. -/
theorem padded_decfield (s : List UInt8) : ∀ {v : ℕ}, decfield s = some v → padded s.length v = s ∧ v < 10 ^ s.length := by
  induction s using List.reverseRecOn with
  | nil =>
    intro v hv
    cases hv
    exact ⟨rfl, by decide⟩
  | append_singleton s c ih =>
    intro v hv
    rw [decfield_append] at hv
    obtain ⟨w, hw, hv⟩ := Option.bind_eq_some_iff.mp hv
    split at hv
    · next hc =>
      cases hv
      obtain ⟨hlow, hhigh⟩ : 0x30 ≤ c.toNat ∧ c.toNat ≤ 0x39 := by
        simpa [Decimal.isDigit, UInt8.le_iff_toNat_le] using hc
      obtain ⟨htext, hlt⟩ := ih hw
      rw [List.length_append, List.length_singleton, padded_succ _ _ _ (by omega), htext, pow_succ]
      refine ⟨?_, by omega⟩
      rw [show 0x30 + (c.toNat - 0x30) = c.toNat by omega, UInt8.ofNat_toNat]
    · cases hv

theorem bcd_nibbles (hi lo : ℕ) (hhi : hi < 16) (hlo : lo < 16) : (bcd hi lo).toNat / 16 = hi ∧ (bcd hi lo).toNat % 16 = lo := by
  rw [bcd, UInt8.toNat_ofNat', Nat.mod_eq_of_lt (by omega)]
  omega

theorem hexLower_digit {d : ℕ} (h : d < 10) : hexLower d = .ofNat (0x30 + d) := by rw [hexLower, if_pos h]

theorem hexUpper_digit {d : ℕ} (h : d < 10) : hexUpper d = .ofNat (0x30 + d) := by rw [hexUpper, if_pos h]

theorem bcd_hexUpper (v : ℕ) : (nibbles [bcd (v % 100 / 10) (v % 100 % 10)]).map hexUpper = padded 2 (v % 100) := by
  obtain ⟨hhi, hlo⟩ := bcd_nibbles (v % 100 / 10) (v % 100 % 10) (by omega) (by omega)
  simp only [nibbles, List.flatMap_cons, List.flatMap_nil, hhi, hlo, List.append_nil, List.map_cons, List.map_nil]
  rw [hexUpper_digit (by omega), hexUpper_digit (by omega)]
  simp [padded, List.range_succ]
  congr 2
  omega

theorem packedDate_bcd {yy ddd : ℕ} (hyy : yy < 100) (hddd : ddd < 1000) :
    packedDate [bcd (yy / 10) (yy % 10), bcd (ddd / 100) (ddd / 10 % 10), bcd (ddd % 10) 15] = padded 5 (1000 * yy + ddd) := by
  obtain ⟨h1, h2⟩ := bcd_nibbles (yy / 10) (yy % 10) (by omega) (by omega)
  obtain ⟨h3, h4⟩ := bcd_nibbles (ddd / 100) (ddd / 10 % 10) (by omega) (by omega)
  obtain ⟨h5, -⟩ := bcd_nibbles (ddd % 10) 15 (by omega) (by omega)
  simp only [packedDate, nibbles, List.flatMap_cons, List.flatMap_nil, h1, h2, h3, h4, h5, List.cons_append, List.nil_append,
    List.take_succ_cons, List.take_zero, List.map_cons, List.map_nil]
  rw [hexLower_digit (by omega), hexLower_digit (by omega), hexLower_digit (by omega), hexLower_digit (by omega), hexLower_digit (by omega)]
  have he : padded 5 (1000 * yy + ddd) = [(1000 * yy + ddd) / 10000 % 10, (1000 * yy + ddd) / 1000 % 10, (1000 * yy + ddd) / 100 % 10,
    (1000 * yy + ddd) / 10 % 10, (1000 * yy + ddd) / 1 % 10].map fun d => .ofNat (0x30 + d) := rfl
  rw [he, show (1000 * yy + ddd) / 10000 % 10 = yy / 10 by omega, show (1000 * yy + ddd) / 1000 % 10 = yy % 10 by omega,
    show (1000 * yy + ddd) / 100 % 10 = ddd / 100 by omega, show (1000 * yy + ddd) / 10 % 10 = ddd / 10 % 10 by omega,
    show (1000 * yy + ddd) / 1 % 10 = ddd % 10 by omega]
  rfl

theorem packedTime_bcd {hh mi ss : ℕ} (hhh : hh < 100) (hmi : mi < 100) (hss : ss < 100) :
    packedTime [.ofNat (hh / 10), bcd (hh % 10) (mi / 10), bcd (mi % 10) (ss / 10), bcd (ss % 10) 15] =
      padded 6 (10000 * hh + 100 * mi + ss) := by
  have h1 : (UInt8.ofNat (hh / 10)).toNat % 16 = hh / 10 := by
    rw [UInt8.toNat_ofNat']
    omega
  obtain ⟨h2, h3⟩ := bcd_nibbles (hh % 10) (mi / 10) (by omega) (by omega)
  obtain ⟨h4, h5⟩ := bcd_nibbles (mi % 10) (ss / 10) (by omega) (by omega)
  obtain ⟨h6, -⟩ := bcd_nibbles (ss % 10) 15 (by omega) (by omega)
  simp only [packedTime, nibbles, List.flatMap_cons, List.flatMap_nil, h1, h2, h3, h4, h5, h6, List.cons_append, List.nil_append,
    List.drop_succ_cons, List.drop_zero, List.take_succ_cons, List.take_zero, List.map_cons, List.map_nil]
  rw [hexLower_digit (by omega), hexLower_digit (by omega), hexLower_digit (by omega), hexLower_digit (by omega),
    hexLower_digit (by omega), hexLower_digit (by omega)]
  have he : padded 6 (10000 * hh + 100 * mi + ss) = [(10000 * hh + 100 * mi + ss) / 100000 % 10, (10000 * hh + 100 * mi + ss) / 10000 % 10,
    (10000 * hh + 100 * mi + ss) / 1000 % 10, (10000 * hh + 100 * mi + ss) / 100 % 10, (10000 * hh + 100 * mi + ss) / 10 % 10,
    (10000 * hh + 100 * mi + ss) / 1 % 10].map fun d => .ofNat (0x30 + d) := rfl
  rw [he, show (10000 * hh + 100 * mi + ss) / 100000 % 10 = hh / 10 by omega, show (10000 * hh + 100 * mi + ss) / 10000 % 10 = hh % 10 by omega,
    show (10000 * hh + 100 * mi + ss) / 1000 % 10 = mi / 10 by omega, show (10000 * hh + 100 * mi + ss) / 100 % 10 = mi % 10 by omega,
    show (10000 * hh + 100 * mi + ss) / 10 % 10 = ss / 10 by omega, show (10000 * hh + 100 * mi + ss) / 1 % 10 = ss % 10 by omega]
  rfl

/-- The date that is written is LDDATE to the letter, or that of the clock. -/
theorem ldLddate_text {lddate : Option (List UInt8)} {yy ddd : ℕ} {now : ℕ × ℕ} (h : ldLddate lddate now = some (yy, ddd))
    (hyy : now.1 < 100) (hddd : now.2 < 1000) :
    yy < 100 ∧ ddd < 1000 ∧ padded 5 (1000 * yy + ddd) = (lddate.filter (· ≠ [])).getD (padded 5 (1000 * now.1 + now.2)) := by
  unfold ldLddate at h
  cases hed : lddate.filter (· ≠ []) with
  | none =>
    rw [hed] at h
    cases h
    exact ⟨hyy, hddd, rfl⟩
  | some ed =>
    rw [hed] at h
    obtain ⟨v, hv, h⟩ := Option.bind_eq_some_iff.mp h
    split at h
    · next hc =>
      obtain ⟨htext, hlt⟩ := padded_decfield ed hv
      rw [hc.1] at htext hlt
      cases h
      refine ⟨by omega, by omega, ?_⟩
      rw [show 1000 * (v / 1000) + v % 1000 = v by omega, htext]
      rfl
    · cases h

theorem ldLdtime_text {ldtime : Option (List UInt8)} {hh mi ss : ℕ} {now : ℕ × ℕ × ℕ} (h : ldLdtime ldtime now = some (hh, mi, ss))
    (hhh : now.1 < 100) (hmi : now.2.1 < 100) (hss : now.2.2 < 100) :
    (hh < 100 ∧ mi < 100 ∧ ss < 100) ∧ padded 6 (10000 * hh + 100 * mi + ss) =
      (ldtime.filter (· ≠ [])).getD (padded 6 (10000 * now.1 + 100 * now.2.1 + now.2.2)) := by
  unfold ldLdtime at h
  cases het : ldtime.filter (· ≠ []) with
  | none =>
    rw [het] at h
    cases h
    exact ⟨⟨hhh, hmi, hss⟩, rfl⟩
  | some et =>
    rw [het] at h
    obtain ⟨v, hv, h⟩ := Option.bind_eq_some_iff.mp h
    split at h
    · next hc =>
      obtain ⟨htext, hlt⟩ := padded_decfield et hv
      rw [hc.1] at htext hlt
      cases h
      refine ⟨⟨by omega, by omega, by omega⟩, ?_⟩
      rw [show 10000 * (v / 10000) + 100 * (v / 100 % 100) + v % 100 = v by omega, htext]
      rfl
    · cases h

end Digits

section Linked

open Ld370

variable {L : Layout} {opt : Ld370.Options} {ident : LkedIdent}

/-- What the record of the linkage editor says. -/
def stamp (vv mm yy ddd hh mi ss : ℕ) : Idr :=
  .lked ⟨idrProduct, #v[bcd (vv % 100 / 10) (vv % 100 % 10)], #v[bcd (mm % 100 / 10) (mm % 100 % 10)],
    #v[bcd (yy / 10) (yy % 10), bcd (ddd / 100) (ddd / 10 % 10), bcd (ddd % 10) 15]⟩
    (some #v[.ofNat (hh / 10), bcd (hh % 10) (mi / 10), bcd (mi % 10) (ss / 10), bcd (ss % 10) 15])

theorem emitLkedIdr_stamp {vv mm : ℕ} {clock : Clock} {lddate ldtime : Option (List UInt8)}
    (h : emitLkedIdr vv mm clock lddate ldtime = some ident) : ∃ yy ddd hh mi ss, ldLddate lddate (clock.yy, clock.ddd) = some (yy, ddd) ∧
      ldLdtime ldtime (clock.hh, clock.mm, clock.ss) = some (hh, mi, ss) ∧ lkedIdr ident = (stamp vv mm yy ddd hh mi ss).record true := by
  unfold emitLkedIdr at h
  obtain ⟨⟨yy, ddd⟩, hdate, h⟩ := Option.bind_eq_some_iff.mp h
  obtain ⟨⟨hh, mi, ss⟩, htime, h⟩ := Option.bind_eq_some_iff.mp h
  refine ⟨yy, ddd, hh, mi, ss, hdate, htime, ?_⟩
  have hi := Option.some.inj h
  have hlist : ident.toList = idrProduct.toList ++ (idrStamp vv mm yy ddd hh mi ss).toList := by
    rw [← hi]
    exact Vector.toList_append
  rw [lkedIdr, hlist]
  simp [stamp, Idr.record, Idr.body, Translator.bytes, Idr.subtype, idrLked, idrStamp]

theorem noZaps_length (room : ℕ) : (Idr.zaps false [] room).body.length = room + 1 := by simp [Idr.body]

/-- A service record without entries, all of it room for some. -/
theorem noZaps_record (room : ℕ) : (Idr.zaps false [] room).record false = [0x80, .ofNat (room + 1 + 2), 0x01, 0x00] ++ List.replicate room 0 := by
  rw [Idr.record, noZaps_length]
  simp [Idr.body, Idr.subtype, idrSpzap]

theorem noZaps_lines (sect : Sections) (only : Option (List UInt8)) (o room : ℕ) : (Idr.zaps false [] room).lines sect only o false =
    if only = none then [.noZap o false] else [] := by
  simp [Idr.lines]

/-- The records of a member that is written with a stamp. -/
def memberRecs (L : Layout) (opt : Ld370.Options) (i : Idr) : List Rec :=
  (cesdRecords L.G).map (fun h => .other ⟨.cesd, h, []⟩) ++ ([.idr false (.zaps false [] 247), .idr true i] ++
    (L.textBlocks opt ++ L.rldBlocks).map .other)

variable (L opt) in
theorem memberRecs_blocks {i : Idr} (h : lkedIdr ident = i.record true) : (memberRecs L opt i).map Rec.block = L.blocks opt ident := by
  have hother : Rec.block ∘ Rec.other = id := rfl
  have hzap : spzapIdr = (Idr.zaps false [] 247).record false := (noZaps_record 247).symm
  rw [memberRecs, Layout.blocks, h, hzap]
  simp only [List.map_append, List.map_map, hother, List.map_id, List.append_assoc]
  rfl

theorem recLines_other (sect : Sections) (only : Option (List UInt8)) (bs : List Block) : ∀ o, recLines sect only o (bs.map .other) = [] := by
  induction bs with
  | nil => exact fun _ => rfl
  | cons b bs ih =>
    intro o
    rw [List.map_cons, recLines, ih]
    rfl

theorem recLines_append (sect : Sections) (only : Option (List UInt8)) (xs ys : List Rec) : ∀ o, recLines sect only o (xs ++ ys) =
    recLines sect only o xs ++ recLines sect only (o + ((xs.map Rec.block).flatMap Block.bytes).length) ys := by
  induction xs with
  | nil => exact fun _ => rfl
  | cons x xs ih =>
    intro o
    rw [List.cons_append, recLines, ih, recLines, List.append_assoc, List.map_cons, List.flatMap_cons, List.length_append, add_assoc]

theorem stamp_fits (vv mm yy ddd hh mi ss : ℕ) : (stamp vv mm yy ddd hh mi ss).Fits := by
  have hlen : (stamp vv mm yy ddd hh mi ss).body.length = 19 := by simp [stamp, Idr.body, Translator.bytes]
  exact ⟨by omega, by omega⟩

theorem memberRecs_ok (hp : Packed L opt) {i : Idr} (hi : i.Fits) : ∀ x ∈ memberRecs L opt i, x.Ok := by
  intro x hx
  simp only [memberRecs, List.mem_append, List.mem_map, List.mem_cons, List.not_mem_nil, or_false] at hx
  obtain ⟨h, hh, rfl⟩ | (rfl | rfl) | ⟨b, hb, rfl⟩ := hx
  · exact ⟨cesd_framed hh, by simp⟩
  · have hlen := noZaps_length 247
    exact ⟨by omega, by omega⟩
  · exact hi
  · cases hb with
    | inl hb =>
      obtain ⟨r, -, rfl⟩ := List.mem_map.mp hb
      exact ⟨hp.text_framed _ hb, by simp⟩
    | inr hb =>
      obtain ⟨r, -, rfl⟩ := List.mem_map.mp hb
      exact ⟨(rld_framed_all L _ hb).1, by simp⟩

theorem cesd_first (hG : L.G ≠ []) : ∃ h hs, cesdRecords L.G = h :: hs ∧ ofBytes h 0 = 0x20 := by
  have hbyGid : byGid L.G ≠ [] := by
    intro hnil
    have hlen := congrArg List.length hnil
    simp only [byGid, List.length_map, List.length_range', List.length_nil, List.length_eq_zero_iff] at hlen
    exact hG hlen
  have hchunks : (byGid L.G).toChunks 15 ≠ [] := by
    intro hnil
    have hflat := toChunks_flatten (n := 15) (by decide) (byGid L.G)
    rw [hnil] at hflat
    exact hbyGid hflat.symm
  obtain ⟨c, cs, hc⟩ := List.exists_cons_of_ne_nil hchunks
  refine ⟨_, _, by rw [cesdRecords, hc, List.zipIdx_cons, List.map_cons], rfl⟩

/-- The report on a member that the linkage editor wrote: an empty service record, and its own with the
product, the version and the stamp, LDDATE and LDTIME to the letter where they are set. -/
theorem idrdump_linked (only : Option (List UInt8)) {vv mm : ℕ} {clock : Clock} {lddate ldtime : Option (List UInt8)} (hp : Packed L opt)
    (hG : L.G ≠ []) (h : emitLkedIdr vv mm clock lddate ldtime = some ident) :
    idrdump only (L.member opt ident) = some ((if only = none then [.noZap (cesdRecords L.G).flatten.length false] else []) ++
      [.lked ((cesdRecords L.G).flatten.length + 251) true (Xmit370.ascii "LD370") (Xmit370.padded 2 (vv % 100)) (Xmit370.padded 2 (mm % 100))
        ((lddate.filter (· ≠ [])).getD (Xmit370.padded 5 (1000 * clock.yy + clock.ddd)))
        (some ((ldtime.filter (· ≠ [])).getD (Xmit370.padded 6 (10000 * clock.hh + 100 * clock.mm + clock.ss))))]) := by
  obtain ⟨yy, ddd, hh, mi, ss, hdate, htime, hrec⟩ := emitLkedIdr_stamp h
  obtain ⟨hyy, hddd, hdatetext⟩ := ldLddate_text hdate clock.yy_lt clock.ddd_lt
  obtain ⟨⟨hhh, hmi, hss⟩, htimetext⟩ := ldLdtime_text htime clock.hh_lt clock.mm_lt clock.ss_lt
  have hblocks := memberRecs_blocks L opt hrec
  obtain ⟨c, cs, hc, hbyte⟩ := cesd_first hG
  have hmember := L.member_eq opt ident
  rw [← hblocks] at hmember
  have hends := (blocks_ends hp ident).1
  rw [← hblocks] at hends
  obtain ⟨rest, hrest⟩ : ∃ rest, memberRecs L opt (stamp vv mm yy ddd hh mi ss) = .other ⟨.cesd, c, []⟩ :: rest :=
    ⟨_, by rw [memberRecs, hc, List.map_cons, List.cons_append]⟩
  have hok := memberRecs_ok hp (stamp_fits vv mm yy ddd hh mi ss)
  rw [hrest] at hok hends hmember
  have hdump := idrdump_stream only hok hends rfl (.inl (congrArg UInt8.toNat hbyte)) hmember
  have hcesd : (cesdRecords L.G).map (fun h => Rec.other ⟨.cesd, h, []⟩) = ((cesdRecords L.G).map fun h => ⟨.cesd, h, []⟩).map .other := by
    rw [List.map_map]
    rfl
  have hlen : ((((cesdRecords L.G).map fun h => (⟨.cesd, h, []⟩ : Block)).map Rec.other).map Rec.block).flatMap Block.bytes = (cesdRecords L.G).flatten := by
    rw [List.map_map, List.map_map, List.flatMap_map]
    simp [Function.comp_def, Rec.block, Block.bytes, List.flatMap_def]
  rw [← hrest, memberRecs, recLines_append, hcesd, recLines_other, List.nil_append, recLines_append, recLines_other, List.append_nil, hlen,
    Nat.zero_add] at hdump
  rw [hdump, recLines, recLines, recLines, List.append_nil]
  have hproduct : efield idrProduct.toList = Xmit370.ascii "LD370" := by decide
  have hzap : ((Rec.idr false (Idr.zaps false [] 247)).block.bytes).length = 251 := by
    rw [Rec.block, Block.bytes, List.append_nil, Idr.record, List.length_cons, List.length_cons, List.length_cons, noZaps_length]
  rw [hzap, Rec.lines, noZaps_lines, ← hdatetext, ← htimetext, ← packedDate_bcd hyy hddd, ← packedTime_bcd hhh hmi hss, ← bcd_hexUpper vv, ← bcd_hexUpper mm, ← hproduct]
  rfl

def midnight : Clock := ⟨26, 1, 0, 0, 0, by decide, by decide, by decide, by decide, by decide⟩

/-- A link with LDDATE=26223 and LDTIME=220517. -/
theorem two_sections_stamped : ∃ ident, emitLkedIdr 1 2 midnight (some (Xmit370.ascii "26223")) (some (Xmit370.ascii "220517")) = some ident ∧
    idrdump none ((linked ([twoSections].map parseObject)).member ⟨false, false, 15040, none⟩ ident) = some
      [.noZap (cesdRecords (linked ([twoSections].map parseObject)).G).flatten.length false,
        .lked ((cesdRecords (linked ([twoSections].map parseObject)).G).flatten.length + 251) true (Xmit370.ascii "LD370")
          (Xmit370.ascii "01") (Xmit370.ascii "02") (Xmit370.ascii "26223") (some (Xmit370.ascii "220517"))] := by
  obtain ⟨ident, hident⟩ : ∃ ident, emitLkedIdr 1 2 midnight (some (Xmit370.ascii "26223")) (some (Xmit370.ascii "220517")) = some ident :=
    Option.isSome_iff_exists.mp (by decide +kernel)
  have hp : Packed (linked ([twoSections].map parseObject)) ⟨false, false, 15040, none⟩ :=
    packed ⟨by decide +kernel, by decide +kernel⟩ (by decide +kernel)
  refine ⟨ident, hident, ?_⟩
  rw [idrdump_linked none hp (by decide +kernel) hident]
  rfl

end Linked

end Idrdump370

end Cc370
