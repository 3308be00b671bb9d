import Cc370.Lmod370
import Cc370.Ld370.Loading

namespace Cc370.Ld370

open BigEndian Lmod

namespace Layout

def textBlocks (L : Layout) (opt : Options) : List Block :=
  (L.textRecords opt).map fun r => ⟨.ctl, r.control, r.text⟩

def rldBlocks (L : Layout) : List Block := (rldRecords L.rldItems).map fun h => ⟨.ctl, h, []⟩

def blocks (L : Layout) (opt : Options) (ident : LkedIdent) : List Block :=
  (cesdRecords L.G).map (fun h => ⟨.cesd, h, []⟩) ++
    [⟨.idr, spzapIdr, []⟩, ⟨.idr, lkedIdr ident, []⟩] ++ (L.textBlocks opt ++ L.rldBlocks)

theorem member_eq (L : Layout) (opt : Options) (ident : LkedIdent) :
    L.member opt ident = (L.blocks opt ident).flatMap Block.bytes := by
  have hheads (k : Kind) (hs : List (List UInt8)) :
      (hs.map fun h => (⟨k, h, []⟩ : Block)).flatMap Block.bytes = hs.flatten := by
    rw [List.flatMap_map]
    simp [Block.bytes, List.flatMap_def]
  have htext : (L.textBlocks opt).flatMap Block.bytes =
      (L.textRecords opt).flatMap fun r => r.control ++ r.text := List.flatMap_map ..
  rw [blocks, List.flatMap_append, List.flatMap_append, List.flatMap_append, hheads, htext,
    rldBlocks, hheads, member]
  simp only [List.flatMap_cons, List.flatMap_nil, Block.bytes, List.append_nil, List.append_assoc]

end Layout

section Frames

theorem cesdEntry_length (G : List Gsym) (g : Gsym) : (cesdEntry G g).length = 16 := by
  unfold cesdEntry
  split_ifs <;> simp

theorem toChunks_length_le {α : Type} {n : ℕ} (hn : 0 < n) (xs : List α) :
    ∀ l ∈ xs.toChunks n, l.length ≤ n := by
  have hgo (xs : List α) (acc₁ : Array α) (acc₂ : Array (List α))
      (h₁ : acc₁.size ≤ n) (h₂ : ∀ l ∈ acc₂, l.length ≤ n) :
      ∀ l ∈ List.toChunks.go n xs acc₁ acc₂, l.length ≤ n := by
    induction xs generalizing acc₁ acc₂ with
    | nil =>
      intro l hl
      simp only [List.toChunks.go, Array.toList_push, List.mem_append, Array.mem_toList_iff,
        List.mem_singleton] at hl
      rcases hl with hl | rfl
      · exact h₂ l hl
      · simpa using h₁
    | cons y ys ih =>
      unfold List.toChunks.go
      split_ifs with hfull
      · apply ih
        · have hone : ((Array.mkEmpty n).push y).size = 1 := by simp
          omega
        · intro l hl
          rcases Array.mem_push.mp hl with hl | rfl
          · exact h₂ l hl
          · simpa using h₁
      · apply ih
        · have : acc₁.size ≠ n := by simpa using hfull
          rw [Array.size_push]
          omega
        · exact h₂
  cases xs with
  | nil => simp [List.toChunks]
  | cons x xs =>
    cases n with
    | zero => omega
    | succ n =>
      rw [List.toChunks]
      · exact hgo xs _ _ (by simp) (by simp)
      · simp

theorem byte0_cons (k : Kind) (x : UInt8) (l t : List UInt8) :
    (⟨k, x :: l, t⟩ : Block).byte0 = x.toNat := rfl

theorem rld_byte0 (x : UInt8) (data t : List UInt8) :
    (⟨.ctl, rldRecord x data, t⟩ : Block).byte0 = x.toNat := rfl

theorem cesd_framed {G : List Gsym} {h : List UInt8} (hh : h ∈ cesdRecords G) :
    (⟨.cesd, h, []⟩ : Block).Framed := by
  obtain ⟨⟨es, k⟩, hes, rfl⟩ := List.mem_map.mp hh
  have hle : es.length ≤ 15 := by
    have hmem := List.mem_of_getElem? (List.mem_zipIdx_iff_getElem?.mp hes)
    exact toChunks_length_le (by decide) _ es hmem
  have hlen : (es.flatMap (cesdEntry G)).length = 16 * es.length := by
    simp [List.length_flatMap, cesdEntry_length, mul_comm]
  have hcount := mvsBe16_put16 (v := 16 * es.length) (by omega) (by omega)
    ([0x20, 0, 0, 0] ++ mvsPut16 (15 * k + 1)) (es.flatMap (cesdEntry G))
  have hpre : ([0x20, 0, 0, 0] ++ mvsPut16 (15 * k + 1) : List UInt8).length = 6 := rfl
  rw [hpre] at hcount
  have htotal : ([0x20, 0, 0, 0] ++ mvsPut16 (15 * k + 1) ++ mvsPut16 (16 * es.length) ++
      es.flatMap (cesdEntry G)).length = 8 + 16 * es.length := by
    rw [List.length_append, hlen]
    rfl
  refine ⟨?_, ?_, ?_, rfl⟩
  · dsimp only
    omega
  · dsimp only [List.cons_append, List.nil_append]
    rw [byte0_cons]
    decide
  · dsimp only
    omega

theorem spzap_framed : (⟨.idr, spzapIdr, []⟩ : Block).Framed := by
  have hlen : spzapIdr.length = 251 := by
    rw [spzapIdr, List.length_append, List.length_replicate]
    rfl
  refine ⟨?_, rfl, ?_, rfl⟩
  · change 8 ≤ spzapIdr.length
    omega
  · exact hlen

theorem lked_framed (ident : LkedIdent) : (⟨.idr, lkedIdr ident, []⟩ : Block).Framed := by
  have hlen : (lkedIdr ident).length = 22 := by simp [lkedIdr]
  refine ⟨?_, ?_, ?_, rfl⟩
  · change 8 ≤ (lkedIdr ident).length
    omega
  · dsimp only [lkedIdr, List.cons_append, List.nil_append]
    rw [byte0_cons]
    decide
  · exact hlen

theorem idList_length (c : TextSect × List TextSect) (rlen : ℤ) :
    (Chunk.idList c rlen).length = 4 * (Chunk.sects c).length := by
  unfold Chunk.idList
  split_ifs with h
  · simp [Chunk.sects, h]
  · simp [Chunk.sects, List.length_flatMap]
    omega

section Control

variable (c : TextSect × List TextSect) (modend : Bool) (p rlen : ℤ)

theorem control_byte0 (t : List UInt8) : (⟨.ctl, controlRecord c modend p rlen, t⟩ : Block).byte0 =
    if modend then 0x0D else 0x01 := by
  cases modend <;> rfl

theorem control_length : (controlRecord c modend p rlen).length = 16 + 4 * (Chunk.sects c).length := by
  simp only [controlRecord, List.length_append, idList_length, mvsPut16_length, mvsPut24_length]
  rfl

theorem control_idlen (h : (Chunk.sects c).length < 16384) :
    mvsBe16 (ofBytes (controlRecord c modend p rlen)) 4 = 4 * (Chunk.sects c).length := by
  have hids := idList_length c rlen
  have hput := mvsBe16_put16 (v := (Chunk.idList c rlen).length) (by omega) (by omega)
    [if modend then 0x0D else 0x01, 0, 0, 0]
    ([0, 0, 0x06] ++ mvsPut24 p ++ [0x40, 0] ++ mvsPut16 rlen ++ Chunk.idList c rlen)
  rw [← hids]
  simp only [← List.append_assoc] at hput
  exact_mod_cast hput

theorem control_rldlen : mvsBe16 (ofBytes (controlRecord c modend p rlen)) 6 = 0 := by
  have hput := mvsBe16_put16 (v := 0) le_rfl (by norm_num)
    ([if modend then 0x0D else 0x01, 0, 0, 0] ++ mvsPut16 (Chunk.idList c rlen).length)
    ([0x06] ++ mvsPut24 p ++ [0x40, 0] ++ mvsPut16 rlen ++ Chunk.idList c rlen)
  simp only [← List.append_assoc] at hput
  have hrec : controlRecord c modend p rlen = [if modend then 0x0D else 0x01, 0, 0, 0] ++
      mvsPut16 (Chunk.idList c rlen).length ++ mvsPut16 0 ++ [0x06] ++ mvsPut24 p ++ [0x40, 0] ++
        mvsPut16 rlen ++ Chunk.idList c rlen := rfl
  rw [hrec]
  exact_mod_cast hput

theorem control_count (h0 : 0 ≤ rlen) (h1 : rlen < 65536) :
    (mvsBe16 (ofBytes (controlRecord c modend p rlen)) 14 : ℤ) = rlen :=
  mvsBe16_put16 h0 h1 ([if modend then 0x0D else 0x01, 0, 0, 0] ++
    mvsPut16 (Chunk.idList c rlen).length ++ [0, 0, 0x06] ++ mvsPut24 p ++ [0x40, 0])
    (Chunk.idList c rlen)

theorem control_framed {t : List UInt8} (h : (Chunk.sects c).length < 16384)
    (ht : (t.length : ℤ) = rlen) (h1 : rlen < 65536) :
    (⟨.ctl, controlRecord c modend p rlen, t⟩ : Block).Framed := by
  have hlen := control_length c modend p rlen
  have hb := control_byte0 c modend p rlen t
  have htext : ctlText (if modend then 0x0D else 0x01) = true := by cases modend <;> rfl
  refine ⟨by dsimp only; omega, ?_, ?_, ?_⟩
  · rw [hb]
    cases modend <;> rfl
  · dsimp only
    rw [control_idlen c modend p rlen h, control_rldlen, hlen]
    rfl
  · rw [hb, htext, if_pos rfl]
    have hcount := control_count c modend p rlen (by omega) h1
    dsimp only
    omega

end Control

theorem rld_framed {byte0 : UInt8} (hb : byte0.toNat / 16 = 0) (ht : ctlText byte0.toNat = false)
    {data : List UInt8} (h : data.length ≤ rldmax) :
    (⟨.ctl, rldRecord byte0 data, []⟩ : Block).Framed := by
  have hlen : (rldRecord byte0 data).length = 16 + data.length := by
    simp [rldRecord]
    omega
  have h4 : mvsBe16 (ofBytes (rldRecord byte0 data)) 4 = 0 := by
    have hput := mvsBe16_put16 (v := 0) le_rfl (by norm_num) [byte0, 0, 0, 0]
      (mvsPut16 data.length ++ List.replicate 8 0 ++ data)
    simp only [← List.append_assoc] at hput
    have hrec : rldRecord byte0 data = [byte0, 0, 0, 0] ++ mvsPut16 0 ++ mvsPut16 data.length ++
        List.replicate 8 0 ++ data := rfl
    rw [hrec]
    exact_mod_cast hput
  have h6 := mvsBe16_put16 (v := data.length) (by omega) (by unfold rldmax at h; omega)
    [byte0, 0, 0, 0, 0, 0] (List.replicate 8 0 ++ data)
  rw [← List.append_assoc] at h6
  have h6' : mvsBe16 (ofBytes (rldRecord byte0 data)) 6 = data.length := by exact_mod_cast h6
  refine ⟨by dsimp only; omega, ?_, ?_, ?_⟩
  · rw [rld_byte0, hb]
  · dsimp only
    rw [h4, h6', hlen]
  · rw [rld_byte0, ht]
    rfl

end Frames

section Rld

/-- The RLD emitter keeps its records within the buffer of program fetch. -/
structure RldOk (st : RldOut) : Prop where
  closed : ∀ h ∈ st.closed, ∃ data, h = rldRecord 0x02 data ∧ data.length ≤ rldmax
  cur : ∀ c, st.cur = some c → c.1.length ≤ rldmax

theorem tail_length (it : RldItem) : it.tail.length = 4 := rfl

theorem full_length (it : RldItem) : it.full.length = 8 := rfl

theorem RldOk.emit {st : RldOut} (h : RldOk st) (it : RldItem) :
    RldOk (st.emit it) ∧ (st.emit it).cur.isSome = true := by
  unfold RldOut.emit
  cases hc : st.cur with
  | none =>
    refine ⟨⟨h.closed, ?_⟩, rfl⟩
    intro c hcc
    rw [← Option.some.inj hcc, full_length]
    decide
  | some c =>
    obtain ⟨data, prevR, prevP, flagOff⟩ := c
    have hd : data.length ≤ rldmax := h.cur _ hc
    dsimp only
    split_ifs with h1 h2 h3
    all_goals refine ⟨⟨?_, ?_⟩, rfl⟩
    · intro r hr
      rcases List.mem_append.mp hr with hr | hr
      · exact h.closed r hr
      · exact ⟨data, List.mem_singleton.mp hr, hd⟩
    · intro c hcc
      rw [← Option.some.inj hcc, full_length]
      decide
    · exact h.closed
    · intro c hcc
      rw [← Option.some.inj hcc, List.length_append, List.length_modify, tail_length]
      omega
    · intro r hr
      rcases List.mem_append.mp hr with hr | hr
      · exact h.closed r hr
      · exact ⟨data, List.mem_singleton.mp hr, hd⟩
    · intro c hcc
      rw [← Option.some.inj hcc, full_length]
      decide
    · exact h.closed
    · intro c hcc
      rw [← Option.some.inj hcc, List.length_append, full_length]
      omega

theorem rldOk_foldl (items : List RldItem) {st : RldOut} (h : RldOk st) :
    RldOk (items.foldl RldOut.emit st) ∧
      (items ≠ [] → (items.foldl RldOut.emit st).cur.isSome = true) := by
  induction items generalizing st with
  | nil => exact ⟨h, fun hn => absurd rfl hn⟩
  | cons it items ih =>
    obtain ⟨h1, h2⟩ := h.emit it
    refine ⟨(ih h1).1, fun _ => ?_⟩
    cases items with
    | nil => exact h2
    | cons it' items => exact (ih h1).2 (by simp)

/-- The RLD records are RLD-only but for the last, which ends the module. -/
theorem rldRecords_spec (items : List RldItem) :
    (items = [] ∧ rldRecords items = []) ∨ items ≠ [] ∧ ∃ rs data, rldRecords items =
      rs ++ [rldRecord 0x0E data] ∧ data.length ≤ rldmax ∧
      ∀ h ∈ rs, ∃ data, h = rldRecord 0x02 data ∧ data.length ≤ rldmax := by
  by_cases hi : items = []
  · subst hi
    exact .inl ⟨rfl, rfl⟩
  · have hinit : RldOk ⟨[], none⟩ := ⟨by simp, by simp⟩
    obtain ⟨h1, h2⟩ := rldOk_foldl items hinit
    obtain ⟨c, hc⟩ := Option.isSome_iff_exists.mp (h2 hi)
    refine .inr ⟨hi, (items.foldl RldOut.emit ⟨[], none⟩).closed, c.1, ?_, h1.cur c hc, h1.closed⟩
    simp [rldRecords, RldOut.finish, hc]

end Rld

namespace TextRecord

def block (r : TextRecord) : Block := ⟨.ctl, r.control, r.text⟩

end TextRecord

section Modend

variable {opt : Options} {m : Memory} {moddef : ℤ → Bool} {haveRld lastChunk : Bool}
  {c : TextSect × List TextSect}

theorem record_ends (p : ℤ) : (Chunk.record opt m haveRld lastChunk c p).block.ends =
    Chunk.modend opt haveRld lastChunk c p := by
  have hb : (Chunk.record opt m haveRld lastChunk c p).block.byte0 =
      if Chunk.modend opt haveRld lastChunk c p then 0x0D else 0x01 := control_byte0 c _ p _ _
  have hk : (Chunk.record opt m haveRld lastChunk c p).block.kind = .ctl := rfl
  rw [Block.ends, hb, hk]
  cases Chunk.modend opt haveRld lastChunk c p <;> rfl

/-- Only the last record of the last chunk ends the module, and only if no RLD record will. -/
theorem chunkRecords_modend (hm : 0 < opt.maxtext) (fuel : ℕ) {p : ℤ} (hp : p ≤ Chunk.cend c)
    (hfuel : (Chunk.cend c - p).toNat < fuel) :
    if lastChunk ∧ haveRld = false then
      ∃ rs r, chunkRecords opt m moddef haveRld lastChunk c fuel p = rs ++ [r] ∧
        r.block.ends = true ∧ ∀ r' ∈ rs, r'.block.ends = false
    else ∀ r ∈ chunkRecords opt m moddef haveRld lastChunk c fuel p, r.block.ends = false := by
  induction fuel generalizing p with
  | zero => omega
  | succ fuel ih =>
    have h0 := rlen_nonneg opt hp
    have hends : (Chunk.record opt m haveRld lastChunk c p).block.ends =
        Chunk.modend opt haveRld lastChunk c p := record_ends p
    rw [chunkRecords_succ]
    by_cases hlt : p + Chunk.rlen opt c p < Chunk.cend c
    · have hno : Chunk.modend opt haveRld lastChunk c p = false := by
        simp only [Chunk.modend, decide_eq_false_iff_not]
        omega
      have hpos : 0 < Chunk.rlen opt c p := by
        unfold Chunk.rlen at hlt ⊢
        omega
      rw [hno] at hends
      have hih := ih hlt.le (by omega)
      rw [if_pos hlt]
      split_ifs at hih ⊢ with hlast hskip hskip
      · exact hih
      · obtain ⟨rs, r, hrs, hr, hall⟩ := hih
        refine ⟨_ :: rs, r, by rw [hrs]; rfl, hr, ?_⟩
        intro r' hr'
        rcases List.mem_cons.mp hr' with rfl | hr'
        · exact hends
        · exact hall r' hr'
      · exact hih
      · intro r hr
        rcases List.mem_cons.mp hr with rfl | hr
        · exact hends
        · exact hih r hr
    · rw [if_neg hlt, List.append_nil]
      by_cases hlast : lastChunk ∧ haveRld = false
      · have hyes : Chunk.modend opt haveRld lastChunk c p = true := by
          simp only [Chunk.modend, decide_eq_true_eq]
          exact ⟨hlast.1, by omega, by simp [hlast.2]⟩
        have hskip : ¬ Chunk.skips opt moddef haveRld lastChunk c p = true := by
          simp [Chunk.skips, hyes]
        rw [hyes] at hends
        rw [if_pos hlast, if_neg hskip]
        exact ⟨[], _, rfl, hends, by simp⟩
      · have hno : Chunk.modend opt haveRld lastChunk c p = false := by
          simp only [Chunk.modend, decide_eq_false_iff_not]
          rintro ⟨h1, -, h2⟩
          exact hlast ⟨h1, by simpa using h2⟩
        rw [hno] at hends
        rw [if_neg hlast]
        intro r hr
        split_ifs at hr
        · simp at hr
        · rw [List.mem_singleton.mp hr]
          exact hends

theorem textRecords_modend (hm : 0 < opt.maxtext) {cs : List (TextSect × List TextSect)}
    (hcs : ∀ c ∈ cs, c.1.org ≤ Chunk.cend c) :
    if haveRld = true ∨ cs = [] then
      ∀ r ∈ textRecords opt m moddef haveRld cs, r.block.ends = false
    else ∃ rs r, textRecords opt m moddef haveRld cs = rs ++ [r] ∧ r.block.ends = true ∧
        ∀ r' ∈ rs, r'.block.ends = false := by
  induction cs with
  | nil => simp [textRecords]
  | cons c cs ih =>
    have hc : if cs.isEmpty ∧ haveRld = false then
        ∃ rs r, chunkRecords opt m moddef haveRld cs.isEmpty c ((Chunk.cend c - c.1.org).toNat + 1)
            c.1.org = rs ++ [r] ∧ r.block.ends = true ∧ ∀ r' ∈ rs, r'.block.ends = false
        else ∀ r ∈ chunkRecords opt m moddef haveRld cs.isEmpty c
          ((Chunk.cend c - c.1.org).toNat + 1) c.1.org, r.block.ends = false :=
      chunkRecords_modend hm _ (hcs c (by simp)) (Nat.lt_succ_self _)
    have ih := ih fun c' h => hcs c' (List.mem_cons_of_mem _ h)
    rw [textRecords]
    cases haveRld with
    | true =>
      simp only [true_or, ↓reduceIte, reduceCtorEq, and_false] at hc ih ⊢
      intro r hr
      rcases List.mem_append.mp hr with hr | hr
      · exact hc r hr
      · exact ih r hr
    | false =>
      simp only [Bool.false_eq_true, reduceCtorEq, or_self, ↓reduceIte, and_true, false_or] at hc ih ⊢
      cases cs with
      | nil =>
        simp only [List.isEmpty_nil, ↓reduceIte] at hc
        obtain ⟨rs, r, hrs, hr⟩ := hc
        exact ⟨rs, r, by simp [textRecords, hrs], hr⟩
      | cons c' cs =>
        simp only [List.isEmpty_cons, Bool.false_eq_true, ↓reduceIte] at hc
        simp only [reduceCtorEq, ↓reduceIte] at ih
        obtain ⟨rs, r, hrs, hr, hall⟩ := ih
        refine ⟨_ ++ rs, r, by rw [List.append_assoc, ← hrs], hr, ?_⟩
        intro r' hr'
        rcases List.mem_append.mp hr' with hr' | hr'
        · exact hc r' hr'
        · exact hall r' hr'

end Modend

section IdList

/-- The lengths in the list of a control record: the record's, or each section's. -/
def Chunk.idLength (c : TextSect × List TextSect) (rlen : ℤ) (s : TextSect) : ℤ :=
  if c.2 = [] then rlen else s.send - s.org

theorem idList_eq (c : TextSect × List TextSect) (rlen : ℤ) : Chunk.idList c rlen =
    (Chunk.sects c).flatMap fun s => mvsPut16 s.gid ++ mvsPut16 (Chunk.idLength c rlen s) := by
  unfold Chunk.idList
  split_ifs with h
  · simp [Chunk.sects, Chunk.idLength, h]
  · simp [Chunk.sects, Chunk.idLength, h]

theorem idLengths_control (c : TextSect × List TextSect) (modend : Bool) (p rlen : ℤ)
    (hn : (Chunk.sects c).length < 16384)
    (hv : ∀ s ∈ Chunk.sects c, 0 ≤ Chunk.idLength c rlen s ∧ Chunk.idLength c rlen s < 65536) :
    ((idLengths (ofBytes (controlRecord c modend p rlen)) 0).sum : ℤ) =
      ((Chunk.sects c).map (Chunk.idLength c rlen)).sum := by
  have hk : ∀ k (hk : k < (Chunk.sects c).length),
      (mvsBe16 (ofBytes (controlRecord c modend p rlen)) (16 + 4 * k + 2) : ℤ) =
        Chunk.idLength c rlen (Chunk.sects c)[k] := by
    intro k hk
    set s := (Chunk.sects c)[k]
    set ids : List TextSect → List UInt8 := fun l =>
      l.flatMap fun s => mvsPut16 s.gid ++ mvsPut16 (Chunk.idLength c rlen s) with hids
    have hidlen (l : List TextSect) : (ids l).length = 4 * l.length := by
      simp [hids, List.length_flatMap, mul_comm]
    have hsplit : Chunk.idList c rlen = ids ((Chunk.sects c).take k) ++ mvsPut16 s.gid ++
        mvsPut16 (Chunk.idLength c rlen s) ++ ids ((Chunk.sects c).drop (k + 1)) := by
      have hsects : Chunk.sects c = (Chunk.sects c).take k ++ s :: (Chunk.sects c).drop (k + 1) := by
        rw [← List.drop_eq_getElem_cons hk, List.take_append_drop]
      calc Chunk.idList c rlen = ids (Chunk.sects c) := idList_eq c rlen
        _ = ids ((Chunk.sects c).take k ++ s :: (Chunk.sects c).drop (k + 1)) := congrArg ids hsects
        _ = _ := by simp only [hids, List.flatMap_append, List.flatMap_cons, List.append_assoc]
    set hdr : List UInt8 := [if modend then 0x0D else 0x01, 0, 0, 0] ++
      mvsPut16 (Chunk.idList c rlen).length ++ [0, 0, 0x06] ++ mvsPut24 p ++ [0x40, 0] ++
        mvsPut16 rlen with hhdr
    have hput := mvsBe16_put16 (hv s (List.getElem_mem hk)).1 (hv s (List.getElem_mem hk)).2
      (hdr ++ ids ((Chunk.sects c).take k) ++ mvsPut16 s.gid) (ids ((Chunk.sects c).drop (k + 1)))
    have hlen : (hdr ++ ids ((Chunk.sects c).take k) ++ mvsPut16 s.gid).length = 16 + 4 * k + 2 := by
      have h16 : hdr.length = 16 := rfl
      rw [List.length_append, List.length_append, h16, hidlen, List.length_take,
        min_eq_left hk.le, mvsPut16_length]
    have hrec : controlRecord c modend p rlen = hdr ++ ids ((Chunk.sects c).take k) ++
        mvsPut16 s.gid ++ mvsPut16 (Chunk.idLength c rlen s) ++ ids ((Chunk.sects c).drop (k + 1)) := by
      have : controlRecord c modend p rlen = hdr ++ Chunk.idList c rlen := by
        simp [controlRecord, hhdr]
      rw [this, hsplit]
      simp only [List.append_assoc]
    rw [hlen, ← hrec] at hput
    exact hput
  have hlist : (idLengths (ofBytes (controlRecord c modend p rlen)) 0).map (Nat.cast : ℕ → ℤ) =
      (Chunk.sects c).map (Chunk.idLength c rlen) := by
    apply List.ext_getElem
    · simp only [idLengths, Nat.zero_add, control_idlen c modend p rlen hn, List.length_map,
        List.length_range]
      omega
    · intro k h1 h2
      have hk' : k < (Chunk.sects c).length := by simpa using h2
      simp only [idLengths, Nat.zero_add, control_rldlen, List.getElem_map, List.getElem_range,
        Nat.add_zero]
      exact hk k hk'
  rw [← hlist]
  exact Nat.cast_list_sum _

/-- Sections that lie one after the other fill their chunk when there is no gap between them. -/
theorem InOrder.sum_eq_iff {s : TextSect} {l : List TextSect} (h : InOrder (s :: l)) :
    ((s :: l).map fun t => t.send - t.org).sum ≤ (l.getLast?.getD s).send - s.org ∧
      (((s :: l).map fun t => t.send - t.org).sum = (l.getLast?.getD s).send - s.org ↔
        (s :: l).IsChain fun t t' => t.send = t'.org) := by
  induction l generalizing s with
  | nil => simp
  | cons t l ih =>
    have hst : s.send ≤ t.org := (List.pairwise_cons.mp h.chain).1 t (by simp)
    have htl : InOrder (t :: l) :=
      ⟨(List.pairwise_cons.mp h.chain).2, fun u hu => h.proper u (List.mem_cons_of_mem _ hu)⟩
    obtain ⟨h1, h2⟩ := ih htl
    have hlast : (t :: l).getLast?.getD s = l.getLast?.getD t := by
      cases l with
      | nil => rfl
      | cons u l => simp [List.getLast?_eq_some_getLast]
    rw [hlast, List.isChain_cons_cons, ← h2, List.map_cons, List.sum_cons]
    constructor
    · omega
    · constructor
      · intro heq
        omega
      · rintro ⟨heq, hsum⟩
        omega

end IdList

theorem packChunks_fits (maxtext fuel : ℕ) (ts : List TextSect) :
    ∀ c ∈ packChunks maxtext fuel ts, ∀ s ∈ c.2, s.send - c.1.org ≤ maxtext := by
  induction fuel generalizing ts with
  | zero => simp [packChunks]
  | succ fuel ih =>
    cases ts with
    | nil => simp [packChunks]
    | cons s rest =>
      intro c hc
      rcases List.mem_cons.mp hc with rfl | hc
      · exact packMore_fits maxtext s.org rest
      · exact ih _ c hc

section Announced

variable {opt : Options} {m : Memory} {moddef : ℤ → Bool} {haveRld lastChunk : Bool}
  {c : TextSect × List TextSect}

namespace TextRecord

/-- A record announces some text, and its list accounts for all of it. -/
def Sound (r : TextRecord) : Prop :=
  1 ≤ r.text.length ∧ (idLengths (ofBytes r.control) 0).sum = r.text.length

end TextRecord

/-- The packer writes the chunk: it is text by default, and sparse text keeps what a TXT card
covered and the record that ends the module. -/
def Chunk.Written (opt : Options) (moddef : ℤ → Bool) (haveRld lastChunk : Bool)
    (c : TextSect × List TextSect) : Prop :=
  opt.sparseText = true → (∃ z, c.1.org ≤ z ∧ z < Chunk.cend c ∧ moddef z = true) ∨
    lastChunk = true ∧ haveRld = false

def Chunk.Gapless (c : TextSect × List TextSect) : Prop :=
  c.1.org < Chunk.cend c ∧ (Chunk.sects c).IsChain fun s t => s.send = t.org

theorem skips_iff_not_written (h : Chunk.cend c - c.1.org ≤ opt.maxtext) :
    Chunk.skips opt moddef haveRld lastChunk c c.1.org = true ↔
      ¬ Chunk.Written opt moddef haveRld lastChunk c := by
  have hrlen : Chunk.rlen opt c c.1.org = Chunk.cend c - c.1.org := min_eq_left h
  have hmod : Chunk.modend opt haveRld lastChunk c c.1.org = true ↔
      lastChunk = true ∧ haveRld = false := by
    simp [Chunk.modend, hrlen]
  have hany : (List.range (Chunk.rlen opt c c.1.org).toNat).any (fun zi => moddef (c.1.org + zi)) =
      true ↔ ∃ z, c.1.org ≤ z ∧ z < Chunk.cend c ∧ moddef z = true := by
    rw [List.any_eq_true, hrlen]
    constructor
    · rintro ⟨zi, hzi, hdef⟩
      rw [List.mem_range] at hzi
      exact ⟨c.1.org + zi, by omega, by omega, hdef⟩
    · rintro ⟨z, hlo, hhi, hdef⟩
      refine ⟨(z - c.1.org).toNat, List.mem_range.mpr (by omega), ?_⟩
      rw [Int.toNat_of_nonneg (by omega), add_sub_cancel]
      exact hdef
  rw [Chunk.skips, decide_eq_true_eq, Bool.not_eq_true', Bool.not_eq_true', ← Bool.not_eq_true,
    ← Bool.not_eq_true, hany, hmod, Chunk.Written, Classical.not_imp, not_or]

theorem chunkRecords_single (h : Chunk.cend c - c.1.org ≤ opt.maxtext) (fuel : ℕ) :
    chunkRecords opt m moddef haveRld lastChunk c (fuel + 1) c.1.org =
      if Chunk.skips opt moddef haveRld lastChunk c c.1.org then []
        else [Chunk.record opt m haveRld lastChunk c c.1.org] := by
  have hrlen : Chunk.rlen opt c c.1.org = Chunk.cend c - c.1.org := min_eq_left h
  have hlast : ¬ c.1.org + Chunk.rlen opt c c.1.org < Chunk.cend c := by omega
  rw [chunkRecords_succ, if_neg hlast, List.append_nil]

theorem chunkRecords_pos (hm : 0 < opt.maxtext) (fuel : ℕ) {p : ℤ} (hp : p < Chunk.cend c) :
    ∀ r ∈ chunkRecords opt m moddef haveRld lastChunk c fuel p, 1 ≤ r.text.length := by
  induction fuel generalizing p with
  | zero => simp [chunkRecords]
  | succ fuel ih =>
    have hrlen : 0 < Chunk.rlen opt c p := by
      unfold Chunk.rlen
      omega
    intro r hr
    rw [chunkRecords_succ] at hr
    rcases List.mem_append.mp hr with hr | hr
    · split_ifs at hr with hskip
      · simp at hr
      · rw [List.mem_singleton.mp hr, record_length]
        omega
    · split_ifs at hr with hlt
      · exact ih hlt r hr
      · simp at hr

theorem sum_idLength (hin : InOrder (Chunk.sects c)) (rlen : ℤ) :
    (c.2 = [] → ((Chunk.sects c).map (Chunk.idLength c rlen)).sum = rlen) ∧
      (c.2 ≠ [] → (((Chunk.sects c).map (Chunk.idLength c rlen)).sum = Chunk.cend c - c.1.org ↔
        (Chunk.sects c).IsChain fun s t => s.send = t.org)) := by
  constructor
  · intro hone
    simp [Chunk.sects, Chunk.idLength, hone]
  · intro hmany
    have hids : Chunk.idLength c rlen = fun s => s.send - s.org := by
      funext s
      rw [Chunk.idLength, if_neg hmany]
    rw [hids]
    exact hin.sum_eq_iff.2

theorem idLength_bounds (hin : InOrder (Chunk.sects c)) (hfit : ∀ s ∈ c.2, s.send - c.1.org ≤ opt.maxtext)
    {rlen : ℤ} (h0 : 0 ≤ rlen) (h1 : rlen ≤ opt.maxtext) :
    ∀ s ∈ Chunk.sects c, 0 ≤ Chunk.idLength c rlen s ∧ Chunk.idLength c rlen s < 65536 := by
  have hmax : opt.maxtext ≤ 18432 := (pickMaxtext_bounds opt.srcBlksize).2
  intro s hs
  unfold Chunk.idLength
  split_ifs with hone
  · omega
  · have hprop := hin.proper s hs
    have horg := hin.org_le hs
    obtain ⟨t, ht⟩ := List.exists_mem_of_ne_nil c.2 hone
    have hsend : s.send - c.1.org ≤ opt.maxtext := by
      rcases List.mem_cons.mp hs with rfl | hs
      · have h2 := (List.pairwise_cons.mp hin.chain).1 t ht
        have h3 := hin.proper t (List.mem_cons_of_mem _ ht)
        have h4 := hfit t ht
        omega
      · exact hfit s hs
    omega

/-- A record's list adds up to its text, or to the sections' spans when it carries several. -/
theorem RecordOf.sound_iff {r : TextRecord} (h : RecordOf m opt.maxtext c r)
    (hin : InOrder (Chunk.sects c)) (hfit : ∀ s ∈ c.2, s.send - c.1.org ≤ opt.maxtext)
    (hn : (Chunk.sects c).length < 16384) : r.Sound ↔ 1 ≤ r.text.length ∧
      ((Chunk.sects c).map (Chunk.idLength c r.text.length)).sum = r.text.length := by
  obtain ⟨-, hlen, modend, hc⟩ := h
  have hsum := idLengths_control c modend r.addr r.text.length hn
    (idLength_bounds hin hfit (by omega) (by omega))
  rw [TextRecord.Sound, hc, ← hsum, Nat.cast_inj]

theorem chunkRecords_sound_iff (hin : InOrder (Chunk.sects c))
    (hfit : ∀ s ∈ c.2, s.send - c.1.org ≤ opt.maxtext) (hn : (Chunk.sects c).length < 16384)
    (fuel : ℕ) : (∀ r ∈ chunkRecords opt m moddef haveRld lastChunk c (fuel + 1) c.1.org, r.Sound) ↔
      (Chunk.Written opt moddef haveRld lastChunk c → Chunk.Gapless c) := by
  have hm : 0 < opt.maxtext := by
    have := (pickMaxtext_bounds opt.srcBlksize).1
    unfold Options.maxtext
    omega
  have hprop : c.1.org ≤ Chunk.cend c :=
    (hin.proper c.1 (by simp [Chunk.sects])).trans (hin.send_le_cend (by simp [Chunk.sects]))
  have hmem : ∀ r ∈ chunkRecords opt m moddef haveRld lastChunk c (fuel + 1) c.1.org,
      c.1.org ≤ r.addr ∧ r.addr + r.text.length ≤ Chunk.cend c ∧ RecordOf m opt.maxtext c r :=
    chunkRecords_mem _ hprop
  by_cases hsplit : c.2 = [] ∧ c.1.org < Chunk.cend c
  · obtain ⟨hone, hlt⟩ := hsplit
    refine iff_of_true ?_ fun _ => ⟨hlt, by simp [Chunk.sects, hone]⟩
    intro r hr
    rw [(hmem r hr).2.2.sound_iff hin hfit hn]
    exact ⟨chunkRecords_pos hm _ hlt r hr, (sum_idLength hin _).1 hone⟩
  · have hle : Chunk.cend c - c.1.org ≤ opt.maxtext := by
      by_cases hone : c.2 = []
      · have : ¬ c.1.org < Chunk.cend c := fun hlt => hsplit ⟨hone, hlt⟩
        omega
      · have hlast : c.2.getLast hone ∈ c.2 := List.getLast_mem hone
        have := hfit _ hlast
        rw [Chunk.cend, List.getLast?_eq_some_getLast hone, Option.getD_some]
        exact this
    rw [chunkRecords_single hle] at hmem ⊢
    by_cases hw : Chunk.Written opt moddef haveRld lastChunk c
    · have hskip : ¬ Chunk.skips opt moddef haveRld lastChunk c c.1.org = true := fun h =>
        (skips_iff_not_written hle).mp h hw
      have hrlen : Chunk.rlen opt c c.1.org = Chunk.cend c - c.1.org := min_eq_left hle
      rw [if_neg hskip] at hmem ⊢
      obtain ⟨-, -, hrec⟩ := hmem _ (List.mem_singleton.mpr rfl)
      have hlen : ((Chunk.record opt m haveRld lastChunk c c.1.org).text.length : ℤ) =
          Chunk.cend c - c.1.org := by
        rw [record_length, Int.toNat_of_nonneg (by omega), hrlen]
      simp only [List.mem_singleton, forall_eq, hw, forall_const]
      rw [hrec.sound_iff hin hfit hn, hlen, Chunk.Gapless]
      by_cases hone : c.2 = []
      · have : ¬ c.1.org < Chunk.cend c := fun hlt => hsplit ⟨hone, hlt⟩
        refine iff_of_false ?_ ?_
        · rintro ⟨h1, -⟩
          omega
        · rintro ⟨h1, -⟩
          omega
      · rw [(sum_idLength hin _).2 hone]
        refine and_congr_left' ?_
        omega
    · have hskip : Chunk.skips opt moddef haveRld lastChunk c c.1.org = true :=
        (skips_iff_not_written hle).mpr hw
      rw [if_pos hskip]
      simp [hw]

end Announced

/-- Every chunk that is written has text, with no gap between its sections, and something is
there to carry the end of the module. -/
def Solid (L : Layout) (opt : Options) : Prop :=
  (L.chunks opt ≠ [] ∨ L.haveRld = true) ∧ ∀ pre c post, L.chunks opt = pre ++ c :: post →
    Chunk.Written opt L.moddef L.haveRld post.isEmpty c → Chunk.Gapless c

theorem forall_mem_textRecords {opt : Options} {m : Memory} {moddef : ℤ → Bool} {haveRld : Bool}
    {P : TextRecord → Prop} (cs : List (TextSect × List TextSect)) :
    (∀ r ∈ textRecords opt m moddef haveRld cs, P r) ↔ ∀ pre c post, cs = pre ++ c :: post →
      ∀ r ∈ chunkRecords opt m moddef haveRld post.isEmpty c ((Chunk.cend c - c.1.org).toNat + 1)
        c.1.org, P r := by
  induction cs with
  | nil => simp [textRecords]
  | cons c cs ih =>
    simp only [textRecords, List.forall_mem_append, ih]
    constructor
    · rintro ⟨h1, h2⟩ pre c' post heq
      cases pre with
      | nil =>
        obtain ⟨rfl, rfl⟩ := List.cons.inj heq
        exact h1
      | cons d pre =>
        obtain ⟨rfl, htail⟩ := List.cons.inj heq
        exact h2 pre c' post htail
    · intro h
      exact ⟨h [] c cs rfl, fun pre c' post heq => h (c :: pre) c' post (by rw [heq]; rfl)⟩

section Member

variable {L : Layout} {opt : Options}

structure Packed (L : Layout) (opt : Options) : Prop where
  order : ∀ c ∈ L.chunks opt, InOrder (Chunk.sects c)
  fits : ∀ c ∈ L.chunks opt, ∀ s ∈ c.2, s.send - c.1.org ≤ opt.maxtext
  few : ∀ c ∈ L.chunks opt, (Chunk.sects c).length < 16384

theorem packed (hin : InOrder (textSects (gidx L.G) L.textend)) (hn : L.ntext < 16384) :
    Packed L opt := by
  have hflat := packChunks_flatten opt.maxtext (le_refl (textSects (gidx L.G) L.textend).length)
  have hlen : (textSects (gidx L.G) L.textend).length = L.ntext := by
    rw [textSects_eq, List.length_map, List.length_zipIdx, textPart_length]
  refine ⟨?_, packChunks_fits _ _ _, ?_⟩
  · intro c hc
    rw [← hflat] at hin
    exact hin.chunk hc
  · intro c hc
    have hsub : (Chunk.sects c).Sublist ((L.chunks opt).flatMap Chunk.sects) :=
      List.sublist_flatten_of_mem (List.mem_map.mpr ⟨c, hc, rfl⟩)
    have := hsub.length_le
    rw [Layout.chunks, hflat, hlen] at this
    omega

theorem Packed.proper (h : Packed L opt) {c : TextSect × List TextSect} (hc : c ∈ L.chunks opt) :
    c.1.org ≤ Chunk.cend c :=
  ((h.order c hc).proper c.1 (by simp [Chunk.sects])).trans
    ((h.order c hc).send_le_cend (by simp [Chunk.sects]))

theorem Packed.record (h : Packed L opt) {r : TextRecord} (hr : r ∈ L.textRecords opt) :
    ∃ c ∈ L.chunks opt, RecordOf L.relocated opt.maxtext c r := by
  have hall : ∀ r ∈ L.textRecords opt, ∃ c ∈ L.chunks opt, RecordOf L.relocated opt.maxtext c r := by
    rw [Layout.textRecords, forall_mem_textRecords]
    intro pre c post heq r hr
    have hc : c ∈ L.chunks opt := by
      rw [heq]
      simp
    exact ⟨c, hc, (chunkRecords_mem _ (h.proper hc) r hr).2.2⟩
  exact hall r hr

theorem Packed.text_framed (h : Packed L opt) : ∀ b ∈ L.textBlocks opt, b.Framed := by
  have hmax : opt.maxtext ≤ 18432 := (pickMaxtext_bounds opt.srcBlksize).2
  intro b hb
  obtain ⟨r, hr, rfl⟩ := List.mem_map.mp hb
  obtain ⟨c, hc, -, hlen, modend, hcontrol⟩ := h.record hr
  rw [hcontrol]
  exact control_framed c modend r.addr _ (h.few c hc) rfl (by omega)

theorem rld_framed_all (L : Layout) : ∀ b ∈ L.rldBlocks, b.Framed ∧ ctlText b.byte0 = false := by
  intro b hb
  obtain ⟨hd, hh, rfl⟩ := List.mem_map.mp hb
  rcases rldRecords_spec L.rldItems with ⟨-, hnil⟩ | ⟨-, rs, data, heq, hlen, hall⟩
  · rw [hnil] at hh
    simp at hh
  · rw [heq] at hh
    rcases List.mem_append.mp hh with hh | hh
    · obtain ⟨d, rfl, hd⟩ := hall hd hh
      refine ⟨rld_framed rfl rfl hd, ?_⟩
      rw [rld_byte0]
      rfl
    · rw [List.mem_singleton.mp hh]
      refine ⟨rld_framed rfl rfl hlen, ?_⟩
      rw [rld_byte0]
      rfl

def Layout.headBlocks (L : Layout) (ident : LkedIdent) : List Block :=
  (cesdRecords L.G).map (fun h => ⟨.cesd, h, []⟩) ++
    [⟨.idr, spzapIdr, []⟩, ⟨.idr, lkedIdr ident, []⟩]

theorem blocks_eq (L : Layout) (opt : Options) (ident : LkedIdent) :
    L.blocks opt ident = L.headBlocks ident ++ (L.textBlocks opt ++ L.rldBlocks) := rfl

theorem head_framed (L : Layout) (ident : LkedIdent) :
    ∀ b ∈ L.headBlocks ident, b.Framed ∧ b.kind ≠ .ctl := by
  intro b hb
  rcases List.mem_append.mp hb with hb | hb
  · obtain ⟨h, hh, rfl⟩ := List.mem_map.mp hb
    exact ⟨cesd_framed hh, by simp⟩
  · rcases List.mem_pair.mp hb with rfl | rfl
    · exact ⟨spzap_framed, by simp⟩
    · exact ⟨lked_framed ident, by simp⟩

theorem head_not_ends (L : Layout) (ident : LkedIdent) : ∀ b ∈ L.headBlocks ident, b.ends = false := by
  intro b hb
  have hk := (head_framed L ident b hb).2
  simp [Block.ends, hk]

theorem rldBlocks_ends (L : Layout) : (L.haveRld = false ∧ L.rldBlocks = []) ∨ L.haveRld = true ∧
    ∃ bs b, L.rldBlocks = bs ++ [b] ∧ b.ends = true ∧ ∀ b' ∈ bs, b'.ends = false := by
  rcases rldRecords_spec L.rldItems with ⟨hitems, hnil⟩ | ⟨hitems, rs, data, heq, -, hall⟩
  · exact .inl ⟨by simp [Layout.haveRld, hitems], by simp [Layout.rldBlocks, hnil]⟩
  · refine .inr ⟨by simpa [Layout.haveRld] using hitems, rs.map fun h => ⟨.ctl, h, []⟩,
      ⟨.ctl, rldRecord 0x0E data, []⟩, by simp [Layout.rldBlocks, heq], ?_, ?_⟩
    · rw [Block.ends, rld_byte0]
      rfl
    · intro b hb
      obtain ⟨h, hh, rfl⟩ := List.mem_map.mp hb
      obtain ⟨d, rfl, -⟩ := hall h hh
      rw [Block.ends, rld_byte0]
      rfl

theorem textBlocks_ends (h : Packed L opt) :
    if L.haveRld = true ∨ L.chunks opt = [] then ∀ b ∈ L.textBlocks opt, b.ends = false
    else ∃ bs b, L.textBlocks opt = bs ++ [b] ∧ b.ends = true ∧ ∀ b' ∈ bs, b'.ends = false := by
  have hm : 0 < opt.maxtext := by
    have := (pickMaxtext_bounds opt.srcBlksize).1
    unfold Options.maxtext
    omega
  have hmod : if L.haveRld = true ∨ L.chunks opt = [] then
      ∀ r ∈ L.textRecords opt, r.block.ends = false
      else ∃ rs r, L.textRecords opt = rs ++ [r] ∧ r.block.ends = true ∧
        ∀ r' ∈ rs, r'.block.ends = false :=
    textRecords_modend hm fun c hc => h.proper hc
  split_ifs at hmod ⊢ with hcase
  · intro b hb
    obtain ⟨r, hr, rfl⟩ := List.mem_map.mp hb
    exact hmod r hr
  · obtain ⟨rs, r, heq, hr, hrs⟩ := hmod
    refine ⟨rs.map TextRecord.block, r.block, ?_, hr, ?_⟩
    · rw [Layout.textBlocks, heq, List.map_append]
      rfl
    · intro b hb
      obtain ⟨r', hr', rfl⟩ := List.mem_map.mp hb
      exact hrs r' hr'

/-- The one record that ends the module is the last one, if there is any. -/
theorem blocks_ends (h : Packed L opt) (ident : LkedIdent) :
    (∀ b ∈ (L.blocks opt ident).dropLast, b.ends = false) ∧
      ((L.blocks opt ident).getLast?.any Block.ends = true ↔
        L.chunks opt ≠ [] ∨ L.haveRld = true) := by
  have hhead := head_not_ends L ident
  have htext := textBlocks_ends h
  have hlast (bs : List Block) (b : Block) (hb : b.ends = true) (hbs : ∀ b' ∈ bs, b'.ends = false)
      (heq : L.blocks opt ident = bs ++ [b]) : (∀ b ∈ (L.blocks opt ident).dropLast, b.ends = false) ∧
        (L.blocks opt ident).getLast?.any Block.ends = true := by
    rw [heq, List.dropLast_concat]
    exact ⟨hbs, by simp [hb]⟩
  rcases rldBlocks_ends L with ⟨hno, hnil⟩ | ⟨hyes, bs, b, heq, hb, hbs⟩
  · rw [hno] at htext
    simp only [Bool.false_eq_true, false_or] at htext
    split_ifs at htext with hchunks
    · have hblocks : ∀ b ∈ L.blocks opt ident, b.ends = false := by
        rw [blocks_eq, hnil, List.append_nil]
        exact List.forall_mem_append.mpr ⟨hhead, htext⟩
      refine ⟨fun b hb => hblocks b (List.mem_of_mem_dropLast hb), ?_⟩
      refine iff_of_false ?_ (by simp [hchunks, hno])
      cases hg : (L.blocks opt ident).getLast? with
      | none => simp
      | some z => simp [hblocks z (List.mem_of_getLast? hg)]
    · obtain ⟨bs, b, heq, hb, hbs⟩ := htext
      obtain ⟨h1, h2⟩ := hlast (L.headBlocks ident ++ bs) b hb
        (List.forall_mem_append.mpr ⟨hhead, hbs⟩) (by rw [blocks_eq, hnil, heq]; simp)
      exact ⟨h1, iff_of_true h2 (.inl hchunks)⟩
  · rw [if_pos (.inl hyes)] at htext
    obtain ⟨h1, h2⟩ := hlast (L.headBlocks ident ++ (L.textBlocks opt ++ bs)) b hb
      (List.forall_mem_append.mpr ⟨hhead, List.forall_mem_append.mpr ⟨htext, hbs⟩⟩)
      (by rw [blocks_eq, heq]; simp)
    exact ⟨h1, iff_of_true h2 (.inr hyes)⟩

theorem Packed.text_announced (h : Packed L opt) :
    (∀ b ∈ L.textBlocks opt, b.kind = .ctl → ctlText b.byte0 = true →
      (1 ≤ mvsBe16 (ofBytes b.head) 14 ∧ mvsBe16 (ofBytes b.head) 14 ≤ opt.maxtext) ∧
        (idLengths (ofBytes b.head) 0).sum = mvsBe16 (ofBytes b.head) 14) ↔
      ∀ r ∈ L.textRecords opt, r.Sound := by
  have hmax : opt.maxtext ≤ 18432 := (pickMaxtext_bounds opt.srcBlksize).2
  rw [Layout.textBlocks, List.forall_mem_map]
  refine forall₂_congr fun r hr => ?_
  obtain ⟨c, -, -, hlen, modend, hcontrol⟩ := h.record hr
  have hcount := control_count c modend r.addr r.text.length (by omega) (by omega)
  have htext : ctlText (⟨.ctl, r.control, r.text⟩ : Block).byte0 = true := by
    rw [hcontrol, control_byte0]
    cases modend <;> rfl
  rw [← hcontrol, Nat.cast_inj] at hcount
  simp only [htext, forall_const, hcount, TextRecord.Sound]
  refine and_congr_left fun _ => ?_
  omega

theorem Packed.well_formed_iff (hp : Packed L opt) (ident : LkedIdent) :
    WellFormed (L.member opt ident) opt.maxtext ↔ Solid L opt := by
  obtain ⟨hends, hlast⟩ := blocks_ends hp ident
  have hframed : ∀ b ∈ L.blocks opt ident, b.Framed := by
    rw [blocks_eq]
    simp only [List.forall_mem_append]
    exact ⟨fun b hb => (head_framed L ident b hb).1, hp.text_framed,
      fun b hb => (rld_framed_all L b hb).1⟩
  rw [Layout.member_eq, wellFormed_iff hframed hends, hlast, Solid]
  refine and_congr_right fun _ => ?_
  rw [blocks_eq]
  simp only [List.forall_mem_append]
  constructor
  · rintro ⟨-, htext, -⟩ pre c post heq
    have hc : c ∈ L.chunks opt := by
      rw [heq]
      simp
    have hsound := (forall_mem_textRecords _).mp (hp.text_announced.mp htext) pre c post heq
    exact (chunkRecords_sound_iff (hp.order c hc) (hp.fits c hc) (hp.few c hc) _).mp hsound
  · intro hsolid
    refine ⟨?_, ?_, ?_⟩
    · intro b hb hk
      exact absurd hk (head_framed L ident b hb).2
    · apply hp.text_announced.mpr
      rw [Layout.textRecords, forall_mem_textRecords]
      intro pre c post heq
      have hc : c ∈ L.chunks opt := by
        rw [heq]
        simp
      exact (chunkRecords_sound_iff (hp.order c hc) (hp.fits c hc) (hp.few c hc) _).mpr
        (hsolid pre c post heq)
    · intro b hb _ ht
      rw [(rld_framed_all L b hb).2] at ht
      exact absurd ht (by simp)

end Member

/-- Two sections of eight bytes, the second at X'100'. -/
def gapBetween : Deck :=
  .ofCards [Deck.esdCard 1 [Deck.esdItem (letterName 0xC1) 0x00 0 8,
      Deck.esdItem (letterName 0xC2) 0x00 256 8],
    Deck.txtCard 0 1 [1, 2, 3, 4], Deck.txtCard 256 2 [5, 6, 7, 8], Deck.endCard]

end Cc370.Ld370
