import Cc370.As370.Cards

namespace Cc370.As370

open Obj370

namespace TxtEvent

/-- The bytes of an event with the address and the ESDID of each. -/
def placed (t : TxtEvent) : List (ℕ × ℕ × UInt8) :=
  t.bytes.zipIdx.map fun (b, i) => ((t.addr + i).toNat, t.esdid, b)

structure Fits (t : TxtEvent) : Prop where
  nonneg : 0 ≤ t.addr
  within : t.addr + t.bytes.length ≤ sectArchMax
  esdid : t.esdid < 65536

theorem placed_append (addr : ℤ) (xs ys : List UInt8) (esdid : ℕ) :
    placed ⟨addr, xs ++ ys, esdid⟩ = placed ⟨addr, xs, esdid⟩ ++ placed ⟨addr + xs.length, ys, esdid⟩ := by
  simp only [placed, List.zipIdx_append, List.map_append]
  congr 1
  rw [List.zipIdx_eq_map_add, List.map_map]
  apply List.map_congr_left
  rintro ⟨b, i⟩ -
  simp only [Function.comp_apply, Prod.mk.injEq, and_true, Nat.zero_add]
  congr 1
  push_cast
  ring

theorem placed_nil (addr : ℤ) (esdid : ℕ) : placed ⟨addr, [], esdid⟩ = [] := rfl

end TxtEvent

theorem map_ofBytes_range (l : List UInt8) : ((List.range l.length).map fun i => ofBytes l i) = l := by
  apply List.ext_getElem
  · simp
  · intro i h1 h2
    simp [ofBytes, h2]

/-- A TXT card reads back as the bytes it was written from. -/
theorem txtGet_card {t : TxtEvent} (ht : t.Fits) (hlen : t.bytes.length ≤ 56) (seq : List UInt8) :
    ∃ x, txtGet (ofBytes (card txtName (some t.addr) (some t.bytes.length) (some t.esdid) t.bytes seq)) =
      some x ∧ x.bytes = t.placed := by
  set c := ofBytes (card txtName (some t.addr) (some t.bytes.length) (some t.esdid) t.bytes seq) with hc
  have hname : txtName.length = 3 := rfl
  have hesdid := ht.esdid
  have hcount : (mvsBe16 c 10 : ℤ) = t.bytes.length :=
    card_count hname (some t.addr) (some (t.esdid : ℤ)) t.bytes seq (by omega) (by omega)
  have hid : (mvsBe16 c 14 : ℤ) = t.esdid :=
    card_id hname (some t.addr) (some (t.bytes.length : ℤ)) t.bytes seq (by omega) (by omega)
  have hdata : ((List.range t.bytes.length).map fun i => c (16 + i)) = t.bytes := by
    conv_rhs => rw [← map_ofBytes_range t.bytes]
    apply List.map_congr_left
    intro i hi
    exact card_data hname (some t.addr) (some (t.bytes.length : ℤ)) (some (t.esdid : ℤ)) t.bytes seq
      (List.mem_range.mp hi)
  refine ⟨_, if_pos (txt_cardType ..), ?_⟩
  rw [if_neg (by omega), Nat.cast_inj.mp hcount, hdata, Nat.cast_inj.mp hid]
  unfold Txt.bytes TxtEvent.placed
  apply List.map_congr_left
  rintro ⟨b, i⟩ hbi
  have hi : i < t.bytes.length := (List.getElem?_eq_some_iff.mp (List.mem_zipIdx_iff_getElem?.mp hbi)).1
  have hwithin := ht.within
  have hnonneg := ht.nonneg
  have haddr : (mvsBe24 c 5 : ℤ) = t.addr := by
    unfold sectArchMax at hwithin
    exact card_addr hname (some (t.bytes.length : ℤ)) (some (t.esdid : ℤ)) t.bytes seq hnonneg (by omega)
  simp only [Prod.mk.injEq, and_true]
  omega

namespace TxtOut

/-- The bytes of the cards written so far, and those of the open card. -/
def written (st : TxtOut) : List (ℕ × ℕ × UInt8) := (deckTxt (st.out.map ofBytes)).flatMap Txt.bytes

def pending (st : TxtOut) : List (ℕ × ℕ × UInt8) := st.cur.elim [] TxtEvent.placed

def Quiet (p : Punch) : Prop := txtGet (ofBytes p.img.toList) = none

structure Ok (st : TxtOut) (l : List (ℕ × ℕ × UInt8)) : Prop where
  bytes : st.written ++ st.pending = l
  cur : ∀ t ∈ st.cur, t.Fits ∧ t.bytes.length ≤ 56
  quiet : ∀ p ∈ st.punches, Quiet p

theorem deckTxt_append (xs ys : List (List UInt8)) :
    deckTxt ((xs ++ ys).map ofBytes) = deckTxt (xs.map ofBytes) ++ deckTxt (ys.map ofBytes) := by
  simp [deckTxt, List.filterMap_append]

variable (deckId : List UInt8) {st : TxtOut} {l : List (ℕ × ℕ × UInt8)}

theorem Ok.flush (h : Ok st l) : Ok (st.flush deckId) l ∧ (st.flush deckId).cur = none ∧
    (st.flush deckId).done = st.done ∧ (st.flush deckId).punches = st.punches := by
  unfold TxtOut.flush
  cases hc : st.cur with
  | none => exact ⟨h, hc, rfl, rfl⟩
  | some t =>
    obtain ⟨hfits, hlen⟩ := h.cur t hc
    obtain ⟨x, hx, hxb⟩ := txtGet_card hfits hlen (cseq deckId (st.seq + 1))
    refine ⟨⟨?_, by simp, h.quiet⟩, rfl, rfl, rfl⟩
    have hb := h.bytes
    rw [pending, hc, Option.elim_some] at hb
    rw [← hb]
    simp only [written, pending, Option.elim_none, List.append_nil, deckTxt_append, List.flatMap_append]
    apply congrArg
    have hone : deckTxt ([card txtName (some t.addr) (some (t.bytes.length : ℤ)) (some (t.esdid : ℤ))
        t.bytes (cseq deckId (st.seq + 1))].map ofBytes) = [x] := by
      rw [List.map_singleton, deckTxt, List.filterMap_cons, hx]
      rfl
    rw [hone, List.flatMap_singleton, hxb]

theorem deckTxt_quiet {ps : List Punch} (h : ∀ p ∈ ps, Quiet p) :
    deckTxt ((ps.map fun p => p.img.toList).map ofBytes) = [] := by
  rw [deckTxt, List.map_map, List.filterMap_map, List.filterMap_eq_nil_iff]
  exact h

theorem Ok.punchDue (h : Ok st l) : Ok (st.punchDue deckId) l ∧
    ((st.punchDue deckId).cur = st.cur ∨ (st.punchDue deckId).cur = none) := by
  unfold TxtOut.punchDue
  dsimp only
  split_ifs with hdue
  · exact ⟨h, .inl rfl⟩
  · obtain ⟨hf, hcur, -, -⟩ := h.flush deckId
    refine ⟨⟨?_, hf.cur, fun p hp => h.quiet p (List.mem_filter.mp hp).1⟩, .inr hcur⟩
    have hq : ∀ p ∈ st.punches.filter st.isDue, Quiet p :=
      fun p hp => h.quiet p (List.mem_filter.mp hp).1
    have hb := hf.bytes
    simp only [written, pending, deckTxt_append, deckTxt_quiet hq, List.append_nil] at hb ⊢
    exact hb

theorem take_spec (st : TxtOut) (cn left : ℕ) : st.take cn left ≤ min (56 - cn) left ∧
    (0 < min (56 - cn) left → 0 < st.take cn left) := by
  have hfold (ps : List Punch) (init : ℕ) :
      (ps.foldl (fun take p => if !p.beforeEsd ∧ st.done < p.atBytes ∧ p.atBytes - st.done < take
        then p.atBytes - st.done else take) init) ≤ init ∧
      (0 < init → 0 < ps.foldl (fun take p => if !p.beforeEsd ∧ st.done < p.atBytes ∧
        p.atBytes - st.done < take then p.atBytes - st.done else take) init) := by
    induction ps generalizing init with
    | nil => exact ⟨le_rfl, id⟩
    | cons p ps ih =>
      rw [List.foldl_cons]
      split_ifs with hp
      · obtain ⟨h1, h2⟩ := ih (p.atBytes - st.done)
        exact ⟨by omega, fun _ => h2 (by omega)⟩
      · exact ih init
  exact hfold st.punches _

/-- The card that an event goes on with: empty, or the open one it continues. -/
def Continues (st : TxtOut) (addr : ℤ) (esdid : ℕ) : Prop :=
  ∀ t ∈ st.cur, t.addr + t.bytes.length = addr ∧ t.bytes.length < 56 ∧ t.esdid = esdid

theorem Ok.continue (h : Ok st l) (addr : ℤ) (esdid : ℕ) :
    Ok (if st.cur.any fun t => t.addr + t.bytes.length ≠ addr ∨ t.bytes.length = 56 ∨ t.esdid ≠ esdid
      then st.flush deckId else st) l ∧
    Continues (if st.cur.any fun t => t.addr + t.bytes.length ≠ addr ∨ t.bytes.length = 56 ∨
      t.esdid ≠ esdid then st.flush deckId else st) addr esdid := by
  split_ifs with hany
  · obtain ⟨hf, hcur, -, -⟩ := h.flush deckId
    refine ⟨hf, ?_⟩
    intro t ht
    rw [hcur] at ht
    simp at ht
  · refine ⟨h, ?_⟩
    intro t ht
    have hlen := (h.cur t ht).2
    rw [Option.mem_def.mp ht] at hany
    simp only [Option.any_some, decide_eq_true_eq, not_or, not_not] at hany
    exact ⟨hany.1, by omega, hany.2.2⟩

theorem Ok.extend (h : Ok st l) {addr : ℤ} {esdid : ℕ} (hcont : Continues st addr esdid)
    {bs : List UInt8} (hfits : TxtEvent.Fits ⟨addr, bs, esdid⟩)
    (hlen : (st.cur.getD ⟨addr, [], esdid⟩).bytes.length + bs.length ≤ 56) (done : ℕ) :
    Ok { st with
      cur := some { st.cur.getD ⟨addr, [], esdid⟩ with
        bytes := (st.cur.getD ⟨addr, [], esdid⟩).bytes ++ bs }
      done := done } (l ++ TxtEvent.placed ⟨addr, bs, esdid⟩) := by
  have hb := h.bytes
  cases hc : st.cur with
  | none =>
    rw [hc, Option.getD_none] at hlen
    rw [pending, hc, Option.elim_none, List.append_nil] at hb
    refine ⟨?_, ?_, h.quiet⟩
    · rw [← hb]
      rfl
    · intro t ht
      simp only [Option.mem_def, Option.some.injEq] at ht
      rw [← ht]
      exact ⟨hfits, by simpa using hlen⟩
  | some t =>
    obtain ⟨haddr, -, hid⟩ := hcont t hc
    obtain ⟨htf, -⟩ := h.cur t hc
    rw [hc, Option.getD_some] at hlen
    rw [pending, hc, Option.elim_some] at hb
    have happ : TxtEvent.placed ⟨t.addr, t.bytes ++ bs, t.esdid⟩ =
        t.placed ++ TxtEvent.placed ⟨addr, bs, esdid⟩ := by
      rw [TxtEvent.placed_append, haddr, ← hid]
    refine ⟨?_, ?_, h.quiet⟩
    · rw [← hb, List.append_assoc, ← happ]
      rfl
    · intro t' ht'
      simp only [Option.mem_def, Option.some.injEq, Option.getD_some] at ht'
      rw [← ht']
      refine ⟨⟨htf.nonneg, ?_, htf.esdid⟩, ?_⟩
      · have := hfits.within
        simp only [List.length_append] at this ⊢
        push_cast
        omega
      · simpa using hlen

theorem Ok.event (fuel : ℕ) : ∀ {st : TxtOut} {l : List (ℕ × ℕ × UInt8)} {addr : ℤ}
    {bytes : List UInt8} {esdid : ℕ}, Ok st l → TxtEvent.Fits ⟨addr, bytes, esdid⟩ →
    bytes.length < fuel → Ok (TxtOut.event deckId fuel addr bytes esdid st)
      (l ++ TxtEvent.placed ⟨addr, bytes, esdid⟩) := by
  induction fuel with
  | zero => intro st l addr bytes esdid _ _ h; omega
  | succ fuel ih =>
    intro st l addr bytes esdid h hfits hfuel
    obtain ⟨h1, -⟩ := h.punchDue deckId
    obtain ⟨h2, hcont⟩ := h1.continue deckId addr esdid
    rw [TxtOut.event]
    set st2 := if (st.punchDue deckId).cur.any fun t => t.addr + t.bytes.length ≠ addr ∨
      t.bytes.length = 56 ∨ t.esdid ≠ esdid then (st.punchDue deckId).flush deckId
      else st.punchDue deckId with hst2
    set t := st2.cur.getD ⟨addr, [], esdid⟩ with ht
    set n := st2.take t.bytes.length bytes.length with hn
    obtain ⟨hn1, hn2⟩ := st2.take_spec t.bytes.length bytes.length
    rw [← hn] at hn1 hn2
    have hcn : t.bytes.length < 56 := by
      rw [ht]
      cases hc : st2.cur with
      | none => simp
      | some t' => exact (hcont t' hc).2.1
    have hw := hfits.within
    have h0 := hfits.nonneg
    have htake : (bytes.take n).length = n := by
      rw [List.length_take]
      omega
    have hfits1 : TxtEvent.Fits ⟨addr, bytes.take n, esdid⟩ := by
      refine ⟨h0, ?_, hfits.esdid⟩
      dsimp only at hw ⊢
      omega
    have hroom : t.bytes.length + (bytes.take n).length ≤ 56 := by omega
    have h3 := h2.extend hcont hfits1 hroom (st2.done + n)
    have hsplit : TxtEvent.placed ⟨addr, bytes, esdid⟩ = TxtEvent.placed ⟨addr, bytes.take n, esdid⟩ ++
        TxtEvent.placed ⟨addr + n, bytes.drop n, esdid⟩ := by
      have := TxtEvent.placed_append addr (bytes.take n) (bytes.drop n) esdid
      rw [List.take_append_drop, htake] at this
      exact this
    split_ifs with hmore
    · rw [hsplit, ← List.append_assoc]
      have hfits2 : TxtEvent.Fits ⟨addr + n, bytes.drop n, esdid⟩ := by
        refine ⟨by dsimp only at h0 ⊢; omega, ?_, hfits.esdid⟩
        dsimp only at hw ⊢
        rw [List.length_drop]
        omega
      apply ih h3 hfits2
      rw [List.length_drop]
      omega
    · have hall : bytes.take n = bytes := List.take_of_length_le (by omega)
      rw [hall] at h3 ⊢
      exact h3

theorem Ok.log {log : List TxtEvent} (hlog : ∀ ev ∈ log, ev.Fits) (h : Ok st l) :
    Ok (log.foldl (fun st ev => TxtOut.event deckId (ev.bytes.length + 1) ev.addr ev.bytes ev.esdid st) st)
      (l ++ log.flatMap TxtEvent.placed) := by
  induction log generalizing st l with
  | nil => simpa using h
  | cons ev log ih =>
    rw [List.foldl_cons, List.flatMap_cons, ← List.append_assoc]
    apply ih fun ev' hev' => hlog ev' (List.mem_cons_of_mem _ hev')
    exact h.event deckId _ (hlog ev (by simp)) (Nat.lt_succ_self _)

end TxtOut

theorem Assembly.txtCards_bytes (A : Assembly) (hlog : ∀ ev ∈ A.log, ev.Fits)
    (hquiet : ∀ p ∈ A.punches, TxtOut.Quiet p) (seq : ℕ) :
    (deckTxt ((A.txtCards seq).out.map ofBytes)).flatMap Txt.bytes = A.log.flatMap TxtEvent.placed := by
  have hinit : TxtOut.Ok ⟨[], none, 0, A.punches, seq⟩ [] := ⟨rfl, by simp, hquiet⟩
  obtain ⟨hpunch, -⟩ := (hinit.log A.deckId hlog).punchDue A.deckId
  obtain ⟨hflush, hcur, -, -⟩ := hpunch.flush A.deckId
  have hbytes := hflush.bytes
  rw [TxtOut.pending, hcur, Option.elim_none, List.append_nil, List.nil_append] at hbytes
  exact hbytes

section EmissionLog

namespace Put

/-- The bytes of a `put`, at their addresses, unless its section has no text. -/
def placed (p : Put) : List (ℕ × ℕ × UInt8) :=
  if p.noObject then [] else TxtEvent.placed ⟨p.loc, p.bytes, p.esdid⟩

theorem bytes_length (p : Put) : p.bytes.length = p.n := by
  simp [bytes]

end Put

theorem put_spec {log log' : List TxtEvent} {p : Put} (h : put log p = some log')
    (hp : p.esdid < 65536) (hlog : ∀ ev ∈ log, ev.Fits) :
    log'.flatMap TxtEvent.placed = log.flatMap TxtEvent.placed ++ p.placed ∧ ∀ ev ∈ log', ev.Fits := by
  unfold put at h
  by_cases hno : p.noObject = true
  · rw [if_pos hno] at h
    obtain rfl := Option.some.inj h
    exact ⟨by simp [Put.placed, hno], hlog⟩
  · rw [if_neg hno] at h
    by_cases hrange : p.loc < 0 ∨ sectArchMax < p.loc + p.n
    · rw [if_pos hrange] at h
      simp at h
    · rw [if_neg hrange] at h
      have hplaced : p.placed = TxtEvent.placed ⟨p.loc, p.bytes, p.esdid⟩ := if_neg hno
      have hfits : TxtEvent.Fits ⟨p.loc, p.bytes, p.esdid⟩ := by
        refine ⟨by dsimp only; omega, ?_, hp⟩
        dsimp only
        rw [p.bytes_length]
        omega
      have hnew : (log ++ [(⟨p.loc, p.bytes, p.esdid⟩ : TxtEvent)]).flatMap TxtEvent.placed =
          log.flatMap TxtEvent.placed ++ p.placed ∧
            ∀ ev ∈ log ++ [⟨p.loc, p.bytes, p.esdid⟩], ev.Fits := by
        refine ⟨by rw [List.flatMap_append, List.flatMap_singleton, hplaced], ?_⟩
        intro ev hev
        rcases List.mem_append.mp hev with hev | hev
        · exact hlog ev hev
        · rw [List.mem_singleton.mp hev]
          exact hfits
      cases hlast : log.getLast? with
      | none =>
        rw [hlast] at h
        obtain rfl := List.getLast?_eq_none_iff.mp hlast
        obtain rfl := Option.some.inj h
        exact hnew
      | some t =>
        rw [hlast] at h
        obtain ⟨pre, rfl⟩ := List.getLast?_eq_some_iff.mp hlast
        dsimp only at h
        by_cases hext : p.loc = t.addr + t.bytes.length ∧ p.esdid = t.esdid
        · rw [if_pos hext, List.dropLast_concat] at h
          obtain rfl := Option.some.inj h
          have ht := hlog t (by simp)
          have happ := TxtEvent.placed_append t.addr t.bytes p.bytes t.esdid
          rw [← hext.1, ← hext.2] at happ
          constructor
          · rw [List.flatMap_append, List.flatMap_append, List.flatMap_singleton,
              List.flatMap_singleton, hplaced, List.append_assoc, ← hext.2, happ, hext.2]
          · intro ev hev
            rcases List.mem_append.mp hev with hev | hev
            · exact hlog ev (List.mem_append_left _ hev)
            · rw [List.mem_singleton.mp hev]
              refine ⟨ht.nonneg, ?_, ht.esdid⟩
              have hw := hfits.within
              dsimp only at hw ⊢
              rw [List.length_append]
              push_cast
              omega
        · rw [if_neg hext] at h
          split_ifs at h
          obtain rfl := Option.some.inj h
          exact hnew

/-- The log holds the bytes of the `put`s in their order. -/
theorem emissionLog_spec {ps : List Put} (hps : ∀ p ∈ ps, p.esdid < 65536) {log : List TxtEvent}
    (h : emissionLog ps = some log) :
    log.flatMap TxtEvent.placed = ps.flatMap Put.placed ∧ ∀ ev ∈ log, ev.Fits := by
  have hrun (ps : List Put) (hps : ∀ p ∈ ps, p.esdid < 65536) (log₀ : List TxtEvent)
      (hlog₀ : ∀ ev ∈ log₀, ev.Fits) {log : List TxtEvent} (h : ps.foldlM put log₀ = some log) :
      log.flatMap TxtEvent.placed = log₀.flatMap TxtEvent.placed ++ ps.flatMap Put.placed ∧
        ∀ ev ∈ log, ev.Fits := by
    induction ps generalizing log₀ with
    | nil =>
      obtain rfl := Option.some.inj h
      exact ⟨by simp, hlog₀⟩
    | cons p ps ih =>
      rw [List.foldlM_cons] at h
      obtain ⟨log₁, h1, h2⟩ := Option.bind_eq_some_iff.mp h
      obtain ⟨hb, hf⟩ := put_spec h1 (hps p (by simp)) hlog₀
      obtain ⟨hb', hf'⟩ := ih (fun q hq => hps q (List.mem_cons_of_mem _ hq)) log₁ hf h2
      exact ⟨by rw [hb', hb, List.flatMap_cons, List.append_assoc], hf'⟩
  have := hrun ps hps [] (by simp) h
  simpa using this

end EmissionLog

end Cc370.As370
