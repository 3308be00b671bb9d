import Cc370.As370.EsdCards
import Cc370.As370.TxtCards
import Cc370.As370.RldCards

namespace Cc370.As370

open Obj370

/-- A card the reader of ESD, TXT and RLD records passes over. -/
def Passed (c : Buffer) : Prop := cardType c ≠ .esd ∧ cardType c ≠ .txt ∧ cardType c ≠ .rld

instance (c : Buffer) : Decidable (Passed c) := inferInstanceAs (Decidable (_ ∧ _ ∧ _))

namespace Assembly

variable (A : Assembly)

/-- Addresses and lengths fit in three bytes and ESDIDs in two, and no punched card is itself
an object record. -/
structure Fits : Prop where
  entries : ∀ e ∈ A.esd, A.noLd e = false → A.EntryFits e
  count : idCount A.esd < 65536
  rels : ∀ r ∈ A.rels, r.Fits
  punched : ∀ p ∈ A.punches, Passed (ofBytes p.img.toList)

/-- The deck gives back the ESD, the text as the `put`s left it and the relocations. -/
structure Recovered (ps : List Put) (deck : List Buffer) : Prop where
  esd : deckEsd deck = A.esdImage
  text : deckImage deck = image (ps.flatMap Put.placed)
  rels : ((deckRld deck).map Reloc.ofRld).Perm A.rels

theorem esd_esdid_lt (h : idCount A.esd < 65536) : ∀ e ∈ A.esd, e.esdid < 65536 := by
  have hld (es : List (ℕ × EsdRole)) (id : ℕ) : ∀ e ∈ numberEsd es id, e.role = .ld → e.esdid = 0 := by
    induction es generalizing id with
    | nil => simp [numberEsd]
    | cons x es ih =>
      intro e he hr
      rw [numberEsd] at he
      split_ifs at he with hx
      · rcases List.mem_cons.mp he with rfl | he
        · rfl
        · exact ih id e he hr
      · rcases List.mem_cons.mp he with rfl | he
        · exact absurd hr hx
        · exact ih (id + 1) e he hr
  intro e he
  by_cases hr : e.role = .ld
  · rw [hld A.esdord 0 e he hr]
    norm_num
  · have := (Numbered.esdid_bounds (numberEsd_numbered A.esdord 0) e he hr).2
    rw [← Assembly.esd] at this
    omega

end Assembly

theorem passed_of_cardType {c : Buffer} (h : cardType c = .end) : Passed c := by
  rw [Passed, h]
  decide

section Decks

variable {deck : List Buffer}

theorem deckEsd_passed (h : ∀ c ∈ deck, cardType c ≠ .esd) : deckEsd deck = [] := by
  rw [deckEsd, List.flatMap_eq_nil_iff]
  intro c hc
  exact if_neg (h c hc)

theorem deckTxt_passed (h : ∀ c ∈ deck, cardType c ≠ .txt) : deckTxt deck = [] := by
  rw [deckTxt, List.filterMap_eq_nil_iff]
  intro c hc
  exact if_neg (h c hc)

theorem deckRld_passed (h : ∀ c ∈ deck, cardType c ≠ .rld) : deckRld deck = [] := by
  rw [deckRld, List.flatMap_eq_nil_iff]
  intro c hc
  exact if_neg (h c hc)

end Decks

namespace Assembly

variable (A : Assembly)

theorem esdCards_cardType (fuel : ℕ) : ∀ (es : List EsdEnt) (seq : ℕ),
    ∀ c ∈ (A.esdCards fuel es seq).map ofBytes, cardType c = .esd := by
  induction fuel with
  | zero => simp [esdCards]
  | succ fuel ih =>
    intro es seq
    cases es with
    | nil => simp [esdCards]
    | cons e es =>
      intro c hc
      rw [esdCards] at hc
      · rcases List.mem_cons.mp hc with rfl | hc
        · exact esd_cardType ..
        · exact ih _ _ c hc
      · simp

theorem rldCards_cardType (deckId : List UInt8) (fuel : ℕ) : ∀ (rs : List Reloc) (seq : ℕ),
    ∀ c ∈ (rldCards deckId fuel rs seq).map ofBytes, cardType c = .rld := by
  induction fuel with
  | zero => simp [rldCards]
  | succ fuel ih =>
    intro rs seq
    cases rs with
    | nil => simp [rldCards]
    | cons r rs =>
      intro c hc
      rw [rldCards] at hc
      · rcases List.mem_cons.mp hc with rfl | hc
        · exact rld_cardType ..
        · exact ih _ _ c hc
      · simp

end Assembly

namespace TxtOut

/-- The cards between the ESD and the RLD block: TXT cards and punched ones. -/
structure Written (st : TxtOut) : Prop where
  out : ∀ c ∈ st.out.map ofBytes, cardType c = .txt ∨ Passed c
  punches : ∀ p ∈ st.punches, Passed (ofBytes p.img.toList)

variable (deckId : List UInt8) {st : TxtOut}

theorem Written.flush (h : Written st) : Written (st.flush deckId) := by
  unfold TxtOut.flush
  cases st.cur with
  | none => exact h
  | some t =>
    refine ⟨?_, h.punches⟩
    intro c hc
    rw [List.map_append] at hc
    rcases List.mem_append.mp hc with hc | hc
    · exact h.out c hc
    · rw [List.map_singleton, List.mem_singleton] at hc
      rw [hc]
      exact .inl (txt_cardType ..)

theorem Written.punchDue (h : Written st) : Written (st.punchDue deckId) := by
  unfold TxtOut.punchDue
  dsimp only
  split_ifs with hdue
  · exact h
  · refine ⟨?_, fun p hp => h.punches p (List.mem_filter.mp hp).1⟩
    intro c hc
    rw [List.map_append] at hc
    rcases List.mem_append.mp hc with hc | hc
    · exact (h.flush deckId).out c hc
    · rw [List.map_map] at hc
      obtain ⟨p, hp, rfl⟩ := List.mem_map.mp hc
      exact .inr (h.punches p (List.mem_filter.mp hp).1)

theorem Written.event (fuel : ℕ) : ∀ {st : TxtOut} (addr : ℤ) (bytes : List UInt8) (esdid : ℕ),
    Written st → Written (TxtOut.event deckId fuel addr bytes esdid st) := by
  induction fuel with
  | zero => intro st addr bytes esdid h; exact h
  | succ fuel ih =>
    intro st addr bytes esdid h
    have h1 := h.punchDue deckId
    rw [TxtOut.event]
    set st2 := if (st.punchDue deckId).cur.any fun t => t.addr + t.bytes.length ≠ addr ∨
      t.bytes.length = 56 ∨ t.esdid ≠ esdid then (st.punchDue deckId).flush deckId
      else st.punchDue deckId with hst2
    have h2 : Written st2 := by
      rw [hst2]
      split_ifs
      · exact h1.flush deckId
      · exact h1
    split_ifs
    · exact ih _ _ _ ⟨h2.out, h2.punches⟩
    · exact ⟨h2.out, h2.punches⟩

theorem Written.log (log : List TxtEvent) (h : Written st) : Written
    (log.foldl (fun st ev => TxtOut.event deckId (ev.bytes.length + 1) ev.addr ev.bytes ev.esdid st) st) := by
  induction log generalizing st with
  | nil => exact h
  | cons ev log ih => exact ih (h.event deckId _ _ _ _)

end TxtOut

namespace Assembly

variable (A : Assembly)

theorem txtCards_written (h : ∀ p ∈ A.punches, Passed (ofBytes p.img.toList)) (seq : ℕ) :
    (A.txtCards seq).Written := by
  have hinit : TxtOut.Written ⟨[], none, 0, A.punches, seq⟩ := ⟨by simp, h⟩
  exact ((hinit.log A.deckId A.log).punchDue A.deckId).flush A.deckId

/-- The deck in its five parts. -/
theorem emitObj_parts : ∃ seq last, A.emitObj.map ofBytes =
    ((A.punches.filter Punch.beforeEsd).map fun p => ofBytes p.img.toList) ++
    (A.esdCards (A.esd.length + 1) A.esd 0).map ofBytes ++
    (A.txtCards seq).out.map ofBytes ++
    (rldCards A.deckId (A.rels.length + 1) (Reloc.sort A.rels) (A.txtCards seq).seq).map ofBytes ++
    [ofBytes (A.endCard last)] := by
  let seq := (A.esdCards (A.esd.length + 1) A.esd 0).length
  let rlds := rldCards A.deckId (A.rels.length + 1) (Reloc.sort A.rels) (A.txtCards seq).seq
  refine ⟨seq, (A.txtCards seq).seq + rlds.length, ?_⟩
  simp only [emitObj, List.map_append, List.map_map, List.map_singleton]
  rfl

end Assembly

/-- The object reader recovers the ESD, the text and the relocations from the deck. -/
theorem object_deck_recovered (A : Assembly) (ps : List Put) (hlog : emissionLog ps = some A.log)
    (hps : ∀ p ∈ ps, p.esdid ≤ idCount A.esd) (hfits : A.Fits) :
    A.Recovered ps (A.emitObj.map ofBytes) := by
  have hcount := hfits.count
  have hn := A.esd_esdid_lt hcount
  obtain ⟨hbytes, hevents⟩ := emissionLog_spec (fun p hp => (hps p hp).trans_lt hcount) hlog
  obtain ⟨seq, last, hdeck⟩ := A.emitObj_parts
  have hpunched : ∀ c ∈ (A.punches.filter Punch.beforeEsd).map fun p => ofBytes p.img.toList, Passed c := by
    intro c hc
    obtain ⟨p, hp, rfl⟩ := List.mem_map.mp hc
    exact hfits.punched p (List.mem_filter.mp hp).1
  have hesd := A.esdCards_cardType (A.esd.length + 1) A.esd 0
  have htxt := (A.txtCards_written hfits.punched seq).out
  have hrld := Assembly.rldCards_cardType A.deckId (A.rels.length + 1) (Reloc.sort A.rels)
    (A.txtCards seq).seq
  have hend : ∀ c ∈ [ofBytes (A.endCard last)], Passed c := by
    intro c hc
    rw [List.mem_singleton.mp hc]
    exact passed_of_cardType (end_cardType ..)
  rw [hdeck]
  constructor
  · have h1 : deckEsd ((A.punches.filter Punch.beforeEsd).map fun p => ofBytes p.img.toList) = [] :=
      deckEsd_passed fun c hc => (hpunched c hc).1
    have h2 : deckEsd ((A.esdCards (A.esd.length + 1) A.esd 0).map ofBytes) = A.esdImage :=
      A.deckEsd_esdCards hn (numberEsd_numbered A.esdord 0) (by norm_num) hn hfits.entries
        (A.esd.length + 1) (Nat.lt_succ_self _) 0
    have h3 : deckEsd ((A.txtCards seq).out.map ofBytes) = [] := by
      apply deckEsd_passed
      intro c hc
      rcases htxt c hc with h | h
      · rw [h]
        decide
      · exact h.1
    have h4 : deckEsd ((rldCards A.deckId (A.rels.length + 1) (Reloc.sort A.rels)
        (A.txtCards seq).seq).map ofBytes) = [] := by
      apply deckEsd_passed
      intro c hc
      rw [hrld c hc]
      decide
    have h5 : deckEsd [ofBytes (A.endCard last)] = [] := deckEsd_passed fun c hc => (hend c hc).1
    simp only [deckEsd, List.flatMap_append] at h1 h2 h3 h4 h5 ⊢
    rw [h1, h3, h4, h5]
    simpa using h2
  · have h1 : deckTxt ((A.punches.filter Punch.beforeEsd).map fun p => ofBytes p.img.toList) = [] :=
      deckTxt_passed fun c hc => (hpunched c hc).2.1
    have h2 : deckTxt ((A.esdCards (A.esd.length + 1) A.esd 0).map ofBytes) = [] := by
      apply deckTxt_passed
      intro c hc
      rw [hesd c hc]
      decide
    have hquiet : ∀ p ∈ A.punches, TxtOut.Quiet p := fun p hp => if_neg (hfits.punched p hp).2.1
    have h3 := A.txtCards_bytes hevents hquiet seq
    have h4 : deckTxt ((rldCards A.deckId (A.rels.length + 1) (Reloc.sort A.rels)
        (A.txtCards seq).seq).map ofBytes) = [] := by
      apply deckTxt_passed
      intro c hc
      rw [hrld c hc]
      decide
    have h5 : deckTxt [ofBytes (A.endCard last)] = [] := deckTxt_passed fun c hc => (hend c hc).2.1
    rw [← hbytes, ← h3, deckImage]
    simp only [deckTxt, List.filterMap_append] at h1 h2 h4 h5 ⊢
    rw [h1, h2, h4, h5]
    simp
  · have h1 : deckRld ((A.punches.filter Punch.beforeEsd).map fun p => ofBytes p.img.toList) = [] :=
      deckRld_passed fun c hc => (hpunched c hc).2.2
    have h2 : deckRld ((A.esdCards (A.esd.length + 1) A.esd 0).map ofBytes) = [] := by
      apply deckRld_passed
      intro c hc
      rw [hesd c hc]
      decide
    have h3 : deckRld ((A.txtCards seq).out.map ofBytes) = [] := by
      apply deckRld_passed
      intro c hc
      rcases htxt c hc with h | h
      · rw [h]
        decide
      · exact h.2.2
    have hperm := sort_perm A.rels
    have h4 := deckRld_rldCards A.deckId (A.rels.length + 1) (Reloc.sort A.rels) (A.txtCards seq).seq
      (fun r hr => hfits.rels r (hperm.mem_iff.mp hr)) (by rw [hperm.length_eq]; exact Nat.lt_succ_self _)
    have h5 : deckRld [ofBytes (A.endCard last)] = [] := deckRld_passed fun c hc => (hend c hc).2.2
    simp only [deckRld, List.flatMap_append] at h1 h2 h3 h4 h5 ⊢
    rw [h1, h2, h3, h5]
    simp only [List.nil_append, List.append_nil]
    rw [h4]
    exact hperm

/-- `A CSECT`, two bytes of text with the second written twice and a card punched between, an
ENTRY, an EXTRN and an address constant of each sign against it. -/
def smallModule : Assembly where
  sym s := ⟨[0x41 + .ofNat s], s, if s = 2 then .er else if s = 1 then .rel else .sd, s ≠ 2,
    if s = 2 then 0 else 1, false, 0, 0⟩
  esdord := [(0, .sect), (1, .ld), (2, .er)]
  sectHwm _ := 8
  log := [⟨0, [1, 2], 1⟩, ⟨1, [3], 1⟩]
  punches := [⟨Vector.replicate 80 0x40, false, 1⟩]
  rels := [⟨4, 1, 2, 0, 4, true⟩, ⟨0, 1, 2, 0, 4, false⟩]
  deckId := []
  endEntry := none
  idr := Vector.replicate 20 0x40

def smallModulePuts : List Put := [⟨0, 1, 1, 1, false⟩, ⟨1, 2, 1, 1, false⟩, ⟨1, 3, 1, 1, false⟩]

theorem small_module_recovered :
    smallModule.Recovered smallModulePuts (smallModule.emitObj.map ofBytes) := by
  apply object_deck_recovered
  · decide +kernel
  · decide +kernel
  · refine ⟨by decide +kernel, by decide +kernel, ?_, by decide +kernel⟩
    intro r hr
    rcases List.mem_pair.mp hr with rfl | rfl
    · exact ⟨by decide, by decide, by decide, by decide, by decide⟩
    · exact ⟨by decide, by decide, by decide, by decide, by decide⟩

/-- A module of one byte, X'01', with a card punched behind it that is a TXT record for that byte. -/
def punchedText : Assembly where
  sym _ := ⟨[0x41], 0, .sd, true, 1, false, 0, 0⟩
  esdord := [(0, .sect)]
  sectHwm _ := 1
  log := [⟨0, [1], 1⟩]
  punches := [⟨Vector.ofFn fun i => (card txtName (some 0) (some 1) (some 1) [2] (blanks 8)).getD i 0x40,
    false, 1⟩]
  rels := []
  deckId := []
  endEntry := none
  idr := Vector.replicate 20 0x40

theorem punched_text_not_recovered : emissionLog [⟨0, 1, 1, 1, false⟩] = some punchedText.log ∧
    ¬ punchedText.Recovered [⟨0, 1, 1, 1, false⟩] (punchedText.emitObj.map ofBytes) := by
  refine ⟨by decide +kernel, ?_⟩
  intro h
  have hdeck : deckImage (punchedText.emitObj.map ofBytes) 0 = some (1, 2) := by decide +kernel
  have hputs : image ([(⟨0, 1, 1, 1, false⟩ : Put)].flatMap Put.placed) 0 = some (1, 1) := by decide +kernel
  rw [h.text, hputs] at hdeck
  exact absurd hdeck (by decide)

end Cc370.As370
