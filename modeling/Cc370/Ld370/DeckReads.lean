import Cc370.Lib.Reads
import Cc370.Ld370.Object

namespace Cc370.Ld370

open Reads

section Card

variable (c : Buffer)

def esdItems : ℕ := mvsBe16 c 10 / 16

def esdTypeAt (k : ℕ) : EsdType := .ofNibble ((c (16 + k * 16 + 8)).toNat % 16)

/-- How many of the items before this one have an ESDID. -/
def esdNumbered (k : ℕ) : ℕ := ((List.range k).filter fun j => esdTypeAt c j ≠ .ld).length

/-- The item would have an ESDID that the object has no room for: of it the type is read only. -/
def esdSkipped (k : ℕ) : Bool :=
  esdTypeAt c k ≠ .ld ∧ (mvsBe16 c 14 + esdNumbered c k < 1 ∨ maxesd ≤ mvsBe16 c 14 + esdNumbered c k)

def esdItemReads (k : ℕ) : List Span :=
  let e := 16 + k * 16
  ⟨e + 8, 1⟩ :: if esdSkipped c k then [] else [⟨e, 8⟩, ⟨e + 9, 3⟩, ⟨e + 13, 3⟩]

def esdReads : List Span := (List.range (esdItems c)).flatMap (esdItemReads c)

def txtReads : List Span := if mvsBe16 c 10 = 0 then [] else [⟨16, mvsBe16 c 10⟩]

/-- The bytes that the loop over an RLD card reads. -/
def rldItemReads (fin : ℕ) : ℕ → ℕ → Bool → List Span
  | 0, _, _ => []
  | fuel + 1, p, same =>
    if p + 4 ≤ fin ∧ p + 4 ≤ 80 then
      let q := if same then p else p + 4
      (if same then [] else [⟨p, 2⟩, ⟨p + 2, 2⟩]) ++
        if fin < q + 4 then [] else ⟨q, 1⟩ :: ⟨q + 1, 3⟩ :: rldItemReads fin fuel (q + 4) ((c q).toNat % 2 = 1)
    else []

def rldReads : List Span := rldItemReads c (16 + mvsBe16 c 10) 17 16 false

/-- Where the flag and the address of each item of an RLD card stand. -/
def rldPlaces (fin : ℕ) : ℕ → ℕ → Bool → List ℕ
  | 0, _, _ => []
  | fuel + 1, p, same =>
    if p + 4 ≤ fin ∧ p + 4 ≤ 80 then
      let q := if same then p else p + 4
      if fin < q + 4 then [] else q :: rldPlaces fin fuel (q + 4) ((c q).toNat % 2 = 1)
    else []

/-- The bytes that `parse_object` reads of a card. -/
def cardReads : List Span :=
  ⟨0, 16⟩ ::
    if c 0 ≠ 0x02 then []
    else if cardIs c 0xC5 0xE2 0xC4 then esdReads c
    else if cardIs c 0xE3 0xE7 0xE3 then txtReads c
    else if cardIs c 0xD9 0xD3 0xC4 then rldReads c
    else []

/-- An RLD card whose last item lies behind the card. -/
def rldOverhang : Bool := 80 ∈ rldPlaces c (16 + mvsBe16 c 10) 17 16 false

/-- The items and the text that a card says it has are there. -/
structure CardFits (room : ℕ) : Prop where
  esd : c 0 = 0x02 → cardIs c 0xC5 0xE2 0xC4 = true → esdItems c = 0 ∨
    16 * esdItems c + (if esdSkipped c (esdItems c - 1) then 9 else 16) ≤ room
  txt : c 0 = 0x02 → cardIs c 0xE3 0xE7 0xE3 = true → 16 + mvsBe16 c 10 ≤ room
  rld : c 0 = 0x02 → cardIs c 0xD9 0xD3 0xC4 = true → rldOverhang c = true → 84 ≤ room

end Card

/-- The bytes that `parse_object` reads. -/
def deckReads (d : Deck) : List Span :=
  (List.range (d.len / 80)).flatMap fun k => (cardReads (d.card k)).map (Span.shift (80 * k))

def DeckFits (d : Deck) : Prop := ∀ k < d.len / 80, CardFits (d.card k) (d.len - 80 * k)

section Within

variable {c : Buffer} {room : ℕ}

theorem esdItemReads_within (k : ℕ) : Within room (esdItemReads c k) ↔ 16 + k * 16 + (if esdSkipped c k then 9 else 16) ≤ room := by
  rw [esdItemReads]
  split_ifs with h
  · simp only [within_cons, within_nil, and_true]
    omega
  · simp only [within_cons, within_nil, and_true]
    omega

theorem esdReads_within : Within room (esdReads c) ↔ esdItems c = 0 ∨ 16 * esdItems c + (if esdSkipped c (esdItems c - 1) then 9 else 16) ≤ room := by
  rw [esdReads, within_flatMap]
  simp only [List.mem_range, esdItemReads_within]
  constructor
  · intro h
    by_cases h0 : esdItems c = 0
    · exact .inl h0
    · have := h (esdItems c - 1) (by omega)
      refine .inr (le_trans (le_of_eq ?_) this)
      omega
  · rintro (h0 | h) k hk
    · omega
    · by_cases hlast : k = esdItems c - 1
      · subst hlast
        refine le_trans (le_of_eq ?_) h
        omega
      · split_ifs at h ⊢ <;> omega

theorem rldItemReads_within (fin fuel p : ℕ) (same : Bool) (hroom : 80 ≤ room) (hp : p % 4 = 0) :
    Within room (rldItemReads c fin fuel p same) ↔ (80 ∈ rldPlaces c fin fuel p same → 84 ≤ room) := by
  induction fuel generalizing p same with
  | zero => simp [rldItemReads, rldPlaces]
  | succ fuel ih =>
    rw [rldItemReads, rldPlaces]
    by_cases hgo : p + 4 ≤ fin ∧ p + 4 ≤ 80
    · rw [if_pos hgo, if_pos hgo]
      have hitem (q : ℕ) (hq : q ≤ 80 ∧ q % 4 = 0) (next : Bool) (hend : ¬ fin < q + 4) :
          Within room (⟨q, 1⟩ :: ⟨q + 1, 3⟩ :: rldItemReads c fin fuel (q + 4) next) ↔
            (80 ∈ q :: rldPlaces c fin fuel (q + 4) next → 84 ≤ room) := by
        rw [within_cons, within_cons, ih _ _ (by omega), List.mem_cons]
        dsimp only
        constructor
        · rintro ⟨h1, h2, h3⟩ (h | h)
          · omega
          · exact h3 h
        · intro h
          by_cases h80 : 80 = q
          · have := h (.inl h80)
            exact ⟨by omega, by omega, fun h' => h (.inr h')⟩
          · exact ⟨by omega, by omega, fun h' => h (.inr h')⟩
      cases same with
      | true =>
        dsimp only
        rw [if_pos rfl, if_pos rfl, List.nil_append]
        by_cases hend : fin < p + 4
        · rw [if_pos hend, if_pos hend]
          simp
        · rw [if_neg hend, if_neg hend]
          exact hitem p (by omega) _ hend
      | false =>
        dsimp only
        simp only [Bool.false_eq_true, if_false]
        rw [List.cons_append, List.cons_append, List.nil_append, within_cons, within_cons]
        have hpair : (2 = 0 ∨ p + 2 ≤ room) ∧ (2 = 0 ∨ p + 2 + 2 ≤ room) := by omega
        by_cases hend : fin < p + 4 + 4
        · rw [if_pos hend, if_pos hend]
          simpa using hpair
        · rw [if_neg hend, if_neg hend, ← hitem (p + 4) (by omega) _ hend]
          exact ⟨fun h => h.2.2, fun h => ⟨hpair.1, hpair.2, h⟩⟩
    · rw [if_neg hgo, if_neg hgo]
      simp

theorem cardReads_within (hroom : 80 ≤ room) : Within room (cardReads c) ↔ CardFits c room := by
  have hhead : Within room (cardReads c) ↔ Within room (if c 0 ≠ 0x02 then []
      else if cardIs c 0xC5 0xE2 0xC4 then esdReads c
      else if cardIs c 0xE3 0xE7 0xE3 then txtReads c
      else if cardIs c 0xD9 0xD3 0xC4 then rldReads c
      else []) := by
    rw [cardReads, within_cons]
    exact and_iff_right (.inr (le_trans (by decide) hroom))
  rw [hhead]
  by_cases h2 : c 0 = 0x02
  · rw [if_neg (not_not.mpr h2)]
    have hone {a b e a' b' e' : UInt8} (h : cardIs c a b e = true) (hne : (a, b, e) ≠ (a', b', e')) : cardIs c a' b' e' ≠ true := by
      simp only [cardIs, ne_eq, decide_eq_true_eq] at h ⊢
      rintro ⟨h1, h2, h3⟩
      exact hne (by rw [← h.1, ← h.2.1, ← h.2.2, h1, h2, h3])
    by_cases hesd : cardIs c 0xC5 0xE2 0xC4 = true
    · rw [if_pos hesd, esdReads_within]
      exact ⟨fun h => ⟨fun _ _ => h, fun _ htxt => absurd htxt (hone hesd (by decide)), fun _ hrld => absurd hrld (hone hesd (by decide))⟩,
        fun h => h.esd h2 hesd⟩
    · rw [if_neg hesd]
      by_cases htxt : cardIs c 0xE3 0xE7 0xE3 = true
      · rw [if_pos htxt, txtReads]
        have hiff : Within room (if mvsBe16 c 10 = 0 then [] else [⟨16, mvsBe16 c 10⟩]) ↔ 16 + mvsBe16 c 10 ≤ room := by
          split_ifs with h0
          · simp only [within_nil, true_iff]
            omega
          · simp only [within_cons, within_nil, and_true]
            omega
        rw [hiff]
        exact ⟨fun h => ⟨fun _ hesd' => absurd hesd' hesd, fun _ _ => h, fun _ hrld => absurd hrld (hone htxt (by decide))⟩,
          fun h => h.txt h2 htxt⟩
      · rw [if_neg htxt]
        by_cases hrld : cardIs c 0xD9 0xD3 0xC4 = true
        · rw [if_pos hrld, rldReads, rldItemReads_within _ _ _ _ hroom (by decide)]
          have hover : rldOverhang c = true ↔ 80 ∈ rldPlaces c (16 + mvsBe16 c 10) 17 16 false := decide_eq_true_iff
          rw [← hover]
          exact ⟨fun h => ⟨fun _ hesd' => absurd hesd' hesd, fun _ htxt' => absurd htxt' htxt, fun _ _ => h⟩, fun h => h.rld h2 hrld⟩
        · rw [if_neg hrld]
          exact iff_of_true within_nil ⟨fun _ hesd' => absurd hesd' hesd, fun _ htxt' => absurd htxt' htxt, fun _ hrld' => absurd hrld' hrld⟩
  · rw [if_pos h2]
    exact iff_of_true within_nil ⟨fun h => absurd h h2, fun h => absurd h h2, fun h => absurd h h2⟩

/-- The reader stays inside the deck just if each card's items and text lie in it. -/
theorem deckReads_within (d : Deck) : Within d.len (deckReads d) ↔ DeckFits d := by
  rw [deckReads, within_flatMap]
  simp only [List.mem_range, within_shift]
  apply forall₂_congr
  intro k hk
  exact cardReads_within (by omega)

end Within

section Same

variable {c c' : Buffer}

theorem mvsBe16_same {p : ℕ} (h : ∀ i < 2, c (p + i) = c' (p + i)) : mvsBe16 c p = mvsBe16 c' p := by
  have h0 : c p = c' p := h 0 (by decide)
  rw [mvsBe16, mvsBe16, h0, h 1 (by decide)]

theorem mvsBe24_same {p : ℕ} (h : ∀ i < 3, c (p + i) = c' (p + i)) : mvsBe24 c p = mvsBe24 c' p := by
  have h0 : c p = c' p := h 0 (by decide)
  rw [mvsBe24, mvsBe24, h0, h 1 (by decide), h 2 (by decide)]

theorem nameAt_same {p : ℕ} (h : ∀ i < 8, c (p + i) = c' (p + i)) : nameAt c p = nameAt c' p := by
  rw [nameAt, nameAt]
  congr 1
  funext i
  exact h i i.isLt

/-- What is done with an item is settled by the bytes that are read of it. -/
theorem parseEsdItem_same (o : Obj) (k : ℕ) (h : SameOn c c' (esdItemReads c k)) :
    parseEsdItem c (mvsBe16 c 14) (o, esdNumbered c k) k = parseEsdItem c' (mvsBe16 c 14) (o, esdNumbered c k) k := by
  rw [esdItemReads, sameOn_cons] at h
  obtain ⟨htype, hrest⟩ := h
  have htype : c (16 + k * 16 + 8) = c' (16 + k * 16 + 8) := htype 0 Nat.one_pos
  rw [parseEsdItem, parseEsdItem]
  dsimp only
  rw [← htype]
  have hitem (hskip : esdSkipped c k = false) : nameAt c (16 + k * 16) = nameAt c' (16 + k * 16) ∧
      mvsBe24 c (16 + k * 16 + 9) = mvsBe24 c' (16 + k * 16 + 9) ∧ mvsBe24 c (16 + k * 16 + 13) = mvsBe24 c' (16 + k * 16 + 13) := by
    rw [hskip, if_neg nofun, sameOn_cons, sameOn_cons, sameOn_cons] at hrest
    obtain ⟨hname, haddr, hlen, -⟩ := hrest
    exact ⟨nameAt_same hname, mvsBe24_same haddr, mvsBe24_same hlen⟩
  by_cases hld : EsdType.ofNibble ((c (16 + k * 16 + 8)).toNat % 16) = .ld
  · rw [if_pos hld, if_pos hld]
    obtain ⟨hname, haddr, hlen⟩ := hitem (by simp [esdSkipped, esdTypeAt, hld])
    rw [hname, haddr, hlen]
  · rw [if_neg hld, if_neg hld]
    by_cases hid : mvsBe16 c 14 + esdNumbered c k < 1 ∨ maxesd ≤ mvsBe16 c 14 + esdNumbered c k
    · rw [if_pos hid, if_pos hid]
    · rw [if_neg hid, if_neg hid]
      obtain ⟨hname, haddr, hlen⟩ := hitem (decide_eq_false fun h => hid h.2)
      rw [hname, haddr, hlen]

theorem parseEsdItem_numbered (o : Obj) (k : ℕ) (first : ℕ) :
    (parseEsdItem c first (o, esdNumbered c k) k).2 = esdNumbered c (k + 1) := by
  have hsucc : esdNumbered c (k + 1) = if esdTypeAt c k = .ld then esdNumbered c k else esdNumbered c k + 1 := by
    rw [esdNumbered, esdNumbered, List.range_succ, List.filter_append, List.length_append, List.filter_singleton]
    split_ifs with h <;> simp_all
  rw [hsucc, parseEsdItem, esdTypeAt]
  dsimp only
  split_ifs <;> rfl

theorem parseEsd_same (o : Obj) (hhead : ∀ i < 16, c i = c' i) (h : SameOn c c' (esdReads c)) : parseEsd c o = parseEsd c' o := by
  have hfirst : mvsBe16 c' 14 = mvsBe16 c 14 := mvsBe16_same fun i hi => (hhead _ (by omega)).symm
  have hcnt : mvsBe16 c' 10 = mvsBe16 c 10 := mvsBe16_same fun i hi => (hhead _ (by omega)).symm
  rw [esdReads, sameOn_flatMap] at h
  have hrun (n : ℕ) (hn : n ≤ esdItems c) : ((List.range n).foldl (parseEsdItem c (mvsBe16 c 14)) (o, 0)).2 = esdNumbered c n ∧
      (List.range n).foldl (parseEsdItem c (mvsBe16 c 14)) (o, 0) = (List.range n).foldl (parseEsdItem c' (mvsBe16 c 14)) (o, 0) := by
    induction n with
    | zero => exact ⟨rfl, rfl⟩
    | succ n ih =>
      obtain ⟨hid, hsame⟩ := ih (by omega)
      rw [List.range_succ, List.foldl_append, List.foldl_append, ← hsame, List.foldl_cons, List.foldl_nil, List.foldl_cons, List.foldl_nil]
      rw [← Prod.eta ((List.range n).foldl (parseEsdItem c (mvsBe16 c 14)) (o, 0)), hid]
      exact ⟨parseEsdItem_numbered _ n _, parseEsdItem_same _ n (h n (List.mem_range.mpr (by omega)))⟩
  rw [parseEsd, parseEsd, hcnt, hfirst]
  exact congrArg Prod.fst (hrun (esdItems c) le_rfl).2

theorem parseTxt_same (o : Obj) (hhead : ∀ i < 16, c i = c' i) (h : SameOn c c' (txtReads c)) : parseTxt c o = parseTxt c' o := by
  have haddr : mvsBe24 c 5 = mvsBe24 c' 5 := mvsBe24_same fun i hi => hhead _ (by omega)
  have hcnt : mvsBe16 c 10 = mvsBe16 c' 10 := mvsBe16_same fun i hi => hhead _ (by omega)
  rw [parseTxt, parseTxt, ← haddr, ← hcnt]
  by_cases h0 : mvsBe16 c 10 = 0
  · rw [if_pos h0, if_pos h0]
  · rw [if_neg h0, if_neg h0]
    rw [txtReads, if_neg h0, sameOn_cons] at h
    congr 1
    funext a
    by_cases ha : mvsBe24 c 5 ≤ a ∧ a < mvsBe24 c 5 + mvsBe16 c 10
    · rw [if_pos ha, if_pos ha]
      exact h.1 (a - mvsBe24 c 5) (by dsimp only; omega)
    · rw [if_neg ha, if_neg ha]

theorem parseRldItems_same (fin fuel p : ℕ) (same : Bool) (R P : ℕ) (h : SameOn c c' (rldItemReads c fin fuel p same)) :
    parseRldItems c fin fuel p same R P = parseRldItems c' fin fuel p same R P := by
  induction fuel generalizing p same R P with
  | zero => rfl
  | succ fuel ih =>
    rw [rldItemReads] at h
    rw [parseRldItems, parseRldItems]
    by_cases hgo : p + 4 ≤ fin ∧ p + 4 ≤ 80
    · rw [if_pos hgo] at h ⊢
      rw [if_pos hgo]
      dsimp only at h ⊢
      rw [sameOn_append] at h
      obtain ⟨hpair, hitem⟩ := h
      have hR : (if same then R else mvsBe16 c p) = if same then R else mvsBe16 c' p := by
        cases same with
        | true => rw [if_pos rfl, if_pos rfl]
        | false =>
          rw [if_neg Bool.false_ne_true, if_neg Bool.false_ne_true]
          exact mvsBe16_same (hpair ⟨p, 2⟩ List.mem_cons_self)
      have hP : (if same then P else mvsBe16 c (p + 2)) = if same then P else mvsBe16 c' (p + 2) := by
        cases same with
        | true => rw [if_pos rfl, if_pos rfl]
        | false =>
          rw [if_neg Bool.false_ne_true, if_neg Bool.false_ne_true]
          exact mvsBe16_same (hpair ⟨p + 2, 2⟩ (List.mem_cons_of_mem _ List.mem_cons_self))
      rw [← hR, ← hP]
      by_cases hend : fin < (if same then p else p + 4) + 4
      · rw [if_pos hend, if_pos hend]
      · rw [if_neg hend] at hitem ⊢
        rw [if_neg hend]
        rw [sameOn_cons, sameOn_cons] at hitem
        obtain ⟨hflag, haddr, hrest⟩ := hitem
        have hflag : c (if same then p else p + 4) = c' (if same then p else p + 4) := hflag 0 Nat.one_pos
        rw [ih _ _ _ _ hrest, hflag, mvsBe24_same haddr]
    · rw [if_neg hgo, if_neg hgo]

theorem parseCard_same (o : Obj) (h : SameOn c c' (cardReads c)) : parseCard o c = parseCard o c' := by
  rw [cardReads, sameOn_cons] at h
  obtain ⟨hhead, hrest⟩ := h
  have hhead : ∀ i < 16, c i = c' i := fun i hi => by simpa using hhead i hi
  have his (x y z : UInt8) : cardIs c' x y z = cardIs c x y z := by
    rw [cardIs, cardIs, hhead 1 (by decide), hhead 2 (by decide), hhead 3 (by decide)]
  have hcnt : mvsBe16 c' 10 = mvsBe16 c 10 := mvsBe16_same fun i hi => (hhead _ (by omega)).symm
  rw [parseCard, parseCard, his, his, his, his, ← hhead 0 (by decide)]
  by_cases h2 : c 0 ≠ 0x02
  · rw [if_pos h2, if_pos h2]
  rw [if_neg h2] at hrest ⊢
  rw [if_neg h2]
  by_cases hesd : cardIs c 0xC5 0xE2 0xC4 = true
  · rw [if_pos hesd] at hrest ⊢
    rw [if_pos hesd]
    exact parseEsd_same o hhead hrest
  rw [if_neg hesd] at hrest ⊢
  rw [if_neg hesd]
  by_cases htxt : cardIs c 0xE3 0xE7 0xE3 = true
  · rw [if_pos htxt] at hrest ⊢
    rw [if_pos htxt]
    exact parseTxt_same o hhead hrest
  rw [if_neg htxt] at hrest ⊢
  rw [if_neg htxt]
  by_cases hrld : cardIs c 0xD9 0xD3 0xC4 = true
  · rw [if_pos hrld] at hrest ⊢
    rw [if_pos hrld, parseRld, parseRld, hcnt, parseRldItems_same _ _ _ _ _ _ hrest]
  rw [if_neg hrld, if_neg hrld]
  by_cases hend : cardIs c 0xC5 0xD5 0xC4 = true
  · have hentry : mvsBe16 c' 14 = mvsBe16 c 14 := mvsBe16_same fun i hi => (hhead _ (by omega)).symm
    have haddr : mvsBe24 c' 5 = mvsBe24 c 5 := mvsBe24_same fun i hi => (hhead _ (by omega)).symm
    rw [if_pos hend, if_pos hend, parseEnd, parseEnd, hentry, haddr, ← hhead 5 (by decide), ← hhead 6 (by decide), ← hhead 7 (by decide)]
  · rw [if_neg hend, if_neg hend]

/-- The object is made of the bytes that are read. -/
theorem parseObject_same {b b' : Buffer} {len : ℕ} (h : SameOn b b' (deckReads ⟨b, len⟩)) :
    parseObject ⟨b, len⟩ = parseObject ⟨b', len⟩ := by
  rw [deckReads, sameOn_flatMap] at h
  rw [parseObject, parseObject, Deck.cards, Deck.cards, List.foldl_map, List.foldl_map]
  apply List.foldl_ext
  intro o k hk
  exact parseCard_same o (sameOn_shift.mp (h k hk))

/-- A deck that its cards fit in is read the same whatever lies behind it. -/
theorem DeckFits.parseObject_eq {b b' : Buffer} {len : ℕ} (h : DeckFits ⟨b, len⟩) (hb : ∀ k < len, b k = b' k) :
    parseObject ⟨b, len⟩ = parseObject ⟨b', len⟩ :=
  parseObject_same (((deckReads_within ⟨b, len⟩).mpr h).sameOn hb)

end Same

end Cc370.Ld370
