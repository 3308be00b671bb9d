import Cc370.Ld370.ArchiveReader

namespace Cc370

namespace Ld370

/-- `is_defined` for one object. -/
def Obj.defines (o : Obj) (n : Name) : Bool :=
  (Obj.esdids.any fun id => (o.loc id).any fun e => isSectType e.type ∧ e.name = n) ∨ o.ld.any fun l => l.name = n

/-- An item of an ESD card. -/
structure EsdEntry where
  name : Name
  type : EsdType
  id : ℕ
deriving DecidableEq

def cardTypeAt (c : Buffer) (k : ℕ) : EsdType := EsdType.ofNibble ((c (16 + k * 16 + 8)).toNat % 16)

/-- How many items before the `k`th are numbered. -/
def numbered (c : Buffer) (k : ℕ) : ℕ := ((List.range k).filter fun i => cardTypeAt c i ≠ .ld).length

def esdEntry (c : Buffer) (k : ℕ) : EsdEntry := ⟨nameAt c (16 + k * 16), cardTypeAt c k, mvsBe16 c 14 + numbered c k⟩

def isEsdCard (c : Buffer) : Bool := c 0 = 0x02 ∧ cardIs c 0xC5 0xE2 0xC4

def esdCards (d : Deck) : List Buffer := d.cards.filter isEsdCard

/-- The items that the linker reads. -/
def esdEntries (d : Deck) : List EsdEntry := (esdCards d).flatMap fun c => (List.range (mvsBe16 c 10 / 16)).map (esdEntry c)

/-- A non-blank SD, PC, CM or LD. -/
def EsdEntry.exports (x : EsdEntry) : Bool := (x.type = .ld ∨ isSectType x.type) ∧ x.name ≠ blankName

/-- The object holds the items read so far: an ESDID stands for the last item numbered so. -/
structure Holds (o : Obj) (xs : List EsdEntry) : Prop where
  loc : ∀ id, 1 ≤ id → id < maxesd →
    (o.loc id).map (fun e => (e.name, e.type)) = (xs.reverse.find? fun x => x.type ≠ .ld ∧ x.id = id).map fun x => (x.name, x.type)
  ld : o.ld.map Ldent.name = (xs.filter fun x => x.type = .ld).map EsdEntry.name

/-- The item is in force when the deck is read: no other item takes its ESDID after it. -/
def Kept (xs : List EsdEntry) (x : EsdEntry) : Prop :=
  x.type = .ld ∧ x ∈ xs ∨
    isSectType x.type = true ∧ 1 ≤ x.id ∧ x.id < maxesd ∧ xs.reverse.find? (fun y => y.type ≠ .ld ∧ y.id = x.id) = some x

section Read

variable {c : Buffer} {o : Obj} {xs : List EsdEntry}

theorem numbered_succ (c : Buffer) (k : ℕ) : numbered c (k + 1) = numbered c k + if cardTypeAt c k = .ld then 0 else 1 := by
  rw [numbered, List.range_succ, List.filter_append, List.length_append, ← numbered]
  split_ifs with h
  · simp [h]
  · simp [h]

theorem Holds.item (h : Holds o xs) (k : ℕ) : (parseEsdItem c (mvsBe16 c 14) (o, numbered c k) k).2 = numbered c (k + 1) ∧
    Holds (parseEsdItem c (mvsBe16 c 14) (o, numbered c k) k).1 (xs ++ [esdEntry c k]) := by
  have hty : EsdType.ofNibble ((c (16 + k * 16 + 8)).toNat % 16) = (esdEntry c k).type := rfl
  have hid : mvsBe16 c 14 + numbered c k = (esdEntry c k).id := rfl
  rw [numbered_succ, parseEsdItem]
  dsimp only
  rw [hty, hid]
  have htype : cardTypeAt c k = (esdEntry c k).type := rfl
  rw [htype]
  generalize hx : esdEntry c k = x
  have hname : nameAt c (16 + k * 16) = x.name := by rw [← hx]; rfl
  by_cases hld : x.type = .ld
  · rw [if_pos hld, if_pos hld]
    refine ⟨rfl, ?_, ?_⟩
    · intro id h1 h2
      rw [List.reverse_append, List.reverse_singleton, List.singleton_append, List.find?_cons_of_neg (by simp [hld])]
      exact h.loc id h1 h2
    · rw [List.map_append, h.ld, List.filter_append, List.map_append]
      simp [hld, hname]
  · rw [if_neg hld, if_neg hld]
    have hldnames : o.ld.map Ldent.name = ((xs ++ [x]).filter fun x => x.type = .ld).map EsdEntry.name := by
      rw [List.filter_append, h.ld]
      simp [hld]
    split_ifs with hout
    · refine ⟨rfl, ?_, hldnames⟩
      intro id h1 h2
      have hne : x.id ≠ id := by omega
      rw [List.reverse_append, List.reverse_singleton, List.singleton_append, List.find?_cons_of_neg (by simp [hne])]
      exact h.loc id h1 h2
    · refine ⟨rfl, ?_, hldnames⟩
      intro id h1 h2
      dsimp only
      rw [List.reverse_append, List.reverse_singleton, List.singleton_append]
      by_cases hne : x.id = id
      · subst hne
        rw [Function.update_self, List.find?_cons_of_pos (by simp [hld])]
        simp [hname]
      · rw [Function.update_of_ne (Ne.symm hne), List.find?_cons_of_neg (by simp [hne])]
        exact h.loc id h1 h2

theorem Holds.card (h : Holds o xs) (c : Buffer) (n : ℕ) :
    ((List.range n).foldl (parseEsdItem c (mvsBe16 c 14)) (o, 0)).2 = numbered c n ∧
      Holds ((List.range n).foldl (parseEsdItem c (mvsBe16 c 14)) (o, 0)).1 (xs ++ (List.range n).map (esdEntry c)) := by
  induction n with
  | zero => exact ⟨rfl, by simpa using h⟩
  | succ n ih =>
    obtain ⟨hnum, hold⟩ := ih
    rw [List.range_succ, List.foldl_append, List.foldl_cons, List.foldl_nil, List.map_append, List.map_singleton, ← List.append_assoc]
    have hstep := hold.item (c := c) n
    rw [← hnum] at hstep
    exact hstep

/-- A card that is no ESD card leaves the items alone. -/
theorem parseCard_other (hc : isEsdCard c = false) : (parseCard o c).loc = o.loc ∧ (parseCard o c).ld = o.ld := by
  have hno : ¬ (c 0 = 0x02 ∧ cardIs c 0xC5 0xE2 0xC4 = true) := by simpa [isEsdCard] using hc
  unfold parseCard
  split_ifs with h0 h1 h2 h3 h4
  · exact ⟨rfl, rfl⟩
  · exact absurd ⟨not_not.mp h0, h1⟩ hno
  · simp only [parseTxt]
    split_ifs <;> exact ⟨rfl, rfl⟩
  · exact ⟨rfl, rfl⟩
  · rw [parseEnd]
    split_ifs <;> exact ⟨rfl, rfl⟩
  · exact ⟨rfl, rfl⟩

theorem holds_cards (cs : List Buffer) (h : Holds o xs) : Holds (cs.foldl parseCard o)
    (xs ++ (cs.filter isEsdCard).flatMap fun c => (List.range (mvsBe16 c 10 / 16)).map (esdEntry c)) := by
  induction cs generalizing o xs with
  | nil => simpa using h
  | cons c cs ih =>
    rw [List.foldl_cons]
    cases hc : isEsdCard c with
    | true =>
      rw [List.filter_cons_of_pos hc, List.flatMap_cons, ← List.append_assoc]
      apply ih
      have hesd : c 0 = 0x02 ∧ cardIs c 0xC5 0xE2 0xC4 = true := by simpa [isEsdCard] using hc
      rw [parseCard, if_neg (by simp [hesd.1]), if_pos hesd.2]
      exact (h.card c _).2
    | false =>
      rw [List.filter_cons_of_neg (by simp [hc])]
      apply ih
      obtain ⟨h1, h2⟩ := parseCard_other (o := o) hc
      exact ⟨by rw [h1]; exact h.loc, by rw [h2]; exact h.ld⟩

/-- What the reader leaves of the items of a deck. -/
theorem parseObject_holds (d : Deck) : Holds (parseObject d) (esdEntries d) := by
  have hempty : Holds Obj.empty [] := ⟨fun _ _ _ => rfl, rfl⟩
  have h := holds_cards d.cards hempty
  rwa [List.nil_append] at h

/-- A name is defined exactly when an item of that name is in force. -/
theorem Holds.defines (h : Holds o xs) (n : Name) : o.defines n = true ↔ ∃ x, Kept xs x ∧ x.name = n := by
  rw [Obj.defines, decide_eq_true_iff]
  constructor
  · rintro (hs | hl)
    · obtain ⟨id, hid, hany⟩ := List.any_eq_true.mp hs
      obtain ⟨e, he, hdef⟩ : ∃ e, o.loc id = some e ∧ (isSectType e.type = true ∧ e.name = n) := by
        cases he : o.loc id with
        | none =>
          rw [he] at hany
          exact absurd hany (by simp)
        | some e =>
          rw [he, Option.any_some, decide_eq_true_iff] at hany
          exact ⟨e, rfl, hany⟩
      obtain ⟨hsect, hname⟩ := hdef
      have hrange : 1 ≤ id ∧ id < maxesd := by
        have hmem := List.mem_range'_1.mp hid
        have hmax : maxesd = 512 := rfl
        omega
      have hloc := h.loc id hrange.1 hrange.2
      rw [he, Option.map_some] at hloc
      cases hx : xs.reverse.find? (fun x => x.type ≠ .ld ∧ x.id = id) with
      | none =>
        rw [hx] at hloc
        exact absurd hloc (by simp)
      | some x =>
        rw [hx, Option.map_some, Option.some.injEq, Prod.mk.injEq] at hloc
        have hp : x.type ≠ .ld ∧ x.id = id := by simpa using List.find?_some hx
        refine ⟨x, .inr ⟨by rw [← hloc.2]; exact hsect, by rw [hp.2]; exact hrange.1, by rw [hp.2]; exact hrange.2, ?_⟩, ?_⟩
        · rw [hp.2]
          exact hx
        · rw [← hloc.1]
          exact hname
    · obtain ⟨l, hl, hname⟩ := List.any_eq_true.mp hl
      have hmem : n ∈ o.ld.map Ldent.name := List.mem_map.mpr ⟨l, hl, of_decide_eq_true hname⟩
      rw [h.ld] at hmem
      obtain ⟨x, hx, rfl⟩ := List.mem_map.mp hmem
      obtain ⟨hx, hld⟩ := List.mem_filter.mp hx
      exact ⟨x, .inl ⟨of_decide_eq_true hld, hx⟩, rfl⟩
  · rintro ⟨x, ⟨hld, hx⟩ | ⟨hsect, h1, h2, hlast⟩, rfl⟩
    · right
      have hmem : x.name ∈ o.ld.map Ldent.name := by
        rw [h.ld]
        exact List.mem_map_of_mem (List.mem_filter.mpr ⟨hx, decide_eq_true hld⟩)
      obtain ⟨l, hl, hname⟩ := List.mem_map.mp hmem
      exact List.any_eq_true.mpr ⟨l, hl, decide_eq_true hname⟩
    · left
      have hloc := h.loc x.id h1 h2
      rw [hlast, Option.map_some] at hloc
      cases he : o.loc x.id with
      | none =>
        rw [he] at hloc
        exact absurd hloc (by simp)
      | some e =>
        rw [he, Option.map_some, Option.some.injEq, Prod.mk.injEq] at hloc
        have hid : x.id ∈ Obj.esdids := by
          have hmax : maxesd = 512 := rfl
          exact List.mem_range'_1.mpr ⟨h1, by omega⟩
        refine List.any_eq_true.mpr ⟨x.id, hid, ?_⟩
        rw [he]
        exact decide_eq_true ⟨by rw [hloc.2]; exact hsect, hloc.1⟩

end Read

end Ld370

namespace Ar370

open Ld370

/-- The two readers agree on what a deck defines. -/
def Agree (d : Deck) : Prop :=
  (∀ s ∈ scanEsd d, ∃ n, mvsNm n = s ∧ (parseObject d).defines n = true) ∧
    ∀ n, n ≠ blankName → (parseObject d).defines n = true → mvsNm n ∈ scanEsd d

/-- An item of this name is in force when the linker has read the deck. -/
def MadeGood (d : Deck) (n : Name) : Prop := ∃ x, Kept (esdEntries d) x ∧ mvsNm x.name = mvsNm n

/-- Where the readers part: an item that the byte count cuts, one whose ESDID the linker has no
place for or another item takes, and one behind the end of its card. -/
structure Expressed (d : Deck) : Prop where
  torn : ∀ c ∈ esdCards d, mvsBe16 c 10 % 16 ≠ 0 → mvsBe16 c 10 < 64 → (esdEntry c (mvsBe16 c 10 / 16)).exports = true →
    MadeGood d (esdEntry c (mvsBe16 c 10 / 16)).name
  placed : ∀ c ∈ esdCards d, ∀ k < 4, k < mvsBe16 c 10 / 16 → (esdEntry c k).exports = true → (esdEntry c k).type ≠ .ld →
    ((esdEntry c k).id < 1 ∨ maxesd ≤ (esdEntry c k).id ∨
      ∃ y ∈ esdEntries d, y ≠ esdEntry c k ∧ y.type ≠ .ld ∧ y.id = (esdEntry c k).id) → MadeGood d (esdEntry c k).name
  beyond : ∀ c ∈ esdCards d, ∀ k, 4 ≤ k → k < mvsBe16 c 10 / 16 → Kept (esdEntries d) (esdEntry c k) →
    (esdEntry c k).name ≠ blankName → mvsNm (esdEntry c k).name ∈ scanEsd d

section Agree

variable {d : Deck}

theorem nibble_exports (m : ℕ) : m ∈ esdTypes ↔ EsdType.ofNibble m = .ld ∨ isSectType (EsdType.ofNibble m) = true := by
  simp only [esdTypes, List.mem_cons, List.not_mem_nil, or_false, isSectType]
  unfold EsdType.ofNibble
  split <;> simp_all

/-- A symbol is an exported item, among the first four of its card and with its first byte counted. -/
theorem mem_scanEsd {s : List UInt8} : s ∈ scanEsd d ↔
    ∃ c ∈ esdCards d, ∃ k < 4, k * 16 < mvsBe16 c 10 ∧ (esdEntry c k).exports = true ∧ mvsNm (esdEntry c k).name = s := by
  rw [scanEsd, List.mem_flatMap]
  constructor
  · rintro ⟨c, hc, hs⟩
    rw [cardSymbols] at hs
    split_ifs at hs with hesd
    · obtain ⟨k, hk, hs⟩ := List.mem_filterMap.mp hs
      obtain ⟨hk4, hcnt⟩ := List.mem_filter.mp hk
      dsimp only at hs
      split_ifs at hs with hdef
      refine ⟨c, List.mem_filter.mpr ⟨hc, by simpa [isEsdCard] using hesd⟩, k, List.mem_range.mp hk4, of_decide_eq_true hcnt,
        decide_eq_true ⟨?_, hdef.2⟩, Option.some.inj hs⟩
      exact (nibble_exports _).mp hdef.1
    · exact absurd hs List.not_mem_nil
  · rintro ⟨c, hc, k, hk, hcnt, hdef, rfl⟩
    obtain ⟨hc, hesd⟩ := List.mem_filter.mp hc
    have hesd' : c 0 = 0x02 ∧ cardIs c 0xC5 0xE2 0xC4 = true := by simpa [isEsdCard] using hesd
    obtain ⟨htype, hblank⟩ := of_decide_eq_true hdef
    refine ⟨c, hc, ?_⟩
    rw [cardSymbols, if_pos hesd']
    refine List.mem_filterMap.mpr ⟨k, List.mem_filter.mpr ⟨List.mem_range.mpr hk, decide_eq_true hcnt⟩, ?_⟩
    exact if_pos ⟨(nibble_exports _).mpr htype, hblank⟩

theorem mem_esdEntries {x : EsdEntry} : x ∈ esdEntries d ↔ ∃ c ∈ esdCards d, ∃ k < mvsBe16 c 10 / 16, esdEntry c k = x := by
  simp only [esdEntries, List.mem_flatMap, List.mem_map, List.mem_range]

theorem Kept.mem {xs : List EsdEntry} {x : EsdEntry} (h : Kept xs x) : x ∈ xs ∧ (x.type = .ld ∨ isSectType x.type = true) := by
  rcases h with ⟨hld, hx⟩ | ⟨hsect, -, -, hlast⟩
  · exact ⟨hx, .inl hld⟩
  · exact ⟨List.mem_reverse.mp (List.mem_of_find?_eq_some hlast), .inr hsect⟩

/-- An item with an ESDID of its own is in force. -/
theorem kept_alone {xs : List EsdEntry} {x : EsdEntry} (hx : x ∈ xs) (hsect : isSectType x.type = true) (hne : x.type ≠ .ld)
    (h1 : 1 ≤ x.id) (h2 : x.id < maxesd) (halone : ∀ y ∈ xs, y.type ≠ .ld → y.id = x.id → y = x) : Kept xs x := by
  refine .inr ⟨hsect, h1, h2, ?_⟩
  cases hf : xs.reverse.find? (fun y => y.type ≠ .ld ∧ y.id = x.id) with
  | none =>
    have hno := List.find?_eq_none.mp hf x (List.mem_reverse.mpr hx)
    exact absurd (decide_eq_true ⟨hne, rfl⟩) hno
  | some y =>
    have hp : y.type ≠ .ld ∧ y.id = x.id := by simpa using List.find?_some hf
    rw [halone y (List.mem_reverse.mp (List.mem_of_find?_eq_some hf)) hp.1 hp.2]

theorem MadeGood.defined {n : Name} (h : MadeGood d n) : ∃ m, mvsNm m = mvsNm n ∧ (parseObject d).defines m = true := by
  obtain ⟨x, hx, hname⟩ := h
  exact ⟨x.name, hname, ((parseObject_holds d).defines _).mpr ⟨x, hx, rfl⟩⟩

theorem madeGood_of_symbol (h : Agree d) {c : Buffer} {k : ℕ} (hc : c ∈ esdCards d) (hk : k < 4) (hcnt : k * 16 < mvsBe16 c 10)
    (hdef : (esdEntry c k).exports = true) : MadeGood d (esdEntry c k).name := by
  obtain ⟨n, hn, hd⟩ := h.1 _ (mem_scanEsd.mpr ⟨c, hc, k, hk, hcnt, hdef, rfl⟩)
  obtain ⟨x, hx, rfl⟩ := ((parseObject_holds d).defines n).mp hd
  exact ⟨x, hx, hn⟩

end Agree

/-- A deck with one control section, A, whose ESDID is 512. -/
def lateDeck : Deck := .ofCards [Deck.esdCard 512 [Deck.esdItem (letterName 0xC1) 0x00 0 8], Deck.endCard]

end Ar370

end Cc370
