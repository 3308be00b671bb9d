import Cc370.As370.ExprScan
import Cc370.As370.Adcon

namespace Cc370.As370

/-- The text of a symbol with a hexadecimal number behind it. -/
def plusHex (nm h : List Char) : List Char := nm ++ '+' :: 'X' :: '\'' :: (h ++ ['\''])

/-- The digits of a hexadecimal term, of which as many as there are may be written. -/
def HexText (h : List Char) : Prop := h ≠ [] ∧ h.length ≤ 60 ∧ ∀ c ∈ h, isDelim c = false ∧ c ≠ '\''

/-- What a factor that is a term does to the state. -/
structure ReadsTerm (st st' : XState) (r : List Char) (n : ℤ) (bad : Bool) : Prop where
  rest : st'.rest = r
  xrl : st'.xrl = st.xrl + n
  deep : st'.deep = st.deep
  badsdt : st'.badsdt = (st.badsdt || bad)
  leaf : st'.leaf ≤ st.leaf + 1

section Term

variable {S : Scope} {r : List Char} {st : XState} {nm : List Char} {s : XSym}

theorem counting_keeps (st : XState) : (Scope.counting st).rest = st.rest ∧ (Scope.counting st).xrl = st.xrl ∧
    (Scope.counting st).deep = st.deep ∧ (Scope.counting st).badsdt = st.badsdt ∧ (Scope.counting st).leaf ≤ st.leaf + 1 := by
  unfold Scope.counting
  split_ifs
  · exact ⟨rfl, rfl, rfl, rfl, Nat.le_succ _⟩
  · exact ⟨rfl, rfl, rfl, rfl, le_rfl⟩
  · exact ⟨rfl, rfl, rfl, rfl, Nat.le_succ _⟩

theorem xFactor_name (hok : (Atom.sym nm).Ok) (hr : Ends r) (hst : st.rest = nm ++ r) (fuel : ℕ) (sign : ℤ) :
    S.xFactor (fuel + 1) sign st = S.xNameAt sign (Scope.counting st) := by
  obtain ⟨c, t, hct⟩ := List.exists_cons_of_ne_nil hok.1
  have hc : isDelim c = false := (hok.2.2.2 c (by rw [hct]; simp)).1
  rw [xFactor_term hc (t := t ++ r) (by rw [hst, hct]; rfl), xLeafAt_sym hok hr ((counting_keeps st).1.trans hst)]

theorem xFactor_found (hok : (Atom.sym nm).Ok) (hr : Ends r) (hst : st.rest = nm ++ r) (hfind : S.find nm = some s)
    (hs : ¬ (s.type = .er ∧ !s.known)) (fuel : ℕ) (sign : ℤ) : (S.xFactor (fuel + 1) sign st).1 = s.val ∧
      ReadsTerm st (S.xFactor (fuel + 1) sign st).2 r (if Scope.counts s then sign else 0) false := by
  obtain ⟨h1, h2, h3, h4, h5⟩ := counting_keeps st
  have htake := takeName_text (fun c hc => (hok.2.2.2 c hc).1) hok.2.1 hr
  rw [xFactor_name hok hr hst, Scope.xNameAt, h1, hst, htake]
  dsimp only
  rw [hfind]
  dsimp only
  rw [if_neg hs]
  exact ⟨rfl, rfl, by rw [h2], h3, by rw [h4, Bool.or_false], h5⟩

theorem xFactor_unfound (hok : (Atom.sym nm).Ok) (hr : Ends r) (hst : st.rest = nm ++ r) (hfind : S.find nm = none)
    (fuel : ℕ) (sign : ℤ) : (S.xFactor (fuel + 1) sign st).1 = 0 ∧
      ReadsTerm st (S.xFactor (fuel + 1) sign st).2 r 0 false := by
  obtain ⟨h1, h2, h3, h4, h5⟩ := counting_keeps st
  have htake := takeName_text (fun c hc => (hok.2.2.2 c hc).1) hok.2.1 hr
  rw [xFactor_name hok hr hst, Scope.xNameAt, h1, hst, htake]
  dsimp only
  rw [hfind]
  exact ⟨rfl, rfl, by rw [add_zero]; exact h2, h3, by rw [Bool.or_false]; exact h4, h5⟩

theorem xFactor_hex (st : XState) {h : List Char} (hh : HexText h) (hr : Ends r) (hst : st.rest = 'X' :: '\'' :: (h ++ '\'' :: r))
    (fuel : ℕ) (sign : ℤ) : (S.xFactor (fuel + 1) sign st).1 = sdtValue 'X' h ∧
      ReadsTerm st (S.xFactor (fuel + 1) sign st).2 r 0 (decide (8 < h.length)) := by
  obtain ⟨h1, h2, h3, h4, h5⟩ := counting_keeps st
  obtain ⟨hne, -, hbody⟩ := hh
  have hsplit := takeWhile_ends (fun c => decide (c ≠ '\'')) (w := h) (r := '\'' :: r)
    (fun c hc => by simpa using (hbody c hc).2) (by simp)
  have hsdt : sdtBody 'X' (h ++ '\'' :: r) = (h, '\'' :: r) := by
    rw [sdtBody, if_neg (by decide), hsplit.1, hsplit.2]
  have hleaf : S.xLeafAt sign (Scope.counting st) = Scope.xSdtAt 'X' (h ++ '\'' :: r) (Scope.counting st) := by
    rw [Scope.xLeafAt, h1, hst]
    simp
  have hmax : sdtMax 'X' = 8 := rfl
  rw [xFactor_term (by decide) hst, hleaf, Scope.xSdtAt, hsdt]
  refine ⟨rfl, rfl, by rw [add_zero]; exact h2, h3, ?_, h5⟩
  simp [h4, hne, hmax, dropQuote]

end Term

section Sum

variable {S : Scope} {nm h : List Char} {v w n : ℤ} {bad : Bool}

theorem xTerm_read (fuel : ℕ) {sign : ℤ} {st : XState} {r : List Char} (hr : EndsTerm r)
    (hread : ∀ fuel, (S.xFactor (fuel + 1) sign st).1 = v ∧ ReadsTerm st (S.xFactor (fuel + 1) sign st).2 r n bad) :
    (S.xTerm (fuel + 2) sign st).1 = v ∧ ReadsTerm st (S.xTerm (fuel + 2) sign st).2 r n bad := by
  obtain ⟨hv, hst⟩ := hread fuel
  rw [Scope.xTerm, xTermLoop_stop hr hst.rest]
  exact ⟨hv, hst⟩

theorem exprErr_eq {st : XState} (hdeep : st.deep = false) (hbad : st.badsdt = bad) (hleaf : st.leaf ≤ 20) :
    Scope.exprErr st = bad := by
  have hfew : ¬ 20 < st.leaf := by omega
  simp [Scope.exprErr, hdeep, hbad, hfew]

/-- A symbol alone. -/
theorem exprValFull_sym (hok : (Atom.sym nm).Ok)
    (hread : ∀ st : XState, st.rest = nm ++ [] → ∀ fuel, (S.xFactor (fuel + 1) 1 st).1 = v ∧
      ReadsTerm st (S.xFactor (fuel + 1) 1 st).2 [] n false) :
    (S.exprValFull nm).1 = v ∧ (S.exprValFull nm).2.1 = n ∧ Scope.exprErr (S.exprValFull nm).2.2 = false := by
  obtain ⟨c, t, hct⟩ := List.exists_cons_of_ne_nil hok.1
  have hskip : skipBlanks nm = nm := by
    rw [hct]
    apply skipBlanks_cons
    rintro rfl
    exact absurd (hok.2.2.2 ' ' (by rw [hct]; simp)).1 (by decide)
  have hend : EndsTerm [] := by simp [EndsTerm]
  have hfuel : Scope.exprFuel nm = 3 * nm.length + 2 + 1 := rfl
  obtain ⟨hv, hst⟩ := xTerm_read (3 * nm.length) hend (hread (Scope.initial nm) (by simp [Scope.initial]))
  have hadd : S.xAdd (Scope.exprFuel nm) (Scope.initial nm) = S.xTerm (3 * nm.length + 2) 1 (Scope.initial nm) := by
    rw [hfuel, Scope.xAdd, xAddLoop_stop (by simp) hst.rest]
  have herr : Scope.exprErr (S.xTerm (3 * nm.length + 2) 1 (Scope.initial nm)).2 = false :=
    exprErr_eq hst.deep hst.badsdt (hst.leaf.trans (by simp [Scope.initial]))
  rw [Scope.exprValFull, hskip, if_neg hok.1, hadd, if_neg (by rw [herr]; simp)]
  refine ⟨hv, ?_, herr⟩
  rw [hst.xrl]
  exact zero_add n

/-- A symbol and a hexadecimal number: more than eight digits are an error, and the value is 0. -/
theorem exprValFull_plusHex (hok : (Atom.sym nm).Ok) (hh : HexText h)
    (hread : ∀ st : XState, ∀ r, Ends r → st.rest = nm ++ r → ∀ fuel, (S.xFactor (fuel + 1) 1 st).1 = v ∧
      ReadsTerm st (S.xFactor (fuel + 1) 1 st).2 r n false) :
    (S.exprValFull (plusHex nm h)).1 = (if 8 < h.length then 0 else v + sdtValue 'X' h) ∧
      (S.exprValFull (plusHex nm h)).2.1 = if 8 < h.length then 0 else n := by
  obtain ⟨c, t, hct⟩ := List.exists_cons_of_ne_nil hok.1
  have hskip : skipBlanks (plusHex nm h) = plusHex nm h := by
    rw [plusHex, hct]
    apply skipBlanks_cons
    rintro rfl
    exact absurd (hok.2.2.2 ' ' (by rw [hct]; simp)).1 (by decide)
  have hne : plusHex nm h ≠ [] := by simp [plusHex]
  obtain ⟨k, hk⟩ : ∃ k, Scope.exprFuel (plusHex nm h) = k + 5 := by
    refine ⟨3 * (nm.length + h.length) + 10, ?_⟩
    simp only [Scope.exprFuel, plusHex, List.length_append, List.length_cons, List.length_nil]
    ring
  -- the symbol ends at the plus sign, the number at the end of the text
  have hplus : EndsTerm ('+' :: 'X' :: '\'' :: (h ++ ['\''])) := endsTerm_cons (.inl rfl)
  have hend : EndsTerm [] := by simp [EndsTerm]
  obtain ⟨hv, hst⟩ := xTerm_read (k + 2) hplus (hread (Scope.initial (plusHex nm h)) _ hplus.ends rfl)
  generalize hq : S.xTerm (k + 2 + 2) 1 (Scope.initial (plusHex nm h)) = q at hv hst
  have hx := fun fuel => xFactor_hex (S := S) { q.2 with rest := 'X' :: '\'' :: (h ++ ['\'']) } hh hend.ends rfl fuel 1
  obtain ⟨hw, hst'⟩ := xTerm_read (k + 1) hend hx
  generalize hq' : S.xTerm (k + 1 + 2) 1 { q.2 with rest := 'X' :: '\'' :: (h ++ ['\'']) } = q' at hw hst'
  have hadd : S.xAdd (Scope.exprFuel (plusHex nm h)) (Scope.initial (plusHex nm h)) = (q.1 + q'.1, q'.2) := by
    rw [hk, Scope.xAdd, hq, Scope.xAddLoop, hst.rest, skipBlanks_cons (by decide)]
    change S.xAddLoop (k + 3) (q.1 + (S.xTerm (k + 1 + 2) 1 { q.2 with rest := 'X' :: '\'' :: (h ++ ['\'']) }).1) _ = _
    rw [hq']
    exact xAddLoop_stop (by simp) hst'.rest _ _
  have herr : Scope.exprErr q'.2 = decide (8 < h.length) := by
    have hleaf : q.2.leaf ≤ 1 := hst.leaf
    have hleaf' : q'.2.leaf ≤ q.2.leaf + 1 := hst'.leaf
    refine exprErr_eq (hst'.deep.trans hst.deep) (hst'.badsdt.trans ?_) (by omega)
    change (q.2.badsdt || _) = _
    rw [hst.badsdt]
    rfl
  rw [Scope.exprValFull, hskip, if_neg hne, hadd]
  by_cases hlong : 8 < h.length
  · rw [if_pos hlong, if_pos hlong, if_pos (by rw [herr]; simpa using hlong)]
    exact ⟨rfl, rfl⟩
  · rw [if_neg hlong, if_neg hlong, if_neg (by rw [herr]; simpa using hlong)]
    refine ⟨by rw [hv, hw], ?_⟩
    change q'.2.xrl = n
    rw [hst'.xrl]
    change q.2.xrl + 0 = n
    rw [hst.xrl]
    simp [Scope.initial]

end Sum

section Scan

variable {S : Scope} {nm h : List Char}

theorem exprSectTerms_sym (hok : (Atom.sym nm).Ok) {r : List Char} (hr : Ends r) (m fuel : ℕ) :
    S.exprSectTerms (m + 1) (fuel + 1) (nm ++ r) 1 true [] =
      S.exprSectTerms (m + 1) fuel r 1 false ((S.nameTarget nm).toList.map fun x => (x, 1)) := by
  obtain ⟨hne, hlen, -, hnm⟩ := hok
  have hname := takeName_text (fun c hc => (hnm c hc).1) hlen hr
  obtain ⟨c, t, rfl⟩ := List.exists_cons_of_ne_nil hne
  have hstep := exprSectTerms_name (S := S) (m := m + 1) (t := t ++ r) (hnm c (by simp)).1 fuel 1 true []
  rw [← List.cons_append, hname] at hstep
  rw [hstep]
  cases S.nameTarget (c :: t) with
  | none => rfl
  | some x => simp [tally]

theorem hex_name (hh : HexText h) : takeName ('X' :: '\'' :: (h ++ ['\''])) = ('X' :: '\'' :: (h ++ ['\'']), []) := by
  obtain ⟨-, hlen, hbody⟩ := hh
  have htake := takeName_text (w := 'X' :: '\'' :: (h ++ ['\''])) (r := []) ?_ ?_ (by simp [Ends])
  · rwa [List.append_nil] at htake
  · intro c hc
    simp only [List.mem_cons, List.mem_append, List.not_mem_nil, or_false] at hc
    rcases hc with rfl | rfl | hc | rfl
    · decide
    · decide
    · exact (hbody c hc).1
    · decide
  · simp only [List.length_cons, List.length_append, List.length_nil]
    omega

theorem exprSectTerms_plusHex (hok : (Atom.sym nm).Ok) (hh : HexText h)
    (hS : S.find ('X' :: '\'' :: (h ++ ['\''])) = none) (m fuel : ℕ) :
    S.exprSectTerms (m + 1) (fuel + 4) (plusHex nm h) 1 true [] = (S.nameTarget nm).toList.map fun x => (x, 1) := by
  have hnone : S.nameTarget ('X' :: '\'' :: (h ++ ['\''])) = none := by simp [Scope.nameTarget, hS]
  rw [plusHex, exprSectTerms_sym hok (ends_cons (by decide)), Scope.exprSectTerms, if_neg (by simp),
    exprSectTerms_name (by decide), hex_name hh, hnone, Scope.exprSectTerms]
  rfl

theorem relocSym_sym (hok : (Atom.sym nm).Ok) {r : List Char} (hr : Ends r) (fuel : ℕ) :
    S.relocSym (fuel + 1) (nm ++ r) 1 true =
      if (S.find nm).any Scope.relocatable then some nm else S.relocSym fuel r 1 false := by
  obtain ⟨hne, hlen, hdigit, hnm⟩ := hok
  have hname := takeName_text (fun c hc => (hnm c hc).1) hlen hr
  obtain ⟨c, t, rfl⟩ := List.exists_cons_of_ne_nil hne
  have hkind : ¬ ((c = 'X' ∨ c = 'B' ∨ c = 'C') ∧ (t ++ r).head? = some '\'') := by
    rintro ⟨-, hq⟩
    cases t with
    | nil => exact hr.not_quote '\'' hq rfl
    | cons d t => exact (hnm d (by simp)).2 (Option.some.inj hq)
  have hstep := relocSym_term (S := S) (t := t ++ r) (hnm c (by simp)).1 fuel 1 true
  rw [if_neg hkind, ← List.cons_append, hname] at hstep
  rw [hstep]
  cases hrel : (S.find (c :: t)).any Scope.relocatable with
  | true => simp only [hdigit, Bool.not_false, true_and, Int.one_pos, and_self, if_true]
  | false => simp only [Bool.false_eq_true, false_and, and_false, if_false]

theorem relocSym_plusHex (hok : (Atom.sym nm).Ok) (hh : HexText h) (fuel : ℕ) :
    S.relocSym (fuel + 4) (plusHex nm h) 1 true = if (S.find nm).any Scope.relocatable then some nm else none := by
  have hdrop : (h ++ ['\'']).dropWhile (fun c => decide (c ≠ '\'')) = ['\''] :=
    (takeWhile_ends (fun c => decide (c ≠ '\'')) (w := h) (r := ['\''])
      (fun c hc => by simpa using (hh.2.2 c hc).2) (by simp)).2
  rw [plusHex, relocSym_sym hok (ends_cons (by decide))]
  congr 1
  rw [Scope.relocSym, if_neg (by simp), relocSym_term (by decide), if_pos ⟨.inl rfl, rfl⟩]
  rw [List.tail_cons, hdrop]
  rfl

end Scan

namespace DcScope

variable {E : DcScope} {t nm h : List Char} {len : ℕ}

/-- With one unit of one target at most, the entry is that of `reloc_sym`. -/
theorem adconRels_single (len : ℕ) {x : Option Target} (hts : E.exprSectTerms8 t = x.toList.map fun y => (y, 1)) (rc : ℤ) :
    E.adconRels t rc len =
      if rc ≠ 0 ∧ E.tgtreal (E.relocSymOf t) then ((E.relocSymOf t).map fun nm => E.addReloc nm len).toList else [] := by
  rw [adconRels, hts]
  cases x with
  | none => simp
  | some x => simp

/-- A symbol that an address constant can be relocated by. -/
structure RelocBy (E : DcScope) (nm : List Char) (s : XSym) : Prop where
  find : E.find nm = some s
  read : ¬ (s.type = .er ∧ !s.known)
  counts : Scope.counts s = true
  relocatable : Scope.relocatable s = true
  real : E.isDsect s.sect = false

theorem RelocBy.tgtreal {s : XSym} (hm : RelocBy E nm s) (hok : (Atom.sym nm).Ok) : E.tgtreal (some nm) = true := by
  have hstar : nm ≠ ['*'] := by
    rintro rfl
    exact absurd (hok.2.2.2 '*' (by simp)).1 (by decide)
  simp [DcScope.tgtreal, hstar, hm.find, hm.real]

/-- The constant of a symbol. -/
theorem dcAdcon_sym {s : XSym} (hok : (Atom.sym nm).Ok) (hm : RelocBy E nm s) :
    (E.dcAdcon .a len true nm).value = (if len ≤ 2 then 0 else s.val) ∧
      (E.dcAdcon .a len true nm).rels = if len ≤ 2 then [] else [E.addReloc nm len] := by
  have hend : Ends ([] : List Char) := by simp [Ends]
  obtain ⟨hv, hrc, -⟩ := exprValFull_sym (S := E.toScope) hok fun st hst fuel => xFactor_found hok hend hst hm.find hm.read fuel 1
  have hts : E.exprSectTerms8 nm = (E.toScope.nameTarget nm).toList.map fun y => (y, 1) := by
    have hscan := exprSectTerms_sym (S := E.toScope) hok hend 7 nm.length
    obtain ⟨k, hk⟩ := Nat.exists_eq_add_one_of_ne_zero (by simpa using hok.1 : nm.length ≠ 0)
    rw [List.append_nil, hk, Scope.exprSectTerms] at hscan
    rw [exprSectTerms8, hk]
    exact hscan
  have hrs : E.relocSymOf nm = some nm := by
    have hscan := relocSym_sym (S := E.toScope) hok hend nm.length
    rw [List.append_nil, if_pos (by simp [hm.find, hm.relocatable])] at hscan
    exact hscan
  rw [hm.counts, if_pos rfl] at hrc
  have hrels := adconRels_single len hts 1
  rw [hrs, if_pos ⟨by decide, hm.tgtreal hok⟩] at hrels
  have hnil : ¬ nm = [] := hok.1
  simp only [dcAdcon, hnil, if_false, hrc, hv, hrels, reduceCtorEq]
  by_cases hlen : len ≤ 2
  · simp [hlen]
  · simp [hlen]

/-- The constant of a symbol and a number behind it. -/
theorem dcAdcon_plusHex {s : XSym} (hok : (Atom.sym nm).Ok) (hh : HexText h) (hm : RelocBy E nm s)
    (hS : E.find ('X' :: '\'' :: (h ++ ['\''])) = none) :
    (E.dcAdcon .a len true (plusHex nm h)).value = (if 8 < h.length ∨ len ≤ 2 then 0 else s.val + sdtValue 'X' h) ∧
      (E.dcAdcon .a len true (plusHex nm h)).rels = if 8 < h.length ∨ len ≤ 2 then [] else [E.addReloc nm len] := by
  obtain ⟨hv, hrc⟩ := exprValFull_plusHex (S := E.toScope) hok hh fun st r hr hst fuel =>
    xFactor_found hok hr hst hm.find hm.read fuel 1
  obtain ⟨k, hk⟩ : ∃ k, (plusHex nm h).length + 1 = k + 4 :=
    ⟨(plusHex nm h).length - 3, by
      simp only [plusHex, List.length_append, List.length_cons, List.length_nil]
      omega⟩
  have hts : E.exprSectTerms8 (plusHex nm h) = (E.toScope.nameTarget nm).toList.map fun y => (y, 1) := by
    rw [exprSectTerms8, hk]
    exact exprSectTerms_plusHex hok hh hS 7 k
  have hrs : E.relocSymOf (plusHex nm h) = some nm := by
    rw [relocSymOf, hk, relocSym_plusHex hok hh, if_pos (by simp [hm.find, hm.relocatable])]
  rw [hm.counts, if_pos rfl] at hrc
  have hrels := adconRels_single len hts
  simp only [hrs, hm.tgtreal hok, Option.map_some, Option.toList_some] at hrels
  have hnil : ¬ plusHex nm h = [] := by simp [plusHex]
  simp only [dcAdcon, hnil, if_false, hrc, hv, hrels, reduceCtorEq]
  by_cases hlong : 8 < h.length
  · simp [hlong]
  · by_cases hlen : len ≤ 2
    · simp [hlong, hlen]
    · simp [hlong, hlen]

end DcScope

end Cc370.As370
