import Cc370.As370.ExprText

namespace Cc370.As370

namespace Atom

variable (S : Scope)

def target : Atom → Option Target
  | star => some (.sect S.curSect)
  | sym nm => S.nameTarget nm
  | _ => none

/-- What `reloc_sym` takes the term for. -/
def relocatable : Atom → Bool
  | star => true
  | sym nm => (S.find nm).any Scope.relocatable
  | _ => false

end Atom

namespace Expr

/-- The terms with the signs that `expr_sect_terms` gives them: a sign reaches the next term only. -/
def scan : Expr → ℤ → List (Atom × ℤ)
  | atom a, sign => [(a, sign)]
  | group e, sign => scan e sign
  | neg e, sign => scan e (-sign)
  | pos e, sign => scan e sign
  | mul _ a b, sign => scan a sign ++ scan b 1
  | add minus a b, sign => scan a sign ++ scan b (if minus then -1 else 1)

/-- The terms with the signs that `reloc_sym` gives them, for which a unary minus does not count. -/
def relScan : Expr → ℤ → List (Atom × ℤ)
  | atom a, sign => [(a, sign)]
  | group e, sign => relScan e sign
  | neg e, sign => relScan e sign
  | pos e, sign => relScan e sign
  | mul _ a b, sign => relScan a sign ++ relScan b 1
  | add minus a b, sign => relScan a sign ++ relScan b (if minus then -1 else 1)

def atoms : Expr → List Atom
  | atom a => [a]
  | group e => atoms e
  | neg e => atoms e
  | pos e => atoms e
  | mul _ a b => atoms a ++ atoms b
  | add _ a b => atoms a ++ atoms b

variable (S : Scope)

/-- The first relocatable term that is not written behind a binary minus. -/
def firstAdded (e : Expr) : Option Atom :=
  ((e.relScan 1).find? fun x => x.1.relocatable S && decide (0 < x.2)).map Prod.fst

end Expr

section Scanner

variable (S : Scope) (m : ℕ)

def tallyAtom (ts : List (Target × ℤ)) (x : Atom × ℤ) : List (Target × ℤ) :=
  (x.1.target S).elim ts fun y => tally m ts (y, x.2)

variable {S} {m}

theorem exprSectTerms_name {c : Char} {t : List Char} (hc : isDelim c = false) (fuel : ℕ) (sign : ℤ)
    (expect : Bool) (ts : List (Target × ℤ)) :
    S.exprSectTerms m (fuel + 1) (c :: t) sign expect ts =
      S.exprSectTerms m fuel (takeName (c :: t)).2 1 false
        ((S.nameTarget (takeName (c :: t)).1).elim ts fun x => tally m ts (x, sign)) := by
  rw [Scope.exprSectTerms]
  · intro h
    exact absurd h (List.cons_ne_nil c t)
  all_goals
    intro t' h
    obtain rfl := (List.cons.inj h).1
    exact absurd hc (by decide)

theorem nameTarget_digit {c : Char} {t : List Char} (hc : c.isDigit = true) : S.nameTarget (c :: t) = none := by
  simp [Scope.nameTarget, hc]

theorem takeName_digits {ds r : List Char} (hds : ∀ c ∈ ds, c.isDigit = true) (hr : Ends r) :
    takeName (ds ++ r) = (ds.take 63, ds.drop 63 ++ r) := by
  have htw : (ds ++ r).takeWhile (fun c => !isDelim c) = ds := by
    apply (takeWhile_ends _ (fun c hc => by simp [digit_not_delim (hds c hc)]) (fun c hc => by simp [hr c hc])).1
  unfold takeName
  rw [htw]
  ext1
  · rfl
  · dsimp only
    rw [List.length_take, List.drop_append]
    by_cases h : 63 ≤ ds.length
    · rw [min_eq_left h, show 63 - ds.length = 0 by omega, List.drop_zero]
    · rw [min_eq_right (by omega), Nat.sub_self, List.drop_zero, List.drop_of_length_le le_rfl,
        List.drop_of_length_le (by omega)]

theorem exprSectTerms_num {r : List Char} (hr : Ends r) (n : ℕ) : ∀ {ds : List Char}, ds.length ≤ n →
    ds ≠ [] → (∀ c ∈ ds, c.isDigit = true) → ∀ (fuel : ℕ) (sign : ℤ) (expect : Bool)
    (ts : List (Target × ℤ)), (ds ++ r).length + 1 ≤ fuel → ∃ fuel', r.length + 1 ≤ fuel' ∧
      S.exprSectTerms m fuel (ds ++ r) sign expect ts = S.exprSectTerms m fuel' r 1 false ts := by
  induction n with
  | zero =>
    intro ds hn hne
    exact absurd (List.length_eq_zero_iff.mp (Nat.le_zero.mp hn)) hne
  | succ n ih =>
    intro ds hn hne hds fuel sign expect ts hfuel
    obtain ⟨c, t, rfl⟩ := List.exists_cons_of_ne_nil hne
    obtain ⟨fuel, rfl⟩ := Nat.exists_eq_add_one_of_ne_zero (by omega : fuel ≠ 0)
    have hc := hds c (by simp)
    have hstep := exprSectTerms_name (S := S) (m := m) (t := t ++ r) (digit_not_delim hc) fuel sign expect ts
    rw [← List.cons_append, takeName_digits hds hr, List.take_succ_cons, nameTarget_digit hc] at hstep
    rw [hstep]
    rw [List.length_append, List.length_cons] at hfuel
    by_cases hrest : (c :: t).drop 63 = []
    · rw [hrest]
      exact ⟨fuel, by omega, rfl⟩
    · have hlen : ((c :: t).drop 63).length ≤ n := by
        rw [List.length_drop, List.length_cons]
        rw [List.length_cons] at hn
        omega
      apply ih hlen hrest (fun d hd => hds d (List.mem_of_mem_drop hd))
      rw [List.length_append, List.length_drop, List.length_cons]
      omega

theorem sdt_name {kind : Char} {body r : List Char} (hok : (Atom.sdt kind body).Ok) (hr : Ends r) :
    takeName ((Atom.sdt kind body).text ++ r) = ((Atom.sdt kind body).text, r) := by
  obtain ⟨hkind, -, hlen, hbody⟩ := hok
  apply takeName_text _ _ hr
  · intro c hc
    simp only [Atom.text, List.mem_cons, List.mem_append, List.not_mem_nil, or_false] at hc
    rcases hc with rfl | rfl | hc | rfl
    · rcases hkind with rfl | rfl | rfl <;> decide
    · decide
    · exact (hbody c hc).1
    · decide
  · have hmax : sdtMax kind ≤ 32 := by rcases hkind with rfl | rfl | rfl <;> decide
    simp only [Atom.text, List.length_cons, List.length_append, List.length_nil]
    omega

theorem exprSectTerms_atom {a : Atom} (hS : ∀ kind body, a = .sdt kind body → S.find a.text = none) (hok : a.Ok)
    {r : List Char} (hr : Ends r) (fuel : ℕ)
    (sign : ℤ) (ts : List (Target × ℤ)) (hfuel : (a.text ++ r).length + 1 ≤ fuel) :
    ∃ fuel', r.length + 1 ≤ fuel' ∧ S.exprSectTerms m fuel (a.text ++ r) sign true ts =
      S.exprSectTerms m fuel' r 1 false (tallyAtom S m ts (a, sign)) := by
  cases a with
  | num ds => exact exprSectTerms_num hr ds.length le_rfl hok.1 hok.2 fuel sign true ts hfuel
  | sdt kind body =>
    obtain ⟨fuel, rfl⟩ := Nat.exists_eq_add_one_of_ne_zero (by omega : fuel ≠ 0)
    have hc : isDelim kind = false := by rcases hok.1 with rfl | rfl | rfl <;> decide
    have hstep := exprSectTerms_name (S := S) (m := m) (t := '\'' :: (body ++ ['\'']) ++ r) hc fuel sign true ts
    have hname := sdt_name hok hr
    have hnone : S.nameTarget (Atom.sdt kind body).text = none := by
      simp [Scope.nameTarget, hS kind body rfl]
    have htext : kind :: ('\'' :: (body ++ ['\'']) ++ r) = (Atom.sdt kind body).text ++ r := rfl
    rw [htext, hname, hnone] at hstep
    refine ⟨fuel, ?_, hstep⟩
    simp only [Atom.text, List.length_append, List.length_cons] at hfuel
    omega
  | star =>
    obtain ⟨fuel, rfl⟩ := Nat.exists_eq_add_one_of_ne_zero (by omega : fuel ≠ 0)
    refine ⟨fuel, ?_, rfl⟩
    simp only [Atom.text, List.length_append, List.length_cons, List.length_nil] at hfuel
    omega
  | sym nm =>
    obtain ⟨fuel, rfl⟩ := Nat.exists_eq_add_one_of_ne_zero (by omega : fuel ≠ 0)
    obtain ⟨hne, hlen, -, hnm⟩ := hok
    have hname := takeName_text (fun c hc => (hnm c hc).1) hlen hr
    obtain ⟨c, t, rfl⟩ := List.exists_cons_of_ne_nil hne
    have hstep := exprSectTerms_name (S := S) (m := m) (t := t ++ r) (hnm c (by simp)).1 fuel sign true ts
    rw [← List.cons_append, hname] at hstep
    refine ⟨fuel, ?_, hstep⟩
    simp only [Atom.text, List.length_append, List.length_cons] at hfuel
    omega

/-- `expr_sect_terms` over the text of an expression, from a position where a term is expected. -/
theorem exprSectTerms_text (e : Expr) (he : e.Proper)
    (hS : ∀ kind body, .sdt kind body ∈ e.atoms → S.find (Atom.sdt kind body).text = none) : ∀ (r : List Char) (fuel : ℕ)
    (sign : ℤ) (ts : List (Target × ℤ)), Ends r → (e.text ++ r).length + 1 ≤ fuel →
    ∃ fuel', r.length + 1 ≤ fuel' ∧ S.exprSectTerms m fuel (e.text ++ r) sign true ts =
      S.exprSectTerms m fuel' r 1 false ((e.scan sign).foldl (tallyAtom S m) ts) := by
  induction e with
  | atom a =>
    intro r fuel sign ts hr hfuel
    refine exprSectTerms_atom ?_ he hr fuel sign ts hfuel
    rintro kind body rfl
    exact hS kind body (by simp [Expr.atoms])
  | group e ih =>
    intro r fuel sign ts hr hfuel
    obtain ⟨fuel, rfl⟩ := Nat.exists_eq_add_one_of_ne_zero (by omega : fuel ≠ 0)
    have htext : (Expr.group e).text ++ r = '(' :: (e.text ++ ')' :: r) := by simp [Expr.text]
    rw [htext, List.length_cons] at hfuel
    obtain ⟨fuel', hf, heq⟩ := ih he hS (')' :: r) fuel sign ts (ends_cons (by decide)) (by omega)
    obtain ⟨fuel', rfl⟩ := Nat.exists_eq_add_one_of_ne_zero (by omega : fuel' ≠ 0)
    rw [List.length_cons] at hf
    refine ⟨fuel', by omega, ?_⟩
    rw [htext, Scope.exprSectTerms, if_pos rfl, heq, Scope.exprSectTerms]
    rfl
  | neg e ih =>
    intro r fuel sign ts hr hfuel
    obtain ⟨fuel, rfl⟩ := Nat.exists_eq_add_one_of_ne_zero (by omega : fuel ≠ 0)
    have htext : (Expr.neg e).text ++ r = '-' :: (e.text ++ r) := rfl
    rw [htext, List.length_cons] at hfuel
    obtain ⟨fuel', hf, heq⟩ := ih he.2 hS r fuel (-sign) ts hr (by omega)
    refine ⟨fuel', hf, ?_⟩
    rw [htext, Scope.exprSectTerms, if_pos rfl, heq]
    rfl
  | pos e ih =>
    intro r fuel sign ts hr hfuel
    obtain ⟨fuel, rfl⟩ := Nat.exists_eq_add_one_of_ne_zero (by omega : fuel ≠ 0)
    have htext : (Expr.pos e).text ++ r = '+' :: (e.text ++ r) := rfl
    rw [htext, List.length_cons] at hfuel
    obtain ⟨fuel', hf, heq⟩ := ih he.2 hS r fuel sign ts hr (by omega)
    refine ⟨fuel', hf, ?_⟩
    rw [htext, Scope.exprSectTerms, if_pos rfl, heq]
    rfl
  | mul div a b iha ihb =>
    intro r fuel sign ts hr hfuel
    have htext : (Expr.mul div a b).text ++ r = a.text ++ (if div then '/' else '*') :: (b.text ++ r) := by
      simp [Expr.text]
    rw [htext] at hfuel ⊢
    obtain ⟨fuel', hf, heq⟩ := iha he.2.2.1 (fun k b h => hS k b (List.mem_append_left _ h)) _ fuel sign ts (ends_cons (by cases div <;> decide)) hfuel
    obtain ⟨fuel', rfl⟩ := Nat.exists_eq_add_one_of_ne_zero (by omega : fuel' ≠ 0)
    rw [List.length_cons] at hf
    obtain ⟨fuel'', hf', heq'⟩ := ihb he.2.2.2 (fun k b h => hS k b (List.mem_append_right _ h)) r fuel' 1 ((a.scan sign).foldl (tallyAtom S m) ts) hr (by omega)
    refine ⟨fuel'', hf', ?_⟩
    rw [Expr.scan, List.foldl_append, ← heq', heq]
    cases div with
    | false => rfl
    | true => rfl
  | add minus a b iha ihb =>
    intro r fuel sign ts hr hfuel
    have htext : (Expr.add minus a b).text ++ r = a.text ++ (if minus then '-' else '+') :: (b.text ++ r) := by
      simp [Expr.text]
    rw [htext] at hfuel ⊢
    obtain ⟨fuel', hf, heq⟩ := iha he.2.1 (fun k b h => hS k b (List.mem_append_left _ h)) _ fuel sign ts (ends_cons (by cases minus <;> decide)) hfuel
    obtain ⟨fuel', rfl⟩ := Nat.exists_eq_add_one_of_ne_zero (by omega : fuel' ≠ 0)
    rw [List.length_cons] at hf
    obtain ⟨fuel'', hf', heq'⟩ := ihb he.2.2 (fun k b h => hS k b (List.mem_append_right _ h)) r fuel' (if minus then -1 else 1)
      ((a.scan sign).foldl (tallyAtom S m) ts) hr (by omega)
    refine ⟨fuel'', hf', ?_⟩
    rw [Expr.scan, List.foldl_append, ← heq', heq]
    cases minus with
    | false => rfl
    | true => rfl

theorem relocSym_term {c : Char} {t : List Char} (hc : isDelim c = false) (fuel : ℕ) (sign : ℤ)
    (expect : Bool) : S.relocSym (fuel + 1) (c :: t) sign expect =
      if (c = 'X' ∨ c = 'B' ∨ c = 'C') ∧ t.head? = some '\'' then
        S.relocSym fuel (dropQuote (t.tail.dropWhile (· ≠ '\''))) 1 false
      else if !(takeName (c :: t)).1.head?.any Char.isDigit ∧ (S.find (takeName (c :: t)).1).any Scope.relocatable ∧
          0 < sign then some (takeName (c :: t)).1
      else S.relocSym fuel (takeName (c :: t)).2 1 false := by
  rw [Scope.relocSym]
  all_goals
    rintro rfl
    exact absurd hc (by decide)

/-- What `reloc_sym` answers for a term it takes. -/
def pick (x : Atom × ℤ) : Option (List Char) :=
  if x.1.relocatable S && decide (0 < x.2) then some x.1.text else none

theorem relocSym_num {r : List Char} (hr : Ends r) (n : ℕ) : ∀ {ds : List Char}, ds.length ≤ n →
    ds ≠ [] → (∀ c ∈ ds, c.isDigit = true) → ∀ (fuel : ℕ) (sign : ℤ) (expect : Bool),
    (ds ++ r).length + 1 ≤ fuel → ∃ fuel', r.length + 1 ≤ fuel' ∧
      S.relocSym fuel (ds ++ r) sign expect = S.relocSym fuel' r 1 false := by
  induction n with
  | zero =>
    intro ds hn hne
    exact absurd (List.length_eq_zero_iff.mp (Nat.le_zero.mp hn)) hne
  | succ n ih =>
    intro ds hn hne hds fuel sign expect hfuel
    obtain ⟨c, t, rfl⟩ := List.exists_cons_of_ne_nil hne
    obtain ⟨fuel, rfl⟩ := Nat.exists_eq_add_one_of_ne_zero (by omega : fuel ≠ 0)
    have hc := hds c (by simp)
    have hkind : ¬ ((c = 'X' ∨ c = 'B' ∨ c = 'C') ∧ (t ++ r).head? = some '\'') := by
      rintro ⟨rfl | rfl | rfl, -⟩ <;> exact absurd hc (by decide)
    have hstep := relocSym_term (S := S) (t := t ++ r) (digit_not_delim hc) fuel sign expect
    rw [if_neg hkind, ← List.cons_append, takeName_digits hds hr, List.take_succ_cons,
      if_neg (by simp [hc])] at hstep
    rw [hstep]
    rw [List.length_append, List.length_cons] at hfuel
    by_cases hrest : (c :: t).drop 63 = []
    · rw [hrest]
      exact ⟨fuel, by omega, rfl⟩
    · have hlen : ((c :: t).drop 63).length ≤ n := by
        rw [List.length_drop, List.length_cons]
        rw [List.length_cons] at hn
        omega
      apply ih hlen hrest (fun d hd => hds d (List.mem_of_mem_drop hd))
      rw [List.length_append, List.length_drop, List.length_cons]
      omega

theorem relocSym_atom {a : Atom} (hok : a.Ok) {r : List Char} (hr : Ends r) (fuel : ℕ) (sign : ℤ)
    (hfuel : (a.text ++ r).length + 1 ≤ fuel) : ∃ fuel', r.length + 1 ≤ fuel' ∧
      S.relocSym fuel (a.text ++ r) sign true = (pick (S := S) (a, sign)).or (S.relocSym fuel' r 1 false) := by
  cases a with
  | num ds => exact relocSym_num hr ds.length le_rfl hok.1 hok.2 fuel sign true hfuel
  | sdt kind body =>
    obtain ⟨fuel, rfl⟩ := Nat.exists_eq_add_one_of_ne_zero (by omega : fuel ≠ 0)
    have hc : isDelim kind = false := by rcases hok.1 with rfl | rfl | rfl <;> decide
    have hstep := relocSym_term (S := S) (t := '\'' :: (body ++ '\'' :: r)) hc fuel sign true
    have hdrop : (body ++ '\'' :: r).dropWhile (fun c => decide (c ≠ '\'')) = '\'' :: r :=
      (takeWhile_ends (fun c => decide (c ≠ '\'')) (w := body) (r := '\'' :: r)
        (fun c hc => by simpa using (hok.2.2.2 c hc).2) (by simp)).2
    rw [if_pos ⟨hok.1, rfl⟩, List.tail_cons, hdrop] at hstep
    have htext : (Atom.sdt kind body).text ++ r = kind :: '\'' :: (body ++ '\'' :: r) := by simp [Atom.text]
    rw [htext] at hfuel ⊢
    refine ⟨fuel, ?_, hstep⟩
    simp only [List.length_append, List.length_cons] at hfuel
    omega
  | star =>
    obtain ⟨fuel, rfl⟩ := Nat.exists_eq_add_one_of_ne_zero (by omega : fuel ≠ 0)
    refine ⟨fuel, ?_, ?_⟩
    · simp only [Atom.text, List.length_append, List.length_cons, List.length_nil] at hfuel
      omega
    · change S.relocSym (fuel + 1) ('*' :: r) sign true = _
      rw [Scope.relocSym, if_pos rfl, pick]
      by_cases hs : 0 < sign
      · simp [Atom.relocatable, Atom.text, hs]
      · simp [Atom.relocatable, hs]
  | sym nm =>
    obtain ⟨fuel, rfl⟩ := Nat.exists_eq_add_one_of_ne_zero (by omega : fuel ≠ 0)
    obtain ⟨hne, hlen, hdigit, hnm⟩ := hok
    have hname := takeName_text (fun c hc => (hnm c hc).1) hlen hr
    obtain ⟨c, t, rfl⟩ := List.exists_cons_of_ne_nil hne
    have hkind : ¬ ((c = 'X' ∨ c = 'B' ∨ c = 'C') ∧ (t ++ r).head? = some '\'') := by
      rintro ⟨-, hq⟩
      cases t with
      | nil => exact hr.not_quote '\'' hq rfl
      | cons d t => exact (hnm d (by simp)).2 (by simpa using hq)
    have hstep := relocSym_term (S := S) (t := t ++ r) (hnm c (by simp)).1 fuel sign true
    rw [if_neg hkind, ← List.cons_append, hname] at hstep
    refine ⟨fuel, ?_, ?_⟩
    · simp only [Atom.text, List.length_append, List.length_cons] at hfuel
      omega
    · change S.relocSym (fuel + 1) ((c :: t) ++ r) sign true = _
      rw [hstep]
      simp only [hdigit, Bool.not_false, true_and, pick, Atom.relocatable, Atom.text, Bool.and_eq_true,
        decide_eq_true_eq]
      split_ifs <;> simp

/-- `reloc_sym` over the text of an expression, from a position where a term is expected. -/
theorem relocSym_text (e : Expr) (he : e.Proper) : ∀ (r : List Char) (fuel : ℕ) (sign : ℤ), Ends r →
    (e.text ++ r).length + 1 ≤ fuel → ∃ fuel', r.length + 1 ≤ fuel' ∧
      S.relocSym fuel (e.text ++ r) sign true =
        ((e.relScan sign).findSome? (pick (S := S))).or (S.relocSym fuel' r 1 false) := by
  induction e with
  | atom a =>
    intro r fuel sign hr hfuel
    obtain ⟨fuel', hf, heq⟩ := relocSym_atom (S := S) he hr fuel sign hfuel
    refine ⟨fuel', hf, ?_⟩
    rw [Expr.text, heq, Expr.relScan, List.findSome?_singleton]
  | group e ih =>
    intro r fuel sign hr hfuel
    obtain ⟨fuel, rfl⟩ := Nat.exists_eq_add_one_of_ne_zero (by omega : fuel ≠ 0)
    have htext : (Expr.group e).text ++ r = '(' :: (e.text ++ ')' :: r) := by simp [Expr.text]
    rw [htext, List.length_cons] at hfuel
    obtain ⟨fuel', hf, heq⟩ := ih he (')' :: r) fuel sign (ends_cons (by decide)) (by omega)
    obtain ⟨fuel', rfl⟩ := Nat.exists_eq_add_one_of_ne_zero (by omega : fuel' ≠ 0)
    rw [List.length_cons] at hf
    refine ⟨fuel', by omega, ?_⟩
    rw [htext, Scope.relocSym, if_pos rfl, heq, Scope.relocSym]
    rfl
  | neg e ih =>
    intro r fuel sign hr hfuel
    obtain ⟨fuel, rfl⟩ := Nat.exists_eq_add_one_of_ne_zero (by omega : fuel ≠ 0)
    have htext : (Expr.neg e).text ++ r = '-' :: (e.text ++ r) := rfl
    rw [htext, List.length_cons] at hfuel
    obtain ⟨fuel', hf, heq⟩ := ih he.2 r fuel sign hr (by omega)
    refine ⟨fuel', hf, ?_⟩
    rw [htext, Scope.relocSym, if_pos rfl, heq]
    rfl
  | pos e ih =>
    intro r fuel sign hr hfuel
    obtain ⟨fuel, rfl⟩ := Nat.exists_eq_add_one_of_ne_zero (by omega : fuel ≠ 0)
    have htext : (Expr.pos e).text ++ r = '+' :: (e.text ++ r) := rfl
    rw [htext, List.length_cons] at hfuel
    obtain ⟨fuel', hf, heq⟩ := ih he.2 r fuel sign hr (by omega)
    refine ⟨fuel', hf, ?_⟩
    rw [htext, Scope.relocSym, if_pos rfl, heq]
    rfl
  | mul div a b iha ihb =>
    intro r fuel sign hr hfuel
    have htext : (Expr.mul div a b).text ++ r = a.text ++ (if div then '/' else '*') :: (b.text ++ r) := by
      simp [Expr.text]
    rw [htext] at hfuel ⊢
    obtain ⟨fuel', hf, heq⟩ := iha he.2.2.1 _ fuel sign (ends_cons (by cases div <;> decide)) hfuel
    obtain ⟨fuel', rfl⟩ := Nat.exists_eq_add_one_of_ne_zero (by omega : fuel' ≠ 0)
    rw [List.length_cons] at hf
    obtain ⟨fuel'', hf', heq'⟩ := ihb he.2.2.2 r fuel' 1 hr (by omega)
    refine ⟨fuel'', hf', ?_⟩
    rw [Expr.relScan, List.findSome?_append, Option.or_assoc, ← heq', heq]
    cases div with
    | false => rfl
    | true => rfl
  | add minus a b iha ihb =>
    intro r fuel sign hr hfuel
    have htext : (Expr.add minus a b).text ++ r = a.text ++ (if minus then '-' else '+') :: (b.text ++ r) := by
      simp [Expr.text]
    rw [htext] at hfuel ⊢
    obtain ⟨fuel', hf, heq⟩ := iha he.2.1 _ fuel sign (ends_cons (by cases minus <;> decide)) hfuel
    obtain ⟨fuel', rfl⟩ := Nat.exists_eq_add_one_of_ne_zero (by omega : fuel' ≠ 0)
    rw [List.length_cons] at hf
    obtain ⟨fuel'', hf', heq'⟩ := ihb he.2.2 r fuel' (if minus then -1 else 1) hr (by omega)
    refine ⟨fuel'', hf', ?_⟩
    rw [Expr.relScan, List.findSome?_append, Option.or_assoc, ← heq', heq]
    cases minus with
    | false => rfl
    | true => rfl

theorem relocSym_eq (e : Expr) (he : e.Proper) :
    S.relocSym (e.text.length + 1) e.text 1 true = (e.firstAdded S).map Atom.text := by
  obtain ⟨fuel', hf, heq⟩ := relocSym_text (S := S) e he [] (e.text.length + 1) 1 (by simp [Ends]) (by simp)
  obtain ⟨fuel', rfl⟩ := Nat.exists_eq_add_one_of_ne_zero (by omega : fuel' ≠ 0)
  rw [List.append_nil] at heq
  rw [heq, Scope.relocSym, Option.or_none, Expr.firstAdded]
  induction e.relScan 1 with
  | nil => rfl
  | cons x l ih =>
    rw [List.findSome?_cons, List.find?_cons, pick]
    cases h : (x.1.relocatable S && decide (0 < x.2)) with
    | true => rfl
    | false => exact ih

theorem exprSectTerms_eq (e : Expr) (he : e.Proper)
    (hS : ∀ kind body, .sdt kind body ∈ e.atoms → S.find (Atom.sdt kind body).text = none) :
    S.exprSectTerms m (e.text.length + 1) e.text 1 true [] = (e.scan 1).foldl (tallyAtom S m) [] := by
  obtain ⟨fuel', hf, heq⟩ := exprSectTerms_text (m := m) e he hS [] (e.text.length + 1) 1 []
    (by simp [Ends]) (by simp)
  obtain ⟨fuel', rfl⟩ := Nat.exists_eq_add_one_of_ne_zero (by omega : fuel' ≠ 0)
  rw [List.append_nil] at heq
  rw [heq, Scope.exprSectTerms]

end Scanner

end Cc370.As370
