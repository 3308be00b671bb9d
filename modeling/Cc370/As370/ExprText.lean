import Cc370.As370.Expr

namespace Cc370.As370

inductive Atom
  | num (ds : List Char)
  | sdt (kind : Char) (body : List Char)
  | star
  | sym (nm : List Char)
deriving DecidableEq

namespace Atom

def text : Atom → List Char
  | num ds => ds
  | sdt kind body => kind :: '\'' :: (body ++ ['\''])
  | star => ['*']
  | sym nm => nm

/-- A term as the assembler writes it: a self-defining term holds neither quotes nor delimiters. -/
def Ok : Atom → Prop
  | num ds => ds ≠ [] ∧ ∀ c ∈ ds, c.isDigit = true
  | sdt kind body => (kind = 'X' ∨ kind = 'B' ∨ kind = 'C') ∧ body ≠ [] ∧ body.length ≤ sdtMax kind ∧
      ∀ c ∈ body, isDelim c = false ∧ c ≠ '\''
  | star => True
  | sym nm => nm ≠ [] ∧ nm.length ≤ 63 ∧ nm.head?.any Char.isDigit = false ∧
      ∀ c ∈ nm, isDelim c = false ∧ c ≠ '\''

end Atom

inductive Expr
  | atom (a : Atom)
  | group (e : Expr)
  | neg (e : Expr)
  | pos (e : Expr)
  | mul (div : Bool) (a b : Expr)
  | add (minus : Bool) (a b : Expr)
deriving DecidableEq

namespace Expr

def text : Expr → List Char
  | atom a => a.text
  | group e => '(' :: (e.text ++ [')'])
  | neg e => '-' :: e.text
  | pos e => '+' :: e.text
  | mul div a b => a.text ++ (if div then '/' else '*') :: b.text
  | add minus a b => a.text ++ (if minus then '-' else '+') :: b.text

/-- 0 for a factor, 1 for a product, 2 for a sum. -/
def level : Expr → ℕ
  | mul _ _ _ => 1
  | add _ _ _ => 2
  | _ => 0

/-- The tree is the one the text is read as. -/
def Proper : Expr → Prop
  | atom a => a.Ok
  | group e => e.Proper
  | neg e => e.level = 0 ∧ e.Proper
  | pos e => e.level = 0 ∧ e.Proper
  | mul _ a b => a.level ≤ 1 ∧ b.level = 0 ∧ a.Proper ∧ b.Proper
  | add _ a b => b.level ≤ 1 ∧ a.Proper ∧ b.Proper

end Expr

/-- The text goes on with a delimiter or ends. -/
def Ends (r : List Char) : Prop := ∀ c ∈ r.head?, isDelim c = true

theorem ends_cons {c : Char} {r : List Char} (h : isDelim c = true) : Ends (c :: r) := by
  intro c' hc
  simp only [List.head?_cons, Option.mem_def, Option.some.injEq] at hc
  rw [← hc]
  exact h

section Lexing

variable {w r : List Char}

theorem takeWhile_ends (p : Char → Bool) (hw : ∀ c ∈ w, p c = true) (hr : ∀ c ∈ r.head?, p c = false) :
    (w ++ r).takeWhile p = w ∧ (w ++ r).dropWhile p = r := by
  rw [List.takeWhile_append_of_pos hw, List.dropWhile_append_of_pos hw]
  cases r with
  | nil => simp
  | cons c r =>
    have hc := hr c rfl
    simp [hc]

theorem takeName_text (hw : ∀ c ∈ w, isDelim c = false) (hlen : w.length ≤ 63) (hr : Ends r) :
    takeName (w ++ r) = (w, r) := by
  have htw : (w ++ r).takeWhile (fun c => !isDelim c) = w := by
    apply (takeWhile_ends _ (fun c hc => by simp [hw c hc]) (fun c hc => by simp [hr c hc])).1
  unfold takeName
  rw [htw, List.take_of_length_le hlen]
  simp

theorem isDelim_iff (c : Char) : isDelim c = true ↔ c = '+' ∨ c = '-' ∨ c = '*' ∨ c = '/' ∨ c = '(' ∨
    c = ')' ∨ c = ',' ∨ c = ' ' := by
  simp [isDelim, delims]

theorem digit_not_delim {c : Char} (h : c.isDigit = true) : isDelim c = false := by
  rw [← Bool.not_eq_true, isDelim_iff]
  rintro (rfl | rfl | rfl | rfl | rfl | rfl | rfl | rfl) <;> exact absurd h (by decide)

theorem delim_not_digit {c : Char} (h : isDelim c = true) : c.isDigit = false := by
  rw [← Bool.not_eq_true]
  intro hd
  rw [digit_not_delim hd] at h
  exact absurd h (by simp)

theorem Ends.not_quote (hr : Ends r) : ∀ c ∈ r.head?, c ≠ '\'' := by
  rintro c hc rfl
  exact absurd (hr _ hc) (by decide)

theorem cBody_rest (n : ℕ) : ∀ {w : List Char}, w.length ≤ n → (∀ c ∈ w, c ≠ '\'') →
    (∀ c ∈ r.head?, c ≠ '\'') → (cBody (w ++ '\'' :: r)).2 = '\'' :: r := by
  induction n with
  | zero =>
    intro w hn _ hr
    obtain rfl := List.length_eq_zero_iff.mp (Nat.le_zero.mp hn)
    cases r with
    | nil => rfl
    | cons c r =>
      have hc := hr c rfl
      rw [List.nil_append, cBody]
      simpa using hc
  | succ n ih =>
    intro w hn hw hr
    match w with
    | [] => exact ih (by simp) (by simp) hr
    | [c] =>
      have hc := hw c (by simp)
      have hnil := ih (w := []) (by simp) (by simp) hr
      rw [List.cons_append, cBody]
      · exact hnil
      · intro t h
        exact absurd h hc
      · intro h
        exact absurd h hc
      · intro t _ h
        simp at h
    | c :: d :: w =>
      have hc := hw c (by simp)
      have hd := hw d (by simp)
      by_cases hamp : c = '&' ∧ d = '&'
      · obtain ⟨rfl, rfl⟩ := hamp
        rw [List.cons_append, List.cons_append, cBody]
        exact ih (by simp at hn; omega) (fun x hx => hw x (by simp [hx])) hr
      · have hih := ih (w := d :: w) (by simpa using hn) (fun x hx => hw x (List.mem_cons_of_mem _ hx)) hr
        rw [List.cons_append, cBody]
        · exact hih
        · intro t h
          exact absurd h hc
        · intro h
          exact absurd h hc
        · intro t h1 h2
          apply hamp
          refine ⟨h1, ?_⟩
          simpa using congrArg List.head? h2

end Lexing

section Evaluator

variable (S : Scope)

/-- A term that the evaluator counts as relocatable. -/
def Atom.counted : Atom → Bool
  | star => true
  | sym nm => (S.find nm).any Scope.counts
  | _ => false

namespace Expr

/-- What the evaluator adds to the net relocation count for a factor, a product or a sum of this
sign; the right operand of a product is read with sign 0. -/
def contrib : Expr → ℤ → ℤ
  | atom a, sign => if a.counted S then sign else 0
  | group e, sign => if sign < 0 then -contrib e 1 else contrib e 1
  | neg e, sign => contrib e (-sign)
  | pos e, sign => contrib e sign
  | mul _ a b, sign => contrib a sign + contrib b 0
  | add minus a b, sign => contrib a sign + contrib b (if minus then -1 else 1)

end Expr

variable {S} {r : List Char} {st : XState}

theorem skipBlanks_cons {c : Char} (hc : c ≠ ' ') (t : List Char) : skipBlanks (c :: t) = c :: t := by
  simp [skipBlanks, hc]

theorem xFactor_term {c : Char} {t : List Char} (hc : isDelim c = false) (hst : st.rest = c :: t)
    (fuel : ℕ) (sign : ℤ) : S.xFactor (fuel + 1) sign st = S.xLeafAt sign (Scope.counting st) := by
  have hne : c ≠ '(' ∧ c ≠ '*' ∧ c ≠ '-' ∧ c ≠ '+' ∧ c ≠ ' ' := by
    refine ⟨?_, ?_, ?_, ?_, ?_⟩ <;>
    · rintro rfl
      exact absurd hc (by decide)
  rw [Scope.xFactor, hst, skipBlanks_cons hne.2.2.2.2]
  have heta : ({ st with rest := c :: t } : XState) = st := by rw [← hst]
  split
  · next h => exact absurd (List.cons.inj h).1 hne.1
  · next h => exact absurd (List.cons.inj h).1 hne.2.1
  · next h => exact absurd (List.cons.inj h).1 hne.2.2.1
  · next h => exact absurd (List.cons.inj h).1 hne.2.2.2.1
  · rw [heta]

theorem counting_eq (st : XState) :
    (Scope.counting st).rest = st.rest ∧ (Scope.counting st).xrl = st.xrl := by
  unfold Scope.counting
  split_ifs <;> exact ⟨rfl, rfl⟩

theorem xLeafAt_num {ds : List Char} (hok : (Atom.num ds).Ok) (hr : Ends r) (hst : st.rest = ds ++ r)
    (sign : ℤ) : (S.xLeafAt sign st).2.rest = r ∧ (S.xLeafAt sign st).2.xrl = st.xrl := by
  obtain ⟨hne, hds⟩ := hok
  obtain ⟨c, ds, rfl⟩ := List.exists_cons_of_ne_nil hne
  have hdrop := (takeWhile_ends Char.isDigit hds fun c hc => delim_not_digit (hr c hc)).2
  have hhead : st.rest.head?.any Char.isDigit = true := by
    rw [hst]
    simpa using hds c (by simp)
  rw [Scope.xLeafAt, if_pos hhead]
  dsimp only
  rw [hst, hdrop]
  exact ⟨rfl, rfl⟩

theorem xLeafAt_sdt {kind : Char} {body : List Char} (hok : (Atom.sdt kind body).Ok) (hr : Ends r)
    (hst : st.rest = (Atom.sdt kind body).text ++ r) (sign : ℤ) :
    (S.xLeafAt sign st).2.rest = r ∧ (S.xLeafAt sign st).2.xrl = st.xrl := by
  obtain ⟨hkind, -, -, hbody⟩ := hok
  have hrest : st.rest = kind :: '\'' :: (body ++ '\'' :: r) := by
    rw [hst]
    simp [Atom.text]
  have hdigit : ¬ st.rest.head?.any Char.isDigit = true := by
    rw [hrest, List.head?_cons, Option.any_some]
    rcases hkind with rfl | rfl | rfl <;> decide
  have hclose : (sdtBody kind (body ++ '\'' :: r)).2 = '\'' :: r := by
    unfold sdtBody
    split_ifs
    · exact cBody_rest body.length le_rfl (fun c hc => (hbody c hc).2) hr.not_quote
    · exact (takeWhile_ends (fun c => decide (c ≠ '\'')) (w := body) (r := '\'' :: r)
        (fun c hc => by simpa using (hbody c hc).2) (by simp)).2
  have hL : kind ≠ 'L' := by rcases hkind with rfl | rfl | rfl <;> decide
  have heq : S.xLeafAt sign st = Scope.xSdtAt kind (body ++ '\'' :: r) st := by
    rw [Scope.xLeafAt, if_neg hdigit, hrest]
    simp only [hL, hkind, ↓reduceIte]
  rw [heq, Scope.xSdtAt]
  dsimp only
  rw [hclose]
  exact ⟨rfl, rfl⟩

theorem xNameAt_sym {nm : List Char} (hok : (Atom.sym nm).Ok) (hr : Ends r) (hst : st.rest = nm ++ r)
    (sign : ℤ) : (S.xNameAt sign st).2.rest = r ∧
      (S.xNameAt sign st).2.xrl = st.xrl + if (Atom.sym nm).counted S then sign else 0 := by
  obtain ⟨-, hlen, -, hnm⟩ := hok
  have htake := takeName_text (fun c hc => (hnm c hc).1) hlen hr
  rw [Scope.xNameAt, hst, htake]
  dsimp only
  cases hfind : S.find nm with
  | none => simp [Atom.counted, hfind]
  | some s =>
    dsimp only
    by_cases her : s.type = .er ∧ !s.known
    · rw [if_pos her]
      have hcount : Scope.counts s = false := by
        simp only [Scope.counts, her, decide_eq_false_iff_not]
        simp
      simp [Atom.counted, hfind, hcount]
    · rw [if_neg her]
      simp [Atom.counted, hfind]

theorem xLeafAt_sym {nm : List Char} (hok : (Atom.sym nm).Ok) (hr : Ends r) (hst : st.rest = nm ++ r)
    (sign : ℤ) : S.xLeafAt sign st = S.xNameAt sign st := by
  obtain ⟨hne, -, hdigit, hnm⟩ := hok
  obtain ⟨c, nm, rfl⟩ := List.exists_cons_of_ne_nil hne
  have hhead : ¬ st.rest.head?.any Char.isDigit = true := by
    rw [hst]
    simpa using hdigit
  rw [Scope.xLeafAt, if_neg hhead]
  split
  · next t hrest =>
    exfalso
    rw [hst, List.cons_append] at hrest
    have htail := (List.cons.inj hrest).2
    cases nm with
    | nil =>
      rw [List.nil_append] at htail
      exact hr.not_quote '\'' (by rw [htail]; rfl) rfl
    | cons d nm =>
      rw [List.cons_append] at htail
      exact (hnm d (by simp)).2 (List.cons.inj htail).1
  · rfl

/-- A term is read to its end and counted when it is relocatable. -/
theorem xFactor_atom {a : Atom} (hok : a.Ok) (hr : Ends r) (hst : st.rest = a.text ++ r) (fuel : ℕ)
    (sign : ℤ) : (S.xFactor (fuel + 1) sign st).2.rest = r ∧
      (S.xFactor (fuel + 1) sign st).2.xrl = st.xrl + if a.counted S then sign else 0 := by
  obtain ⟨h1, h2⟩ := counting_eq st
  cases a with
  | num ds =>
    obtain ⟨c, t, hct⟩ := List.exists_cons_of_ne_nil hok.1
    have hc : isDelim c = false := digit_not_delim (hok.2 c (by rw [hct]; simp))
    have hleaf := xLeafAt_num (S := S) hok hr (h1.trans hst) sign
    rw [xFactor_term hc (t := t ++ r) (by rw [hst, Atom.text, hct]; rfl)]
    rw [h2] at hleaf
    simpa [Atom.counted] using hleaf
  | sdt kind body =>
    have hc : isDelim kind = false := by rcases hok.1 with rfl | rfl | rfl <;> decide
    have hleaf := xLeafAt_sdt (S := S) hok hr (h1.trans hst) sign
    rw [xFactor_term hc (t := '\'' :: (body ++ ['\'']) ++ r) (by rw [hst]; rfl)]
    rw [h2] at hleaf
    simpa [Atom.counted] using hleaf
  | star =>
    have hrest : skipBlanks st.rest = '*' :: r := by
      rw [hst]
      exact skipBlanks_cons (by decide) r
    rw [Scope.xFactor, hrest]
    simp [Atom.counted]
  | sym nm =>
    obtain ⟨c, t, hct⟩ := List.exists_cons_of_ne_nil hok.1
    have hc : isDelim c = false := (hok.2.2.2 c (by rw [hct]; simp)).1
    have hname := xNameAt_sym (S := S) hok hr (h1.trans hst) sign
    rw [xFactor_term hc (t := t ++ r) (by rw [hst, Atom.text, hct]; rfl),
      xLeafAt_sym hok hr (h1.trans hst)]
    rw [h2] at hname
    exact hname

/-- The text behind a complete expression: the end, a closing parenthesis or another operator. -/
def EndsTerm (r : List Char) : Prop := ∀ c ∈ r.head?, c = '+' ∨ c = '-' ∨ c = ')'

theorem EndsTerm.ends (h : EndsTerm r) : Ends r := by
  intro c hc
  rcases h c hc with rfl | rfl | rfl <;> decide

theorem endsTerm_cons {c : Char} (h : c = '+' ∨ c = '-' ∨ c = ')') : EndsTerm (c :: r) := by
  intro c' hc
  simp only [List.head?_cons, Option.mem_def, Option.some.injEq] at hc
  rw [← hc]
  exact h

theorem xTermLoop_stop (h : EndsTerm r) (hst : st.rest = r) (fuel : ℕ) (v : ℤ) :
    S.xTermLoop (fuel + 1) v st = (v, st) := by
  have heta : ({ st with rest := r } : XState) = st := by rw [← hst]
  rw [Scope.xTermLoop, hst]
  cases r with
  | nil =>
    change (v, ({ st with rest := [] } : XState)) = (v, st)
    rw [heta]
  | cons c t =>
    have hc := h c rfl
    have hblank : c ≠ ' ' := by rcases hc with rfl | rfl | rfl <;> decide
    rw [skipBlanks_cons hblank]
    rcases hc with rfl | rfl | rfl <;>
    · change (v, ({ st with rest := _ :: t } : XState)) = (v, st)
      rw [heta]

theorem xAddLoop_stop (h : ∀ c ∈ r.head?, c = ')') (hst : st.rest = r) (fuel : ℕ) (v : ℤ) :
    S.xAddLoop (fuel + 1) v st = (v, st) := by
  have heta : ({ st with rest := r } : XState) = st := by rw [← hst]
  rw [Scope.xAddLoop, hst]
  cases r with
  | nil =>
    change (v, ({ st with rest := [] } : XState)) = (v, st)
    rw [heta]
  | cons c t =>
    obtain rfl := h c rfl
    rw [skipBlanks_cons (by decide)]
    change (v, ({ st with rest := ')' :: t } : XState)) = (v, st)
    rw [heta]

structure Reads (st st' : XState) (r : List Char) (n : ℤ) : Prop where
  rest : st'.rest = r
  xrl : st'.xrl = st.xrl + n

/-- How the evaluator reads the text of a factor, a product and a sum. -/
theorem eval_text (e : Expr) (he : e.Proper) :
    (e.level = 0 → ∀ (r : List Char) (fuel : ℕ) (sign : ℤ) (st : XState), Ends r →
      3 * (e.text ++ r).length + 1 ≤ fuel → st.rest = e.text ++ r →
        Reads st (S.xFactor fuel sign st).2 r (e.contrib S sign)) ∧
    (e.level ≤ 1 → ∀ (r : List Char) (fuel : ℕ) (sign : ℤ) (st : XState), Ends r →
      3 * (e.text ++ r).length + 2 ≤ fuel → st.rest = e.text ++ r →
        ∃ v st' fuel', S.xTerm fuel sign st = S.xTermLoop fuel' v st' ∧ 3 * r.length + 1 ≤ fuel' ∧
          Reads st st' r (e.contrib S sign)) ∧
    (∀ (r : List Char) (fuel : ℕ) (st : XState), EndsTerm r →
      3 * (e.text ++ r).length + 3 ≤ fuel → st.rest = e.text ++ r →
        ∃ v st' fuel', S.xAdd fuel st = S.xAddLoop fuel' v st' ∧ 3 * r.length + 1 ≤ fuel' ∧
          Reads st st' r (e.contrib S 1)) := by
  -- a factor is also a product, and a product is also a sum
  have toTerm (e : Expr) (h0 : e.level = 0 → ∀ (r : List Char) (fuel : ℕ) (sign : ℤ) (st : XState),
      Ends r → 3 * (e.text ++ r).length + 1 ≤ fuel → st.rest = e.text ++ r →
        Reads st (S.xFactor fuel sign st).2 r (e.contrib S sign)) (hl : e.level = 0) :
      ∀ (r : List Char) (fuel : ℕ) (sign : ℤ) (st : XState), Ends r →
        3 * (e.text ++ r).length + 2 ≤ fuel → st.rest = e.text ++ r →
          ∃ v st' fuel', S.xTerm fuel sign st = S.xTermLoop fuel' v st' ∧ 3 * r.length + 1 ≤ fuel' ∧
            Reads st st' r (e.contrib S sign) := by
    intro r fuel sign st hr hfuel hst
    obtain ⟨fuel, rfl⟩ := Nat.exists_eq_add_one_of_ne_zero (by omega : fuel ≠ 0)
    have hread := h0 hl r fuel sign st hr (by omega) hst
    refine ⟨_, _, fuel, by rw [Scope.xTerm], ?_, hread⟩
    rw [List.length_append] at hfuel
    omega
  have toSum (e : Expr) (h1 : ∀ (r : List Char) (fuel : ℕ) (sign : ℤ) (st : XState), Ends r →
      3 * (e.text ++ r).length + 2 ≤ fuel → st.rest = e.text ++ r →
        ∃ v st' fuel', S.xTerm fuel sign st = S.xTermLoop fuel' v st' ∧ 3 * r.length + 1 ≤ fuel' ∧
          Reads st st' r (e.contrib S sign)) :
      ∀ (r : List Char) (fuel : ℕ) (st : XState), EndsTerm r →
        3 * (e.text ++ r).length + 3 ≤ fuel → st.rest = e.text ++ r →
          ∃ v st' fuel', S.xAdd fuel st = S.xAddLoop fuel' v st' ∧ 3 * r.length + 1 ≤ fuel' ∧
            Reads st st' r (e.contrib S 1) := by
    intro r fuel st hr hfuel hst
    obtain ⟨fuel, rfl⟩ := Nat.exists_eq_add_one_of_ne_zero (by omega : fuel ≠ 0)
    obtain ⟨v, st', fuel', hterm, hf, hread⟩ := h1 r fuel 1 st hr.ends (by omega) hst
    obtain ⟨fuel', rfl⟩ := Nat.exists_eq_add_one_of_ne_zero (by omega : fuel' ≠ 0)
    refine ⟨v, st', fuel, ?_, ?_, hread⟩
    · rw [Scope.xAdd, hterm, xTermLoop_stop hr hread.rest]
    · rw [List.length_append] at hfuel
      omega
  induction e with
  | atom a =>
    have h0 : (Expr.atom a).level = 0 → ∀ (r : List Char) (fuel : ℕ) (sign : ℤ) (st : XState), Ends r →
        3 * ((Expr.atom a).text ++ r).length + 1 ≤ fuel → st.rest = (Expr.atom a).text ++ r →
          Reads st (S.xFactor fuel sign st).2 r ((Expr.atom a).contrib S sign) := by
      intro _ r fuel sign st hr hfuel hst
      obtain ⟨fuel, rfl⟩ := Nat.exists_eq_add_one_of_ne_zero (by omega : fuel ≠ 0)
      obtain ⟨h1, h2⟩ := xFactor_atom (S := S) he hr hst fuel sign
      exact ⟨h1, h2⟩
    have h1 := toTerm _ h0 rfl
    exact ⟨h0, fun _ => h1, toSum _ h1⟩
  | group e ih =>
    obtain ⟨-, -, hsum⟩ := ih he
    have h0 : (Expr.group e).level = 0 → ∀ (r : List Char) (fuel : ℕ) (sign : ℤ) (st : XState), Ends r →
        3 * ((Expr.group e).text ++ r).length + 1 ≤ fuel → st.rest = (Expr.group e).text ++ r →
          Reads st (S.xFactor fuel sign st).2 r ((Expr.group e).contrib S sign) := by
      intro _ r fuel sign st hr hfuel hst
      obtain ⟨fuel, rfl⟩ := Nat.exists_eq_add_one_of_ne_zero (by omega : fuel ≠ 0)
      have htext : (Expr.group e).text ++ r = '(' :: (e.text ++ ')' :: r) := by
        simp [Expr.text]
      have hskip : skipBlanks st.rest = '(' :: (e.text ++ ')' :: r) := by
        rw [hst, htext]
        exact skipBlanks_cons (by decide) _
      have hlen := congrArg List.length htext
      rw [List.length_cons] at hlen
      obtain ⟨v, st', fuel', hadd, hf, hread⟩ := hsum (')' :: r) fuel
        { st with
          rest := e.text ++ ')' :: r, xrl := 0, depth := st.depth + 1, deep := st.deep ∨ 6 < st.depth + 1 }
        (endsTerm_cons (by decide)) (by omega) rfl
      obtain ⟨fuel', rfl⟩ := Nat.exists_eq_add_one_of_ne_zero (by omega : fuel' ≠ 0)
      rw [xAddLoop_stop (by simp) hread.rest] at hadd
      have hclose : skipBlanks st'.rest = ')' :: r := by
        rw [hread.rest]
        exact skipBlanks_cons (by decide) _
      have hxrl : st'.xrl = e.contrib S 1 := by
        rw [hread.xrl]
        exact zero_add _
      rw [Scope.xFactor, hskip]
      simp only [hadd, hclose, hxrl]
      exact ⟨rfl, rfl⟩
    have h1 := toTerm _ h0 rfl
    exact ⟨h0, fun _ => h1, toSum _ h1⟩
  | neg e ih =>
    obtain ⟨hfac, -, -⟩ := ih he.2
    have h0 : (Expr.neg e).level = 0 → ∀ (r : List Char) (fuel : ℕ) (sign : ℤ) (st : XState), Ends r →
        3 * ((Expr.neg e).text ++ r).length + 1 ≤ fuel → st.rest = (Expr.neg e).text ++ r →
          Reads st (S.xFactor fuel sign st).2 r ((Expr.neg e).contrib S sign) := by
      intro _ r fuel sign st hr hfuel hst
      obtain ⟨fuel, rfl⟩ := Nat.exists_eq_add_one_of_ne_zero (by omega : fuel ≠ 0)
      have hskip : skipBlanks st.rest = '-' :: (e.text ++ r) := by
        rw [hst]
        exact skipBlanks_cons (by decide) _
      have hlen : ((Expr.neg e).text ++ r).length = (e.text ++ r).length + 1 := rfl
      have hread := hfac he.1 r fuel (-sign) { st with rest := e.text ++ r } hr (by omega) rfl
      rw [Scope.xFactor, hskip]
      exact ⟨hread.rest, hread.xrl⟩
    have h1 := toTerm _ h0 rfl
    exact ⟨h0, fun _ => h1, toSum _ h1⟩
  | pos e ih =>
    obtain ⟨hfac, -, -⟩ := ih he.2
    have h0 : (Expr.pos e).level = 0 → ∀ (r : List Char) (fuel : ℕ) (sign : ℤ) (st : XState), Ends r →
        3 * ((Expr.pos e).text ++ r).length + 1 ≤ fuel → st.rest = (Expr.pos e).text ++ r →
          Reads st (S.xFactor fuel sign st).2 r ((Expr.pos e).contrib S sign) := by
      intro _ r fuel sign st hr hfuel hst
      obtain ⟨fuel, rfl⟩ := Nat.exists_eq_add_one_of_ne_zero (by omega : fuel ≠ 0)
      have hskip : skipBlanks st.rest = '+' :: (e.text ++ r) := by
        rw [hst]
        exact skipBlanks_cons (by decide) _
      have hlen : ((Expr.pos e).text ++ r).length = (e.text ++ r).length + 1 := rfl
      have hread := hfac he.1 r fuel sign { st with rest := e.text ++ r } hr (by omega) rfl
      rw [Scope.xFactor, hskip]
      exact ⟨hread.rest, hread.xrl⟩
    have h1 := toTerm _ h0 rfl
    exact ⟨h0, fun _ => h1, toSum _ h1⟩
  | mul div a b iha ihb =>
    obtain ⟨hla, hlb, hpa, hpb⟩ := he
    obtain ⟨-, hterm, -⟩ := iha hpa
    obtain ⟨hfac, -, -⟩ := ihb hpb
    have h1 : ∀ (r : List Char) (fuel : ℕ) (sign : ℤ) (st : XState), Ends r →
        3 * ((Expr.mul div a b).text ++ r).length + 2 ≤ fuel → st.rest = (Expr.mul div a b).text ++ r →
          ∃ v st' fuel', S.xTerm fuel sign st = S.xTermLoop fuel' v st' ∧ 3 * r.length + 1 ≤ fuel' ∧
            Reads st st' r ((Expr.mul div a b).contrib S sign) := by
      intro r fuel sign st hr hfuel hst
      have htext : (Expr.mul div a b).text ++ r =
          a.text ++ ((if div then '/' else '*') :: (b.text ++ r)) := by
        simp [Expr.text]
      rw [htext] at hst hfuel
      obtain ⟨v, st', fuel', hx, hf, hread⟩ := hterm hla _ fuel sign st
        (ends_cons (by cases div <;> decide)) hfuel hst
      obtain ⟨fuel', rfl⟩ := Nat.exists_eq_add_one_of_ne_zero (by omega : fuel' ≠ 0)
      rw [List.length_cons] at hf
      have hreadb := hfac hlb r fuel' 0 { st' with rest := b.text ++ r } hr (by omega) rfl
      generalize hb : S.xFactor fuel' 0 { st' with rest := b.text ++ r } = w at hreadb
      have hf' : 3 * r.length + 1 ≤ fuel' := by
        rw [List.length_append] at hf
        omega
      have hxrl : st'.xrl + b.contrib S 0 = st.xrl + (Expr.mul div a b).contrib S sign := by
        rw [hread.xrl, Expr.contrib, add_assoc]
      cases div with
      | false =>
        have hskip : skipBlanks st'.rest = '*' :: (b.text ++ r) := by
          rw [hread.rest]
          exact skipBlanks_cons (by decide) _
        refine ⟨v * w.1, w.2, fuel', ?_, hf', ⟨hreadb.rest, hreadb.xrl.trans hxrl⟩⟩
        rw [hx, Scope.xTermLoop, hskip]
        simp only [hb]
      | true =>
        have hskip : skipBlanks st'.rest = '/' :: (b.text ++ r) := by
          rw [hread.rest]
          exact skipBlanks_cons (by decide) _
        refine ⟨if w.1 = 0 then 0 else v.tdiv w.1, w.2, fuel', ?_, hf',
          ⟨hreadb.rest, hreadb.xrl.trans hxrl⟩⟩
        rw [hx, Scope.xTermLoop, hskip]
        simp only [hb]
    refine ⟨fun h => absurd h (by simp [Expr.level]), fun _ => h1, toSum _ h1⟩
  | add minus a b iha ihb =>
    obtain ⟨hlb, hpa, hpb⟩ := he
    obtain ⟨-, -, hsum⟩ := iha hpa
    obtain ⟨-, hterm, -⟩ := ihb hpb
    refine ⟨fun h => absurd h (by simp [Expr.level]), fun h => absurd h (by simp [Expr.level]), ?_⟩
    intro r fuel st hr hfuel hst
    have htext : (Expr.add minus a b).text ++ r =
        a.text ++ ((if minus then '-' else '+') :: (b.text ++ r)) := by
      simp [Expr.text]
    rw [htext] at hst hfuel
    obtain ⟨v, st', fuel', hx, hf, hread⟩ := hsum _ fuel st
      (endsTerm_cons (by cases minus <;> decide)) hfuel hst
    obtain ⟨fuel', rfl⟩ := Nat.exists_eq_add_one_of_ne_zero (by omega : fuel' ≠ 0)
    rw [List.length_cons] at hf
    obtain ⟨w, st'', fuel'', hy, hf'', hreadb⟩ := hterm hlb r fuel' (if minus then -1 else 1)
      { st' with rest := b.text ++ r } hr.ends (by omega) rfl
    obtain ⟨fuel'', rfl⟩ := Nat.exists_eq_add_one_of_ne_zero (by omega : fuel'' ≠ 0)
    rw [xTermLoop_stop hr hreadb.rest] at hy
    have hf' : 3 * r.length + 1 ≤ fuel' := by
      rw [List.length_append] at hf
      omega
    have hxrl : st'.xrl + b.contrib S (if minus then -1 else 1) =
        st.xrl + (Expr.add minus a b).contrib S 1 := by
      rw [hread.xrl, Expr.contrib, add_assoc]
    cases minus with
    | false =>
      have hskip : skipBlanks st'.rest = '+' :: (b.text ++ r) := by
        rw [hread.rest]
        exact skipBlanks_cons (by decide) _
      refine ⟨v + w, st'', fuel', ?_, hf', ⟨hreadb.rest, hreadb.xrl.trans hxrl⟩⟩
      rw [hx, Scope.xAddLoop, hskip]
      exact congrArg (fun z : ℤ × XState => S.xAddLoop fuel' (v + z.1) z.2) hy
    | true =>
      have hskip : skipBlanks st'.rest = '-' :: (b.text ++ r) := by
        rw [hread.rest]
        exact skipBlanks_cons (by decide) _
      refine ⟨v - w, st'', fuel', ?_, hf', ⟨hreadb.rest, hreadb.xrl.trans hxrl⟩⟩
      rw [hx, Scope.xAddLoop, hskip]
      exact congrArg (fun z : ℤ × XState => S.xAddLoop fuel' (v - z.1) z.2) hy

end Evaluator

end Cc370.As370
