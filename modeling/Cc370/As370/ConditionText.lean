import Cc370.As370.Conditions

namespace Cc370.As370

/-- Where a reader of the language stands in a text: the character before, whether a quote is open,
the depth of the parentheses and whether a quote or the outermost one has just been closed. -/
structure Lay where
  last : Option Char
  q : Bool
  d : ℕ
  closed : Bool
deriving DecidableEq

namespace Lay

def start : Lay := ⟨none, false, 0, false⟩

def next (s : Lay) (c : Char) : Option Lay :=
  if c = '\'' then
    if s.q then some ⟨some c, false, s.d, true⟩
    else if Tok.attrMark s.last then some ⟨some c, false, s.d, false⟩ else some ⟨some c, true, s.d, false⟩
  else if s.q then some ⟨some c, true, s.d, false⟩
  else if c = '(' then some ⟨some c, false, s.d + 1, false⟩
  else if c = ')' then if s.d = 0 then none else some ⟨some c, false, s.d - 1, s.d = 1⟩
  else some ⟨some c, false, s.d, false⟩

def run (s : Lay) (t : List Char) : Option Lay := t.foldlM next s

/-- The character goes on with the word `o`: it is no blank, no letter behind a closed term, and no
quote or parenthesis behind an operator. -/
def fits (s : Lay) (o : List Char) (c : Char) : Bool :=
  s.q ∨ (s.d = 0 → c ≠ ' ' ∧ ¬ (s.closed ∧ c.isAlpha)) ∧
    (o ≠ [] → (c = '\'' → ¬ (isRelop o ∨ isLogical o)) ∧ (c = '(' → s.d = 0 → ¬ isLogical o))

/-- The text is read as one word. -/
def lexes : Lay → List Char → List Char → Bool
  | _, _, [] => true
  | s, o, c :: t => s.fits o c ∧ (s.next c).any fun s' => lexes s' (o ++ [c]) t

end Lay

/-- A word of a condition: its quotes and parentheses are balanced. -/
structure Word (t : List Char) (s : Lay) : Prop where
  ne : t ≠ []
  short : t.length ≤ 255
  run : Lay.start.run t = some s
  q : s.q = false
  d : s.d = 0
  shut : s.last = some '\'' ∨ s.last = some ')' → s.closed = true
  whole : Lay.start.lexes [] t = true

section Tokens

variable {s s' : Lay} {k : Tok} {c : Char} {t r : List Char}

/-- The token read so far is the word `o`, and the reader stands at `s`. -/
structure Follows (k : Tok) (s : Lay) (w : List Char) : Prop where
  text : k.o = w
  q : k.q = s.q
  d : k.d = s.d
  closed : k.closed = s.closed
  last : w.getLast? = s.last

theorem Follows.not_ends {o : List Char} (h : Follows k s o) (hf : s.fits o c = true) : k.ends c = false := by
  rw [Tok.ends, h.q, h.d]
  simp only [Lay.fits, decide_eq_true_eq] at hf
  simp only [decide_eq_false_iff_not]
  rintro ⟨hq, hd, rfl⟩
  rw [Bool.not_eq_true'] at hq
  rcases hf with hf | ⟨hf, -⟩
  · rw [hq] at hf
    exact absurd hf (by simp)
  · exact (hf (by exact_mod_cast hd)).1 rfl

theorem Follows.not_breaks {o : List Char} (h : Follows k s o) (hf : s.fits o c = true) : k.breaks c = false := by
  rw [Tok.breaks, h.q, h.d, h.closed, h.text]
  simp only [Lay.fits, decide_eq_true_eq] at hf
  simp only [decide_eq_false_iff_not, Bool.not_eq_true']
  rintro (⟨hq, hd, hc, ha⟩ | ⟨hc, hq, ho, hop⟩ | ⟨hc, hq, hd, ho, hop⟩) <;> rcases hf with hf | ⟨hf, hf'⟩
  · rw [hq] at hf
    exact absurd hf (by simp)
  · exact (hf (by exact_mod_cast hd)).2 ⟨hc, ha⟩
  · rw [hq] at hf
    exact absurd hf (by simp)
  · exact (hf' ho).1 hc hop
  · rw [hq] at hf
    exact absurd hf (by simp)
  · exact (hf' ho).2 hc (by exact_mod_cast hd) hop

theorem Follows.add {o : List Char} (h : Follows k s o) (hlen : o.length < 255) (hn : s.next c = some s') :
    Follows (k.add c) s' (o ++ [c]) := by
  have ho : (if k.o.length < 255 then k.o ++ [c] else k.o) = o ++ [c] := by
    rw [h.text, if_pos hlen]
  have hlast : (o ++ [c]).getLast? = some c := by simp
  simp only [Lay.next] at hn
  simp only [Tok.add, ho]
  rw [h.text, h.q, h.last, h.d]
  by_cases hc : c = '\''
  · rw [if_pos hc] at hn ⊢
    cases hq : s.q with
    | true =>
      rw [hq, if_pos rfl] at hn
      obtain rfl := Option.some.inj hn
      simp only [true_or, ↓reduceIte]
      exact ⟨rfl, rfl, rfl, rfl, hlast⟩
    | false =>
      rw [hq, if_neg (by simp)] at hn
      cases hm : Tok.attrMark s.last with
      | true =>
        rw [hm, if_pos rfl] at hn
        obtain rfl := Option.some.inj hn
        exact ⟨rfl, rfl, rfl, rfl, hlast⟩
      | false =>
        rw [hm, if_neg (by simp)] at hn
        obtain rfl := Option.some.inj hn
        exact ⟨rfl, rfl, rfl, rfl, hlast⟩
  · rw [if_neg hc] at hn ⊢
    cases hq : s.q with
    | true =>
      rw [hq, if_pos rfl] at hn
      obtain rfl := Option.some.inj hn
      exact ⟨rfl, rfl, rfl, rfl, hlast⟩
    | false =>
      rw [hq, if_neg (by simp)] at hn
      by_cases hopen : c = '('
      · rw [if_pos hopen] at hn
        obtain rfl := Option.some.inj hn
        rw [if_pos ⟨rfl, hopen⟩]
        exact ⟨rfl, rfl, by push_cast; rfl, rfl, hlast⟩
      · rw [if_neg hopen] at hn
        rw [if_neg (fun h' => hopen h'.2)]
        by_cases hclose : c = ')'
        · rw [if_pos hclose] at hn
          rw [if_pos ⟨rfl, hclose⟩]
          split_ifs at hn with hd
          obtain rfl := Option.some.inj hn
          refine ⟨rfl, rfl, ?_, ?_, hlast⟩
          · dsimp only
            omega
          · dsimp only
            rw [decide_eq_decide]
            omega
        · rw [if_neg hclose] at hn
          rw [if_neg (fun h' => hclose h'.2)]
          obtain rfl := Option.some.inj hn
          exact ⟨rfl, rfl, rfl, rfl, hlast⟩

/-- The tokenizer reads a word to its end. -/
theorem tokens_word : ∀ {t o : List Char} {k : Tok} {s s' : Lay}, Follows k s o → (o ++ t).length ≤ 255 →
    s.run t = some s' → s.lexes o t = true → ∃ k', Follows k' s' (o ++ t) ∧
      ∀ r, Tok.tokens (t ++ r) (some k) = Tok.tokens r (some k') := by
  intro t
  induction t with
  | nil =>
    intro o k s s' h hlen hrun hlex
    obtain rfl := Option.some.inj hrun
    exact ⟨k, by rwa [List.append_nil], fun r => rfl⟩
  | cons c t ih =>
    intro o k s s' h hlen hrun hlex
    simp only [Lay.lexes, decide_eq_true_eq] at hlex
    obtain ⟨hfit, hrest⟩ := hlex
    obtain ⟨s1, hs1, hlex1⟩ := (Option.any_eq_true ..).mp hrest
    have hrun1 : s1.run t = some s' := by
      rw [Lay.run, List.foldlM_cons, hs1] at hrun
      exact hrun
    have hlen1 : (o ++ [c] ++ t).length ≤ 255 := by simpa using hlen
    have hadd := h.add (by simp at hlen; omega) hs1
    obtain ⟨k', hk', heq⟩ := ih hadd hlen1 hrun1 hlex1
    refine ⟨k', by simpa using hk', fun r => ?_⟩
    rw [List.cons_append, Tok.tokens, h.not_ends hfit, h.not_breaks hfit]
    exact heq r

theorem follows_fresh : Follows Tok.fresh Lay.start [] := ⟨rfl, rfl, rfl, rfl, rfl⟩

/-- The first character of a word begins a token. -/
theorem tokens_start (hw : Word t s) : ∃ k, Follows k s t ∧
    (∀ r, Tok.tokens (t ++ r) none = Tok.tokens r (some k)) ∧
    (∀ r k0, k0.ends (t.headD ' ') = false → k0.breaks (t.headD ' ') = true →
      Tok.tokens (t ++ r) (some k0) = k0.o :: Tok.tokens r (some k)) := by
  obtain ⟨hne, hshort, hrun, hq, hd, -, hlex⟩ := hw
  obtain ⟨c, t, rfl⟩ := List.exists_cons_of_ne_nil hne
  simp only [Lay.lexes, decide_eq_true_eq] at hlex
  obtain ⟨hfit, hrest⟩ := hlex
  obtain ⟨s1, hs1, hlex1⟩ := (Option.any_eq_true ..).mp hrest
  have hrun1 : s1.run t = some s := by
    rw [Lay.run, List.foldlM_cons, hs1] at hrun
    exact hrun
  have hblank : c ≠ ' ' := by
    simp only [Lay.fits, Lay.start, decide_eq_true_eq] at hfit
    rcases hfit with h | ⟨h, -⟩
    · exact absurd h (by simp)
    · exact (h trivial).1
  have hadd := follows_fresh.add (by simp) hs1
  obtain ⟨k, hk, heq⟩ := tokens_word hadd (by simpa using hshort) hrun1 hlex1
  refine ⟨k, hk, fun r => ?_, fun r k0 hends hbreaks => ?_⟩
  · rw [List.cons_append, Tok.tokens, if_neg hblank]
    exact heq r
  · rw [List.headD_cons] at hends hbreaks
    rw [List.cons_append, Tok.tokens, hends, hbreaks, heq r]
    rfl

end Tokens

theorem Relop.word (rel : Relop) : Word rel.text ⟨rel.text.getLast?, false, 0, false⟩ := by
  cases rel <;> exact ⟨by decide, by decide, rfl, rfl, rfl, by decide, by decide⟩

theorem notText_word : Word notText ⟨some 'T', false, 0, false⟩ :=
  ⟨by decide, by decide, rfl, rfl, rfl, by decide, by decide⟩

def spaces (n : ℕ) : List Char := List.replicate n ' '

theorem tokens_spaces (n : ℕ) (r : List Char) : Tok.tokens (spaces n ++ r) none = Tok.tokens r none := by
  induction n with
  | zero => rfl
  | succ n ih => exact ih

/-- The text is cut into the tokens `ts`, and the reader stands in the last one of them. -/
structure Lexed (text : List Char) (ts : List (List Char)) (w : List Char) (k : Tok) (s : Lay) : Prop where
  word : Word w s
  follows : Follows k s w
  start : ∀ r, Tok.tokens (text ++ r) none = ts ++ Tok.tokens r (some k)
  within : ∀ r k', k'.ends (text.headD ' ') = false → k'.breaks (text.headD ' ') = true →
    Tok.tokens (text ++ r) (some k') = k'.o :: ts ++ Tok.tokens r (some k)
  ne : text ≠ []

section Lexed

variable {text text' : List Char} {ts ts' : List (List Char)} {w w' : List Char} {k k' : Tok} {s s' : Lay}

theorem Word.lexed (hw : Word w s) : ∃ k, Lexed w [] w k s := by
  obtain ⟨k, hk, hstart, hwithin⟩ := tokens_start hw
  exact ⟨k, hw, hk, hstart, hwithin, hw.ne⟩

theorem Lexed.ends_blank (h : Lexed text ts w k s) : k.ends ' ' = true := by
  rw [Tok.ends, h.follows.q, h.follows.d, h.word.q, h.word.d]
  rfl

/-- The token that is read is behind a blank or is broken off by what follows it. -/
def Parted (n : ℕ) (k : Tok) (c : Char) : Prop := 0 < n ∨ k.ends c = false ∧ k.breaks c = true

theorem Lexed.append (h : Lexed text ts w k s) (h' : Lexed text' ts' w' k' s') {n : ℕ}
    (hn : Parted n k (text'.headD ' ')) :
    Lexed (text ++ (spaces n ++ text')) (ts ++ w :: ts') w' k' s' := by
  have key : ∀ r, Tok.tokens (spaces n ++ text' ++ r) (some k) = w :: ts' ++ Tok.tokens r (some k') := by
    intro r
    rcases n with _ | n
    · rcases hn with hn | ⟨hends, hbreaks⟩
      · exact absurd hn (by simp)
      · rw [← h.follows.text]
        exact h'.within r k hends hbreaks
    · have hb : spaces (n + 1) ++ text' ++ r = ' ' :: (spaces n ++ (text' ++ r)) := by
        rw [List.append_assoc]
        rfl
      rw [hb, Tok.tokens, h.ends_blank, if_pos rfl, tokens_spaces, h'.start, h.follows.text, List.cons_append]
  have hhead : (text ++ (spaces n ++ text')).headD ' ' = text.headD ' ' := by
    obtain ⟨c, t, rfl⟩ := List.exists_cons_of_ne_nil h.ne
    rfl
  refine ⟨h'.word, h'.follows, fun r => ?_, fun r k0 hends hbreaks => ?_, fun hnil => h.ne (List.append_eq_nil_iff.mp hnil).1⟩
  · rw [List.append_assoc, h.start, key r, List.append_assoc]
  · rw [hhead] at hends hbreaks
    rw [List.append_assoc, h.within _ k0 hends hbreaks, key r]
    simp

/-- A closing parenthesis behind a term. -/
def close (t : List Char) : List Char := if t.length < 255 then t ++ [')'] else t

theorem Lexed.tokens (h : Lexed text ts w k s) (i j : ℕ) :
    Tok.tokens (spaces i ++ text ++ spaces j) none = ts ++ [w] := by
  rw [List.append_assoc, tokens_spaces, h.start, ← h.follows.text]
  rcases j with _ | j
  · rfl
  · have hb : spaces (j + 1) = ' ' :: (spaces j ++ []) := by
      rw [List.append_nil]
      rfl
    rw [hb, Tok.tokens, h.ends_blank, if_pos rfl, tokens_spaces, Tok.tokens]

theorem Lexed.tokens_close (h : Lexed text ts w k s) (i j : ℕ) :
    Tok.tokens (spaces i ++ text ++ spaces j ++ [')']) none =
      if j = 0 then ts ++ [close w] else ts ++ [w, [')']] := by
  rw [List.append_assoc, List.append_assoc, tokens_spaces, h.start]
  rcases j with _ | j
  · have hb : k.breaks ')' = false := by simp [Tok.breaks]
    have he : k.ends ')' = false := by simp [Tok.ends]
    have ho : (k.add ')').o = close w := by
      rw [close, ← h.follows.text]
      simp only [Tok.add]
      split_ifs <;> rfl
    rw [if_pos rfl, ← ho]
    change ts ++ Tok.tokens [')'] (some k) = _
    rw [Tok.tokens, he, hb]
    rfl
  · have hb : spaces (j + 1) ++ [')'] = ' ' :: (spaces j ++ [')']) := rfl
    rw [if_neg (by omega), hb, Tok.tokens, h.ends_blank, if_pos rfl, tokens_spaces, h.follows.text]
    rfl

/-- A letter behind a quote or a parenthesis begins another token. -/
theorem Lexed.parted_letter (h : Lexed text ts w k s) (hs : s.closed = true) {c : Char} (hc : c.isAlpha = true) {n : ℕ} :
    Parted n k c := by
  have hne : c ≠ ' ' := by
    rintro rfl
    exact absurd hc (by decide)
  refine Or.inr ⟨?_, ?_⟩
  · simp [Tok.ends, hne]
  · simp [Tok.breaks, h.follows.q, h.follows.d, h.follows.closed, h.word.q, h.word.d, hs, hc]

/-- So does a quote behind an operator. -/
theorem Lexed.parted_quote (h : Lexed text ts w k s) (hw : (isRelop w || isLogical w) = true) {n : ℕ} :
    Parted n k '\'' := by
  refine Or.inr ⟨by simp [Tok.ends], ?_⟩
  simp only [Tok.breaks, h.follows.q, h.follows.text, h.word.q]
  simpa [h.word.ne] using hw

/-- So does a parenthesis behind a logical operator. -/
theorem Lexed.parted_paren (h : Lexed text ts w k s) (hw : isLogical w = true) {n : ℕ} : Parted n k '(' := by
  refine Or.inr ⟨by simp [Tok.ends], ?_⟩
  simp [Tok.breaks, h.follows.q, h.follows.text, h.follows.d, h.word.q, h.word.ne, h.word.d, hw]

end Lexed

namespace Lay

/-- The same place `m` parentheses further in. -/
structure Shift (m : ℕ) (s t : Lay) : Prop where
  last : t.last = s.last
  q : t.q = s.q
  d : t.d = s.d + m

variable {m : ℕ} {s s' t t' : Lay} {c : Char} {x y : List Char}

theorem Shift.next (h : Shift m s t) (hn : s.next c = some s') : ∃ t', t.next c = some t' ∧ Shift m s' t' := by
  obtain ⟨last, q, d⟩ := h
  simp only [Lay.next] at hn ⊢
  rw [last, q, d]
  split_ifs at hn ⊢ with h1 h2 h3 h4 h5 h6 h7 h8 <;> try contradiction
  all_goals obtain rfl := Option.some.inj hn
  any_goals exact ⟨_, rfl, rfl, rfl, rfl⟩
  · exact ⟨_, rfl, rfl, rfl, by dsimp only; omega⟩
  · omega
  · exact ⟨_, rfl, rfl, rfl, by dsimp only; omega⟩

theorem run_cons (s : Lay) (c : Char) (x : List Char) : s.run (c :: x) = (s.next c).bind fun s' => s'.run x := rfl

theorem run_append (s : Lay) (x y : List Char) : s.run (x ++ y) = (s.run x).bind fun s' => s'.run y := by
  rw [run, List.foldlM_append]
  rfl

theorem Shift.run (h : Shift m s t) (hn : s.run x = some s') : ∃ t', t.run x = some t' ∧ Shift m s' t' := by
  induction x generalizing s t with
  | nil =>
    obtain rfl := Option.some.inj hn
    exact ⟨t, rfl, h⟩
  | cons c x ih =>
    rw [run_cons] at hn
    obtain ⟨s1, hs1, hrun⟩ := Option.bind_eq_some_iff.mp hn
    obtain ⟨t1, ht1, h1⟩ := h.next hs1
    obtain ⟨t', ht', h'⟩ := ih h1 hrun
    exact ⟨t', by rw [run_cons, ht1]; exact ht', h'⟩

/-- Within parentheses nothing ends a word. -/
theorem Shift.fits (h : Shift 1 s t) {o : List Char} (ho : o.head? = some '(') : t.fits o c = true := by
  have hd := h.d
  have hop : ¬ (isRelop o ∨ isLogical o) := by
    obtain ⟨o', rfl⟩ := List.head?_eq_some_iff.mp ho
    simp [isRelop, isLogical, Relop.ofText, Relop.all, Relop.text, notText, andText, orText]
  simp only [Lay.fits, decide_eq_true_eq]
  exact Or.inr ⟨fun h0 => by omega, fun _ => ⟨fun _ => hop, fun _ h0 => by omega⟩⟩

theorem Shift.lexes (h : Shift 1 s t) (hn : s.run x = some s') (hq : s'.q = false) {o : List Char}
    (ho : o.head? = some '(') : t.lexes o (x ++ [')']) = true := by
  induction x generalizing s t o with
  | nil =>
    obtain rfl := Option.some.inj hn
    have hd := h.d
    have hnext : t.next ')' = some ⟨some ')', false, t.d - 1, t.d = 1⟩ := by
      simp [Lay.next, h.q, hq, hd]
    simp only [List.nil_append, Lay.lexes, h.fits ho, hnext]
    rfl
  | cons c x ih =>
    rw [run_cons] at hn
    obtain ⟨s1, hs1, hrun⟩ := Option.bind_eq_some_iff.mp hn
    obtain ⟨t1, ht1, h1⟩ := h.next hs1
    have hrest := ih h1 hrun (o := o ++ [c]) (by rw [List.head?_append, ho]; rfl)
    simp only [List.cons_append, Lay.lexes, h.fits ho, ht1, Option.any_some, hrest]
    rfl

theorem next_last (hn : s.next c = some s') : s'.last = some c := by
  simp only [Lay.next] at hn
  split_ifs at hn <;> obtain rfl := Option.some.inj hn <;> rfl

theorem run_last (hn : s.run x = some s') : s'.last = x.getLast?.or s.last := by
  induction x generalizing s with
  | nil =>
    obtain rfl := Option.some.inj hn
    rfl
  | cons c x ih =>
    rw [run_cons] at hn
    obtain ⟨s1, hs1, hrun⟩ := Option.bind_eq_some_iff.mp hn
    rw [ih hrun, next_last hs1, List.getLast?_cons]
    cases x.getLast? <;> rfl

/-- Where the text stands changes nothing, unless it begins with a quote that would be an attribute's. -/
theorem next_shift (hq : s.q = false) (hc : c = '\'' → Tok.attrMark s.last = false) (hn : start.next c = some s') :
    ∃ t', s.next c = some t' ∧ Shift s.d s' t' := by
  by_cases h : c = '\''
  · have hopen : s.next c = some ⟨some c, true, s.d, false⟩ := by
      simp only [Lay.next]
      rw [if_pos h, hq, hc h]
      rfl
    have hstart : start.next c = some ⟨some c, true, 0, false⟩ := by
      rw [h]
      rfl
    rw [hstart] at hn
    obtain rfl := Option.some.inj hn
    exact ⟨_, hopen, rfl, rfl, by simp⟩
  · have hs : s.next c = Lay.next ⟨none, false, s.d, s.closed⟩ c := by
      simp only [Lay.next]
      rw [if_neg h, if_neg h, hq]
    have h0 : Shift s.d start ⟨none, false, s.d, s.closed⟩ := ⟨rfl, rfl, by simp [start]⟩
    rw [hs]
    exact h0.next hn

end Lay

/-- Wherever the text stands, it leaves no quote and no parenthesis open. -/
def Steady (x : List Char) : Prop :=
  ∀ s : Lay, s.q = false → (x.head? = some '\'' → Tok.attrMark s.last = false) →
    ∃ s', s.run x = some s' ∧ s'.q = false ∧ s'.d = s.d

section Steady

variable {x y : List Char} {s : Lay}

theorem Word.steady (hw : Word x s) : Steady x := by
  intro t hq hmark
  obtain ⟨c, x, rfl⟩ := List.exists_cons_of_ne_nil hw.ne
  have hrun := hw.run
  rw [Lay.run_cons] at hrun
  obtain ⟨s1, hs1, hrun⟩ := Option.bind_eq_some_iff.mp hrun
  obtain ⟨t1, ht1, h1⟩ := Lay.next_shift hq (fun hc => hmark (by rw [hc]; rfl)) hs1
  obtain ⟨t', ht', h'⟩ := h1.run hrun
  refine ⟨t', by rw [Lay.run_cons, ht1]; exact ht', by rw [h'.q, hw.q], by rw [h'.d, hw.d, zero_add]⟩

theorem Steady.append (hx : Steady x) (hy : Steady y) (hne : x ≠ [])
    (hxy : y.head? = some '\'' → Tok.attrMark x.getLast? = false) : Steady (x ++ y) := by
  intro s hq hmark
  obtain ⟨c, x', rfl⟩ := List.exists_cons_of_ne_nil hne
  obtain ⟨s1, hs1, hq1, hd1⟩ := hx s hq hmark
  have hlast : s1.last = (c :: x').getLast? := by
    rw [Lay.run_last hs1, List.getLast?_cons]
    rfl
  obtain ⟨s2, hs2, hq2, hd2⟩ := hy s1 hq1 (fun h => by rw [hlast]; exact hxy h)
  exact ⟨s2, by rw [Lay.run_append, hs1]; exact hs2, hq2, by rw [hd2, hd1]⟩

theorem steady_spaces (n : ℕ) : Steady (spaces n) := by
  intro s hq hmark
  induction n generalizing s with
  | zero => exact ⟨s, rfl, hq, rfl⟩
  | succ n ih =>
    have hnext : s.next ' ' = some ⟨some ' ', false, s.d, false⟩ := by
      simp [Lay.next, hq]
    obtain ⟨s', hs', hq', hd'⟩ := ih ⟨some ' ', false, s.d, false⟩ rfl (fun _ => rfl)
    exact ⟨s', by rw [spaces, List.replicate_succ, Lay.run_cons, hnext]; exact hs', hq', hd'⟩

theorem Steady.spaces_append (hy : Steady y) (n : ℕ) : Steady (spaces n ++ y) := by
  rcases n with _ | n
  · exact hy
  · refine (steady_spaces _).append hy (by simp [spaces]) (fun _ => ?_)
    rw [spaces, List.getLast?_replicate]
    rfl

theorem Steady.append_spaces (hx : Steady x) (hne : x ≠ []) (n : ℕ) : Steady (x ++ spaces n) := by
  refine hx.append (steady_spaces n) hne (fun h => ?_)
  rcases n with _ | n
  · exact absurd h (by simp [spaces])
  · exact absurd h (by simp [spaces, List.replicate_succ])

theorem Steady.gap (hx : Steady x) (hy : Steady y) (hne : x ≠ []) {n : ℕ}
    (hxy : n = 0 → y.head? = some '\'' → Tok.attrMark x.getLast? = false) : Steady (x ++ (spaces n ++ y)) := by
  refine hx.append (hy.spaces_append n) hne ?_
  rcases n with _ | n
  · exact hxy rfl
  · intro h
    exact absurd h (by simp [spaces, List.replicate_succ])

/-- A text in parentheses is a word. -/
theorem Steady.word (hx : Steady x) (hlen : x.length ≤ 253) :
    ∃ s, Word ('(' :: x ++ [')']) s ∧ s.closed = true := by
  have hs0 : Lay.start.next '(' = some ⟨some '(', false, 1, false⟩ := rfl
  obtain ⟨s1, hs1, hq1, hd1⟩ := hx ⟨some '(', false, 0, false⟩ rfl (fun _ => rfl)
  have hshift : Lay.Shift 1 ⟨some '(', false, 0, false⟩ ⟨some '(', false, 1, false⟩ := ⟨rfl, rfl, rfl⟩
  obtain ⟨t1, ht1, h1⟩ := hshift.run hs1
  have htq : t1.q = false := by rw [h1.q, hq1]
  have htd : t1.d = 1 := by rw [h1.d, hd1]
  have hclose : t1.next ')' = some ⟨some ')', false, 0, true⟩ := by
    simp [Lay.next, htq, htd]
  refine ⟨⟨some ')', false, 0, true⟩, ⟨by simp, by simp; omega, ?_, rfl, rfl, fun _ => rfl, ?_⟩, rfl⟩
  · rw [List.cons_append, Lay.run_cons, hs0, Option.bind_some, Lay.run_append, ht1, Option.bind_some,
      Lay.run_cons, hclose]
    rfl
  · have hlex := hshift.lexes hs1 hq1 (o := ['(']) rfl
    rw [List.cons_append, Lay.lexes, hs0, Option.any_some]
    exact decide_eq_true ⟨rfl, hlex⟩

end Steady

/-- Within the parentheses of an AIF every character belongs to the condition. -/
theorem aifSplit_next {s s' : Lay} {c : Char} (hn : s.next c = some s') (size : ℕ) (cond r : List Char) :
    aifSplit size (c :: r) s.last s.q (s.d + 1 : ℕ) cond = aifSplit size r s'.last s'.q (s'.d + 1 : ℕ) (cond ++ [c]) := by
  simp only [Lay.next] at hn
  rw [aifSplit]
  by_cases hc : c = '\''
  · rw [if_pos hc] at hn ⊢
    cases hq : s.q with
    | true =>
      rw [hq, if_pos rfl] at hn
      obtain rfl := Option.some.inj hn
      simp
    | false =>
      rw [hq, if_neg (by simp)] at hn
      split_ifs at hn with hm <;> obtain rfl := Option.some.inj hn <;> simp [hm]
  · rw [if_neg hc] at hn ⊢
    cases hq : s.q with
    | true =>
      rw [hq, if_pos rfl] at hn
      obtain rfl := Option.some.inj hn
      simp
    | false =>
      rw [hq, if_neg (by simp)] at hn
      split_ifs at hn with ho hp hd
      · obtain rfl := Option.some.inj hn
        have hdeep : ¬ ((s.d + 1 : ℕ) : ℤ) + 1 = 1 := by omega
        rw [if_pos ⟨rfl, ho⟩, if_neg hdeep]
        push_cast
        rfl
      · obtain rfl := Option.some.inj hn
        have hdeep : ¬ ((s.d + 1 : ℕ) : ℤ) - 1 = 0 := by omega
        have hcast : ((s.d + 1 : ℕ) : ℤ) - 1 = ((s.d - 1 + 1 : ℕ) : ℤ) := by omega
        rw [if_neg (fun h => ho h.2), if_pos ⟨rfl, hp⟩, if_neg hdeep, hcast]
      · obtain rfl := Option.some.inj hn
        rw [if_neg (fun h => ho h.2), if_neg (fun h => hp h.2)]

theorem aifSplit_run {x : List Char} {s s' : Lay} (hn : s.run x = some s') (size : ℕ) (cond r : List Char) :
    aifSplit size (x ++ r) s.last s.q (s.d + 1 : ℕ) cond = aifSplit size r s'.last s'.q (s'.d + 1 : ℕ) (cond ++ x) := by
  induction x generalizing s cond with
  | nil =>
    obtain rfl := Option.some.inj hn
    rw [List.nil_append, List.append_nil]
  | cons c x ih =>
    rw [Lay.run_cons] at hn
    obtain ⟨s1, hs1, hrun⟩ := Option.bind_eq_some_iff.mp hn
    rw [List.cons_append, aifSplit_next hs1, ih hrun, List.append_assoc]
    rfl

/-- AIF finds the condition that stands in its parentheses, up to 511 characters of it. -/
theorem Steady.aifCond {x : List Char} (hx : Steady x) (hlen : x.length ≤ 511) (r : List Char) :
    aifCond ('(' :: x ++ ')' :: r) = x := by
  obtain ⟨s1, hs1, hq1, hd1⟩ := hx ⟨some '(', false, 0, false⟩ rfl (fun _ => rfl)
  have hrun := aifSplit_run hs1 512 [] (')' :: r)
  have hsplit : aifSplit 512 ('(' :: x ++ ')' :: r) none false 0 [] =
      some (x, (r.takeWhile (!·.isWhitespace)).take 18) := by
    rw [List.cons_append, aifSplit]
    simp only [reduceCtorEq, Char.reduceEq, Bool.not_false, and_self, ↓reduceIte]
    refine hrun.trans ?_
    rw [hq1, hd1, aifSplit]
    simp [List.take_of_length_le hlen]
  rw [As370.aifCond, hsplit]
  simp

end Cc370.As370
