import Cc370.As370.ConditionText
import Mathlib.Data.Prod.Lex
import Mathlib.Data.List.Lex

namespace Cc370.As370

/-- AND and OR -/
inductive Conn
  | and | or
deriving DecidableEq, Repr

def Conn.text : Conn → List Char
  | .and => andText
  | .or => orText

def Conn.apply : Conn → Bool → Bool → Bool
  | .and => (· && ·)
  | .or => (· || ·)

theorem Conn.word (op : Conn) : Word op.text ⟨op.text.getLast?, false, 0, false⟩ := by
  cases op <;> exact ⟨by decide, by decide, rfl, rfl, rfl, by decide, by decide⟩

namespace Relop

/-- What a relational operator means on ordered values. -/
def holds {α : Type*} [LinearOrder α] : Relop → α → α → Bool
  | eq, a, b => a = b
  | ne, a, b => a ≠ b
  | gt, a, b => b < a
  | lt, a, b => a < b
  | ge, a, b => b ≤ a
  | le, a, b => a ≤ b

/-- A comparison by sign is the comparison of the values. -/
theorem apply_iff {α : Type*} [LinearOrder α] (rel : Relop) {a b : α} {cmp : ℤ}
    (h1 : a < b → cmp = -1) (h2 : b < a → cmp = 1) (h3 : a = b → cmp = 0) :
    rel.apply cmp = rel.holds a b := by
  rcases lt_trichotomy a b with h | h | h
  · rw [h1 h]
    cases rel <;> simp [apply, holds, h, h.le, h.ne, h.not_gt, h.not_ge]
  · rw [h3 h]
    cases rel <;> simp [apply, holds, h]
  · rw [h2 h]
    cases rel <;> simp [apply, holds, h, h.le, h.ne', h.not_gt, h.not_ge]

end Relop

/-- Strings are ordered by length and then in the EBCDIC sequence. -/
def collating (t : List Char) : ℕ ×ₗ List ℕ :=
  toLex (t.length, t.map fun c => (mvsA2e (.ofNat c.toNat)).toNat)

namespace CondEnv

variable (env : CondEnv)

theorem cmpText_of_lt {ls rs : List Char} (hlen : ls.length = rs.length)
    (h : (ls.map fun c => (mvsA2e (.ofNat c.toNat)).toNat) < rs.map fun c => (mvsA2e (.ofNat c.toNat)).toNat) :
    cmpText ls rs = -1 := by
  induction ls generalizing rs with
  | nil =>
    obtain rfl := List.length_eq_zero_iff.mp hlen.symm
    exact absurd h (lt_irrefl _)
  | cons l ls ih =>
    obtain _ | ⟨r, rs⟩ := rs
    · exact absurd hlen (by simp)
    · rw [List.map_cons, List.map_cons, List.cons_lt_cons_iff] at h
      rcases h with h | ⟨heq, h⟩
      · have hlt : mvsA2e (.ofNat l.toNat) < mvsA2e (.ofNat r.toNat) := UInt8.lt_iff_toNat_lt.mpr h
        have hne : mvsA2e (.ofNat l.toNat) ≠ mvsA2e (.ofNat r.toNat) := UInt8.ne_of_lt hlt
        rw [cmpText, if_pos hne, if_pos hlt]
      · rw [cmpText, if_neg (fun hne => hne (UInt8.toNat_inj.mp heq))]
        exact ih (by simpa using hlen) h

theorem cmpText_neg (ls rs : List Char) : cmpText rs ls = -cmpText ls rs := by
  induction ls, rs using cmpText.induct with
  | case1 l ls r rs le re hne hlt =>
    rw [cmpText, cmpText, if_pos hne, if_pos hne.symm, if_pos hlt, if_neg (UInt8.lt_asymm hlt)]
    rfl
  | case2 l ls r rs le re hne hlt =>
    have hgt : re < le := UInt8.lt_of_le_of_ne (UInt8.not_lt.mp hlt) (Ne.symm hne)
    rw [cmpText, cmpText, if_pos hne, if_pos hne.symm, if_neg hlt, if_pos hgt]
  | case3 l ls r rs le re heq ih =>
    rw [cmpText, cmpText, if_neg heq, if_neg (fun h => heq h.symm), ih]
  | case4 ls rs h =>
    rcases ls with _ | ⟨l, ls⟩ <;> rcases rs with _ | ⟨r, rs⟩ <;> first | rfl | exact absurd rfl (h l ls r rs rfl)

theorem cmpText_of_eq {ls rs : List Char}
    (h : (ls.map fun c => (mvsA2e (.ofNat c.toNat)).toNat) = rs.map fun c => (mvsA2e (.ofNat c.toNat)).toNat) :
    cmpText ls rs = 0 := by
  induction ls generalizing rs with
  | nil =>
    obtain rfl := List.map_eq_nil_iff.mp h.symm
    rfl
  | cons l ls ih =>
    obtain _ | ⟨r, rs⟩ := rs
    · exact absurd h (by simp)
    · rw [List.map_cons, List.map_cons, List.cons.injEq] at h
      rw [cmpText, if_neg (fun hne => hne (UInt8.toNat_inj.mp h.1))]
      exact ih h.2

theorem cmpStr_of_lt {ls rs : List Char} (h : collating ls < collating rs) : cmpStr ls rs = -1 := by
  rw [collating, collating, Prod.Lex.toLex_lt_toLex] at h
  rcases h with h | ⟨hlen, h⟩
  · rw [cmpStr, if_pos h]
  · have hlen : ls.length = rs.length := hlen
    rw [cmpStr, if_neg hlen.not_lt, if_neg hlen.not_gt]
    exact cmpText_of_lt hlen h

theorem cmpStr_neg (ls rs : List Char) : cmpStr rs ls = -cmpStr ls rs := by
  rw [cmpStr, cmpStr, cmpText_neg]
  split_ifs with h1 h2 <;> first | rfl | omega

theorem cmpStr_of_eq {ls rs : List Char} (h : collating ls = collating rs) : cmpStr ls rs = 0 := by
  have h' : (ls.length, _) = (rs.length, _) := toLex_inj.mp h
  rw [Prod.mk.injEq] at h'
  rw [cmpStr, if_neg h'.1.not_lt, if_neg h'.1.not_gt]
  exact cmpText_of_eq h'.2

/-- The truth of a comparison: of strings if a term is one, else of numbers. -/
def compare (l : List Char) (rel : Relop) (r : List Char) : Bool :=
  if termIsStr l ∨ termIsStr r then rel.holds (collating (env.termStr l)) (collating (env.termStr r))
  else rel.holds (env.seta l) (env.seta r)

theorem evalComp_eq (l : List Char) (rel : Relop) (r : List Char) : env.evalComp l rel r = env.compare l rel r := by
  rw [evalComp, compare]
  by_cases hs : termIsStr l ∨ termIsStr r
  · rw [if_pos hs, if_pos hs]
    apply Relop.apply_iff
    · exact cmpStr_of_lt
    · intro h
      rw [cmpStr_neg, cmpStr_of_lt h]
      rfl
    · exact cmpStr_of_eq
  · rw [if_neg hs, if_neg hs]
    apply Relop.apply_iff
    · intro h
      rw [if_pos h]
    · intro h
      rw [if_neg h.not_gt, if_pos h]
    · intro h
      rw [if_neg h.not_lt, if_neg h.not_gt]

end CondEnv

/-- A condition as it stands in a statement; the numbers are those of the spaces. -/
inductive Cond
  | comp (l : List Char) (i : ℕ) (rel : Relop) (j : ℕ) (r : List Char)
  | bool (t : List Char)
  | group (i : ℕ) (c : Cond) (j : ℕ)
  | not (j : ℕ) (c : Cond)
  | join (op : Conn) (a : Cond) (i j : ℕ) (b : Cond)

namespace Cond

def text : Cond → List Char
  | comp l i rel j r => l ++ (spaces i ++ (rel.text ++ (spaces j ++ r)))
  | bool t => t
  | group i c j => '(' :: (spaces i ++ c.text ++ spaces j) ++ [')']
  | not j c => notText ++ (spaces j ++ c.text)
  | join op a i j b => a.text ++ (spaces i ++ (op.text ++ (spaces j ++ b.text)))

/-- The truth value that the language gives to a condition. -/
def value (env : CondEnv) : Cond → Bool
  | comp l _ rel _ r => env.compare l rel r
  | bool t => env.seta t ≠ 0
  | group _ c _ => c.value env
  | not _ c => !c.value env
  | join op a _ _ b => op.apply (a.value env) (b.value env)

/-- How loosely a condition binds: 0 for a factor, 1 for a chain of ANDs, 2 for one of ORs. -/
def level : Cond → ℕ
  | join .and .. => 1
  | join .or .. => 2
  | _ => 0

/-- The last token of a condition. -/
def last : Cond → List Char
  | comp _ _ _ _ r => r
  | bool t => t
  | group i c j => (group i c j).text
  | not _ c => c.last
  | join _ _ _ _ b => b.last

/-- The tokens before it. -/
def init : Cond → List (List Char)
  | comp l _ rel _ _ => [l, rel.text]
  | bool _ => []
  | group .. => []
  | not _ c => notText :: c.init
  | join op a _ _ b => a.init ++ a.last :: op.text :: b.init

def shut (t : List Char) : Prop := t.getLast? = some '\'' ∨ t.getLast? = some ')'

def opens (t : List Char) : Prop := t.head? = some '\'' ∨ t.head? = some '('

/-- A term of a condition, which is none of its operators. -/
def Term (t : List Char) : Prop := (∃ s, Word t s) ∧ isRelop t = false ∧ isLogical t = false

/-- The grammar of the language: NOT before AND before OR, and no blank is needed between an operator
and a quote or a parenthesis. Each level has at most 95 tokens of at most 255 characters. -/
def WellFormed : Cond → Prop
  | comp l i _ j r => Term l ∧ Term r ∧ (i = 0 → shut l) ∧ (j = 0 → opens r)
  | bool t => Term t ∧ t.head? ≠ some '('
  | group i c j => c.WellFormed ∧ c.init.length < 95 ∧ (group i c j).text.length ≤ 255
  | not j c => c.WellFormed ∧ c.level = 0 ∧ (j = 0 → opens c.text)
  | join op a i j b => a.WellFormed ∧ b.WellFormed ∧ a.level ≤ (join op a i j b).level ∧
      b.level < (join op a i j b).level ∧ (i = 0 → shut a.text) ∧ (j = 0 → opens b.text)

/-- The conditions that are read as they are meant: no parenthesis directly behind a relational
operator and, in parentheses, no quote directly behind LT, GT or NOT; no group of more than 127
characters; no AND behind an OR of its own level. -/
def Plain : Bool → Cond → Prop
  | inner, comp _ _ rel j r => j = 0 → r.head? = some '\'' ∧ (inner = true → rel ≠ .lt ∧ rel ≠ .gt)
  | _, bool _ => True
  | _, group i c j => c.Plain true ∧ (spaces i ++ c.text ++ spaces j).length ≤ 127
  | inner, not j c => c.Plain inner ∧ (j = 0 → inner = true → c.text.head? ≠ some '\'')
  | inner, join _ a _ _ b => a.Plain inner ∧ b.Plain inner ∧ b.level = 0

section Text

variable {c : Cond} {inner : Bool}

theorem text_ne (hwf : c.WellFormed) : c.text ≠ [] := by
  induction c with
  | comp l i rel j r =>
    obtain ⟨⟨⟨s, hl⟩, -⟩, -⟩ := hwf
    exact fun h => hl.ne (List.append_eq_nil_iff.mp h).1
  | bool t =>
    obtain ⟨⟨⟨s, ht⟩, -⟩, -⟩ := hwf
    exact ht.ne
  | group i c j ih => exact List.cons_ne_nil _ _
  | not j c ih => exact List.cons_ne_nil _ _
  | join op a i j b iha ihb => exact fun h => iha hwf.1 (List.append_eq_nil_iff.mp h).1

theorem getLast?_gap {x y z : List Char} (n : ℕ) (hy : y ≠ []) (h : y.getLast? = z.getLast?) :
    (x ++ (spaces n ++ y)).getLast? = z.getLast? := by
  rw [← List.append_assoc, List.getLast?_append_of_ne_nil _ hy, h]

theorem text_getLast? (hwf : c.WellFormed) : c.text.getLast? = c.last.getLast? := by
  induction c with
  | comp l i rel j r =>
    obtain ⟨-, ⟨⟨s, hr⟩, -⟩, -⟩ := hwf
    have hne : rel.text ++ (spaces j ++ r) ≠ [] := by simp [hr.ne]
    exact getLast?_gap i hne (getLast?_gap j hr.ne rfl)
  | bool t => rfl
  | group i c j ih => rfl
  | not j c ih => exact getLast?_gap j (text_ne hwf.1) (ih hwf.1)
  | join op a i j b iha ihb =>
    have hb := text_ne hwf.2.1
    have hne : op.text ++ (spaces j ++ b.text) ≠ [] := by simp [hb]
    exact getLast?_gap i hne (getLast?_gap j hb (ihb hwf.2.1))

theorem relop_head (rel : Relop) (x : List Char) : (rel.text ++ x).head? ≠ some '\'' := by
  cases rel <;> simp [Relop.text]

theorem conn_head (op : Conn) (x : List Char) : (op.text ++ x).head? ≠ some '\'' := by
  cases op <;> simp [Conn.text, andText, orText]

theorem WellFormed.steady (hwf : c.WellFormed) (hp : c.Plain true) : Steady c.text := by
  induction c with
  | comp l i rel j r =>
    obtain ⟨⟨⟨s, hl⟩, -⟩, ⟨⟨s', hr⟩, -⟩, -⟩ := hwf
    have hright : Steady (rel.text ++ (spaces j ++ r)) := by
      refine rel.word.steady.gap hr.steady rel.word.ne (fun hj _ => ?_)
      obtain ⟨-, hrel⟩ := hp hj
      obtain ⟨hlt, hgt⟩ := hrel rfl
      cases rel <;> first | rfl | contradiction
    exact hl.steady.gap hright hl.ne (fun _ h => absurd h (relop_head rel _))
  | bool t =>
    obtain ⟨⟨⟨s, ht⟩, -⟩, -⟩ := hwf
    exact ht.steady
  | group i c j ih =>
    have hc := ih hwf.1 hp.1
    have hin : Steady (spaces i ++ c.text ++ spaces j) := by
      rw [List.append_assoc]
      exact (hc.append_spaces (text_ne hwf.1) j).spaces_append i
    obtain ⟨s, hs, -⟩ := hin.word (hp.2.trans (by decide))
    exact hs.steady
  | not j c ih =>
    refine notText_word.steady.gap (ih hwf.1 hp.1) notText_word.ne (fun hj h => ?_)
    exact absurd h (hp.2 hj rfl)
  | join op a i j b iha ihb =>
    have hright : Steady (op.text ++ (spaces j ++ b.text)) := by
      refine op.word.steady.gap (ihb hwf.2.1 hp.2.1) op.word.ne (fun _ _ => ?_)
      cases op <;> rfl
    exact (iha hwf.1 hp.1).gap hright (text_ne hwf.1) (fun _ h => absurd h (conn_head op _))

theorem relop_alpha (rel : Relop) (x : List Char) : ((rel.text ++ x).headD ' ').isAlpha = true := by
  cases rel <;> rfl

theorem conn_alpha (op : Conn) (x : List Char) : ((op.text ++ x).headD ' ').isAlpha = true := by
  cases op <;> rfl

theorem isRelop_text (rel : Relop) : isRelop rel.text = true := by
  cases rel <;> decide

theorem isLogical_text (op : Conn) : isLogical op.text = true := by
  cases op <;> decide

/-- An operator that abuts a quote or a parenthesis is a token of its own. -/
theorem parted_operator {x : List Char} {ts : List (List Char)} {w : List Char} {k : Tok} {s : Lay} {n : ℕ}
    {t : List Char} (h : Lexed t ts w k s) (ht : n = 0 → shut w) (hx : (x.headD ' ').isAlpha = true) :
    Parted n k (x.headD ' ') := by
  rcases n with _ | n
  · apply h.parted_letter _ hx
    apply h.word.shut
    rw [← h.follows.last]
    exact ht rfl
  · exact Or.inl (Nat.succ_pos n)

theorem headD_of_head? {x : List Char} {c : Char} (h : x.head? = some c) : x.headD ' ' = c := by
  rw [List.headD_eq_head?_getD, h]
  rfl

theorem parted_quote {x : List Char} {ts : List (List Char)} {w : List Char} {k : Tok} {s : Lay} {n : ℕ}
    {t : List Char} (h : Lexed t ts w k s) (hw : (isRelop w || isLogical w) = true)
    (hx : n = 0 → x.head? = some '\'') : Parted n k (x.headD ' ') := by
  rcases n with _ | n
  · rw [headD_of_head? (hx rfl)]
    exact h.parted_quote hw
  · exact Or.inl (Nat.succ_pos n)

theorem parted_logical {x : List Char} {ts : List (List Char)} {w : List Char} {k : Tok} {s : Lay} {n : ℕ}
    {t : List Char} (h : Lexed t ts w k s) (hw : isLogical w = true) (hx : n = 0 → opens x) :
    Parted n k (x.headD ' ') := by
  rcases n with _ | n
  · rcases hx rfl with hx | hx
    · rw [headD_of_head? hx]
      exact h.parted_quote (by rw [hw, Bool.or_true])
    · rw [headD_of_head? hx]
      exact h.parted_paren hw
  · exact Or.inl (Nat.succ_pos n)

/-- A plain condition is cut into its tokens. -/
theorem WellFormed.lexed (hwf : c.WellFormed) (hp : c.Plain inner) : ∃ k s, Lexed c.text c.init c.last k s := by
  induction c generalizing inner with
  | comp l i rel j r =>
    obtain ⟨⟨⟨sl, hl⟩, -⟩, ⟨⟨sr, hr⟩, -⟩, hi, -⟩ := hwf
    obtain ⟨kl, hkl⟩ := hl.lexed
    obtain ⟨kr, hkr⟩ := hr.lexed
    obtain ⟨ko, hko⟩ := rel.word.lexed
    have hright := hko.append hkr (n := j) (parted_quote hko (by rw [isRelop_text, Bool.true_or]) (fun h => (hp h).1))
    exact ⟨kr, sr, hkl.append hright (parted_operator hkl hi (relop_alpha rel _))⟩
  | bool t =>
    obtain ⟨⟨⟨s, ht⟩, -⟩, -⟩ := hwf
    obtain ⟨k, hk⟩ := ht.lexed
    exact ⟨k, s, hk⟩
  | group i c j ih =>
    have hc := hwf.1.steady hp.1
    have hin : Steady (spaces i ++ c.text ++ spaces j) := by
      rw [List.append_assoc]
      exact (hc.append_spaces (text_ne hwf.1) j).spaces_append i
    obtain ⟨s, hs, -⟩ := hin.word (hp.2.trans (by decide))
    obtain ⟨k, hk⟩ := hs.lexed
    exact ⟨k, s, hk⟩
  | not j c ih =>
    obtain ⟨k, s, hc⟩ := ih hwf.1 hp.1
    obtain ⟨ko, hko⟩ := notText_word.lexed
    exact ⟨k, s, hko.append hc (parted_logical hko rfl hwf.2.2)⟩
  | join op a i j b iha ihb =>
    obtain ⟨hwa, hwb, -, -, hi, hj⟩ := hwf
    obtain ⟨ka, sa, ha⟩ := iha hwa hp.1
    obtain ⟨kb, sb, hb⟩ := ihb hwb hp.2.1
    obtain ⟨ko, hko⟩ := op.word.lexed
    have hright := hko.append hb (parted_logical hko (isLogical_text op) hj)
    have hi' : i = 0 → shut a.last := by
      intro h
      rw [shut, ← text_getLast? hwa]
      exact hi h
    exact ⟨kb, sb, ha.append hright (parted_operator ha hi' (conn_alpha op _))⟩

end Text

section Value

variable (env : CondEnv) {c : Cond} {inner : Bool}

def depth : Cond → ℕ
  | group _ c _ => c.depth + 1
  | not _ c => c.depth
  | join _ a _ _ b => max a.depth b.depth
  | _ => 0

def factors : Cond → ℕ
  | join _ a _ _ _ => a.factors + 1
  | _ => 1

/-- The last term of the condition is read the same with a closing parenthesis behind it. -/
def Bears : Cond → Prop
  | comp l _ _ _ r =>
    if CondEnv.termIsStr l ∨ CondEnv.termIsStr r then env.termStr (close r) = env.termStr r
    else env.seta (close r) = env.seta r
  | bool t => env.seta (close t) = env.seta t
  | group _ c _ => c.Bears
  | not _ c => c.Bears
  | join _ _ _ _ b => b.Bears

/-- What stands behind the last token of a condition: nothing, or the parenthesis that closes it. -/
def Ending (c : Cond) (f : List Char → List Char) : Prop := f = id ∨ f = close ∧ c.Bears env

/-- A comparison or a boolean factor without the NOTs before it. -/
def positive (ev : List Char → Bool) : List (List Char) → Option (Bool × List (List Char))
  | l :: rel :: r :: rest =>
    match Relop.ofText rel with
    | some rl => some (env.evalComp l rl r, rest)
    | none => some (env.cndBool ev l, rel :: r :: rest)
  | t :: rest => some (env.cndBool ev t, rest)
  | [] => none

theorem factor_eq (ev : List Char → Bool) (ts : List (List Char)) :
    env.factor ev ts = (positive env ev (ts.dropWhile (· = notText))).map fun p =>
      (p.1 != decide ((ts.takeWhile (· = notText)).length % 2 = 1), p.2) := by
  rw [CondEnv.factor]
  rcases ts.dropWhile (· = notText) with _ | ⟨l, _ | ⟨rel, _ | ⟨r, rest⟩⟩⟩
  · rfl
  · rfl
  · rfl
  · rw [positive]
    dsimp only
    cases Relop.ofText rel <;> rfl

theorem factor_cons_not (ev : List Char → Bool) (ts : List (List Char)) :
    env.factor ev (notText :: ts) = (env.factor ev ts).map fun p => (!p.1, p.2) := by
  have hpar : ∀ n : ℕ, decide ((n + 1) % 2 = 1) = !decide (n % 2 = 1) := by
    intro n
    rcases Nat.mod_two_eq_zero_or_one n with h | h <;> simp [Nat.add_mod, h]
  rw [factor_eq, factor_eq, Option.map_map]
  simp only [List.takeWhile_cons, List.dropWhile_cons, decide_true, ↓reduceIte, List.length_cons, hpar]
  congr 1
  funext p
  simp

theorem factor_cons_of_ne (ev : List Char → Bool) {t : List Char} (ht : isLogical t = false) (ts : List (List Char)) :
    env.factor ev (t :: ts) = positive env ev (t :: ts) := by
  have hne : t ≠ notText := by
    rintro rfl
    exact absurd ht (by decide)
  rw [factor_eq]
  simp [List.takeWhile_cons, List.dropWhile_cons, hne]

/-- The tokens behind a factor do not make a comparison of it. -/
def Stops (rest : List (List Char)) : Prop := ∀ t ∈ rest.head?, isRelop t = false

theorem positive_of_stops (ev : List Char → Bool) (t : List Char) {rest : List (List Char)} (hrest : Stops rest) :
    positive env ev (t :: rest) = some (env.cndBool ev t, rest) := by
  rcases rest with _ | ⟨rel, _ | ⟨r, rest⟩⟩
  · rfl
  · rfl
  · have hrel : isRelop rel = false := hrest rel rfl
    rw [isRelop, Option.isSome_eq_false_iff, Option.isNone_iff_eq_none] at hrel
    rw [positive, hrel]

theorem condLoop_of_factor {ev : List Char → Bool} {ts rest : List (List Char)} {v : Bool}
    (h : env.factor ev ts = some (v, rest)) (fuel : ℕ) :
    env.condLoop ev (fuel + 1) none ts = env.condLoop ev fuel (some v) rest := by
  rcases ts with _ | ⟨t, ts⟩
  · exact absurd h (by simp [CondEnv.factor])
  · rw [CondEnv.condLoop, h]
    exact fun h => List.cons_ne_nil _ _ h

theorem condLoop_conn {ev : List Char → Bool} {op : Conn} {ts rest : List (List Char)} {a v : Bool}
    (h : env.factor ev ts = some (v, rest)) (fuel : ℕ) :
    env.condLoop ev (fuel + 1) (some a) (op.text :: ts) = env.condLoop ev fuel (some (op.apply a v)) rest := by
  cases op
  · rw [Conn.text, CondEnv.condLoop, h]
    simp [Conn.apply]
  · rw [Conn.text, CondEnv.condLoop, h]
    simp [Conn.apply, andText, orText]

/-- The evaluation of the tokens of a condition, up to what stands behind them. -/
def Evaluates (n : ℕ) (c : Cond) : Prop :=
  ∀ f, Ending env c f → ∀ rest, Stops rest →
    (c.level = 0 → env.factor (env.evalCondF n) (c.init ++ f c.last :: rest) = some (c.value env, rest)) ∧
    ∀ fuel, env.condLoop (env.evalCondF n) (fuel + c.factors) none (c.init ++ f c.last :: rest) =
      env.condLoop (env.evalCondF n) fuel (some (c.value env)) rest

theorem evaluates_of_factor {n : ℕ} (h1 : c.factors = 1)
    (h : ∀ f, Ending env c f → ∀ rest, Stops rest →
      env.factor (env.evalCondF n) (c.init ++ f c.last :: rest) = some (c.value env, rest)) : Evaluates env n c := by
  intro f hf rest hrest
  refine ⟨fun _ => h f hf rest hrest, fun fuel => ?_⟩
  rw [h1]
  exact condLoop_of_factor env (h f hf rest hrest) fuel

theorem isLogical_close {t : List Char} (ht : isLogical t = false) : isLogical (close t) = false := by
  rw [close]
  split_ifs
  · have hlast : (t ++ [')']).getLast? = some ')' := by simp
    simp only [isLogical, decide_eq_false_iff_not]
    rintro (h | h | h) <;> rw [h] at hlast <;> exact absurd hlast (by decide)
  · exact ht

theorem termIsStr_close {t : List Char} (ht : t ≠ []) : CondEnv.termIsStr (close t) = CondEnv.termIsStr t := by
  rw [close]
  split_ifs
  · rcases t with _ | ⟨c, _ | ⟨d, t⟩⟩
    · exact absurd rfl ht
    · simp [CondEnv.termIsStr]
    · simp [CondEnv.termIsStr]
  · rfl

theorem evalComp_close {l r : List Char} {i j : ℕ} {rel : Relop} (hr : r ≠ []) (hb : (comp l i rel j r).Bears env) :
    env.evalComp l rel (close r) = env.evalComp l rel r := by
  rw [Bears] at hb
  rw [CondEnv.evalComp, CondEnv.evalComp, termIsStr_close hr]
  by_cases hs : CondEnv.termIsStr l ∨ CondEnv.termIsStr r
  · rw [if_pos hs] at hb ⊢
    rw [if_pos hs, hb]
  · rw [if_neg hs] at hb ⊢
    rw [if_neg hs, hb]

theorem evaluates_comp {l r : List Char} {i j : ℕ} {rel : Relop} (hwf : (comp l i rel j r).WellFormed) (n : ℕ) :
    Evaluates env n (comp l i rel j r) := by
  obtain ⟨⟨-, -, hl⟩, ⟨⟨s, hr⟩, -⟩, -⟩ := hwf
  apply evaluates_of_factor env rfl
  intro f hf rest hrest
  have hof : Relop.ofText rel.text = some rel := by cases rel <;> decide
  have hval : env.evalComp l rel (f r) = env.compare l rel r := by
    rw [← CondEnv.evalComp_eq]
    rcases hf with rfl | ⟨rfl, hb⟩
    · rfl
    · exact evalComp_close env hr.ne hb
  change env.factor _ (l :: rel.text :: f r :: rest) = _
  rw [factor_cons_of_ne env _ hl, positive, hof]
  dsimp only
  rw [hval]
  rfl

theorem evaluates_bool {t : List Char} (hwf : (bool t).WellFormed) (n : ℕ) : Evaluates env n (bool t) := by
  obtain ⟨⟨⟨s, ht⟩, -, hlog⟩, hhead⟩ := hwf
  apply evaluates_of_factor env rfl
  intro f hf rest hrest
  have hlog' : isLogical (f t) = false := by
    rcases hf with rfl | ⟨rfl, -⟩
    · exact hlog
    · exact isLogical_close hlog
  have hhead' : (f t).head? ≠ some '(' := by
    rcases hf with rfl | ⟨rfl, -⟩
    · exact hhead
    · rw [close]
      split_ifs
      · rwa [List.head?_append_of_ne_nil _ ht.ne]
      · exact hhead
  have hseta : env.seta (f t) = env.seta t := by
    rcases hf with rfl | ⟨rfl, hb⟩
    · rfl
    · exact hb
  change env.factor _ (f t :: rest) = _
  rw [factor_cons_of_ne env _ hlog', positive_of_stops env _ _ hrest, CondEnv.cndBool,
    if_neg (fun h => hhead' h.1), hseta]
  rfl

theorem evaluates_not {n j : ℕ} (hl : c.level = 0) (h : Evaluates env n c) : Evaluates env n (not j c) := by
  apply evaluates_of_factor env rfl
  intro f hf rest hrest
  change env.factor _ (notText :: (c.init ++ f c.last :: rest)) = _
  rw [factor_cons_not, (h f hf rest hrest).1 hl]
  rfl

theorem evaluates_join {a b : Cond} {n i j : ℕ} {op : Conn} (hb0 : b.level = 0)
    (ha : Evaluates env n a) (hb : Evaluates env n b) : Evaluates env n (join op a i j b) := by
  intro f hf rest hrest
  have hstop : Stops (op.text :: (b.init ++ f b.last :: rest)) := by
    rintro t ⟨⟩
    cases op <;> decide
  have hsplit : (join op a i j b).init ++ f (join op a i j b).last :: rest =
      a.init ++ a.last :: (op.text :: (b.init ++ f b.last :: rest)) := by
    simp [init, last]
  refine ⟨fun h => ?_, fun fuel => ?_⟩
  · cases op <;> exact absurd h (by simp [level])
  · rw [hsplit, factors, ← add_assoc, Nat.add_right_comm]
    have hleft := (ha id (Or.inl rfl) _ hstop).2 (fuel + 1)
    rw [id] at hleft
    rw [hleft, condLoop_conn env ((hb f hf rest hrest).1 hb0) fuel]
    rfl

theorem factors_le (c : Cond) : c.factors ≤ c.init.length + 1 := by
  induction c with
  | comp l i rel j r => simp [factors]
  | bool t => simp [factors]
  | group i c j ih => simp [factors]
  | not j c ih => simp [factors]
  | join op a i j b iha ihb =>
    simp only [factors, init, List.length_append, List.length_cons]
    omega

theorem condLoop_end {ev : List Char → Bool} {rest : List (List Char)} (hrest : rest = [] ∨ rest = [[')']]) (fuel : ℕ)
    (a : Bool) : env.condLoop ev fuel (some a) rest = a := by
  rcases hrest with rfl | rfl <;> rcases fuel with _ | fuel
  · rfl
  · rfl
  · rfl
  · rw [CondEnv.condLoop, if_neg (by decide)]

/-- The loop over the tokens of a condition, with or without a closing parenthesis behind them. -/
theorem Evaluates.condLoop {n : ℕ} (h : Evaluates env n c) (hcap : c.init.length < 95) {f : List Char → List Char}
    (hf : Ending env c f) {rest : List (List Char)} (hrest : rest = [] ∨ rest = [[')']]) :
    env.condLoop (env.evalCondF n) (((c.init ++ f c.last :: rest).take 95).length + 1) none
      ((c.init ++ f c.last :: rest).take 95) = c.value env := by
  have hstop : ∀ m, rest.take m = [] ∨ rest.take m = [[')']] := by
    intro m
    rcases hrest with rfl | rfl
    · exact Or.inl List.take_nil
    · rcases m with _ | m
      · exact Or.inl rfl
      · exact Or.inr (by simp)
  have htake : (c.init ++ f c.last :: rest).take 95 = c.init ++ f c.last :: rest.take (94 - c.init.length) := by
    have h95 : 95 - c.init.length = (94 - c.init.length) + 1 := by omega
    rw [List.take_append, List.take_of_length_le (by omega), h95, List.take_succ_cons]
  rw [htake]
  have hrest' := hstop (94 - c.init.length)
  generalize rest.take (94 - c.init.length) = rest' at hrest'
  have hs : Stops rest' := by
    rcases hrest' with rfl | rfl
    · rintro t ⟨⟩
    · rintro t ⟨⟩
      decide
  have hfuel := factors_le c
  obtain ⟨fuel, hfuel⟩ : ∃ fuel, (c.init ++ f c.last :: rest').length + 1 = fuel + c.factors := by
    refine ⟨(c.init ++ f c.last :: rest').length + 1 - c.factors, ?_⟩
    simp only [List.length_append, List.length_cons]
    omega
  rw [hfuel, (h f hf rest' hs).2 fuel]
  exact condLoop_end env hrest' fuel _

theorem evalCondF_text {n : ℕ} (hwf : c.WellFormed) (hp : c.Plain inner) (h : Evaluates env n c)
    (hcap : c.init.length < 95) (i j : ℕ) : env.evalCondF (n + 1) (spaces i ++ c.text ++ spaces j) = c.value env := by
  obtain ⟨k, s, hlex⟩ := hwf.lexed hp
  rw [CondEnv.evalCondF, hlex.tokens]
  exact h.condLoop env hcap (f := id) (Or.inl rfl) (Or.inl rfl)

theorem evalCondF_text_close {n : ℕ} (hwf : c.WellFormed) (hp : c.Plain inner) (h : Evaluates env n c)
    (hcap : c.init.length < 95) (hb : c.Bears env) (i j : ℕ) :
    env.evalCondF (n + 1) (spaces i ++ c.text ++ spaces j ++ [')']) = c.value env := by
  obtain ⟨k, s, hlex⟩ := hwf.lexed hp
  rw [CondEnv.evalCondF, hlex.tokens_close]
  split_ifs
  · exact h.condLoop env hcap (f := close) (Or.inr ⟨rfl, hb⟩) (Or.inl rfl)
  · exact h.condLoop env hcap (f := id) (Or.inl rfl) (Or.inr rfl)

theorem evaluates_group {n i j : ℕ} (hwf : (group i c j).WellFormed) (hp : (group i c j).Plain inner)
    (h : Evaluates env n c) : Evaluates env (n + 1) (group i c j) := by
  obtain ⟨hwc, hcap, -⟩ := hwf
  obtain ⟨hpc, hlen⟩ := hp
  set x := spaces i ++ c.text ++ spaces j with hx
  have htext : (group i c j).text = '(' :: x ++ [')'] := rfl
  apply evaluates_of_factor env rfl
  intro f hf rest hrest
  have hfx : ∃ y, f (group i c j).text = '(' :: y ++ [')'] ∧ env.evalCondF (n + 1) (y.take 127) = c.value env := by
    rcases hf with rfl | ⟨rfl, hb⟩
    · refine ⟨x, rfl, ?_⟩
      rw [List.take_of_length_le hlen]
      exact evalCondF_text env hwc hpc h hcap i j
    · have hshort : (group i c j).text.length < 255 := by
        rw [htext, List.length_append, List.length_cons, List.length_singleton]
        omega
      refine ⟨x ++ [')'], by rw [close, if_pos hshort, htext]; simp, ?_⟩
      by_cases hfull : x.length = 127
      · rw [List.take_append_of_le_length (by omega), List.take_of_length_le hlen]
        exact evalCondF_text env hwc hpc h hcap i j
      · rw [List.take_of_length_le (by simp; omega)]
        exact evalCondF_text_close env hwc hpc h hcap hb i j
  obtain ⟨y, hy, hval⟩ := hfx
  change env.factor _ (f (group i c j).text :: rest) = _
  have hlog : isLogical ('(' :: y ++ [')']) = false := by
    simp [isLogical, notText, andText, orText]
  have hparen : ('(' :: y ++ [')']).head? = some '(' ∧ 2 ≤ ('(' :: y ++ [')']).length ∧
      ('(' :: y ++ [')']).getLast? = some ')' := by
    refine ⟨rfl, by simp, ?_⟩
    rw [List.getLast?_append]
    rfl
  rw [hy, factor_cons_of_ne env _ hlog, positive_of_stops env _ _ hrest, CondEnv.cndBool, if_pos hparen]
  rw [List.cons_append, List.tail_cons, List.dropLast_concat, hval]
  rfl

/-- The code gives a plain condition the value of the language. -/
theorem WellFormed.evaluates (hwf : c.WellFormed) (hp : c.Plain inner) {n : ℕ} (hn : c.depth ≤ n) :
    Evaluates env n c := by
  induction c generalizing inner n with
  | comp l i rel j r => exact evaluates_comp env hwf n
  | bool t => exact evaluates_bool env hwf n
  | group i c j ih =>
    obtain ⟨m, rfl⟩ : ∃ m, n = m + 1 := ⟨n - 1, by simp only [depth] at hn; omega⟩
    exact evaluates_group env hwf hp (ih hwf.1 hp.1 (by simp only [depth] at hn; omega))
  | not j c ih => exact evaluates_not env hwf.2.1 (ih hwf.1 hp.1 hn)
  | join op a i j b iha ihb =>
    simp only [depth, max_le_iff] at hn
    exact evaluates_join env hp.2.2 (iha hwf.1 hp.1 hn.1) (ihb hwf.2.1 hp.2.1 hn.2)

theorem depth_le_text (c : Cond) : c.depth ≤ c.text.length := by
  induction c with
  | comp l i rel j r => simp [depth]
  | bool t => simp [depth]
  | group i c j ih =>
    simp only [depth, text, List.length_cons, List.length_append]
    omega
  | not j c ih =>
    simp only [depth, text, List.length_append]
    omega
  | join op a i j b iha ihb =>
    simp only [depth, text, List.length_append]
    omega

end Value

/-- Quoted strings stand for their characters, and a number for itself. -/
def quoted : CondEnv := ⟨fun t => if t.head? = some '1' then 1 else 0, fun t => t.filter (· ≠ '\''), fun _ => ['U']⟩

theorem quotedTerm (a : Char) (ha : a = 'A' ∨ a = 'B') : Term ['\'', a, '\''] := by
  rcases ha with rfl | rfl
  all_goals exact ⟨⟨⟨some '\'', false, 0, true⟩, by decide, by decide, rfl, rfl, rfl, fun _ => rfl, by decide⟩, by decide, by decide⟩

/-- ('A'NE'B' AND NOT(0)) -/
def spelled : Cond := join .and (comp ['\'', 'A', '\''] 0 .ne 0 ['\'', 'B', '\'']) 1 1 (not 0 (group 0 (bool ['0']) 0))

theorem spelled_wellFormed : spelled.WellFormed := by
  have h0 : Term ['0'] := ⟨⟨⟨some '0', false, 0, false⟩, by decide, by decide, rfl, rfl, rfl, by decide, by decide⟩, by decide, by decide⟩
  refine ⟨⟨quotedTerm 'A' (by simp), quotedTerm 'B' (by simp), fun _ => Or.inl rfl, fun _ => Or.inl rfl⟩,
    ⟨⟨⟨h0, by decide⟩, by decide, by decide⟩, rfl, fun _ => Or.inr rfl⟩, by decide, by decide, nofun, nofun⟩

end Cond

end Cc370.As370
