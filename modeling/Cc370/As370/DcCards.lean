import Cc370.As370.Expansion
import Cc370.As370.Expr
import Cc370.As370.SourceCards

namespace Cc370.As370.DcCards

open Expand SourceText

/-- `fgets`, with room for `n` characters. -/
def fgets : ℕ → List Char → Card × List Char
  | 0, t => ([], t)
  | _ + 1, [] => ([], [])
  | n + 1, c :: t => if c = '\n' then ([c], t) else (c :: (fgets n t).1, (fgets n t).2)

/-- The cards that `main` reads, `n` at most, into `lb[256]`. -/
def readCards : ℕ → List Char → List Card
  | 0, _ => []
  | _ + 1, [] => []
  | n + 1, c :: t => (fgets 255 (c :: t)).1 :: readCards n (fgets 255 (c :: t)).2

/-- Whether column 72 continues the card. -/
def continued (card : Card) : Bool := ((rawText card)[71]?).any (· ≠ ' ')

/-- The cards behind those that a comment is continued on. -/
def behind : Bool → List Card → List Card
  | false, cards => cards
  | true, [] => []
  | true, c :: cards => behind (continued c) cards

/-- The operand as far as the blank that ends it, and whether one does. -/
def cutOpnd (condexpr : Bool) : List Char → Option Char → Option Char → Bool → ℕ → List Char × Bool
  | [], _, _, _, _ => ([], false)
  | c :: p, b2, b1, q, d =>
    if !q ∧ (d = 0 ∨ !condexpr) ∧ isBlank c then ([], true)
    else
      let q' := if c = '\'' ∧ (q ∨ !attrApos b2 b1) then !q else q
      let d' := if !q ∧ c = '(' then d + 1 else if !q ∧ c = ')' then d - 1 else d
      let r := cutOpnd condexpr p b1 (some c) q' d'
      (c :: r.1, r.2)

/-- A statement joined with the cards that it is continued on, and the cards behind them; `os` is the column of the
operand. -/
def joinLoop (os : ℕ) (condexpr : Bool) : Bool → Bool → Card → List Card → Card × List Card
  | false, _, acc, cards => (acc, cards)
  | true, _, acc, [] => (acc, [])
  | true, ended, acc, c :: cards =>
    let r := cutOpnd condexpr (acc.drop os) (acc.take os).reverse[1]? (acc.take os).getLast? false 0
    let field := r.1.reverse.dropWhile isBlank
    -- an operand that is broken off behind a comma goes on
    let ended := ended || (r.2 && field ≠ [] && field.head? ≠ some ',')
    let acc := acc.take os ++ r.1
    joinLoop os condexpr (continued c) ended
      (if ended then acc else acc ++ (((rawText c).take 71).drop 15).take (8190 - acc.length)) cards

/-- `op_is_cond_expr` -/
def condOps : List String := ["AIF", "AGO", "AIFB", "AGOB", "SETA", "SETB", "SETC", "ACTR"]

def joinStatement (l : Card) (cards : List Card) : Card × List Card :=
  let acc := (rawText l).take 71
  let p := (if acc.head?.all isBlank then acc else acc.dropWhile (!isBlank ·)).dropWhile isBlank
  let opnd := (p.dropWhile (!isBlank ·)).dropWhile isBlank
  let op := (p.takeWhile (!isBlank ·)).map Char.toUpper
  let r := joinLoop (acc.length - opnd.length) (op ∈ condOps.map String.toList) (continued l) false acc cards
  (r.1 ++ ['\n'], r.2)

/-- `join_cont`, for `n` statements at most; `punched` says that REPRO is before the card. -/
def joinCont : ℕ → Bool → List Card → List Card
  | 0, _, _ => []
  | _ + 1, _, [] => []
  | n + 1, punched, l :: cards =>
    if punched then l :: joinCont n (cardOpIs l opREPRO) cards
    else if isComment l then l :: joinCont n (cardOpIs l opREPRO) (behind (continued l) cards)
    else
      let r := joinStatement l cards
      r.1 :: joinCont n (cardOpIs r.1 opREPRO) r.2

/-- `dc_split`, with the character before, the depth of parentheses, and the field so far. -/
def dcSplit : List Char → Option Char → ℤ → Bool → List Char → List (List Char)
  | [], _, _, _, f => [f.reverse]
  | '\'' :: '\'' :: p, _, depth, true, f => dcSplit p (some '\'') depth true ('\'' :: '\'' :: f)
  | c :: p, _, depth, true, f => dcSplit p (some c) depth (c ≠ '\'') (c :: f)
  | c :: p, b, depth, false, f =>
    if c = '\'' then dcSplit p (some c) depth (!b.any fun b => b ∈ ['K', 'N', 'L', 'T']) (c :: f)
    else if c = ',' ∧ depth = 0 then f.reverse :: dcSplit p (some c) depth false []
    else dcSplit p (some c) (if c = '(' then depth + 1 else if c = ')' then depth - 1 else depth) false (c :: f)

/-- The start of an operand and its nominal value. -/
structure Operand where
  cnt : ℕ
  ty : Char
  len : Option ℕ
  value : List Char

def digitsVal (ds : List Char) : ℕ := ds.foldl (fun v c => v * 10 + (c.toNat - '0'.toNat)) 0

/-- An operand with a quoted value, and no modifier but a length in bytes. -/
def operand (field : List Char) : Option Operand :=
  let ds := field.takeWhile Char.isDigit
  let cnt := if ds = [] then 1 else digitsVal ds
  match field.dropWhile Char.isDigit with
  | [] => none
  | ty :: p =>
    let len := if p.head? = some 'L' then some (digitsVal (p.tail.takeWhile Char.isDigit)) else none
    let p := if p.head? = some 'L' then p.tail.dropWhile Char.isDigit else p
    if p.head? = some '\'' then some ⟨cnt, ty.toUpper, len, p⟩ else none

/-- `dc_value_empty`, of a quoted value -/
def dcValueEmpty (p : List Char) : Bool := p[1]? = some '\'' ∧ p[2]? ≠ some '\''

/-- `src_a2e`; what it notes of a character without an image leaves the byte as it is. -/
def srcA2e (c : Char) : UInt8 := mvsA2e (.ofNat c.toNat)

def isXDigit (c : Char) : Bool := c.isDigit ∨ 'a' ≤ c ∧ c ≤ 'f' ∨ 'A' ≤ c ∧ c ≤ 'F'

def hexPairs : List Char → List UInt8
  | a :: b :: h => .ofInt (hexv a * 16 + hexv b) :: hexPairs h
  | _ => []

/-- The bytes of an even number of digits, or of one digit and an even number of them. -/
def hexBytes (h : List Char) : List UInt8 :=
  if h.length % 2 = 1 then .ofInt (hexv (h.headD '0')) :: hexPairs h.tail else hexPairs h

/-- One constant of type C, padded on the right. -/
def charBytes (len : Option ℕ) (value : List Char) : List UInt8 :=
  let body := ((cBody value.tail).1.take 1023).map srcA2e
  let emit := len.getD body.length
  body.take emit ++ .replicate (emit - body.length) 0x40

/-- One constant of type X, padded on the left. -/
def xBytes (len : Option ℕ) (value : List Char) : List UInt8 :=
  let bytes := (hexBytes (((value.tail.takeWhile (· ≠ '\'')).filter isXDigit).take 2055)).take 1024
  let emit := len.getD bytes.length
  .replicate (emit - bytes.length) 0 ++ bytes.drop (bytes.length - emit)

/-- What an operand of a DC statement assembles to, of the types C and X. -/
def dcOperand (field : List Char) : Option (List UInt8) :=
  (operand field).bind fun o =>
    if dcValueEmpty o.value then some []
    else if o.ty = 'C' then some (List.replicate o.cnt (charBytes o.len o.value)).flatten
    else if o.ty = 'X' then some (List.replicate o.cnt (xBytes o.len o.value)).flatten
    else none

def opDC : Expand.Name := ['D', 'C']

/-- The text of a statement, if that is a DC statement of these. -/
def statement (card : Card) : Option (List UInt8) :=
  let f := parse false [] (card.take 8191)
  if f.op = [] then some []
  else if f.op = opDC then
    ((((dcSplit f.opnd none 0 false []).take 256).map (·.take 1023)).mapM dcOperand).map List.flatten
  else none

/-- The statements of a source file, as `main` reads and joins them. -/
def source (file : List UInt8) : List Card :=
  joinCont maxLines false (readCards maxLines ((srcFopen none file false Diags.start).out.map fun b => .ofNat b.toNat))

/-- The text that a source file of DC statements assembles to. -/
def assemble (file : List UInt8) : Option (List UInt8) := ((source file).mapM statement).map List.flatten

/-- What may stand between quotes: an apostrophe is written twice. -/
inductive Body : List Char → Prop
  | nil : Body []
  | apostrophe {l : List Char} (h : Body l) : Body ('\'' :: '\'' :: l)
  | char {c : Char} {l : List Char} (hc : c ≠ '\'') (hline : c ≠ '\n') (h : Body l) : Body (c :: l)

/-- A card that is a DC statement with one constant in quotes. -/
def quotedCard (ty : Char) (body : List Char) : Card :=
  List.replicate 9 ' ' ++ opDC ++ .replicate 4 ' ' ++ ty :: '\'' :: body ++ ['\'']

section Body

variable {l : List Char}

theorem scanOpnd_quoted {c : Char} (hline : c ≠ '\n') (p : List Char) (b2 b1 : Option Char) :
    scanOpnd false (c :: p) b2 b1 true 0 = c :: scanOpnd false p b1 (some c) (c ≠ '\'') 0 := by
  rw [scanOpnd, if_neg hline]
  by_cases hc : c = '\''
  · subst hc
    rfl
  · simp [hc]

theorem scanOpnd_apostrophe {b2 b1 : Option Char} (h : attrApos b2 b1 = false) (p : List Char) :
    scanOpnd false ('\'' :: p) b2 b1 false 0 = '\'' :: scanOpnd false p b1 (some '\'') true 0 := by
  rw [scanOpnd, if_neg (by decide), h]
  rfl

theorem scanOpnd_body (h : Body l) (r : List Char) (b2 b1 : Option Char) :
    ∃ b2' b1', scanOpnd false (l ++ r) b2 b1 true 0 = l ++ scanOpnd false r b2' b1' true 0 := by
  induction h generalizing b2 b1 with
  | nil => exact ⟨b2, b1, rfl⟩
  | @apostrophe l h ih =>
    have hsecond : attrApos b1 (some '\'') = false := by simp [attrApos]
    obtain ⟨b2', b1', hrest⟩ := ih (some '\'') (some '\'')
    refine ⟨b2', b1', ?_⟩
    rw [List.cons_append, List.cons_append, scanOpnd_quoted (by decide), decide_eq_false (by decide), scanOpnd_apostrophe hsecond, hrest]
    rfl
  | @char c l hc hline h ih =>
    obtain ⟨b2', b1', hrest⟩ := ih b1 (some c)
    refine ⟨b2', b1', ?_⟩
    rw [List.cons_append, scanOpnd_quoted hline, decide_eq_true hc, hrest]
    rfl

theorem dcSplit_body (h : Body l) (r : List Char) (b : Option Char) (depth : ℤ) (f : List Char) :
    ∃ b', dcSplit (l ++ '\'' :: r) b depth true f = dcSplit ('\'' :: r) b' depth true (l.reverse ++ f) := by
  induction h generalizing b f with
  | nil => exact ⟨b, rfl⟩
  | @apostrophe l h ih =>
    obtain ⟨b', hrest⟩ := ih (some '\'') ('\'' :: '\'' :: f)
    refine ⟨b', ?_⟩
    rw [List.cons_append, List.cons_append, dcSplit, hrest]
    simp
  | @char c l hc hline h ih =>
    obtain ⟨b', hrest⟩ := ih (some c) (c :: f)
    refine ⟨b', ?_⟩
    rw [List.cons_append, dcSplit]
    · simp [hc, hrest]
    · intro p heq
      exact absurd heq hc

end Body

section Card

variable {ty : Char} {body : List Char}

/-- The type of the constant. -/
abbrev Typed (ty : Char) : Prop := ty = 'C' ∨ ty = 'X'

theorem quotedCard_eq (ty : Char) (body r : List Char) : quotedCard ty body ++ r =
    List.replicate 9 ' ' ++ 'D' :: 'C' :: ' ' :: ' ' :: ' ' :: ' ' :: ty :: '\'' :: (body ++ '\'' :: r) := by
  simp [quotedCard, opDC]

theorem scanOpnd_operand (hty : Typed ty) (h : Body body) :
    scanOpnd false (ty :: '\'' :: (body ++ ['\'', '\n'])) none none false 0 = ty :: '\'' :: body ++ ['\''] := by
  obtain ⟨b2, b1, hbody⟩ := scanOpnd_body h ['\'', '\n'] (some ty) (some '\'')
  have hquote : attrApos none (some ty) = false := by
    rcases hty with rfl | rfl <;> decide
  have hfirst (p : List Char) : scanOpnd false (ty :: p) none none false 0 = ty :: scanOpnd false p none (some ty) false 0 := by
    rcases hty with rfl | rfl <;> rfl
  rw [hfirst, scanOpnd_apostrophe hquote, hbody, scanOpnd_quoted (by decide), scanOpnd]
  rfl

theorem parse_quotedCard (hty : Typed ty) (h : Body body) (hlen : (quotedCard ty body).length ≤ 71) :
    parse false [] (quotedCard ty body ++ ['\n']) = ⟨[], opDC, ty :: '\'' :: body ++ ['\'']⟩ := by
  have hopnd := scanOpnd_operand hty h
  have hparse : parse false [] (quotedCard ty body ++ ['\n']) =
      ⟨[], opDC, (scanOpnd false (ty :: '\'' :: (body ++ ['\'', '\n'])) none none false 0).take 8191⟩ := by
    rw [quotedCard_eq]
    rcases hty with rfl | rfl <;> rfl
  rw [hparse, hopnd, List.take_of_length_le]
  simp only [quotedCard, List.length_append, List.length_cons, List.length_nil] at hlen ⊢
  omega

theorem rawText_quotedCard (ty : Char) (body : List Char) : rawText (quotedCard ty body ++ ['\n']) = quotedCard ty body := by
  rw [rawText, quotedCard, List.append_assoc, List.reverse_append]
  simp

theorem dcSplit_operand (hty : Typed ty) (h : Body body) :
    dcSplit (ty :: '\'' :: body ++ ['\'']) none 0 false [] = [ty :: '\'' :: body ++ ['\'']] := by
  have hopen : dcSplit (ty :: '\'' :: (body ++ ['\''])) none 0 false [] = dcSplit (body ++ ['\'']) (some '\'') 0 true ['\'', ty] := by
    rcases hty with rfl | rfl <;> rw [dcSplit, if_neg (by decide), if_neg (by decide), dcSplit] <;> rfl
  obtain ⟨b, hbody⟩ := dcSplit_body h [] (some '\'') 0 ['\'', ty]
  have hclose (b : Option Char) (f : List Char) : dcSplit ['\''] b 0 true f = [('\'' :: f).reverse] := rfl
  rw [List.cons_append, List.cons_append, hopen, hbody, hclose]
  simp

theorem operand_quoted (hty : Typed ty) (value : List Char) :
    operand (ty :: '\'' :: value) = some ⟨1, ty, none, '\'' :: value⟩ := by
  rcases hty with rfl | rfl <;> rfl

/-- What a card with one constant assembles to. -/
theorem statement_quotedCard (hty : Typed ty) (h : Body body) (hlen : (quotedCard ty body).length ≤ 71) :
    statement (quotedCard ty body ++ ['\n']) = dcOperand (ty :: '\'' :: body ++ ['\'']) := by
  have htake : (quotedCard ty body ++ ['\n']).take 8191 = quotedCard ty body ++ ['\n'] := by
    apply List.take_of_length_le
    rw [List.length_append, List.length_singleton]
    omega
  have hfield : (ty :: '\'' :: body ++ ['\'']).take 1023 = ty :: '\'' :: body ++ ['\''] := by
    apply List.take_of_length_le
    simp only [quotedCard, List.length_append, List.length_cons, List.length_nil] at hlen ⊢
    omega
  have hone : [ty :: '\'' :: body ++ ['\'']].take 256 = [ty :: '\'' :: body ++ ['\'']] := rfl
  rw [statement, htake, parse_quotedCard hty h hlen]
  dsimp only
  rw [if_neg (by decide), if_pos rfl, dcSplit_operand hty h, hone, List.map_singleton, hfield, List.mapM_cons, List.mapM_nil]
  cases dcOperand (ty :: '\'' :: body ++ ['\'']) with
  | none => rfl
  | some bytes => exact congrArg some (List.append_nil bytes)

theorem continued_short {card : Card} (h : (rawText card).length ≤ 71) : continued card = false := by
  rw [continued, List.getElem?_eq_none h]
  rfl

theorem isComment_quotedCard (ty : Char) (body r : List Char) : isComment (quotedCard ty body ++ r) = false := rfl

theorem cardOpIs_quotedCard (ty : Char) (body : List Char) : cardOpIs (quotedCard ty body ++ ['\n']) opREPRO = false := by
  rw [cardOpIs, rawText_quotedCard]
  rfl

theorem joinStatement_quotedCard (hlen : (quotedCard ty body).length ≤ 71) (cards : List Card) :
    joinStatement (quotedCard ty body ++ ['\n']) cards = (quotedCard ty body ++ ['\n'], cards) := by
  have hraw := rawText_quotedCard ty body
  rw [joinStatement, continued_short (hraw.symm ▸ hlen), hraw, List.take_of_length_le hlen]
  rw [joinLoop]

end Card

/-- A card that is one DC statement of type C or X as it stands: it ends by column 71 and has no variable symbol. -/
structure Complete (card : Card) : Prop where
  ends : card.length ≤ 71
  text : ∃ ty body, (ty = 'C' ∧ Body body ∨ ty = 'X' ∧ ∀ c ∈ body, isXDigit c = true) ∧ body ≠ [] ∧ card = quotedCard ty body
  plain : ∀ ch ∈ card, ch.toNat < 0x80 ∧ ch ≠ '&'

section Source

variable {card : Card} {cards : List Card}

theorem body_of_digits {body : List Char} (h : ∀ c ∈ body, isXDigit c = true) : Body body := by
  induction body with
  | nil => exact .nil
  | cons c body ih =>
    rw [List.forall_mem_cons] at h
    refine .char ?_ ?_ (ih h.2)
    · rintro rfl
      exact absurd h.1 (by decide)
    · rintro rfl
      exact absurd h.1 (by decide)

theorem Complete.quoted (h : Complete card) : ∃ ty body, Typed ty ∧ Body body ∧ card = quotedCard ty body := by
  obtain ⟨ty, body, hbody, -, hcard⟩ := h.text
  rcases hbody with ⟨hty, hbody⟩ | ⟨hty, hdigits⟩
  · exact ⟨ty, body, Or.inl hty, hbody, hcard⟩
  · exact ⟨ty, body, Or.inr hty, body_of_digits hdigits, hcard⟩

theorem joinCont_complete (h : ∀ card ∈ cards, Complete card) (n : ℕ) :
    joinCont n false (cards.map (· ++ ['\n'])) = (cards.take n).map (· ++ ['\n']) := by
  induction n generalizing cards with
  | zero => rfl
  | succ n ih =>
    cases cards with
    | nil => rfl
    | cons card cards =>
      rw [List.forall_mem_cons] at h
      obtain ⟨ty, body, -, -, rfl⟩ := h.1.quoted
      rw [List.map_cons, joinCont, if_neg Bool.false_ne_true, isComment_quotedCard, if_neg Bool.false_ne_true,
        joinStatement_quotedCard h.1.ends]
      dsimp only
      rw [cardOpIs_quotedCard, ih h.2]
      rfl

theorem fgets_line {l : List Char} (hl : '\n' ∉ l) {n : ℕ} (hn : l.length < n) (t : List Char) :
    fgets n (l ++ '\n' :: t) = (l ++ ['\n'], t) := by
  induction l generalizing n with
  | nil =>
    obtain ⟨n, rfl⟩ := Nat.exists_eq_succ_of_ne_zero hn.ne'
    rfl
  | cons c l ih =>
    obtain ⟨n, rfl⟩ := Nat.exists_eq_succ_of_ne_zero (Nat.ne_zero_of_lt hn)
    rw [List.mem_cons, not_or] at hl
    rw [List.cons_append, fgets, if_neg (Ne.symm hl.1), ih hl.2 (Nat.lt_of_succ_lt_succ hn)]
    rfl

theorem readCards_lines (h : ∀ card ∈ cards, '\n' ∉ card ∧ card.length < 255) (n : ℕ) :
    readCards n (cards.flatMap (· ++ ['\n'])) = (cards.take n).map (· ++ ['\n']) := by
  induction n generalizing cards with
  | zero => rfl
  | succ n ih =>
    cases cards with
    | nil => rfl
    | cons card cards =>
      rw [List.forall_mem_cons] at h
      have hread : readCards (n + 1) ((card ++ ['\n']) ++ cards.flatMap (· ++ ['\n'])) =
          (card ++ ['\n']) :: readCards n (cards.flatMap (· ++ ['\n'])) := by
        have hline := fgets_line h.1.1 h.1.2 (cards.flatMap (· ++ ['\n']))
        rw [List.append_assoc, List.singleton_append]
        cases card with
        | nil =>
          rw [List.nil_append] at hline ⊢
          rw [readCards, hline]
        | cons c card =>
          rw [List.cons_append] at hline ⊢
          rw [readCards, hline]
      rw [List.flatMap_cons, hread, ih h.2]
      rfl

theorem Complete.line (h : Complete card) : '\n' ∉ card ∧ card.length < 255 := by
  refine ⟨?_, h.ends.trans_lt (by decide)⟩
  obtain ⟨ty, body, hty, hbody, rfl⟩ := h.quoted
  have hin : '\n' ∉ body := by
    clear h
    induction hbody with
    | nil => exact List.not_mem_nil
    | apostrophe _ ih => simpa using ih
    | char _ hline _ ih => simpa [Ne.symm hline] using ih
  rcases hty with rfl | rfl <;> simpa [quotedCard, opDC] using hin

theorem source_complete (h : ∀ card ∈ cards, Complete card) :
    source ((cards.flatMap (· ++ ['\n'])).map fun ch => .ofNat ch.toNat) = (cards.take maxLines).map (· ++ ['\n']) := by
  have hascii : ∀ ch ∈ cards.flatMap (· ++ ['\n']), ch.toNat < 0x80 := by
    intro ch hch
    obtain ⟨card, hcard, hch⟩ := List.mem_flatMap.mp hch
    rcases List.mem_append.mp hch with hch | hch
    · exact ((h card hcard).plain ch hch).1
    · rw [List.mem_singleton.mp hch]
      decide
  generalize htext : cards.flatMap (· ++ ['\n']) = text at hascii
  have hbyte : ∀ ch ∈ text, (UInt8.ofNat ch.toNat).toNat = ch.toNat := by
    intro ch hch
    rw [UInt8.toNat_ofNat']
    exact Nat.mod_eq_of_lt ((hascii ch hch).trans (by decide))
  have hraw : ∀ cs, text.map (fun ch => UInt8.ofNat ch.toNat) = utf8 cs →
      ∀ x ∈ text.map fun ch => UInt8.ofNat ch.toNat, ¬ 0x7F < x := by
    intro cs _ x hx
    obtain ⟨ch, hch, rfl⟩ := List.mem_map.mp hx
    rw [UInt8.lt_iff_toNat_lt, hbyte ch hch]
    exact not_lt.mpr (Nat.le_of_lt_succ (hascii ch hch))
  have hread : (text.map fun ch => UInt8.ofNat ch.toNat).map (fun b => Char.ofNat b.toNat) = text := by
    rw [List.map_map]
    refine (List.map_congr_left fun ch hch => ?_).trans (List.map_id text)
    rw [Function.comp_apply, hbyte ch hch, Char.ofNat_toNat]
    rfl
  rw [source, srcFopen_raw hraw, hread, ← htext, readCards_lines fun card hcard => (h card hcard).line, joinCont_complete]
  · rw [List.take_take, Nat.min_self]
  · exact fun card hcard => h card (List.mem_of_mem_take hcard)

end Source

end Cc370.As370.DcCards
