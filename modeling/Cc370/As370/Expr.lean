import Cc370.As370.EmitObj

namespace Cc370.As370

/-- What an expression reads of a symbol; `eqEsdid` is the ESDID that its chain of EQUs leads to. -/
structure XSym where
  idx : ℕ
  val : ℤ
  type : SymType
  defined : Bool
  declaredExtrn : Bool
  sect : ℕ
  esdid : ℕ
  eqEsdid : ℕ
  len : ℕ
deriving DecidableEq

namespace XSym

def known (s : XSym) : Bool := s.defined ∨ s.type = .er ∧ s.declaredExtrn

end XSym

/-- Where an expression stands: the symbols, the location counter and its section. -/
structure Scope where
  find : List Char → Option XSym
  lc : ℤ
  curSect : ℕ

def delims : List Char := ['+', '-', '*', '/', '(', ')', ',', ' ']

def isDelim (c : Char) : Bool := c ∈ delims

def takeName (t : List Char) : List Char × List Char :=
  let n := (t.takeWhile fun c => !isDelim c).take 63
  (n, t.drop n.length)

def skipBlanks (t : List Char) : List Char := t.dropWhile (· = ' ')

/-- The globals of the evaluator. -/
structure XState where
  rest : List Char
  xrl : ℤ
  leaf : ℕ
  syn : Bool
  depth : ℕ
  deep : Bool
  badsdt : Bool
  undef : Bool

def startsTerm (t : List Char) : Bool :=
  t.head?.any fun c => c.isAlphanum ∨ c = '@' ∨ c = '#' ∨ c = '$' ∨ c = '='

def longMax : ℤ := 2 ^ 63 - 1

def decimalValue (ds : List Char) : ℤ :=
  min longMax (ds.foldl (fun v c => 10 * v + (c.toNat - '0'.toNat : ℕ)) 0)

def hexv (c : Char) : ℤ :=
  let u := c.toUpper
  if u.isDigit then (u.toNat - '0'.toNat : ℕ)
  else if 'A' ≤ u ∧ u ≤ 'F' then (u.toNat - 'A'.toNat + 10 : ℕ) else 0

/-- The characters of a self-defining term and the text from its closing quote on. -/
def cBody : List Char → List Char × List Char
  | '\'' :: '\'' :: t => let r := cBody t; ('\'' :: r.1, r.2)
  | '\'' :: t => ([], '\'' :: t)
  | '&' :: '&' :: t => let r := cBody t; ('&' :: r.1, r.2)
  | c :: t => let r := cBody t; (c :: r.1, r.2)
  | [] => ([], [])

def sdtBody (kind : Char) (t : List Char) : List Char × List Char :=
  if kind = 'C' then cBody t else (t.takeWhile (· ≠ '\''), t.dropWhile (· ≠ '\''))

def sdtMax (kind : Char) : ℕ := if kind = 'C' then 4 else if kind = 'X' then 8 else 32

def sdtValue (kind : Char) (cs : List Char) : ℤ :=
  if kind = 'C' then cs.foldl (fun v c => 256 * v + (mvsA2e (.ofNat c.toNat)).toNat) 0
  else cs.foldl (fun v c => (if kind = 'X' then 16 else 2) * v + hexv c) 0

def dropQuote (t : List Char) : List Char := if t.head? = some '\'' then t.tail else t

namespace Scope

variable (S : Scope)

def counts (s : XSym) : Bool :=
  (s.type = .sd ∨ s.type = .pc ∨ s.type = .rel ∨ s.type = .er ∨ s.type = .cm ∨ s.type = .xd) ∧
    !(s.type = .er ∧ !s.known)

/-- The count of terms, up to the first character that cannot start one. -/
def counting (st : XState) : XState :=
  if st.syn then st
  else if startsTerm st.rest then { st with leaf := st.leaf + 1 } else { st with syn := true }

def xNameAt (sign : ℤ) (st : XState) : ℤ × XState :=
  let n := takeName st.rest
  match S.find n.1 with
  | some s =>
    let undef := st.undef ∨ n.1 ≠ [] ∧ !s.known
    if s.type = .er ∧ !s.known then (0, { st with rest := n.2, undef := undef })
    else (s.val, { st with rest := n.2, undef := undef, xrl := st.xrl + if counts s then sign else 0 })
  | none => (0, { st with rest := n.2, undef := st.undef ∨ n.1 ≠ [] })

def xLengthAt (t : List Char) (st : XState) : ℤ × XState :=
  if t.head? = some '*' then (1, { st with rest := t.tail })
  else
    let n := takeName t
    match (S.find n.1).filter XSym.known with
    | some s => (if s.len = 0 then 1 else s.len, { st with rest := n.2 })
    | none => (0, { st with rest := n.2, undef := st.undef ∨ n.1 ≠ [] })

def xSdtAt (kind : Char) (t : List Char) (st : XState) : ℤ × XState :=
  let b := sdtBody kind t
  (sdtValue kind b.1, { st with
    rest := dropQuote b.2
    badsdt := st.badsdt ∨ b.2.head? = some '\'' ∧ (b.1 = [] ∨ sdtMax kind < b.1.length) })

/-- The branches of `x_factor` for a number, an attribute, a self-defining term and a symbol. -/
def xLeafAt (sign : ℤ) (st : XState) : ℤ × XState :=
  if st.rest.head?.any Char.isDigit then
    (decimalValue (st.rest.takeWhile Char.isDigit), { st with rest := st.rest.dropWhile Char.isDigit })
  else
    match st.rest with
    | c :: '\'' :: t =>
      if c = 'L' then S.xLengthAt t st
      else if c = 'X' ∨ c = 'B' ∨ c = 'C' then xSdtAt c t st
      else S.xNameAt sign st
    | _ => S.xNameAt sign st

mutual

def xFactor : ℕ → ℤ → XState → ℤ × XState
  | 0, _, st => (0, st)
  | fuel + 1, sign, st =>
    match skipBlanks st.rest with
    | '(' :: t =>
      let r := xAdd fuel { st with rest := t, xrl := 0, depth := st.depth + 1, deep := st.deep ∨ 6 < st.depth + 1 }
      let t' := skipBlanks r.2.rest
      (r.1, { r.2 with
        rest := if t'.head? = some ')' then t'.tail else t'
        depth := st.depth
        xrl := st.xrl + if sign < 0 then -r.2.xrl else r.2.xrl })
    | '*' :: t =>
      (S.lc, { st with rest := t, xrl := st.xrl + sign, leaf := if st.syn then st.leaf else st.leaf + 1 })
    | '-' :: t => let r := xFactor fuel (-sign) { st with rest := t }; (-r.1, r.2)
    | '+' :: t => xFactor fuel sign { st with rest := t }
    | t => S.xLeafAt sign (counting { st with rest := t })

def xTerm : ℕ → ℤ → XState → ℤ × XState
  | 0, _, st => (0, st)
  | fuel + 1, sign, st => let r := xFactor fuel sign st; xTermLoop fuel r.1 r.2

def xTermLoop : ℕ → ℤ → XState → ℤ × XState
  | 0, v, st => (v, st)
  | fuel + 1, v, st =>
    match skipBlanks st.rest with
    | '*' :: t => let r := xFactor fuel 0 { st with rest := t }; xTermLoop fuel (v * r.1) r.2
    | '/' :: t =>
      let r := xFactor fuel 0 { st with rest := t }
      xTermLoop fuel (if r.1 = 0 then 0 else v.tdiv r.1) r.2
    | t => (v, { st with rest := t })

def xAdd : ℕ → XState → ℤ × XState
  | 0, st => (0, st)
  | fuel + 1, st => let r := xTerm fuel 1 st; xAddLoop fuel r.1 r.2

def xAddLoop : ℕ → ℤ → XState → ℤ × XState
  | 0, v, st => (v, st)
  | fuel + 1, v, st =>
    match skipBlanks st.rest with
    | '+' :: t => let r := xTerm fuel 1 { st with rest := t }; xAddLoop fuel (v + r.1) r.2
    | '-' :: t => let r := xTerm fuel (-1) { st with rest := t }; xAddLoop fuel (v - r.1) r.2
    | t => (v, { st with rest := t })

end

def exprFuel (t : List Char) : ℕ := 3 * t.length + 3

def initial (t : List Char) : XState := ⟨t, 0, 0, false, 0, false, false, false⟩

/-- The errors of the evaluator, after which the value is 0. -/
def exprErr (st : XState) : Bool := st.deep ∨ st.badsdt ∨ 20 < st.leaf ∧ !st.syn

/-- The value, the net relocation count and the state the evaluator ends in. -/
def exprValFull (t : List Char) : ℤ × ℤ × XState :=
  let t := skipBlanks t
  let r := if t = [] then (0, initial []) else S.xAdd (exprFuel t) (initial t)
  if exprErr r.2 then (0, 0, r.2) else (r.1, r.2.xrl, r.2)

end Scope

/-- A section, or an external by its symbol. -/
inductive Target
  | sect (id : ℕ)
  | er (idx : ℕ)
deriving DecidableEq

/-- The text behind the parenthesis that closes the group at depth `d`. -/
def skipGroup : ℕ → List Char → List Char
  | 0, t => t
  | _, [] => []
  | d + 1, '(' :: t => skipGroup (d + 2) t
  | d + 1, ')' :: t => skipGroup d t
  | d + 1, _ :: t => skipGroup (d + 1) t

def tally (max : ℕ) (ts : List (Target × ℤ)) (x : Target × ℤ) : List (Target × ℤ) :=
  if ts.any fun y => y.1 = x.1 then ts.map fun y => if y.1 = x.1 then (y.1, y.2 + x.2) else y
  else if ts.length < max then ts ++ [x] else ts

namespace Scope

variable (S : Scope)

def nameTarget (nm : List Char) : Option Target :=
  if nm.head?.any Char.isDigit then none
  else (S.find nm).bind fun s =>
    if s.type = .er ∧ !s.defined ∧ s.esdid ≠ 0 then some (.er s.idx)
    else if s.type ≠ .abs then some (.sect s.sect) else none

def exprSectTerms (max : ℕ) : ℕ → List Char → ℤ → Bool → List (Target × ℤ) → List (Target × ℤ)
  | 0, _, _, _, ts => ts
  | _ + 1, [], _, _, ts => ts
  | fuel + 1, ' ' :: t, sign, expect, ts => exprSectTerms max fuel t sign expect ts
  | fuel + 1, '+' :: t, sign, expect, ts => exprSectTerms max fuel t (if expect then sign else 1) true ts
  | fuel + 1, '-' :: t, sign, expect, ts => exprSectTerms max fuel t (if expect then -sign else -1) true ts
  | fuel + 1, '/' :: t, sign, _, ts => exprSectTerms max fuel t sign true ts
  | fuel + 1, ',' :: t, _, _, ts => exprSectTerms max fuel t 1 true ts
  | fuel + 1, '*' :: t, sign, expect, ts =>
    if expect then exprSectTerms max fuel t 1 false (tally max ts (.sect S.curSect, sign))
    else exprSectTerms max fuel t sign true ts
  | fuel + 1, '(' :: t, sign, expect, ts =>
    if expect then exprSectTerms max fuel t sign expect ts
    else exprSectTerms max fuel (skipGroup 1 t) sign expect ts
  | fuel + 1, ')' :: t, sign, expect, ts => exprSectTerms max fuel t sign expect ts
  | fuel + 1, t, sign, _, ts =>
    let n := takeName t
    exprSectTerms max fuel n.2 1 false
      ((S.nameTarget n.1).elim ts fun x => tally max ts (x, sign))

def relocatable (s : XSym) : Bool :=
  s.type = .sd ∨ s.type = .pc ∨ s.type = .rel ∨ s.type = .cm ∨ s.type = .xd ∨ s.type = .er ∧ s.known

/-- The first relocatable term that `reloc_sym` takes as added, `*` for the location counter. -/
def relocSym : ℕ → List Char → ℤ → Bool → Option (List Char)
  | 0, _, _, _ => none
  | _ + 1, [], _, _ => none
  | fuel + 1, ' ' :: t, sign, expect => relocSym fuel t sign expect
  | fuel + 1, '+' :: t, sign, expect => relocSym fuel t (if expect then sign else 1) true
  | fuel + 1, '-' :: t, sign, expect => relocSym fuel t (if expect then sign else -1) true
  | fuel + 1, '/' :: t, sign, _ => relocSym fuel t sign true
  | fuel + 1, ',' :: t, _, _ => relocSym fuel t 1 true
  | fuel + 1, '*' :: t, sign, expect =>
    if expect then if 0 < sign then some ['*'] else relocSym fuel t 1 false
    else relocSym fuel t sign true
  | fuel + 1, '(' :: t, sign, expect =>
    if expect then relocSym fuel t sign expect else relocSym fuel (skipGroup 1 t) sign expect
  | fuel + 1, ')' :: t, sign, expect => relocSym fuel t sign expect
  | fuel + 1, c :: t, sign, _ =>
    if (c = 'X' ∨ c = 'B' ∨ c = 'C') ∧ t.head? = some '\'' then
      relocSym fuel (dropQuote (t.tail.dropWhile (· ≠ '\''))) 1 false
    else
      let n := takeName (c :: t)
      if !n.1.head?.any Char.isDigit ∧ (S.find n.1).any relocatable ∧ 0 < sign then some n.1
      else relocSym fuel n.2 1 false

end Scope

end Cc370.As370
