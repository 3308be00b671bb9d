import Cc370.Mvs370
import Cc370.As370.Nominal

namespace Cc370.As370

inductive Relop
  | eq | ne | gt | lt | ge | le
deriving DecidableEq, Repr

namespace Relop

def text : Relop → List Char
  | eq => ['E', 'Q']
  | ne => ['N', 'E']
  | gt => ['G', 'T']
  | lt => ['L', 'T']
  | ge => ['G', 'E']
  | le => ['L', 'E']

def all : List Relop := [eq, ne, gt, lt, ge, le]

def ofText (t : List Char) : Option Relop := all.find? fun r => r.text = t

/-- `rel_apply` -/
def apply : Relop → ℤ → Bool
  | eq, cmp => cmp = 0
  | ne, cmp => cmp ≠ 0
  | gt, cmp => 0 < cmp
  | lt, cmp => cmp < 0
  | ge, cmp => 0 ≤ cmp
  | le, cmp => cmp ≤ 0

end Relop

def andText : List Char := ['A', 'N', 'D']

def orText : List Char := ['O', 'R']

def notText : List Char := ['N', 'O', 'T']

def isRelop (t : List Char) : Bool := (Relop.ofText t).isSome

def isLogical (t : List Char) : Bool := t = notText ∨ t = andText ∨ t = orText

/-- How the terms of a condition are evaluated: `eval_seta`, `eval_setc` and `type_attr`. -/
structure CondEnv where
  seta : List Char → ℤ
  setc : List Char → List Char
  typeAttr : List Char → List Char

namespace CondEnv

variable (env : CondEnv)

def termIsStr (t : List Char) : Bool := t.head? = some '\'' ∨ t.take 2 = ['T', '\'']

def termStr (t : List Char) : List Char := if t.take 2 = ['T', '\''] then env.typeAttr (t.drop 2) else env.setc t

/-- The comparison of two strings of one length. -/
def cmpText : List Char → List Char → ℤ
  | l :: ls, r :: rs =>
    let le := mvsA2e (.ofNat l.toNat)
    let re := mvsA2e (.ofNat r.toNat)
    if le ≠ re then if le < re then -1 else 1 else cmpText ls rs
  | _, _ => 0

def cmpStr (ls rs : List Char) : ℤ :=
  if ls.length < rs.length then -1 else if rs.length < ls.length then 1 else cmpText ls rs

def evalComp (l : List Char) (rel : Relop) (r : List Char) : Bool :=
  rel.apply
    (if termIsStr l ∨ termIsStr r then cmpStr (env.termStr l) (env.termStr r)
    else if env.seta l < env.seta r then -1 else if env.seta r < env.seta l then 1 else 0)

end CondEnv

/-- A token as far as it is read: its characters, whether a quote is open, the depth of the
parentheses, and whether a quote or the outermost parenthesis has just been closed. -/
structure Tok where
  o : List Char
  q : Bool
  d : ℤ
  closed : Bool
deriving DecidableEq

namespace Tok

def fresh : Tok := ⟨[], false, 0, false⟩

/-- The apostrophe of K', N', L' or T' is no quote. -/
def attrMark (last : Option Char) : Bool := last.any fun c => c = 'K' ∨ c = 'N' ∨ c = 'L' ∨ c = 'T'

def ends (k : Tok) (c : Char) : Bool := !k.q ∧ k.d = 0 ∧ c = ' '

/-- The character begins another token. -/
def breaks (k : Tok) (c : Char) : Bool :=
  (!k.q ∧ k.d = 0 ∧ k.closed ∧ c.isAlpha) ∨
  (c = '\'' ∧ !k.q ∧ k.o ≠ [] ∧ (isRelop k.o ∨ isLogical k.o)) ∨
  (c = '(' ∧ !k.q ∧ k.d = 0 ∧ k.o ≠ [] ∧ isLogical k.o)

def add (k : Tok) (c : Char) : Tok :=
  let o := if k.o.length < 255 then k.o ++ [c] else k.o
  if c = '\'' then
    if k.q ∨ !attrMark k.o.getLast? then ⟨o, !k.q, k.d, k.q⟩ else ⟨o, k.q, k.d, false⟩
  else if !k.q ∧ c = '(' then ⟨o, k.q, k.d + 1, false⟩
  else if !k.q ∧ c = ')' then ⟨o, k.q, k.d - 1, k.d - 1 = 0⟩
  else ⟨o, k.q, k.d, false⟩

/-- The tokens of a text, from within a token or between two. -/
def tokens : List Char → Option Tok → List (List Char)
  | [], none => []
  | [], some k => [k.o]
  | c :: p, none => if c = ' ' then tokens p none else tokens p (some (fresh.add c))
  | c :: p, some k =>
    if k.ends c then k.o :: tokens p none
    else if k.breaks c then k.o :: tokens p (some (fresh.add c))
    else tokens p (some (k.add c))

end Tok

namespace CondEnv

variable (env : CondEnv)

def cndBool (ev : List Char → Bool) (t : List Char) : Bool :=
  if t.head? = some '(' ∧ 2 ≤ t.length ∧ t.getLast? = some ')' then ev (t.tail.dropLast.take 127)
  else env.seta t ≠ 0

/-- A comparison or a boolean factor, with the NOTs before it, and the tokens behind it. -/
def factor (ev : List Char → Bool) (ts : List (List Char)) : Option (Bool × List (List Char)) :=
  let neg := (ts.takeWhile (· = notText)).length % 2 = 1
  match ts.dropWhile (· = notText) with
  | l :: rel :: r :: rest =>
    match Relop.ofText rel with
    | some rl => some (env.evalComp l rl r != neg, rest)
    | none => some (env.cndBool ev l != neg, rel :: r :: rest)
  | t :: rest => some (env.cndBool ev t != neg, rest)
  | [] => none

/-- The fold over the factors; `acc` is `none` before the first one. -/
def condLoop (ev : List Char → Bool) : ℕ → Option Bool → List (List Char) → Bool
  | 0, acc, _ => acc.getD false
  | _ + 1, acc, [] => acc.getD false
  | fuel + 1, none, ts =>
    match env.factor ev ts with
    | some (v, rest) => condLoop ev fuel (some v) rest
    | none => false
  | fuel + 1, some a, t :: ts =>
    if t = andText ∨ t = orText then
      match env.factor ev ts with
      | some (v, rest) => condLoop ev fuel (some (if t = andText then a && v else a || v)) rest
      | none => a
    else a

def evalCondF : ℕ → List Char → Bool
  | 0, _ => false
  | n + 1, cond =>
    let ts := (Tok.tokens cond none).take 95
    env.condLoop (evalCondF n) (ts.length + 1) none ts

def evalCond (cond : List Char) : Bool := env.evalCondF (cond.length + 1) cond

end CondEnv

/-- `aif_split`: the condition of an AIF, without its parentheses, and the sequence symbol. -/
def aifSplit (condsz : ℕ) : List Char → Option Char → Bool → ℤ → List Char → Option (List Char × List Char)
  | [], _, _, _, _ => none
  | c :: p, last, q, d, cond =>
    if c = '\'' then
      aifSplit condsz p (some c) (if q ∨ !Tok.attrMark last then !q else q) d (cond ++ [c])
    else if !q ∧ c = '(' then
      aifSplit condsz p (some c) q (d + 1) (if d + 1 = 1 then [] else cond ++ [c])
    else if !q ∧ c = ')' then
      if d - 1 = 0 then some (cond.take (condsz - 1), (p.takeWhile (!·.isWhitespace)).take 18) else aifSplit condsz p (some c) q (d - 1) (cond ++ [c])
    else aifSplit condsz p (some c) q d (cond ++ [c])

/-- The condition that an AIF evaluates. -/
def aifCond (opnd : List Char) : List Char :=
  if opnd.head? = some '(' then ((aifSplit 512 opnd none false 0 []).map Prod.fst).getD [] else []

/-- The value that SETB gives to a condition in parentheses. -/
def CondEnv.setb (env : CondEnv) (opnd : List Char) : Bool :=
  if opnd.head? = some '(' then env.evalCond opnd.tail else env.seta opnd ≠ 0

end Cc370.As370
