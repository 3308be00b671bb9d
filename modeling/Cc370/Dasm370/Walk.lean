import Cc370.Dasm370.Section

namespace Cc370.Dasm370

inductive Fmt
  | none | rr | rx | rs | si | ss | br | bc | svc | s | s0 | sse
deriving DecidableEq, Repr

inductive OpcDec
  | primary | alias | never
deriving DecidableEq, Repr

/-- An entry of the operation table -/
structure Opc where
  name : List Char
  fmt : Fmt
  op : ℕ
  m1 : ℕ
  opw : ℕ
  dec : OpcDec
deriving DecidableEq

section Decode

variable (optab : List Opc)

/-- The opcode that an entry is found under, one byte or two. -/
def Opc.code (o : Opc) : Option ℕ :=
  if o.opw = 2 then if o.fmt = .s ∨ o.fmt = .s0 ∨ o.fmt = .sse then some o.op else .none
  else if o.fmt = .s ∨ o.fmt = .s0 then some (o.op / 256 % 256) else some o.op

def Opc.claims (o : Opc) (b0 b1 : UInt8) : Bool :=
  o.code = some (if o.opw = 2 then b0.toNat * 256 + b1.toNat else b0.toNat) ∧ o.dec ≠ .never

def Opc.isBranch (o : Opc) : Bool := o.fmt = .bc ∨ o.fmt = .br

def findOp (b0 b1 : UInt8) : Option Opc :=
  let mask := b1.toNat / 16
  let cands := optab.filter fun o => o.claims b0 b1 ∧ (o.isBranch → o.m1 = mask ∧ o.dec = .primary)
  match cands.find? fun o => o.dec = .primary with
  | some o => some o
  | .none => cands.head?

def insLenOf (fmt : Fmt) : ℕ :=
  if fmt = .rr ∨ fmt = .br ∨ fmt = .svc then 2 else if fmt = .ss ∨ fmt = .sse then 6 else 4

/-- The instruction as the assembler would encode it again. -/
def reencode (o : Opc) (b : ℕ → UInt8) (i : ℕ) : UInt8 :=
  if i = 0 then
    .ofNat (if o.opw = 2 ∨ o.fmt = .s ∨ o.fmt = .s0 then o.op / 256 else o.op)
  else if i = 1 then
    if o.fmt = .bc ∨ o.fmt = .br then .ofNat (o.m1 * 16 + (b 1).toNat % 16)
    else if o.opw = 2 ∨ o.fmt = .s ∨ o.fmt = .s0 then .ofNat o.op else b 1
  else if o.fmt = .s0 ∧ i < 4 then 0 else b i

def reencodeOk (o : Opc) (b : ℕ → UInt8) (len : ℕ) : Bool := (List.range len).all fun i => reencode o b i = b i

def dec (n : ℕ) : List Char := (toString n).toList

/-- The operands of an instruction; without hints an address is written as D(X,B), D(B) or D(L,B). -/
def operands (o : Opc) (b : ℕ → UInt8) : Option (List Char) :=
  let r1 := (b 1).toNat / 16
  let r2 := (b 1).toNat % 16
  let disp (i : ℕ) := (b i).toNat % 16 * 256 + (b (i + 1)).toNat
  let base (i : ℕ) := (b i).toNat / 16
  let addrB (i : ℕ) := dec (disp i) ++ '(' :: dec (base i) ++ [')']
  let addrX (i x : ℕ) := dec (disp i) ++ '(' :: dec x ++ ',' :: dec (base i) ++ [')']
  match o.fmt with
  | .rr => some (dec r1 ++ ',' :: dec r2)
  | .br => some (dec r2)
  | .svc => some (dec (b 1).toNat)
  | .rx => some (dec r1 ++ ',' :: addrX 2 r2)
  | .bc => some (addrX 2 r2)
  | .rs => some (if r2 = 0 then dec r1 ++ ',' :: addrB 2 else dec r1 ++ ',' :: dec r2 ++ ',' :: addrB 2)
  | .si => some (addrB 2 ++ ',' :: dec (b 1).toNat)
  | .s => some (addrB 2)
  | .s0 => some []
  | .sse => some (addrB 2 ++ ',' :: addrB 4)
  | .ss =>
    if o.op = 0xF0 then
      if 9 < r2 then .none else some (addrX 2 (r1 + 1) ++ ',' :: addrB 4 ++ ',' :: dec r2)
    else if o.op = 0xD9 ∨ o.op = 0xDA ∨ o.op = 0xDB then some (addrX 2 r1 ++ ',' :: addrB 4 ++ ',' :: dec r2)
    else if o.op / 16 % 16 = 0xF then some (addrX 2 (r1 + 1) ++ ',' :: addrX 4 (r2 + 1))
    else some (addrX 2 ((b 1).toNat + 1) ++ ',' :: addrB 4)
  | .none => .none

end Decode

/-- An upper-case hexadecimal number of at least `w` digits. -/
def hexText (w n : ℕ) : List Char :=
  let ds := (Nat.toDigits 16 n).map Char.toUpper
  List.replicate (w - ds.length) '0' ++ ds

/-- A constant of an address: A or V, with a length modifier or without, the symbol and what is
added to it. -/
structure AddrCon where
  isV : Bool
  mod : Option ℕ
  sym : List Char
  plus : Option ℕ
deriving DecidableEq

inductive Stmt
  | ds (n : ℕ)
  | dcHex (bytes : List UInt8)
  | dcAddr (c : AddrCon)
  | insn (o : Opc) (opnd : List Char)
deriving DecidableEq

/-- A statement, the offset it was read from and its name. -/
structure Line where
  off : ℕ
  label : List Char
  stmt : Stmt
deriving DecidableEq

namespace Sect

variable (s : Sect)

def labelName (a : ℕ) : List Char :=
  match s.entries.find? fun l => l.1 = a with
  | some l => l.2
  | none => 'L' :: hexText 6 a

def label (a : ℕ) : List Char := if s.lab a then s.labelName a else []

def rldAt (a : ℕ) : Option RldItem := s.rld.find? fun r => r.addr = a

def rldOverlaps (a len : ℕ) : Bool := s.rld.any fun r => a < r.addr + r.len ∧ r.addr < a + len

/-- How far a run goes on: `n` is extended as long as `ok` holds of it. -/
def extend (ok : ℕ → Bool) : ℕ → ℕ → ℕ
  | 0, n => n
  | fuel + 1, n => if ok n then extend ok fuel (n + 1) else n

def dcHex (a n : ℕ) : Stmt := .dcHex ((List.range n).map fun i => s.img (a + i))

/-- The length modifier of a constant: none for a fullword on its boundary. -/
def lenMod (a : ℕ) (r : RldItem) : Option ℕ := if r.len = 4 ∧ a % 4 = 0 then none else some r.len

/-- The target of a field has a name. -/
def named (r : RldItem) : Bool := r.r = s.esdid ∨ 0 < r.r ∧ r.r < maxEsd ∧ s.esdName r.r ≠ []

def adcon (a : ℕ) (r : RldItem) : Stmt :=
  let mod := lenMod a r
  if r.r = s.esdid then
    let v := (s.fieldVal r : ℤ) - s.org
    if 0 ≤ v ∧ v < s.len ∧ s.lab v.toNat then .dcAddr ⟨false, mod, s.labelName v.toNat, none⟩
    else .dcAddr ⟨false, mod, s.name, some (v % 2 ^ 64).toNat⟩
  else if 0 < r.r ∧ r.r < maxEsd ∧ s.esdName r.r ≠ [] then
    let addend := (s.fieldVal r : ℤ) - if s.esdSection r.r then (s.esdAddr r.r : ℤ) else 0
    if addend = 0 then .dcAddr ⟨true, mod, s.esdName r.r, none⟩
    else .dcAddr ⟨false, mod, s.esdName r.r, some (addend % 2 ^ 64).toNat⟩
  else s.dcHex a r.len

/-- The instruction at an offset, if one may be written there. -/
def insnAt (optab : List Opc) (a : ℕ) : Option (ℕ × Stmt) :=
  if a + 1 < s.len ∧ a % 2 = 0 then
    match findOp optab (s.img a) (s.img (a + 1)) with
    | some o =>
      let len := insLenOf o.fmt
      let b := fun i => s.img (a + i)
      match operands o b with
      | some opnd =>
        if a + len ≤ s.len ∧ !s.rldOverlaps a len ∧ reencodeOk o b len ∧
          ((List.range len).all fun k => k = 0 ∨ !s.lab (a + k)) ∧ ((List.range len).all fun k => s.cov (a + k)) then
          some (len, .insn o opnd)
        else none
      | none => none
    | none => none
  else none

/-- The statement that is written at an offset, with the bytes it takes. -/
def next (optab : List Opc) (a : ℕ) : ℕ × Stmt :=
  if !s.cov a then
    let n := extend (fun n => a + n < s.len ∧ !s.cov (a + n) ∧ !s.lab (a + n)) (s.len - a) 1
    (n, .ds n)
  else
    match s.rldAt a with
    | some r => (r.len, s.adcon a r)
    | none =>
      match s.insnAt optab a with
      | some (len, i) => (len, i)
      | none =>
        let n := extend (fun n => a + n < s.len ∧ s.cov (a + n) ∧ !s.lab (a + n) ∧ s.rldAt (a + n) = none) 15 1
        (n, s.dcHex a n)

def walkFrom (optab : List Opc) : ℕ → ℕ → List Line
  | 0, _ => []
  | fuel + 1, a =>
    if a < s.len then
      let (n, stmt) := s.next optab a
      ⟨a, s.label a, stmt⟩ :: walkFrom optab fuel (a + n)
    else []

def walkSection (optab : List Opc) : List Line := s.walkFrom optab s.len 0

end Sect

end Cc370.Dasm370
