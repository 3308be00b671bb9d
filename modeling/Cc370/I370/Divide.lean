import Cc370.I370.Machine

namespace Cc370.I370.Divide

/-- The registers of the expanders: the words of `dr`, and `sr`; `op0` is where the result goes. -/
inductive Reg
  | dr_0
  | dr_1
  | sr
  | op0
deriving DecidableEq

inductive Source
  | reg (r : Reg)
  | const (c : Word)
  | op1
  | op2
deriving DecidableEq

/-- An operand of an expander: a constant, or a register or storage. -/
inductive Operand
  | const (c : Word)
  | general (v : Word)
deriving DecidableEq

def Operand.value : Operand → Word
  | .const c => c
  | .general v => v

inductive Cond
  | gtu
  | ltu
  | lt
  | eq
deriving DecidableEq

/-- The codes that `unsigned_jump_follows_p` takes for signed ones. -/
def Cond.signed : Cond → Bool
  | .lt => true
  | _ => false

/-- The conditional branches, by the condition code they go on. -/
def Cond.cc : Cond → Fin 4
  | .gtu => 2
  | .ltu => 1
  | .lt => 1
  | .eq => 0

inductive Rtl
  | set (r : Reg) (s : Source)
  | abs (r s : Reg)
  | plus (r s : Reg)
  | minus (r s : Reg)
  | ashiftrt (n : ℕ)
  | lshiftrt (n : ℕ)
  | divmod (s : Source)
  | cmpsi (r : Reg) (s : Source)
  | branch (c : Cond) (label : ℕ)
  | jump (label : ℕ)
  | label (label : ℕ)
deriving DecidableEq

section Expanders

open Rtl Reg

variable (operand1 operand2 : Operand)

def extendsidi2 : List Rtl :=
  match operand1 with
  | .general _ => [set dr_0 .op1, ashiftrt 32]
  | .const c => [set dr_0 (.const (if c.toInt < 0 then -1 else 0)), set dr_1 .op1]

def zero_extendsidi2 : List Rtl := [set dr_0 .op1, lshiftrt 32]

def divsi3 : List Rtl := extendsidi2 operand1 ++ [divmod .op2, set op0 (.reg dr_1)]

def modsi3 : List Rtl := extendsidi2 operand1 ++ [divmod .op2, set op0 (.reg dr_0)]

def udivsi3 : List Rtl :=
  (match operand2 with
    | .const c =>
      if c.toInt > 0 then zero_extendsidi2 ++ [divmod .op2]
      else [set dr_0 .op1, set dr_1 (.const 0), cmpsi dr_0 .op2, branch .ltu 1, set dr_1 (.const 1), label 1]
    | .general _ =>
      [set dr_0 .op1, set sr .op2, set dr_1 (.const 0),
        cmpsi sr (.reg dr_0), branch .gtu 3,
        cmpsi sr (.const 0), branch .lt 2,
        cmpsi sr (.const 1), branch .eq 1,
        lshiftrt 32, divmod (.reg sr), jump 3,
        label 1, set dr_1 (.reg dr_0), jump 3,
        label 2, set dr_1 (.const 1),
        label 3]) ++ [set op0 (.reg dr_1)]

def umodsi3 : List Rtl :=
  set dr_0 .op1 ::
  (match operand2 with
    | .const c =>
      if c.toInt > 0 then [lshiftrt 32, divmod .op2]
      else [set sr .op2, cmpsi dr_0 (.reg sr), branch .ltu 1, abs sr sr, plus dr_0 sr, label 1]
    | .general _ =>
      [set dr_0 .op1, set sr .op2,
        cmpsi sr (.reg dr_0), branch .gtu 3,
        cmpsi sr (.const 0), branch .lt 2,
        cmpsi sr (.const 1), branch .eq 1,
        lshiftrt 32, divmod (.reg sr), jump 3,
        label 1, set dr_0 (.const 0), jump 3,
        label 2, minus dr_0 sr,
        label 3]) ++ [set op0 (.reg dr_0)]

end Expanders

/-- After an equality, what the next jump is decides. -/
def afterEquality : List Rtl → Bool
  | [] => true
  | .branch c _ :: _ => !c.signed
  | .jump _ :: _ => true
  | _ :: rest => afterEquality rest

def unsignedJumpFollows : List Rtl → Bool
  | [] => true
  | .branch c _ :: rest => if c = .eq then afterEquality rest else !c.signed
  | _ :: rest => unsignedJumpFollows rest

inductive Asm
  | lr (r s : Reg)
  | slr (r s : Reg)
  | la (r : Reg) (n : Word)
  | l (r : Reg) (s : Source)
  | lpr (r s : Reg)
  | ar (r s : Reg)
  | sr (r s : Reg)
  | srda (n : ℕ)
  | srdl (n : ℕ)
  | d (s : Source)
  | c (r : Reg) (s : Source)
  | cl (r : Reg) (s : Source)
  | bc (cc : Fin 4) (label : ℕ)
  | b (label : ℕ)
  | label (label : ℕ)
deriving DecidableEq

def movsi (r : Reg) : Source → Asm
  | .reg s => .lr r s
  | .const c => if c = 0 then .slr r r else if c.toNat < 4096 then .la r c else .l r (.const c)
  | s => .l r s

/-- The templates; those of a register and of storage are one here for DR and D, CR and C, CLR and CL, and an operand's load. -/
def final : List Rtl → List Asm
  | [] => []
  | .set r s :: rest => movsi r s :: final rest
  | .abs r s :: rest => .lpr r s :: final rest
  | .plus r s :: rest => .ar r s :: final rest
  | .minus r s :: rest => .sr r s :: final rest
  | .ashiftrt n :: rest => .srda n :: final rest
  | .lshiftrt n :: rest => .srdl n :: final rest
  | .divmod s :: rest => .d s :: final rest
  | .cmpsi r s :: rest => (if unsignedJumpFollows rest then .cl r s else .c r s) :: final rest
  | .branch c label :: rest => .bc c.cc label :: final rest
  | .jump label :: rest => .b label :: final rest
  | .label label :: rest => .label label :: final rest

structure State where
  reg : Reg → Word
  cc : Fin 4

inductive Trap
  | divide
  | noLabel
deriving DecidableEq

namespace State

def set (s : State) (r : Reg) (v : Word) : State := { s with reg := Function.update s.reg r v }

def withCc (s : State) (c : Fin 4) : State := { s with cc := c }

variable (a b : Word) (s : State)

def source : Source → Word
  | .reg r => s.reg r
  | .const c => c
  | .op1 => a
  | .op2 => b

/-- The pair of registers of a double shift or a division. -/
def pair : BitVec 64 := s.reg .dr_0 ++ s.reg .dr_1

def setPair (v : BitVec 64) : State := (s.set .dr_0 (v.extractLsb' 32 32)).set .dr_1 (v.extractLsb' 0 32)

/-- The condition code of a signed result. -/
def signed (overflow : Bool) (v : Word) : State := s.withCc (Machine.signCc overflow v)

/-- Signed division; the remainder has the sign of the dividend. -/
def divide (v : Word) : Except Trap State :=
  let q := s.pair.toInt.tdiv v.toInt
  if v = 0 ∨ ¬ (-2 ^ 31 ≤ q ∧ q < 2 ^ 31) then .error .divide
  else .ok ((s.set .dr_0 (BitVec.ofInt 32 (s.pair.toInt.tmod v.toInt))).set .dr_1 (BitVec.ofInt 32 q))

/-- An instruction that is no branch. -/
def exec : Asm → Except Trap State
  | .lr r t => .ok (s.set r (s.reg t))
  | .slr r t => .ok ((s.set r (s.reg r - s.reg t)).withCc (Machine.borrowCc (s.reg r) (s.reg t)))
  | .la r n => .ok (s.set r n)
  | .l r t => .ok (s.set r (s.source a b t))
  | .lpr r t =>
    let v := if (s.reg t).msb then -s.reg t else s.reg t
    .ok ((s.set r v).signed (s.reg t = BitVec.intMin 32) v)
  | .ar r t => .ok ((s.set r (s.reg r + s.reg t)).signed ((s.reg r).saddOverflow (s.reg t)) (s.reg r + s.reg t))
  | .sr r t => .ok ((s.set r (s.reg r - s.reg t)).signed ((s.reg r).ssubOverflow (s.reg t)) (s.reg r - s.reg t))
  | .srda n => .ok ((s.setPair (s.pair.sshiftRight n)).withCc (if s.pair.sshiftRight n = 0 then 0 else if s.pair.msb then 1 else 2))
  | .srdl n => .ok (s.setPair (s.pair >>> n))
  | .d t => s.divide (s.source a b t)
  | .c r t => .ok (s.withCc (Machine.compareCc (s.reg r).toInt (s.source a b t).toInt))
  | .cl r t => .ok (s.withCc (Machine.compareCc (s.reg r).toNat (s.source a b t).toNat))
  | _ => .ok s

end State

/-- Branches go forward only: on the way to a label nothing is executed. -/
def run (a b : Word) : List Asm → Option ℕ → State → Except Trap State
  | [], none, s => .ok s
  | [], some _, _ => .error .noLabel
  | .label l :: rest, some t, s => run a b rest (if l = t then none else some t) s
  | _ :: rest, some t, s => run a b rest (some t) s
  | .bc c l :: rest, none, s => run a b rest (if s.cc = c then some l else none) s
  | .b l :: rest, none, s => run a b rest (some l) s
  | i :: rest, none, s => (s.exec a b i).bind (run a b rest none)

/-- What the code of an expander leaves in its result operand. -/
def result (code : List Rtl) (operand1 operand2 : Operand) (s : State) : Except Trap Word :=
  (run operand1.value operand2.value (final code) none s).map (·.reg .op0)

end Cc370.I370.Divide
