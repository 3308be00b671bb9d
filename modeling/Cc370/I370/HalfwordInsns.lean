import Cc370.I370.Machine

namespace Cc370.I370

/-- What a register holds, by the mode of the value. -/
inductive Content
  | hi (v : Half)
  | si (v : Word)
  | qi (v : BitVec 8)
deriving DecidableEq

abbrev Contents := Fin 16 → Content

/-- An HImode value is held sign extended to the whole register. -/
def Content.Holds (w : Word) : Content → Prop
  | .hi v => w = v.signExtend 32
  | .si v => w = v
  | .qi v => w.setWidth 8 = v

instance (w : Word) (c : Content) : Decidable (c.Holds w) := by
  cases c <;> (unfold Content.Holds; infer_instance)

def Contents.IsHalf (c : Contents) (r : Fin 16) : Prop := ∃ v, c r = .hi v

def Contents.IsWord (c : Contents) (r : Fin 16) : Prop := ∃ v, c r = .si v

def Contents.IsByte (c : Contents) (r : Fin 16) : Prop := ∃ v, c r = .qi v

def Contents.half (c : Contents) (r : Fin 16) : Half :=
  match c r with
  | .hi v => v
  | _ => 0

def Contents.word (c : Contents) (r : Fin 16) : Word :=
  match c r with
  | .si v => v
  | _ => 0

def Contents.byte (c : Contents) (r : Fin 16) : BitVec 8 :=
  match c r with
  | .qi v => v
  | _ => 0

/-- A general operand of HImode. -/
inductive Operand
  | reg (r : Fin 16)
  | const (c : Half)
  | mem (a : Address)
deriving DecidableEq

/-- A register or a constant. -/
inductive Plain
  | reg (r : Fin 16)
  | const (c : Half)
deriving DecidableEq

/-- The count of a shift, a register or a constant of twelve bits. -/
inductive Count
  | reg (r : Fin 16)
  | const (c : BitVec 12)
deriving DecidableEq

/-- The operand of an extension from QImode: the destination's own register, a constant, storage. -/
inductive Byte
  | same
  | const (c : BitVec 8)
  | mem (a : Address)
deriving DecidableEq

inductive Dest
  | reg (r : Fin 16)
  | mem (a : Address)
deriving DecidableEq

inductive Insn
  | movhi (d : Fin 16) (s : Operand)
  | movstricthi (d s : Fin 16)
  | addhi3 (d : Fin 16) (s : Operand)
  | subhi3 (d : Fin 16) (s : Operand)
  | andhi3 (d : Fin 16) (s : Plain)
  | iorhi3 (d : Fin 16) (s : Plain)
  | xorhi3 (d : Fin 16) (s : Plain)
  | neghi2 (d s : Fin 16)
  | abshi2 (d s : Fin 16)
  | oneCmplhi2 (d : Fin 16)
  | ashlhi3 (d : Fin 16) (n : Count)
  | ashrhi3 (d : Fin 16) (n : Count)
  | lshrhi3 (d : Fin 16) (n : Count)
  | extendqihi2 (d : Fin 16) (s : Option Address)
  | zeroExtendqihi2 (d : Fin 16) (s : Byte)
  | truncsihi2 (d : Fin 16)
deriving DecidableEq

def Insn.dest : Insn → Fin 16
  | .movhi d _ | .movstricthi d _ | .addhi3 d _ | .subhi3 d _ | .andhi3 d _ | .iorhi3 d _ | .xorhi3 d _
  | .neghi2 d _ | .abshi2 d _ | .oneCmplhi2 d | .ashlhi3 d _ | .ashrhi3 d _ | .lshrhi3 d _
  | .extendqihi2 d _ | .zeroExtendqihi2 d _ | .truncsihi2 d => d

section Templates

-- The offset of the conversion area in the frame, 80 or 140 by the target.
variable (convlo : BitVec 12)

def conv : Address := ⟨convlo, 0, 13⟩

def by16 : Address := ⟨16, 0, 0⟩

def by24 : Address := ⟨24, 0, 0⟩

/-- The forms of a constant: SLR, LA for what fits its displacement, a literal. -/
def loadConst (d : Fin 16) (c : Half) : List Op :=
  if c = 0 then [.slr d d]
  else if c.toNat < 4096 then [.la d ⟨c.setWidth 12, 0, 0⟩]
  else [.lh d (.literal c)]

def movhi (d : Fin 16) : Operand → List Op
  | .reg s => [.lr d s]
  | .const c => loadConst d c
  | .mem a => [.lh d (.storage a)]

def movstricthi (d s : Fin 16) : List Op := [.sth s (conv convlo), .icm d 3 (conv convlo)]

def addhi3 (d : Fin 16) : Operand → List Op
  | .reg s => [.sth s (conv convlo), .ah d (.storage (conv convlo))]
  | .const c => if c.toInt = -1 then [.bctr d] else [.ah d (.literal c)]
  | .mem a => [.ah d (.storage a)]

def subhi3 (d : Fin 16) : Operand → List Op
  | .reg s => [.sth s (conv convlo), .sh d (.storage (conv convlo))]
  | .const c => if c.toInt = 1 then [.bctr d] else [.sh d (.literal c)]
  | .mem a => [.sh d (.storage a)]

/-- The logical patterns: a register, or the constant sign extended to a fullword. -/
def logichi3 (rr : Fin 16 → Fin 16 → Op) (rx : Fin 16 → Datum 32 → Op) (d : Fin 16) : Plain → List Op
  | .reg s => [rr d s]
  | .const c => [rx d (.literal (c.signExtend 32))]

def andhi3 : Fin 16 → Plain → List Op := logichi3 .nr .n

def iorhi3 : Fin 16 → Plain → List Op := logichi3 .or .o

def xorhi3 : Fin 16 → Plain → List Op := logichi3 .xr .x

def neghi2 (d s : Fin 16) : List Op := [.sll s by16, .sra s by16, .lcr d s]

def abshi2 (d s : Fin 16) : List Op := [.sll s by16, .sra s by16, .lpr d s]

def oneCmplhi2 (d : Fin 16) : List Op := [.x d (.literal (-1))]

/-- The address of a shift by 16 more than the count; a displacement above 4095 is not assembled. -/
def more16 : Count → Option Address
  | .reg r => some ⟨16, 0, r⟩
  | .const c => if 16 + c.toNat < 4096 then some ⟨16 + c, 0, 0⟩ else none

def ashlhi3 (d : Fin 16) (n : Count) : Option (List Op) := (more16 n).map fun a => [.sll d a, .sra d by16]

def ashrhi3 (d : Fin 16) (n : Count) : Option (List Op) := (more16 n).map fun a => [.sll d by16, .sra d a]

def lshrhi3 (d : Fin 16) : Count → List Op
  | .reg r => [.n d (.literal 0x0000FFFF), .srl d ⟨0, 0, r⟩]
  | .const c => [.n d (.literal 0x0000FFFF), .srl d ⟨c, 0, 0⟩]

/-- An operand without an index is an S operand, and inserted by ICM. -/
def extendqihi2 (d : Fin 16) : Option Address → List Op
  | none => [.sll d by24, .sra d by24]
  | some a => if a.index = 0 then [.icm d 8 a, .sra d by24] else [.ic d a, .sll d by24, .sra d by24]

/-- A negative constant would be a negative displacement, which is not assembled. -/
def zeroExtendqihi2 (d : Fin 16) : Byte → Option (List Op)
  | .same => some [.n d (.literal 0x000000FF)]
  | .const c => if c.msb then none else some [.la d ⟨c.setWidth 12, 0, 0⟩]
  | .mem a => some [.slr d d, .ic d a]

def truncsihi2 (d : Fin 16) : List Op := [.sll d by16, .sra d by16]

/-- With the same register nothing is emitted. -/
def extendhisi2 : Dest → Operand → List Op
  | .reg d, .reg s => if d ≠ s then [.lr d s, .sll d by16, .sra d by16] else []
  | .reg d, .const c => loadConst d c
  | .reg d, .mem a => [.lh d (.storage a)]
  | .mem a, .reg s => [.sll s by16, .sra s by16, .st s a]
  | .mem _, _ => []

/-- The compare that a signed jump follows. -/
def cmphi (r : Fin 16) : Operand → List Op
  | .reg s => [.sth s (conv convlo), .ch r (.storage (conv convlo))]
  | .const c => [.ch r (.literal c)]
  | .mem a => [.ch r (.storage a)]

def emitted : Insn → Option (List Op)
  | .movhi d s => some (movhi d s)
  | .movstricthi d s => some (movstricthi convlo d s)
  | .addhi3 d s => some (addhi3 convlo d s)
  | .subhi3 d s => some (subhi3 convlo d s)
  | .andhi3 d s => some (andhi3 d s)
  | .iorhi3 d s => some (iorhi3 d s)
  | .xorhi3 d s => some (xorhi3 d s)
  | .neghi2 d s => some (neghi2 d s)
  | .abshi2 d s => some (abshi2 d s)
  | .oneCmplhi2 d => some (oneCmplhi2 d)
  | .ashlhi3 d n => ashlhi3 d n
  | .ashrhi3 d n => ashrhi3 d n
  | .lshrhi3 d n => some (lshrhi3 d n)
  | .extendqihi2 d s => some (extendqihi2 d s)
  | .zeroExtendqihi2 d s => zeroExtendqihi2 d s
  | .truncsihi2 d => some (truncsihi2 d)

end Templates

section Rtl

variable (m : Machine) (c : Contents)

def Operand.value : Operand → Half
  | .reg r => c.half r
  | .const v => v
  | .mem a => m.fetch2 (m.addr a)

def Plain.value : Plain → Half
  | .reg r => c.half r
  | .const v => v

def Count.value : Count → ℕ
  | .reg r => (c.word r).toNat
  | .const v => v.toNat

def Byte.value (d : Fin 16) : Byte → BitVec 8
  | .same => c.byte d
  | .const v => v
  | .mem a => m.mem (m.addr a)

/-- The value of an insn as its RTL has it, modulo 2^16 for HImode. -/
def Insn.value : Insn → Content
  | .movhi _ s => .hi (s.value m c)
  | .movstricthi d s =>
    match c d with
    | .si w => .si (w.extractLsb' 16 16 ++ c.half s)
    | _ => .hi (c.half s)
  | .addhi3 d s => .hi (c.half d + s.value m c)
  | .subhi3 d s => .hi (c.half d - s.value m c)
  | .andhi3 d s => .hi (c.half d &&& s.value c)
  | .iorhi3 d s => .hi (c.half d ||| s.value c)
  | .xorhi3 d s => .hi (c.half d ^^^ s.value c)
  | .neghi2 _ s => .hi (-c.half s)
  | .abshi2 _ s => .hi (c.half s).abs
  | .oneCmplhi2 d => .hi (~~~c.half d)
  | .ashlhi3 d n => .hi (c.half d <<< n.value c)
  | .ashrhi3 d n => .hi ((c.half d).sshiftRight (n.value c))
  | .lshrhi3 d n => .hi (c.half d >>> n.value c)
  | .extendqihi2 d none => .hi ((c.byte d).signExtend 16)
  | .extendqihi2 _ (some a) => .hi ((m.mem (m.addr a)).signExtend 16)
  | .zeroExtendqihi2 d s => .hi ((s.value m c d).setWidth 16)
  | .truncsihi2 d => .hi ((c.word d).setWidth 16)

def Operand.Typed : Operand → Prop
  | .reg r => c.IsHalf r
  | _ => True

def Plain.Typed : Plain → Prop
  | .reg r => c.IsHalf r
  | .const _ => True

/-- A count is in an address register. -/
def Count.Typed : Count → Prop
  | .reg r => r ≠ 0 ∧ c.IsWord r
  | .const _ => True

/-- Storage that is extended is not addressed through the destination, which is written first. -/
def Byte.Typed (d : Fin 16) : Byte → Prop
  | .same => c.IsByte d
  | .const _ => True
  | .mem a => d = 0 ∨ a.index ≠ d ∧ a.base ≠ d

/-- The registers that an insn reads hold values of the modes it reads them in. -/
def Insn.Typed : Insn → Prop
  | .movhi _ s => s.Typed c
  | .movstricthi d s => (c.IsHalf d ∨ c.IsWord d) ∧ c.IsHalf s
  | .addhi3 d s | .subhi3 d s => c.IsHalf d ∧ s.Typed c
  | .andhi3 d s | .iorhi3 d s | .xorhi3 d s => c.IsHalf d ∧ s.Typed c
  | .neghi2 _ s | .abshi2 _ s => c.IsHalf s
  | .oneCmplhi2 d => c.IsHalf d
  | .ashlhi3 d n | .ashrhi3 d n | .lshrhi3 d n => c.IsHalf d ∧ n.Typed c
  | .extendqihi2 d none => c.IsByte d
  | .extendqihi2 _ (some _) => True
  | .zeroExtendqihi2 d s => s.Typed c d
  | .truncsihi2 d => c.IsWord d

end Rtl

/-- The machine, what its registers stand for, and whether everything emitted could be assembled. -/
structure State where
  machine : Machine
  contents : Contents
  assembled : Bool

namespace State

variable (convlo : BitVec 12) (s : State)

def step (i : Insn) : State :=
  ⟨s.machine.run ((emitted convlo i).getD []),
    Function.update s.contents i.dest (i.value s.machine s.contents),
    s.assembled && (emitted convlo i).isSome⟩

def run (prog : List Insn) : State := prog.foldl (step convlo) s

def Typed (prog : List Insn) : Prop :=
  ∀ p i, p ++ [i] <+: prog → i.Typed (s.run convlo p).contents

end State

end Cc370.I370
