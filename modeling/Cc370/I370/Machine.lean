import Mathlib.Algebra.Order.Ring.Int
import Mathlib.Logic.Function.Basic
import Mathlib.Tactic.SplitIfs

namespace Cc370.I370

scoped instance neZeroSixteen : NeZero 16 := ⟨by decide⟩

scoped instance neZeroFour : NeZero 4 := ⟨by decide⟩

abbrev Word := BitVec 32

abbrev Half := BitVec 16

theorem append_parts {h l : ℕ} (v : BitVec (h + l)) : v.extractLsb' l h ++ v.extractLsb' 0 l = v := by
  ext i hi
  simp only [BitVec.getElem_append, BitVec.getElem_extractLsb']
  split
  · rw [Nat.zero_add, BitVec.getLsbD_eq_getElem hi]
  · rename_i hlow
    have hpos : l + (i - l) = i := by omega
    rw [hpos, BitVec.getLsbD_eq_getElem hi]

/-- The part of the machine that the general instructions work on. -/
structure Machine where
  gpr : Fin 16 → Word
  mem : BitVec 24 → BitVec 8
  cc : Fin 4

/-- D(X,B); register 0 stands for no register. -/
structure Address where
  disp : BitVec 12
  index : Fin 16
  base : Fin 16
deriving DecidableEq

/-- An operand of an instruction in storage, or a literal of the pool. -/
inductive Datum (w : ℕ)
  | literal (v : BitVec w)
  | storage (a : Address)
deriving DecidableEq

inductive Op
  | lr (r s : Fin 16)
  | slr (r s : Fin 16)
  | lcr (r s : Fin 16)
  | lpr (r s : Fin 16)
  | nr (r s : Fin 16)
  | or (r s : Fin 16)
  | xr (r s : Fin 16)
  | bctr (r : Fin 16)
  | la (r : Fin 16) (a : Address)
  | ic (r : Fin 16) (a : Address)
  | icm (r : Fin 16) (mask : BitVec 4) (a : Address)
  | sth (r : Fin 16) (a : Address)
  | st (r : Fin 16) (a : Address)
  | lh (r : Fin 16) (d : Datum 16)
  | ah (r : Fin 16) (d : Datum 16)
  | sh (r : Fin 16) (d : Datum 16)
  | ch (r : Fin 16) (d : Datum 16)
  | n (r : Fin 16) (d : Datum 32)
  | o (r : Fin 16) (d : Datum 32)
  | x (r : Fin 16) (d : Datum 32)
  | sll (r : Fin 16) (a : Address)
  | srl (r : Fin 16) (a : Address)
  | sra (r : Fin 16) (a : Address)
deriving DecidableEq

namespace Machine

variable (m : Machine)

def part (r : Fin 16) : Word := if r = 0 then 0 else m.gpr r

def addr (a : Address) : BitVec 24 := (a.disp.setWidth 32 + m.part a.index + m.part a.base).setWidth 24

/-- A shift takes the six low bits of its second operand address. -/
def count (a : Address) : ℕ := (m.addr a).toNat % 64

def fetch2 (a : BitVec 24) : Half := m.mem a ++ m.mem (a + 1)

def fetch4 (a : BitVec 24) : Word := m.fetch2 a ++ m.fetch2 (a + 2)

def half : Datum 16 → Half
  | .literal v => v
  | .storage a => m.fetch2 (m.addr a)

def word : Datum 32 → Word
  | .literal v => v
  | .storage a => m.fetch4 (m.addr a)

def set (r : Fin 16) (v : Word) : Machine := { m with gpr := Function.update m.gpr r v }

def withCc (c : Fin 4) : Machine := { m with cc := c }

def store2 (a : BitVec 24) (v : Half) : Machine :=
  { m with mem := Function.update (Function.update m.mem a (v.extractLsb' 8 8)) (a + 1) (v.extractLsb' 0 8) }

def store4 (a : BitVec 24) (v : Word) : Machine :=
  (m.store2 a (v.extractLsb' 16 16)).store2 (a + 2) (v.extractLsb' 0 16)

/-- The condition code of a signed result: zero, negative, positive, overflow. -/
def signCc (overflow : Bool) (v : Word) : Fin 4 :=
  if overflow then 3 else if v = 0 then 0 else if v.msb then 1 else 2

def logicalCc (v : Word) : Fin 4 := if v = 0 then 0 else 1

def compareCc (v w : Int) : Fin 4 := if v = w then 0 else if v < w then 1 else 2

/-- Subtract logical: 1 without a carry, 2 for zero, 3 with a carry. -/
def borrowCc (v w : Word) : Fin 4 := if v = w then 2 else if w ≤ v then 3 else 1

/-- The bytes that a mask selects are replaced in turn by the bytes of storage. -/
def inserted (mask : BitVec 4) (a : BitVec 24) (v : Word) : Word :=
  let at0 := if mask.getLsbD 3 then m.mem a else v.extractLsb' 24 8
  let a1 := if mask.getLsbD 3 then a + 1 else a
  let at1 := if mask.getLsbD 2 then m.mem a1 else v.extractLsb' 16 8
  let a2 := if mask.getLsbD 2 then a1 + 1 else a1
  let at2 := if mask.getLsbD 1 then m.mem a2 else v.extractLsb' 8 8
  let a3 := if mask.getLsbD 1 then a2 + 1 else a2
  let at3 := if mask.getLsbD 0 then m.mem a3 else v.extractLsb' 0 8
  at0 ++ at1 ++ at2 ++ at3

/-- The condition code of an insertion: the bytes are all zero, the first bit is one, or neither. -/
def insertedCc (mask : BitVec 4) (a : BitVec 24) : Fin 4 :=
  let bytes := (List.range mask.cpop.toNat).map fun k => m.mem (a + BitVec.ofNat 24 k)
  if bytes.all (· = 0) then 0 else if (bytes.headD 0).msb then 1 else 2

def exec (m : Machine) : Op → Machine
  | .lr r s => m.set r (m.gpr s)
  | .slr r s => (m.set r (m.gpr r - m.gpr s)).withCc (borrowCc (m.gpr r) (m.gpr s))
  | .lcr r s => (m.set r (-m.gpr s)).withCc (signCc (m.gpr s = BitVec.intMin 32) (-m.gpr s))
  | .lpr r s =>
    let v := if (m.gpr s).msb then -m.gpr s else m.gpr s
    (m.set r v).withCc (signCc (m.gpr s = BitVec.intMin 32) v)
  | .nr r s => (m.set r (m.gpr r &&& m.gpr s)).withCc (logicalCc (m.gpr r &&& m.gpr s))
  | .or r s => (m.set r (m.gpr r ||| m.gpr s)).withCc (logicalCc (m.gpr r ||| m.gpr s))
  | .xr r s => (m.set r (m.gpr r ^^^ m.gpr s)).withCc (logicalCc (m.gpr r ^^^ m.gpr s))
  | .bctr r => m.set r (m.gpr r - 1)
  | .la r a => m.set r ((m.addr a).setWidth 32)
  | .ic r a => m.set r ((m.gpr r).extractLsb' 8 24 ++ m.mem (m.addr a))
  | .icm r mask a => (m.set r (m.inserted mask (m.addr a) (m.gpr r))).withCc (m.insertedCc mask (m.addr a))
  | .st r a => m.store4 (m.addr a) (m.gpr r)
  | .sth r a => m.store2 (m.addr a) ((m.gpr r).setWidth 16)
  | .lh r d => m.set r ((m.half d).signExtend 32)
  | .ah r d =>
    let v := (m.half d).signExtend 32
    (m.set r (m.gpr r + v)).withCc (signCc ((m.gpr r).saddOverflow v) (m.gpr r + v))
  | .sh r d =>
    let v := (m.half d).signExtend 32
    (m.set r (m.gpr r - v)).withCc (signCc ((m.gpr r).ssubOverflow v) (m.gpr r - v))
  | .ch r d => m.withCc (compareCc (m.gpr r).toInt (m.half d).toInt)
  | .n r d => (m.set r (m.gpr r &&& m.word d)).withCc (logicalCc (m.gpr r &&& m.word d))
  | .o r d => (m.set r (m.gpr r ||| m.word d)).withCc (logicalCc (m.gpr r ||| m.word d))
  | .x r d => (m.set r (m.gpr r ^^^ m.word d)).withCc (logicalCc (m.gpr r ^^^ m.word d))
  | .sll r a => m.set r (m.gpr r <<< m.count a)
  | .srl r a => m.set r (m.gpr r >>> m.count a)
  | .sra r a =>
    let v := (m.gpr r).sshiftRight (m.count a)
    (m.set r v).withCc (signCc false v)

def run (m : Machine) (ops : List Op) : Machine := ops.foldl exec m

@[simp] theorem run_nil : m.run [] = m := rfl

@[simp] theorem run_cons (i : Op) (ops : List Op) : m.run (i :: ops) = (m.exec i).run ops := rfl

@[simp] theorem set_gpr (r : Fin 16) (v : Word) : (m.set r v).gpr = Function.update m.gpr r v := rfl

@[simp] theorem set_mem (r : Fin 16) (v : Word) : (m.set r v).mem = m.mem := rfl

@[simp] theorem withCc_gpr (c : Fin 4) : (m.withCc c).gpr = m.gpr := rfl

@[simp] theorem withCc_mem (c : Fin 4) : (m.withCc c).mem = m.mem := rfl

@[simp] theorem withCc_cc (c : Fin 4) : (m.withCc c).cc = c := rfl

@[simp] theorem store2_gpr (a : BitVec 24) (v : Half) : (m.store2 a v).gpr = m.gpr := rfl

@[simp] theorem store2_addr (a : BitVec 24) (v : Half) (e : Address) : (m.store2 a v).addr e = m.addr e := rfl

/-- A halfword that was stored is fetched again. -/
@[simp] theorem fetch2_store2 (a : BitVec 24) (v : Half) : (m.store2 a v).fetch2 a = v := by
  have hne : a ≠ a + 1 := by
    intro h
    bv_omega
  simp only [fetch2, store2, Function.update_self, Function.update_of_ne hne]
  exact @append_parts 8 8 v

theorem fetch2_store2_of_ne {a b : BitVec 24} (v : Half) (h0 : a ≠ b) (h1 : a ≠ b + 1) (h2 : a + 1 ≠ b) :
    (m.store2 b v).fetch2 a = m.fetch2 a := by
  have h3 : a + 1 ≠ b + 1 := by
    intro h
    apply h0
    bv_omega
  simp only [fetch2, store2, Function.update_of_ne h0, Function.update_of_ne h1, Function.update_of_ne h2,
    Function.update_of_ne h3]

@[simp] theorem fetch4_store4 (a : BitVec 24) (v : Word) : (m.store4 a v).fetch4 a = v := by
  have h0 : a ≠ a + 2 := by
    intro h
    bv_omega
  have h1 : a ≠ a + 2 + 1 := by
    intro h
    bv_omega
  have h2 : a + 1 ≠ a + 2 := by
    intro h
    bv_omega
  rw [fetch4, store4, fetch2_store2, fetch2_store2_of_ne _ _ h0 h1 h2, fetch2_store2]
  exact @append_parts 16 16 v

end Machine

end Cc370.I370
