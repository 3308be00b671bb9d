import Cc370.Ar370.Archive

namespace Cc370.Ld370

open Decimal

structure Arsym where
  name : List UInt8
  off : ℕ
deriving DecidableEq

structure Archive where
  sym : List Arsym
  mem : List Arsym
deriving DecidableEq

def be32 (b : Buffer) (p : ℕ) : ℕ :=
  (b p).toNat * 2 ^ 24 + (b (p + 1)).toNat * 2 ^ 16 + (b (p + 2)).toNat * 2 ^ 8 + (b (p + 3)).toNat

/-- The string at `p`, up to a zero byte; `fuel` bounds what is looked at. -/
def cString (b : Buffer) : ℕ → ℕ → List UInt8
  | 0, _ => []
  | fuel + 1, p => if b p = 0 then [] else b p :: cString b fuel (p + 1)

/-- `cnt` symbols from the `k`th on; the name of the first stands at `names`. -/
def readSyms (b : Buffer) (n q : ℕ) : ℕ → ℕ → ℕ → List Arsym
  | 0, _, _ => []
  | cnt + 1, k, names =>
    let s := cString b n names
    ⟨s.take 63, be32 b (q + 4 + 4 * k)⟩ :: readSyms b n q cnt (k + 1) (names + s.length + 1)

/-- The size field of the header at `q`. -/
def sizeAt (b : Buffer) (q : ℕ) : ℕ := (atol ((List.range 10).map fun k => b (q + 48 + k))).toNat

/-- The name of a member from its header, with the long-name member if there was one. -/
def memberName (b : Buffer) (n q : ℕ) (ln : Option (ℕ × ℕ)) : List UInt8 :=
  match (if b q = 0x2F ∧ isDigit (b (q + 1)) then ln else none) with
  | some (at', len) =>
    let lo := (atol (cString b n (q + 1))).toNat
    (((List.range (len - lo)).map fun k => b (at' + lo + k)).takeWhile fun c => c ≠ 0x2F ∧ c ≠ 0x0A).take 63
  | none => ((List.range 16).map fun k => b (q + k)).takeWhile fun c => c ≠ 0x2F ∧ c ≠ 0x20

/-- The walk over the headers from `q` on. -/
def readMems (b : Buffer) (n : ℕ) : ℕ → ℕ → Option (ℕ × ℕ) → List Arsym
  | 0, _, _ => []
  | fuel + 1, q, ln =>
    if q + 60 ≤ n then
      let size := sizeAt b q
      let q' := q + 60 + size + size % 2
      if b q = 0x2F ∧ b (q + 1) = 0x2F then readMems b n fuel q' (some (q + 60, size))
      else if b q = 0x2F ∧ (b (q + 1) = 0x20 ∨ b (q + 1) = 0x60) then readMems b n fuel q' ln
      else ⟨memberName b n q ln, q⟩ :: readMems b n fuel q' ln
    else []

/-- `load_archive` of a file of `n` bytes. -/
def loadArchive (b : Buffer) (n : ℕ) : Option Archive :=
  if n < 8 ∨ (List.range 8).map b ≠ Ar370.magic then none
  else some {
    sym := if b 8 = 0x2F ∧ b 9 = 0x20 then readSyms b n 68 (be32 b 68) 0 (68 + 4 + 4 * be32 b 68) else []
    mem := readMems b n n 8 none }

/-- The member whose header is at `off`. -/
def memberBytes (b : Buffer) (off : ℕ) : List UInt8 := (List.range (sizeAt b off)).map fun k => b (off + 60 + k)

/-- The object that `pull_member` reads from an archive. -/
def pullMember (b : Buffer) (off : ℕ) : Obj := parseObject ⟨fun k => b (off + 60 + k), sizeAt b off⟩

end Cc370.Ld370
