import Mathlib.Data.List.Basic
import Mathlib.Algebra.Order.Ring.Nat
import Mathlib.Tactic.Common

namespace Cc370.Cmplmd370

/-- A C string, without its NUL. -/
abbrev Text := List UInt8

def maxsect : ℕ := 512

/-- What `mvs_nm` makes of a name. -/
structure IsName (t : Text) : Prop where
  short : t.length ≤ 8
  printable : ∀ c ∈ t, 0x20 ≤ c ∧ c < 0x7F

structure Sect where
  name : Text
  ent : Text
  len : ℕ
  bytes : ℕ → UInt8
  relo : ℕ → Bool
  made : ℕ → Bool
  isName : IsName name
  isEnt : IsName ent
  len_lt : len < 2 ^ 24

structure Side where
  sects : List Sect
  isLmod : Bool
  incomplete : Bool
  sects_le : sects.length ≤ maxsect

structure Pairs where
  pair : ℕ → Option ℕ
  bused : ℕ → Bool

namespace Pairs

def take (s : Pairs) (i k : ℕ) : Pairs :=
  ⟨fun i' => if i' = i then some k else s.pair i', fun k' => k' = k ∨ s.bused k'⟩

def free (s : Pairs) (B : List Sect) (p : Sect → Bool) : List ℕ :=
  (List.range B.length).filter fun k => !s.bused k ∧ B[k]?.any p

end Pairs

def pairName (B : List Sect) (s : Pairs) (x : Sect × ℕ) : Pairs :=
  if x.1.name = [] ∨ x.1.len = 0 then s
  else ((s.free B fun b => b.name = x.1.name).head?).elim s (s.take x.2)

/-- By the first entry point, when one of the two has no name. -/
def pairEntry (B : List Sect) (s : Pairs) (x : Sect × ℕ) : Pairs :=
  if (s.pair x.2).isSome ∨ x.1.len = 0 ∨ x.1.ent = [] then s
  else ((s.free B fun b => (x.1.name = [] ∨ b.name = []) ∧ b.ent = x.1.ent).head?).elim s (s.take x.2)

/-- An unnamed section takes the one that is left over. -/
def pairLast (B : List Sect) (s : Pairs) (x : Sect × ℕ) : Pairs :=
  if (s.pair x.2).isSome ∨ x.1.name ≠ [] ∨ x.1.len = 0 then s
  else
    match s.free B fun _ => true with
    | [k] => s.take x.2 k
    | _ => s

def pairSections (A B : List Sect) : Pairs :=
  let s : Pairs := ⟨fun _ => none, fun k => B[k]?.any fun b => b.len = 0⟩
  let s := A.zipIdx.foldl (pairName B) s
  let s := A.zipIdx.foldl (pairEntry B) s
  A.zipIdx.foldl (pairLast B) s

/-- The text `(private)`. -/
def privateLabel : Text := [0x28, 0x70, 0x72, 0x69, 0x76, 0x61, 0x74, 0x65, 0x29]

/-- The name a section is reported under. -/
def sectLabel (a : Sect) (b : Option Sect) : Text :=
  if a.name ≠ [] then a.name
  else
    match b with
    | some b => if b.name ≠ [] then b.name else entLabel
    | none => entLabel
where
  entLabel : Text := if a.ent ≠ [] then [0x28] ++ a.ent ++ [0x29] else privateLabel

structure Clu where
  off : ℕ
  len : ℕ
  inHole : Bool
deriving DecidableEq

structure Result where
  name : Text
  paired : Bool
  lengthDiffers : Bool
  identical : Bool
  lenNew : ℕ
  lenRef : ℕ
  diff : ℕ
  nrelo : ℕ
  nign : ℕ
  inHole : ℕ
  inText : ℕ
  nomade : Bool
  c : List Clu
  ic : List Clu
deriving DecidableEq

/-- The counters of `compare`; of the clusters, the last comes first. -/
structure Scan where
  inrun : Bool
  inign : Bool
  diff : ℕ
  nrelo : ℕ
  nign : ℕ
  inHole : ℕ
  inText : ℕ
  c : List Clu
  ic : List Clu

namespace Scan

def start : Scan := ⟨false, false, 0, 0, 0, 0, 0, [], []⟩

/-- The cluster that a differing byte goes to: the last, if the run goes on, or a new one. -/
def extend (inrun : Bool) (i : ℕ) (hole : Bool) (c : List Clu) : List Clu :=
  match inrun, c with
  | true, x :: c => { x with len := x.len + 1 } :: c
  | _, c => ⟨i, 1, hole⟩ :: c

end Scan

section Compare

variable (clearrld : Bool) (a b : Sect) (ign : ℕ → Bool)

def cleared (i : ℕ) : Bool := clearrld ∧ (a.relo i ∨ b.relo i)

def scanByte (s : Scan) (i : ℕ) : Scan :=
  if cleared clearrld a b i then { s with nrelo := s.nrelo + 1, inrun := false, inign := false }
  else if a.bytes i ≠ b.bytes i then
    if ign i then
      { s with nign := s.nign + 1, inrun := false, inign := true, ic := Scan.extend s.inign i (!a.made i) s.ic }
    else
      { s with
        diff := s.diff + 1
        inText := if a.made i then s.inText + 1 else s.inText
        inHole := if a.made i then s.inHole else s.inHole + 1
        inrun := true
        inign := false
        c := Scan.extend s.inrun i (!a.made i) s.c }
  else { s with inrun := false, inign := false }

def scan : Scan := (List.range a.len).foldl (scanByte clearrld a b ign) .start

def compare (aIsLmod : Bool) (label : Text) : Result :=
  if a.len ≠ b.len then ⟨label, true, true, false, a.len, b.len, 0, 0, 0, 0, 0, aIsLmod, [], []⟩
  else
    let s := scan clearrld a b ign
    ⟨label, true, false, s.diff = 0, a.len, b.len, s.diff, s.nrelo, s.nign, s.inHole, s.inText, aIsLmod, s.c.reverse, s.ic.reverse⟩

end Compare

def unpaired (a : Sect) (label : Text) : Result := ⟨label, false, false, false, a.len, 0, 0, 0, 0, 0, 0, false, [], []⟩

end Cc370.Cmplmd370
