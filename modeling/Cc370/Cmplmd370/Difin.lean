import Cc370.Lib.Hex
import Cc370.Cmplmd370.Compare

namespace Cc370.Cmplmd370

open Hex

/-- What `fgets` returns into a line of 256 bytes, time after time. -/
def fgetsLines : Text → Text → List Text
  | [], [] => []
  | [], acc => [acc.reverse]
  | b :: bs, acc => if b = 0x0A ∨ acc.length = 254 then (b :: acc).reverse :: fgetsLines bs [] else fgetsLines bs (b :: acc)

/-- The string in the line buffer without its line end. -/
def lineText (line : Text) : Text := ((line.takeWhile fun c => c ≠ 0).reverse.dropWhile fun c => c = 0x0A ∨ c = 0x0D).reverse

structure DinSect where
  name : Text
  c : List (ℕ × ℕ)
deriving DecidableEq

inductive DifinError
  | notRecord (lineno : ℕ) (line : Text)
  | noHeader (lineno : ℕ)
  | tooMany
deriving DecidableEq

structure Difin where
  cur : Text
  din : List DinSect
  ign : ℕ → ℕ → Bool

def Difin.empty : Difin := ⟨[], [], fun _ _ => false⟩

/-- The record is kept under its section, which is new or has others already. -/
def dinAdd (din : List DinSect) (name : Text) (r : ℕ × ℕ) : Option (List DinSect) :=
  match din.findIdx? fun d => d.name = name with
  | some k => some (din.modify k fun d => { d with c := d.c ++ [r] })
  | none => if maxsect ≤ din.length then none else some (din ++ [⟨name, [r]⟩])

def sectFind (A : List Sect) (name : Text) : Option ℕ := A.findIdx? fun s => s.name = name

def ignore (A : List Sect) (name : Text) (r : ℕ × ℕ) (ign : ℕ → ℕ → Bool) (i p : ℕ) : Bool :=
  ign i p ∨ sectFind A name = some i ∧ r.1 ≤ p ∧ p < r.1 + r.2 ∧ A[i]?.any fun s => p < s.len

def record (line : Text) : Option (ℕ × ℕ) :=
  if line.length < 8 then none
  else
    match hexValue 0 (line.take 6), hexValue 0 ((line.drop 6).take 2) with
    | some off, some len => some (off, len)
    | _, _ => none

def headerName (line : Text) : Text := (line.takeWhile fun c => c ≠ 0x20).take 8

def difinRecord (A : List Sect) (s : Difin) (lineno : ℕ) (r : ℕ × ℕ) : Except DifinError Difin :=
  if s.cur = [] then .error (.noHeader lineno)
  else
    match dinAdd s.din s.cur r with
    | some din => .ok { s with din := din, ign := ignore A s.cur r s.ign }
    | none => .error .tooMany

def difinLine (A : List Sect) (s : Difin) (x : Text × ℕ) : Except DifinError Difin :=
  match lineText x.1 with
  | [] => .ok s
  | c :: line =>
    if c = 0x3E then .ok { s with cur := headerName line }
    else
      match record (c :: line) with
      | some r => difinRecord A s x.2 r
      | none => .error (.notRecord x.2 (c :: line))

def difinLoad (A : List Sect) (file : Text) : Except DifinError Difin :=
  ((fgetsLines file []).zipIdx 1).foldlM (difinLine A) .empty

def rangeLine (r : ℕ × ℕ) : Text := hexPad 6 r.1 ++ hexPad 2 r.2 ++ [0x0A]

/-- The length field of a record is one byte. -/
def chunks (o l : ℕ) : List (ℕ × ℕ) :=
  if l = 0 then []
  else if 255 < l then (o, 255) :: chunks (o + 255) (l - 255)
  else [(o, l)]
termination_by l

def emitRange (r : ℕ × ℕ) : Text := (chunks r.1 r.2).flatMap rangeLine

def headerLine (name : Text) : Text := [0x3E] ++ name ++ [0x0A]

def mergeClusters : List Clu → List Clu → List Clu
  | [], ic => ic
  | c, [] => c
  | x :: c, y :: ic => if x.off ≤ y.off then x :: mergeClusters c (y :: ic) else y :: mergeClusters (x :: c) ic

def writeDifout (r : Result) : Text :=
  if !r.paired ∨ r.lengthDiffers then []
  else if r.c = [] ∧ r.ic = [] then []
  else headerLine r.name ++ (mergeClusters r.c r.ic).flatMap fun x => emitRange (x.off, x.len)

def judges (d : DinSect) (r : Result) : Bool := r.paired ∧ !r.lengthDiffers ∧ r.name = d.name

def difoutCarry (din : List DinSect) (rs : List Result) : Text :=
  (din.filter fun d => !rs.any (judges d) ∧ d.c ≠ []).flatMap fun d => headerLine d.name ++ d.c.flatMap emitRange

structure Options where
  clearrld : Bool
  only : Option Text
  allowIncomplete : Bool

inductive Refusal
  | incomplete
  | noSection (name : Text)
  | nothingPaired
deriving DecidableEq

structure Outcome where
  exit : ℕ
  results : List Result
  difout : Option Text

section Run

variable (opt : Options) (A B : Side)

/-- The sections that the run compares, with the one each is paired to. -/
def compared : List (ℕ × Sect × Option Sect) :=
  A.sects.zipIdx.filterMap fun (a, i) =>
    let b := ((pairSections A.sects B.sects).pair i).bind fun k => B.sects[k]?
    if a.len = 0 ∨ opt.only.any fun n => n ≠ sectLabel a b then none else some (i, a, b)

def refusal : Option Refusal :=
  if (B.isLmod ∧ B.incomplete ∨ A.isLmod ∧ A.incomplete) ∧ !opt.allowIncomplete then some .incomplete
  else
    match opt.only with
    | some n => if compared opt A B = [] then some (.noSection n) else none
    | none => if A.sects.all fun s => s.len = 0 then some .nothingPaired else none

def result (ign : ℕ → ℕ → Bool) : ℕ × Sect × Option Sect → Result
  | (i, a, some b) => compare opt.clearrld a b (ign i) A.isLmod (sectLabel a (some b))
  | (_, a, none) => unpaired a (sectLabel a none)

def exitCode (rs : List Result) : ℕ :=
  if opt.only.isSome ∧ rs.all (fun r => !r.paired) then 2
  else if rs.all fun r => r.identical then if rs.all fun r => !r.paired then 2 else 0
  else 1

def runLoaded (d : Difin) : Outcome :=
  if (refusal opt A B).isSome then ⟨2, [], some (difoutCarry d.din [])⟩
  else
    let rs := (compared opt A B).map (result opt A d.ign)
    ⟨exitCode opt rs, rs, some (rs.flatMap writeDifout ++ difoutCarry d.din rs)⟩

def run (difin : Option Text) : Outcome :=
  match difin with
  | none => runLoaded opt A B .empty
  | some file =>
    match difinLoad A.sects file with
    | .ok d => runLoaded opt A B d
    | .error _ => ⟨2, [], none⟩

end Run

end Cc370.Cmplmd370
