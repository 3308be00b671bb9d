import Cc370.Obj370
import Cc370.Ld370.Emit
import Cc370.Ld370.Iebcopy

namespace Cc370.Ld370

section Member

variable (bytes : List UInt8)

/-- Where the last of the sections in the CESD of a member ends. -/
def memberEnd : ℕ :=
  (Lmod.cesdWalk (ofBytes bytes) bytes.length).foldl
    (fun maxend e => if Obj370.isSection e.type then max maxend (e.addr + e.len) else maxend) 0

def memberModlen : ℤ := roundup8 (memberEnd bytes)

/-- The entries in the CESD of a member that give a name an address. -/
def memberEntries (want : Name) : List Lmod.Esd :=
  (Lmod.cesdWalk (ofBytes bytes) bytes.length).filter fun e => (Obj370.isSection e.type ∨ e.type = 0x03) ∧ e.name = want

def crt0 : Name := mvsName8 [0x40, 0x40, 0x43, 0x52, 0x54, 0x30]

/-- The entry point of a bare member, unless it is refused. -/
def bareEntry (entryname : Option Name) : Option ℤ :=
  match memberEntries bytes (entryname.getD crt0) with
  | [] => if entryname.isSome then none else some 0
  | [e] => some e.addr
  | _ => none

/-- A bare member as `--pack` takes it. -/
def bareMember (name : Name) (entryname : Option Name) : Option Umember :=
  (bareEntry bytes entryname).map fun entry => ⟨name, bytes, entry, memberModlen bytes, none, []⟩

/-- An archive, an object deck or a transmission. -/
def packNotMember : Bool :=
  let b := ofBytes bytes
  8 ≤ bytes.length ∧ (bytes.take 8 = [0x21, 0x3C, 0x61, 0x72, 0x63, 0x68, 0x3E, 0x0A] ∨ b 0 = 0x02 ∨
    b 2 = 0xC9 ∧ b 3 = 0xD5 ∧ b 4 = 0xD4 ∧ b 5 = 0xD9)

def isUnload : Bool :=
  let b := ofBytes bytes
  4 ≤ bytes.length ∧ b 1 = 0xCA ∧ b 2 = 0x6D ∧ b 3 = 0x0F

def lmodPlausible : Bool :=
  let b := ofBytes bytes
  (1 ≤ bytes.length ∧ (b 0 = 0x20 ∨ b 0 = 0x28) ∨ 8 ≤ bytes.length ∧ (b 0).toNat / 16 = 4) ∧
    (Lmod.walkMember b bytes.length).items.any fun r => r.kind = .cesd ∨ r.kind = .ctl

/-- An input of `--pack` under an explicit name, unless it is refused. -/
def packMember (name : Name) (entryname : Option Name) : Option Umember :=
  if packNotMember bytes then none
  else if isUnload bytes then (readIebcopyMember (ofBytes bytes) bytes.length).toOption.map fun m => { m with name := name }
  else if !lmodPlausible bytes then none
  else bareMember bytes name entryname

end Member

end Cc370.Ld370
