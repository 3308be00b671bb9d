import Cc370.Ld370.Unload
import Cc370.Directory

namespace Cc370.Ld370

open Slices

inductive IebcopyError
  | malformed | multiMember
deriving DecidableEq

section Read

variable (b : Buffer) (ulen : ℕ)

/-- The offsets of the entries in the directory blocks from `p` on, and what is behind the block with
the terminator, unless there is none. -/
def dirWalk : ℕ → ℕ → List ℕ × Option ℕ
  | 0, _ => ([], none)
  | fuel + 1, p =>
    if p + 12 + 8 + 256 ≤ ulen ∧ b (p + 9) = 8 ∧ mvsBe16 b (p + 10) = 256 ∧ mvsBe16 b (p + 20) ≤ 256 then
      let r := entryWalk (fun e => b e = 0xFF) b (p + 20) (mvsBe16 b (p + 20)) 22 2
      if r.2 then (r.1, some (p + 12 + 8 + 256))
      else
        let s := dirWalk fuel (p + 12 + 8 + 256)
        (r.1 ++ s.1, s.2)
    else ([], none)

def isAlias (e : ℕ) : Bool := 0x80 ≤ b (e + 11)

def halfwords (e : ℕ) : ℕ := (b (e + 11)).toNat % 32

def slice (p n : ℕ) : List UInt8 := (List.range n).map fun k => b (p + k)

/-- The data of the records up to the one without any. -/
def readData : ℕ → ℕ → List UInt8
  | 0, _ => []
  | fuel + 1, p =>
    if p + 12 ≤ ulen then
      let kl := (b (p + 9)).toNat
      let dl := mvsBe16 b (p + 10)
      if dl = 0 then [] else slice b (p + 12 + kl) dl ++ readData fuel (p + 12 + kl + dl)
    else []

def readAlias (e : ℕ) : Ualias where
  name := nameAt b e
  entry := mvsBe24 b (e + 12 + 15)
  srcUd := if halfwords b e * 2 = aliasUdLen then some (slice b (e + 12) aliasUdLen) else none

def readIebcopyMember : Except IebcopyError Umember :=
  if ulen < mvsEnvHdrLen + 12 + 8 + 256 + 12 then .error .malformed
  else
    let w := dirWalk b ulen ulen mvsEnvHdrLen
    match w.1.filter fun e => !isAlias b e, w.2 with
    | _ :: _ :: _, _ => .error .multiMember
    | [main], some p =>
      if ulen < p + 12 then .error .malformed
      else
        let aliases := w.1.filter (isAlias b)
        if aliases.any fun e => slice b (e + 8) 3 ≠ slice b (main + 8) 3 then .error .multiMember
        else .ok {
          name := nameAt b main
          bytes := readData b ulen ulen (p + 12)
          entry := mvsBe24 b (main + 12 + 15)
          modlen := mvsBe24 b (main + 12 + 10)
          srcUd := if 12 ≤ halfwords b main then some (slice b (main + 12) 24) else none
          aliases := aliases.map (readAlias b) }
    | _, _ => .error .malformed

end Read

end Cc370.Ld370
