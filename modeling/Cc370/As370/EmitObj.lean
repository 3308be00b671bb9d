import Cc370.Obj370

namespace Cc370.As370

inductive SymType
  | rel | sd | pc | er | ld | abs | xd | cm
deriving DecidableEq, Repr

structure Sym where
  name : List UInt8
  val : ℤ
  type : SymType
  defined : Bool
  sect : ℕ
  isWeak : Bool
  xdlen : ℤ
  xdalgn : UInt8
deriving DecidableEq

inductive EsdRole
  | sect | ld | er | xd | cm
deriving DecidableEq, Repr

/-- An entry of the ESD: the index of its symbol, its role and its ESDID, 0 for an LD. -/
structure EsdEnt where
  s : ℕ
  role : EsdRole
  esdid : ℕ
deriving DecidableEq

/-- The ESDIDs that `main` assigns between the passes. -/
def numberEsd : List (ℕ × EsdRole) → ℕ → List EsdEnt
  | [], _ => []
  | (s, role) :: es, id =>
    if role = .ld then ⟨s, role, 0⟩ :: numberEsd es id
    else ⟨s, role, id + 1⟩ :: numberEsd es (id + 1)

structure Reloc where
  addr : ℤ
  pos : ℕ
  rel : ℕ
  isV : ℕ
  len : ℕ
  neg : Bool
deriving DecidableEq

structure TxtEvent where
  addr : ℤ
  bytes : List UInt8
  esdid : ℕ
deriving DecidableEq

structure Put where
  loc : ℤ
  v : ℤ
  n : ℕ
  esdid : ℕ
  noObject : Bool
deriving DecidableEq

namespace Put

def bytes (p : Put) : List UInt8 := (List.range p.n).map fun i => .ofInt (p.v / 256 ^ (p.n - 1 - i))

end Put

def sectArchMax : ℤ := 2 ^ 24

def txlEv : ℕ := 131072

/-- The emission log after a `put`, unless it ends the assembly. -/
def put (log : List TxtEvent) (p : Put) : Option (List TxtEvent) :=
  if p.noObject then some log
  else if p.loc < 0 ∨ sectArchMax < p.loc + p.n then none
  else
    match log.getLast? with
    | some t =>
      if p.loc = t.addr + t.bytes.length ∧ p.esdid = t.esdid then
        some (log.dropLast ++ [{ t with bytes := t.bytes ++ p.bytes }])
      else if txlEv ≤ log.length then none
      else some (log ++ [⟨p.loc, p.bytes, p.esdid⟩])
    | none => some [⟨p.loc, p.bytes, p.esdid⟩]

def emissionLog (ps : List Put) : Option (List TxtEvent) := ps.foldlM put []

structure Punch where
  img : Vector UInt8 80
  beforeEsd : Bool
  atBytes : ℕ

/-- What the two passes leave behind. -/
structure Assembly where
  sym : ℕ → Sym
  esdord : List (ℕ × EsdRole)
  sectHwm : ℕ → ℤ
  log : List TxtEvent
  punches : List Punch
  rels : List Reloc
  deckId : List UInt8
  endEntry : Option (ℤ × ℕ)
  idr : Vector UInt8 20

namespace Assembly

variable (A : Assembly)

def esd : List EsdEnt := numberEsd A.esdord 0

/-- The ESDID of a symbol: its section's before that of its first entry. -/
def symEsdid (s : ℕ) : ℕ :=
  (((A.esd.filter fun e => e.s = s ∧ (e.role = .sect ∨ e.role = .cm)).getLast?).or
    (A.esd.find? fun e => e.s = s ∧ e.role ≠ .ld)).elim 0 EsdEnt.esdid

def mainSectEsdid : ℕ :=
  ((A.esd.find? fun e => e.role = .sect ∧ (A.sym e.s).type = .sd).or
    (A.esd.find? fun e => e.role = .sect)).elim 0 fun e => A.symEsdid e.s

def sectEsdidOf (sect : ℕ) : ℕ :=
  if sect = 0 then 0
  else (A.esd.find? fun e => (e.role = .sect ∨ e.role = .cm) ∧ (A.sym e.s).sect = sect).elim 0
    fun e => A.symEsdid e.s

def sectEsdid (sect : ℕ) : ℕ := if A.sectEsdidOf sect ≠ 0 then A.sectEsdidOf sect else A.mainSectEsdid

def maxsect : ℕ := 1024

def sectLength (s : Sym) : ℤ :=
  let hw := if 0 < s.sect ∧ s.sect < maxsect then A.sectHwm s.sect else 0
  if s.val < hw then hw - s.val else 0

def entryUnlinkable (s : Sym) : Bool := s.type ≠ .er ∧ (!s.defined ∨ s.type = .abs)

/-- The ENTRYs that get no LD. -/
def noLd (e : EsdEnt) : Bool :=
  e.role = .ld ∧ (A.esd.any (fun q => q.s = e.s ∧ q.role = .sect) ∨ entryUnlinkable (A.sym e.s))

end Assembly

def blanks (n : ℕ) : List UInt8 := List.replicate n 0x40

def cebc (s : List UInt8) (w : ℕ) : List UInt8 := (s.map mvsA2e ++ blanks w).take w

def decimal (w n : ℕ) : List UInt8 :=
  let ds := (Nat.toDigits 10 n).map fun d => UInt8.ofNat d.toNat
  ((List.replicate (w - ds.length) 0x30 ++ ds).take w).map mvsA2e

def cseq (deckId : List UInt8) (seq : ℕ) : List UInt8 :=
  if deckId = [] then decimal 8 seq
  else
    let nl := min deckId.length 8
    (deckId.take nl).map mvsA2e ++ decimal (8 - nl) (seq % 10 ^ (8 - nl))

/-- A card: its name, its fields in columns 6-8, 11-12 and 15-16, the data and the sequence field. -/
def card (name : List UInt8) (addr : Option ℤ) (count id : Option ℤ) (data seq : List UInt8) : List UInt8 :=
  [0x02] ++ name ++ [0x40] ++ addr.elim (blanks 3) mvsPut24 ++ blanks 2 ++
    count.elim (blanks 2) mvsPut16 ++ blanks 2 ++ id.elim (blanks 2) mvsPut16 ++
    data ++ blanks (56 - data.length) ++ seq

def esdName : List UInt8 := [0xC5, 0xE2, 0xC4]
def txtName : List UInt8 := [0xE3, 0xE7, 0xE3]
def rldName : List UInt8 := [0xD9, 0xD3, 0xC4]
def endName : List UInt8 := [0xC5, 0xD5, 0xC4]

namespace Assembly

variable (A : Assembly)

def esdEnt (name : List UInt8) (type : UInt8) (addr : ℤ) (flag : UInt8) (size : Option ℤ) : List UInt8 :=
  cebc name 8 ++ [type] ++ mvsPut24 addr ++ [flag] ++ size.elim (blanks 3) mvsPut24

def esdItem (e : EsdEnt) : List UInt8 :=
  let s := A.sym e.s
  match e.role with
  | .sect => esdEnt s.name (if s.type = .pc then 0x04 else 0x00) s.val 0x40 (some (A.sectLength s))
  | .er => esdEnt s.name (if s.isWeak then 0x0A else 0x02) 0 0x40 none
  | .xd => esdEnt s.name 0x06 0 s.xdalgn (some s.xdlen)
  | .cm => esdEnt s.name 0x05 0 0x40 (some (A.sectLength s))
  | .ld => esdEnt s.name 0x01 s.val 0x40 (some (A.sectEsdid s.sect))

/-- The entries of one ESD card, the first ESDID on it and what is left for the next. -/
def fillEsd : List EsdEnt → List EsdEnt → ℕ → List EsdEnt × ℕ × List EsdEnt
  | [], out, cardfirst => (out, cardfirst, [])
  | e :: es, out, cardfirst =>
    if out.length < 3 then
      if A.noLd e then fillEsd es out cardfirst
      else fillEsd es (out ++ [e]) (if e.role ≠ .ld ∧ cardfirst = 0 then e.esdid else cardfirst)
    else (out, cardfirst, e :: es)

def esdCards : ℕ → List EsdEnt → ℕ → List (List UInt8)
  | 0, _, _ => []
  | _ + 1, [], _ => []
  | fuel + 1, es, seq =>
    let (out, cardfirst, rest) := A.fillEsd es [] 0
    card esdName none (some (16 * out.length)) (if cardfirst ≠ 0 then some cardfirst else none)
        (out.flatMap A.esdItem) (cseq A.deckId (seq + 1)) ::
      esdCards fuel rest (seq + 1)

end Assembly

/-- The TXT writer: the cards written, the open one, the bytes done, the punches not made yet and
the sequence number. -/
structure TxtOut where
  out : List (List UInt8)
  cur : Option TxtEvent
  done : ℕ
  punches : List Punch
  seq : ℕ

namespace TxtOut

def flush (deckId : List UInt8) (st : TxtOut) : TxtOut :=
  match st.cur with
  | none => st
  | some t =>
    { st with
      out := st.out ++ [card txtName (some t.addr) (some t.bytes.length) (some t.esdid) t.bytes
        (cseq deckId (st.seq + 1))]
      cur := none
      seq := st.seq + 1 }

def isDue (st : TxtOut) (p : Punch) : Bool := !p.beforeEsd ∧ p.atBytes = st.done

/-- The punched cards that stand here: the first one ends the open card. -/
def punchDue (deckId : List UInt8) (st : TxtOut) : TxtOut :=
  let due := st.punches.filter st.isDue
  if due = [] then st
  else
    let st' := st.flush deckId
    { st' with
      out := st'.out ++ due.map fun p => p.img.toList
      punches := st.punches.filter fun p => !st.isDue p }

/-- How far the open card may go: to its end, to the event's, to the next punched card. -/
def take (st : TxtOut) (cn left : ℕ) : ℕ :=
  st.punches.foldl (fun take p =>
    if !p.beforeEsd ∧ st.done < p.atBytes ∧ p.atBytes - st.done < take then p.atBytes - st.done
    else take) (min (56 - cn) left)

/-- The `do … while (pos < el)` over one event, whose bytes from `addr` on are left. -/
def event (deckId : List UInt8) : ℕ → ℤ → List UInt8 → ℕ → TxtOut → TxtOut
  | 0, _, _, _, st => st
  | fuel + 1, addr, bytes, esdid, st =>
    let st := st.punchDue deckId
    let st := if st.cur.any fun t => t.addr + t.bytes.length ≠ addr ∨ t.bytes.length = 56 ∨ t.esdid ≠ esdid
      then st.flush deckId else st
    let t := st.cur.getD ⟨addr, [], esdid⟩
    let n := st.take t.bytes.length bytes.length
    let st := { st with cur := some { t with bytes := t.bytes ++ bytes.take n }, done := st.done + n }
    if n < bytes.length then event deckId fuel (addr + n) (bytes.drop n) esdid st else st

end TxtOut

namespace Assembly

variable (A : Assembly)

def txtCards (seq : ℕ) : TxtOut :=
  let st := A.log.foldl (fun st ev => TxtOut.event A.deckId (ev.bytes.length + 1) ev.addr ev.bytes ev.esdid st)
    ⟨[], none, 0, A.punches, seq⟩
  (st.punchDue A.deckId).flush A.deckId

end Assembly

namespace Reloc

def after (x t : Reloc) : Bool :=
  t.pos < x.pos ∨ x.pos = t.pos ∧ (t.rel < x.rel ∨ x.rel = t.rel ∧ t.addr < x.addr)

/-- The insertion sort of `emit_obj`, the prefix sorted so far held from its end. -/
def sort (rs : List Reloc) : List Reloc := (rs.reverse.insertionSort fun t x => !x.after t).reverse

def flag (r : Reloc) : UInt8 :=
  .ofNat (r.isV % 4 * 16 + (r.len + 3) % 4 * 4 + if r.neg then 2 else 0)

def tail (r : Reloc) : List UInt8 := r.flag :: mvsPut24 r.addr

def leader (r : Reloc) : List UInt8 := mvsPut16 r.rel ++ mvsPut16 r.pos ++ r.tail

end Reloc

/-- The data of an open RLD card, with the place of the last flag and the last leader's R and P. -/
structure RldOut where
  data : List UInt8
  prevflag : ℕ
  last : Option (ℕ × ℕ)

namespace RldOut

def fill : List Reloc → RldOut → List UInt8 × List Reloc
  | [], st => (st.data, [])
  | r :: rs, st =>
    let reuse := st.data ≠ [] ∧ st.last = some (r.rel, r.pos)
    if 56 < st.data.length + (if reuse then 4 else 8) then (st.data, r :: rs)
    else if reuse then
      fill rs ⟨st.data.modify st.prevflag (· ||| 0x01) ++ r.tail, st.data.length, st.last⟩
    else fill rs ⟨st.data ++ r.leader, st.data.length + 4, some (r.rel, r.pos)⟩

end RldOut

def rldCards (deckId : List UInt8) : ℕ → List Reloc → ℕ → List (List UInt8)
  | 0, _, _ => []
  | _ + 1, [], _ => []
  | fuel + 1, rs, seq =>
    let (data, rest) := RldOut.fill rs ⟨[], 0, none⟩
    card rldName none (some data.length) none data (cseq deckId (seq + 1)) ::
      rldCards deckId fuel rest (seq + 1)

namespace Assembly

variable (A : Assembly)

def endCard (seq : ℕ) : List UInt8 :=
  card endName (A.endEntry.map Prod.fst) none (A.endEntry.map fun e => (e.2 : ℤ))
    (blanks 16 ++ A.idr.toList) (cseq A.deckId (seq + 1))

def emitObj : List (List UInt8) :=
  let before := (A.punches.filter Punch.beforeEsd).map fun p => p.img.toList
  let esds := A.esdCards (A.esd.length + 1) A.esd 0
  let txts := A.txtCards esds.length
  let rlds := rldCards A.deckId (A.rels.length + 1) (Reloc.sort A.rels) txts.seq
  before ++ esds ++ txts.out ++ rlds ++ [A.endCard (txts.seq + rlds.length)]

end Assembly

end Cc370.As370
