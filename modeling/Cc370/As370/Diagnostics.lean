import Cc370.Lib.Capped
import Cc370.As370.Nominal
import Mathlib.Data.Finset.Card
import Mathlib.Data.List.DropRight

namespace Cc370.As370

def MAXLINES : ℤ := 131072

/-- What the return code depends on besides the diagnostics: the expanded statements, their origin cards, which are
generated, the names with a macro header missing, and `--strict-cont`. -/
structure Module where
  nl : ℕ
  lineOrg : ℕ → ℤ
  gen : ℕ → Bool
  hdrMissing : List Char → Bool
  strictCont : Bool

inductive Cat
  | unk | operr | badty | nyi | badfmt | reld | addr | ovl | ovldef | ovlref | undef | mnote
deriving DecidableEq

namespace Cat

def all : List Cat := [unk, operr, badty, nyi, badfmt, reld, addr, ovl, ovldef, ovlref, undef, mnote]

def cap : Cat → ℕ
  | undef => 512
  | _ => 128

/-- How many characters of an entry's text its list has room for. -/
def width : Cat → ℕ
  | operr => 255
  | badty => 1
  | nyi => 23
  | ovl | ovldef | undef => 63
  | mnote => 79
  | _ => 11

def sev : Cat → ℕ
  | badfmt => 12
  | _ => 8

end Cat

/-- An entry of one of the lists; only operand errors and MNOTEs come with a severity of their own. -/
structure Entry where
  text : List Char
  sev : ℕ
  line : ℤ
deriving DecidableEq

namespace Cat

/-- The over-long symbols are listed once for each symbol, the undefined ones once for each statement and symbol. -/
def same : Cat → Entry → Entry → Bool
  | ovl, x, a => x.text == a.text
  | undef, x, a => x.line == a.line && x.text == a.text
  | _, _, _ => false

/-- Whether a list has anything to say; the undefined symbols are asked by the count of those seen. -/
def counts : Cat → Capped Entry → Bool
  | undef, k => decide (0 < k.seen)
  | _, k => decide (k.kept ≠ [])

/-- The lists whose entries share one severity, in the order `main` asks them. -/
def shared : List Cat := [unk, badty, nyi, badfmt, reld, addr, ovl, ovldef, ovlref, undef]

def store (c : Cat) (a : Entry) : Entry := { a with text := a.text.take c.width }

end Cat

structure SrcW where
  src : List Char
  line : ℤ
  cp : ℕ
deriving DecidableEq

structure Contd where
  src : List Char
  card : List Char
  line : ℤ
  err : ℕ
  stmt : ℤ
  lost : Bool

inductive Diagnostic
  | nochar (cp : ℕ) (card : ℤ) (src : Option (List Char))
  | cont (err : ℕ) (card : ℤ) (text : List Char) (stmt : ℤ) (lost : Bool) (src : Option (List Char))
  | unknown (o : List Char) (line : ℤ)
  | badfmt (o : List Char) (line : ℤ)
  | badtype (ty : Option Char) (line : ℤ)
  | notimpl (what : List Char) (line : ℤ)
  | relocdisp (o : List Char) (line : ℤ)
  | addrerr (o : List Char) (line : ℤ)
  | overlong (n : List Char) (line : ℤ)
  | ovldef (n : List Char) (line : ℤ)
  | ovlref (o : List Char) (line : ℤ)
  | undefsym (n : List Char) (line : ℤ)
  | operr (msg : List Char) (sev : ℕ) (line : ℤ)
  | mnote (sev : ℕ) (explicitSev : Bool) (text : List Char) (line : ℤ)

/-- A diagnostic, and the literal being assembled when it is raised. -/
structure Raise where
  curlit : Option ℕ
  diag : Diagnostic

structure Diags where
  lists : Cat → Capped Entry
  operrMaxsev : ℕ
  mnoteMaxsev : ℕ
  srcw : Capped SrcW
  contd : Capped Contd
  contdLost : ℕ
  contdIfox : ℕ
  stmtFlagged : Finset ℕ
  litFlagged : Finset ℕ
  nstmtFlagged : ℕ
  contPri : Finset ℕ
  contLib : Finset ℕ
  ncontPri : ℕ
  ncontLib : ℕ

namespace Diags

def start : Diags where
  lists := fun _ => Capped.empty
  operrMaxsev := 0
  mnoteMaxsev := 0
  srcw := Capped.empty
  contd := Capped.empty
  contdLost := 0
  contdIfox := 0
  stmtFlagged := ∅
  litFlagged := ∅
  nstmtFlagged := 0
  contPri := ∅
  contLib := ∅
  ncontPri := 0
  ncontLib := 0

def markFlagged (curlit : Option ℕ) (line : ℤ) (st : Diags) : Diags :=
  match curlit with
  | some k => if k ∈ st.litFlagged then st else
      { st with litFlagged := insert k st.litFlagged, nstmtFlagged := st.nstmtFlagged + 1 }
  | none => if line < 0 ∨ MAXLINES ≤ line ∨ line.toNat ∈ st.stmtFlagged then st else
      { st with stmtFlagged := insert line.toNat st.stmtFlagged, nstmtFlagged := st.nstmtFlagged + 1 }

def markContStmt (card : ℤ) (inlib : Bool) (st : Diags) : Diags :=
  if card < 0 ∨ MAXLINES ≤ card then st
  else if inlib then
    if card.toNat ∈ st.contLib then st else
      { st with contLib := insert card.toNat st.contLib, ncontLib := st.ncontLib + 1 }
  else
    if card.toNat ∈ st.contPri then st else
      { st with contPri := insert card.toNat st.contPri, ncontPri := st.ncontPri + 1 }

/-- The part of `src_fopen` that meets a character with no EBCDIC image. -/
def noteChar (cp : ℕ) (card : ℤ) (src : Option (List Char)) (st : Diags) : Diags :=
  let st := st.markContStmt card src.isSome
  if st.srcw.kept.getLast?.any fun w => w.line = card && w.src = src.getD [] then st
  else { st with srcw := st.srcw.add 64 ⟨(src.getD []).take 23, card, cp⟩ }

def noteCont (err : ℕ) (card : ℤ) (text : List Char) (stmt : ℤ) (lost : Bool) (src : Option (List Char)) (st : Diags) : Diags :=
  let st := { st with
    contdLost := if lost then st.contdLost + 1 else st.contdLost
    contdIfox := if err ≠ 0 then st.contdIfox + 1 else st.contdIfox }
  let st := st.markContStmt stmt src.isSome
  { st with contd := st.contd.add 512 ⟨(src.getD []).take 23, text.take 79, card, err, stmt, lost⟩ }

/-- What the recorders share once the statement is flagged. -/
def enter (c : Cat) (a : Entry) (st : Diags) : Diags :=
  { st with lists := Function.update st.lists c ((st.lists c).addNew c.cap c.same c.store a) }

variable (curlit : Option ℕ)

def noteBadfmt (o : List Char) (line : ℤ) (st : Diags) : Diags := (st.markFlagged curlit line).enter .badfmt ⟨o, 0, line⟩

def noteBadtype (ty : Option Char) (line : ℤ) (st : Diags) : Diags := (st.markFlagged curlit line).enter .badty ⟨[ty.getD '?'], 0, line⟩

def noteNotimpl (what : List Char) (line : ℤ) (st : Diags) : Diags := (st.markFlagged curlit line).enter .nyi ⟨what, 0, line⟩

def noteRelocdisp (o : List Char) (line : ℤ) (st : Diags) : Diags := (st.markFlagged curlit line).enter .reld ⟨o, 0, line⟩

def noteAddrerr (o : List Char) (line : ℤ) (st : Diags) : Diags := (st.markFlagged curlit line).enter .addr ⟨o, 0, line⟩

def noteOverlong (n : List Char) (line : ℤ) (st : Diags) : Diags := (st.markFlagged curlit line).enter .ovl ⟨n, 0, line⟩

def noteOvldef (n : List Char) (line : ℤ) (st : Diags) : Diags := (st.markFlagged curlit line).enter .ovldef ⟨n, 0, line⟩

def noteOvlref (o : List Char) (line : ℤ) (st : Diags) : Diags := (st.markFlagged curlit line).enter .ovlref ⟨o, 0, line⟩

def noteUndefsym (n : List Char) (line : ℤ) (st : Diags) : Diags := (st.markFlagged curlit line).enter .undef ⟨n, 0, line⟩

/-- An operand error with no statement to attach to is dropped. -/
def noteOperr (msg : List Char) (sev : ℕ) (line : ℤ) (st : Diags) : Diags :=
  if line < 0 then st
  else
    let st := st.markFlagged curlit line
    { st with operrMaxsev := max st.operrMaxsev sev }.enter .operr ⟨msg, sev, line⟩

def noteMnote (sev : ℕ) (explicitSev : Bool) (text : List Char) (line : ℤ) (st : Diags) : Diags :=
  if line < 0 then st
  else
    let st := if 0 < sev ∨ explicitSev then st.markFlagged curlit line else st
    { st with mnoteMaxsev := max st.mnoteMaxsev sev }.enter .mnote ⟨text, sev, line⟩

/-- Operations that `do_pass` skips without a word. -/
def skip : List (List Char) :=
  ["SETA", "SETB", "SETC", "GBLA", "GBLB", "GBLC", "LCLA", "LCLB", "LCLC", "AIF", "AGO", "ANOP", "MNOTE", "MEXIT", "PRINT",
    "SPACE", "EJECT", "TITLE", "DSECT", "ORG", "COPY", "MACRO", "MEND", "ACTR", "EXTRN", "WXTRN"].map String.toList

def noteUnknown (m : Module) (o : List Char) (line : ℤ) (st : Diags) : Diags :=
  if o ∈ skip then st
  else if m.hdrMissing o then
    st.noteOperr curlit "Macro header missing, macro not expandable (IFOX00 IFO085)".toList 8 line
  else (st.markFlagged curlit line).enter .unk ⟨o, 0, line⟩

def step (m : Module) (st : Diags) (r : Raise) : Diags :=
  match r.diag with
  | .nochar cp card src => st.noteChar cp card src
  | .cont err card text stmt lost src => st.noteCont err card text stmt lost src
  | .unknown o line => st.noteUnknown r.curlit m o line
  | .badfmt o line => st.noteBadfmt r.curlit o line
  | .badtype ty line => st.noteBadtype r.curlit ty line
  | .notimpl what line => st.noteNotimpl r.curlit what line
  | .relocdisp o line => st.noteRelocdisp r.curlit o line
  | .addrerr o line => st.noteAddrerr r.curlit o line
  | .overlong n line => st.noteOverlong r.curlit n line
  | .ovldef n line => st.noteOvldef r.curlit n line
  | .ovlref o line => st.noteOvlref r.curlit o line
  | .undefsym n line => st.noteUndefsym r.curlit n line
  | .operr msg sev line => st.noteOperr r.curlit msg sev line
  | .mnote sev explicitSev text line => st.noteMnote r.curlit sev explicitSev text line

def run (m : Module) (l : List Raise) : Diags := l.foldl (step m) start

end Diags

/-- An entry of the merged list: its statement, its list, and its place there. -/
structure Dgref where
  ln : ℤ
  cat : Cat
  idx : ℕ
deriving DecidableEq

namespace Diags

variable (m : Module) (st : Diags)

/-- The array `main` sorts, before it is sorted. -/
def merged : List Dgref := Cat.all.flatMap fun c => (st.lists c).kept.zipIdx.map fun p => ⟨p.1.line, c, p.2⟩

/-- One turn of the insertion sort: `v` goes behind the last entry that is not beyond it. -/
def insertRef (l : List Dgref) (v : Dgref) : List Dgref := l.rdropWhile (v.ln < ·.ln) ++ v :: l.rtakeWhile (v.ln < ·.ln)

def sorted : List Dgref := st.merged.foldl insertRef []

/-- How many flagged statements that no expansion made come from a card; the count stops at two. -/
def hits (card : ℕ) : ℕ :=
  min 2 ((Finset.range m.nl).filter fun i => i ∈ st.stmtFlagged ∧ ¬ m.gen i ∧ m.lineOrg i = card).card

def countFlaggedStmts : ℤ :=
  st.nstmtFlagged + st.ncontPri + st.ncontLib - (st.contPri.filter fun c => st.hits m c = 1).card

def raiseTo (b : Prop) [Decidable b] (n s : ℕ) : ℕ := if b ∧ s < n then n else s

def maxSev : ℕ :=
  let s := if 0 < st.srcw.seen then 4 else 0
  let s := if st.contd.kept = [] then s
    else raiseTo (m.strictCont = true ∧ 0 < st.contdLost) 8 (raiseTo (0 < st.contdIfox) 4 s)
  let s := Cat.shared.foldl (fun s c => raiseTo (c.counts (st.lists c) = true) c.sev s) s
  raiseTo True st.mnoteMaxsev (raiseTo True st.operrMaxsev s)

/-- A severity with no statement still counts as one flagged statement. -/
def errors : ℤ := if st.countFlaggedStmts m = 0 ∧ st.maxSev m ≠ 0 then 1 else st.countFlaggedStmts m

/-- The return code of an assembly whose command line was in order. -/
def returnCode : ℕ := if st.errors m ≠ 0 then st.maxSev m else 0

theorem insertRef_perm (l : List Dgref) (v : Dgref) : (insertRef l v).Perm (v :: l) := by
  have hparts := List.rdropWhile_append_rtakeWhile (p := fun a : Dgref => decide (v.ln < a.ln)) (l := l)
  apply List.perm_middle.trans
  rw [hparts]

theorem insertRef_ordered {l : List Dgref} (h : l.Pairwise (·.ln ≤ ·.ln)) (v : Dgref) : (insertRef l v).Pairwise (·.ln ≤ ·.ln) := by
  have hparts := List.rdropWhile_append_rtakeWhile (p := fun a : Dgref => decide (v.ln < a.ln)) (l := l)
  rw [← hparts, List.pairwise_append] at h
  obtain ⟨hfront, hback, hcross⟩ := h
  have hbeyond : ∀ a ∈ l.rtakeWhile (v.ln < ·.ln), v.ln ≤ a.ln := by
    intro a ha
    have hlt := List.mem_rtakeWhile_imp ha
    exact (of_decide_eq_true hlt).le
  -- the entries in front are in order, and the last of them is not beyond `v`
  have hbefore : ∀ a ∈ l.rdropWhile (v.ln < ·.ln), a.ln ≤ v.ln := by
    intro a ha
    have hne := List.ne_nil_of_mem ha
    have hlast := List.rdropWhile_last_not (fun a : Dgref => decide (v.ln < a.ln)) l hne
    have hle : a.ln ≤ ((l.rdropWhile (v.ln < ·.ln)).getLast hne).ln := by
      rw [← List.dropLast_append_getLast hne] at ha hfront
      rcases List.mem_append.mp ha with ha | ha
      · exact (List.pairwise_append.mp hfront).2.2 a ha _ (List.mem_singleton_self _)
      · rw [List.mem_singleton.mp ha]
    exact hle.trans (not_lt.mp fun hlt => hlast (decide_eq_true hlt))
  rw [insertRef, List.pairwise_append, List.pairwise_cons]
  refine ⟨hfront, ⟨hbeyond, hback⟩, ?_⟩
  intro a ha b hb
  rcases List.mem_cons.mp hb with rfl | hb
  · exact hbefore a ha
  · exact hcross a ha b hb

/-- What is printed is the merged list, in the order of the statements. -/
theorem sorted_spec : st.sorted.Perm st.merged ∧ st.sorted.Pairwise (·.ln ≤ ·.ln) := by
  rw [sorted]
  generalize st.merged = l
  induction l using List.reverseRecOn with
  | nil => exact ⟨List.Perm.refl [], List.Pairwise.nil⟩
  | append_singleton l v ih =>
    rw [List.foldl_append, List.foldl_cons, List.foldl_nil]
    constructor
    · apply (insertRef_perm _ v).trans
      apply (ih.1.cons v).trans
      exact (List.perm_append_singleton v l).symm
    · exact insertRef_ordered ih.2 v

end Diags

end Cc370.As370
