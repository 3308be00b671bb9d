import Cc370.Dasm370.Walk
import Cc370.Lib.Worklist
import Mathlib.Data.Finset.Card
import Mathlib.Data.Finset.Range
import Mathlib.Data.Prod.Lex

/-! Which bytes of a section control can get to: the traversal behind `--reach`. -/

namespace Cc370.Dasm370

/-- What a traversal takes for granted. -/
structure ReachMode where
  r15 : Bool
  balr : Bool
  rld : Bool
  lr : Bool
  acon : Bool

/-- Where a traversal stands; `cur` is the offset that the inner loop has arrived at. -/
structure ReachState where
  cur : Option ℕ
  rq : List ℕ
  rseen : ℕ → Bool
  rch : ℕ → Bool
  rbase : ℕ → Option ℕ
  rload : ℕ → Option ℕ

namespace ReachState

/-- Nothing is reached, and of the registers at most R15 is known. -/
def clear (mode : ReachMode) : ReachState where
  cur := none
  rq := []
  rseen := fun _ => false
  rch := fun _ => false
  rbase := fun r => if mode.r15 = true ∧ r = 15 then some 0 else none
  rload := fun _ => none

variable (st : ReachState)

def setBase (r v : ℕ) : ReachState := if r = 0 then st else { st with rbase := Function.update st.rbase r (some v) }

def setLoad (r : ℕ) (w : Option ℕ) : ReachState := if r = 0 then st else { st with rload := Function.update st.rload r w }

/-- The offset is marked as walked from. -/
def mark (a : ℕ) : ReachState := { st with rseen := Function.update st.rseen a true }

def arrive (cur : Option ℕ) : ReachState := { st with cur := cur }

/-- The bytes of an instruction are marked as reached. -/
def cover (a len : ℕ) : ReachState := { st with rch := fun p => st.rch p || decide (a ≤ p ∧ p < a + len) }

section

variable {st : ReachState} {a len : ℕ} {c : Option ℕ}

@[simp] theorem arrive_cur : (st.arrive c).cur = c := rfl

@[simp] theorem arrive_rq : (st.arrive c).rq = st.rq := rfl

@[simp] theorem arrive_rseen : (st.arrive c).rseen = st.rseen := rfl

@[simp] theorem arrive_rch : (st.arrive c).rch = st.rch := rfl

@[simp] theorem arrive_rbase : (st.arrive c).rbase = st.rbase := rfl

@[simp] theorem mark_rq : (st.mark a).rq = st.rq := rfl

@[simp] theorem mark_rbase : (st.mark a).rbase = st.rbase := rfl

@[simp] theorem cover_rq : (st.cover a len).rq = st.rq := rfl

@[simp] theorem cover_rseen : (st.cover a len).rseen = st.rseen := rfl

@[simp] theorem cover_rbase : (st.cover a len).rbase = st.rbase := rfl

end

end ReachState

def rqCap : ℕ := maxSectBytes / 2

namespace Sect

variable (s : Sect)

def r1 (a : ℕ) : ℕ := (s.img (a + 1)).toNat / 16

def x2 (a : ℕ) : ℕ := (s.img (a + 1)).toNat % 16

def b2 (a : ℕ) : ℕ := (s.img (a + 2)).toNat / 16

def d2 (a : ℕ) : ℕ := (s.img (a + 2)).toNat % 16 * 256 + (s.img (a + 3)).toNat

def rqPush (st : ReachState) (a : ℕ) : ReachState :=
  if s.len ≤ a ∨ a % 2 ≠ 0 ∨ st.rseen a = true ∨ rqCap ≤ st.rq.length then st else { st with rq := a :: st.rq }

def reachDecode (optab : List Opc) (a : ℕ) : Option Opc :=
  if a + 1 < s.len ∧ a % 2 = 0 ∧ s.cov a = true then
    (findOp optab (s.img a) (s.img (a + 1))).filter fun o =>
      a + insLenOf o.fmt ≤ s.len ∧ s.rldOverlaps a (insLenOf o.fmt) = false ∧
        reencodeOk o (fun i => s.img (a + i)) (insLenOf o.fmt) = true ∧ (operands o fun i => s.img (a + i)).isSome
  else none

/-- The value of a fullword that is relocated by the section's own address. -/
def ownWord (w : ℕ) : Option ℕ := ((s.rldAt w).filter fun r => r.r = s.esdid ∧ r.len = 4).map s.fieldVal

/-- The offset that such a fullword holds. -/
def ownAddr (w : ℕ) : Option ℕ := ((s.ownWord w).filter fun v => s.org ≤ v ∧ v - s.org < s.len).map (· - s.org)

/-- The words of the table that starts at an offset, or one word behind it. -/
def conTable (src : ℕ) : List ℕ :=
  if src < s.len then
    ((List.range s.len).map fun i => (if (s.ownWord src).isSome then src else src + 4) + 4 * i).takeWhile fun w =>
      w + 4 ≤ s.len ∧ (s.ownWord w).isSome
  else []

def promoted (src : ℕ) : List ℕ := ((s.conTable src).filterMap s.ownAddr).filter (0 < ·)

def reachPromote (st : ReachState) (src : ℕ) : ReachState := (s.promoted src).foldl s.rqPush st

/-- The address of an operand, if a base is known; the index is left out of account. -/
def baseDisp (rbase : ℕ → Option ℕ) (a : ℕ) : Option ℕ :=
  if 0 < s.b2 a then (rbase (s.b2 a)).map (· + s.d2 a) else none

def branchTo (rbase : ℕ → Option ℕ) (a : ℕ) : Option ℕ := if s.x2 a = 0 then s.baseDisp rbase a else none

def pushBranch (st : ReachState) (a : ℕ) : ReachState :=
  match s.branchTo st.rbase a with
  | some t => s.rqPush st t
  | none => st

/-- Control never comes out behind the instruction. -/
def leaves (o : Opc) (a : ℕ) : Bool := (o.op = 0x47 ∨ o.op = 0x07) ∧ s.r1 a = 15

section Walk

variable (optab : List Opc) (mode : ReachMode)

/-- What an instruction that was reached tells. -/
def reachInsn (o : Opc) (a : ℕ) (st : ReachState) : ReachState :=
  if o.op = 0x47 then s.pushBranch st a
  else if o.op = 0x07 then
    match (st.rload (s.x2 a)).filter fun _ => mode.acon with
    | some w => s.reachPromote st w
    | none => st
  else if o.op = 0x45 ∨ o.op = 0x4D then s.pushBranch st a
  else if mode.balr = true ∧ o.op = 0x05 ∧ s.x2 a = 0 then st.setBase (s.r1 a) (a + 2)
  else if mode.lr = true ∧ o.op = 0x18 then
    match st.rbase (s.x2 a) with
    | some v => st.setBase (s.r1 a) v
    | none => st
  else if o.op = 0x58 then
    match ((s.branchTo st.rbase a).filter fun _ => mode.rld).bind s.ownAddr with
    | some v => (st.setLoad (s.r1 a) (s.baseDisp st.rbase a)).setBase (s.r1 a) v
    | none => st.setLoad (s.r1 a) (s.baseDisp st.rbase a)
  else st

/-- One turn of the inner loop, or of the outer one when the inner one has come to its end. -/
def reachStep (st : ReachState) : ReachState :=
  match st.cur with
  | none =>
    match st.rq with
    | [] => st
    | a :: rq => { st with cur := some a, rq := rq }
  | some a =>
    if s.len ≤ a ∨ st.rseen a = true then st.arrive none
    else
      match s.reachDecode optab a with
      | none => (st.mark a).arrive none
      | some o =>
        (s.reachInsn mode o a ((st.mark a).cover a (insLenOf o.fmt))).arrive
          (if s.leaves o a = true then none else some (a + insLenOf o.fmt))

def reachRoots : List ℕ := 0 :: ((s.entries.map Prod.fst).filter (· < s.len) ++ (s.entry.filter (0 ≤ ·)).toList.map Int.toNat)

/-- `reach_compute` up to the walk. -/
def reachStart : ReachState := s.reachRoots.foldl s.rqPush (ReachState.clear mode)

/-- `reach_walk` has returned. -/
def ReachDone (st : ReachState) : Prop := st.cur = none ∧ st.rq = []

end Walk

end Sect

/-- What a traversal may come to know: that control gets to an offset, what a register holds, or
where it was loaded from. -/
inductive ReachFact
  | code (a : ℕ)
  | base (r v : ℕ)
  | load (r w : ℕ)

/-- What follows from the roots and from the instructions that control gets to, in whatever order they
are looked at. -/
inductive Known (s : Sect) (optab : List Opc) (mode : ReachMode) : ReachFact → Prop
  | root {a : ℕ} : a ∈ s.reachRoots → a < s.len → a % 2 = 0 → Known s optab mode (.code a)
  | entered : mode.r15 = true → Known s optab mode (.base 15 0)
  | next {a : ℕ} {o : Opc} : Known s optab mode (.code a) → s.reachDecode optab a = some o → s.leaves o a = false →
      a + insLenOf o.fmt < s.len → Known s optab mode (.code (a + insLenOf o.fmt))
  | branch {a v : ℕ} {o : Opc} : Known s optab mode (.code a) → s.reachDecode optab a = some o →
      o.op = 0x47 ∨ o.op = 0x45 ∨ o.op = 0x4D → s.x2 a = 0 → 0 < s.b2 a → Known s optab mode (.base (s.b2 a) v) →
      v + s.d2 a < s.len → (v + s.d2 a) % 2 = 0 → Known s optab mode (.code (v + s.d2 a))
  | prologue {a : ℕ} {o : Opc} : mode.balr = true → Known s optab mode (.code a) → s.reachDecode optab a = some o →
      o.op = 0x05 → s.x2 a = 0 → Known s optab mode (.base (s.r1 a) (a + 2))
  | copied {a v : ℕ} {o : Opc} : mode.lr = true → Known s optab mode (.code a) → s.reachDecode optab a = some o →
      o.op = 0x18 → Known s optab mode (.base (s.x2 a) v) → Known s optab mode (.base (s.r1 a) v)
  | loaded {a v : ℕ} {o : Opc} : Known s optab mode (.code a) → s.reachDecode optab a = some o → o.op = 0x58 →
      0 < s.b2 a → Known s optab mode (.base (s.b2 a) v) → Known s optab mode (.load (s.r1 a) (v + s.d2 a))
  | relocated {a v t : ℕ} {o : Opc} : mode.rld = true → Known s optab mode (.code a) → s.reachDecode optab a = some o →
      o.op = 0x58 → s.x2 a = 0 → 0 < s.b2 a → Known s optab mode (.base (s.b2 a) v) → s.ownAddr (v + s.d2 a) = some t →
      Known s optab mode (.base (s.r1 a) t)
  | promoted {a w t : ℕ} {o : Opc} : mode.acon = true → Known s optab mode (.code a) → s.reachDecode optab a = some o →
      o.op = 0x07 → Known s optab mode (.load (s.x2 a) w) → t ∈ s.promoted w → t % 2 = 0 → Known s optab mode (.code t)

section Steps

variable {s : Sect} {optab : List Opc} {mode : ReachMode} {st : ReachState} {a b : ℕ} {o : Opc}

theorem insLenOf_even (fmt : Fmt) : insLenOf fmt % 2 = 0 := by
  unfold insLenOf
  split
  · rfl
  · split <;> rfl

theorem reachDecode_inside (h : s.reachDecode optab a = some o) : a % 2 = 0 ∧ a + insLenOf o.fmt ≤ s.len ∧ s.rldOverlaps a (insLenOf o.fmt) = false := by
  unfold Sect.reachDecode at h
  split at h
  · next hc =>
    obtain ⟨-, hp⟩ := Option.filter_eq_some_iff.mp h
    have hp := of_decide_eq_true hp
    exact ⟨hc.2.1, hp.1, hp.2.1⟩
  · cases h

/-- A push adds the offset to the queue, or nothing. -/
theorem rqPush_eq (st : ReachState) (a : ℕ) : ∃ new, s.rqPush st a = { st with rq := new ++ st.rq } ∧
    ∀ b ∈ new, b = a ∧ b < s.len ∧ b % 2 = 0 := by
  unfold Sect.rqPush
  split
  · exact ⟨[], rfl, by simp⟩
  · next h =>
    refine ⟨[a], rfl, ?_⟩
    intro b hb
    obtain rfl := List.mem_singleton.mp hb
    exact ⟨rfl, by omega, by omega⟩

theorem foldl_rqPush (as : List ℕ) (st : ReachState) : ∃ new, as.foldl s.rqPush st = { st with rq := new ++ st.rq } ∧
    ∀ b ∈ new, b ∈ as ∧ b < s.len ∧ b % 2 = 0 := by
  induction as generalizing st with
  | nil => exact ⟨[], rfl, by simp⟩
  | cons a as ih =>
    obtain ⟨new, h, hnew⟩ := rqPush_eq (s := s) st a
    obtain ⟨more, h', hmore⟩ := ih (s.rqPush st a)
    refine ⟨more ++ new, ?_, ?_⟩
    · rw [List.foldl_cons, h', h, List.append_assoc]
    · intro b hb
      cases List.mem_append.mp hb with
      | inl hb => exact ⟨List.mem_cons_of_mem _ (hmore b hb).1, (hmore b hb).2⟩
      | inr hb =>
        obtain ⟨rfl, hlt⟩ := hnew b hb
        exact ⟨List.mem_cons_self, hlt⟩

theorem pushBranch_eq (st : ReachState) (a : ℕ) : ∃ new, s.pushBranch st a = { st with rq := new ++ st.rq } ∧
    ∀ b ∈ new, s.branchTo st.rbase a = some b ∧ b < s.len ∧ b % 2 = 0 := by
  unfold Sect.pushBranch
  cases ht : s.branchTo st.rbase a with
  | none => exact ⟨[], rfl, by simp⟩
  | some t =>
    obtain ⟨new, h, hnew⟩ := rqPush_eq (s := s) st t
    refine ⟨new, h, ?_⟩
    intro b hb
    obtain ⟨rfl, hlt⟩ := hnew b hb
    exact ⟨rfl, hlt⟩

theorem baseDisp_some {rbase : ℕ → Option ℕ} {w : ℕ} (h : s.baseDisp rbase a = some w) :
    0 < s.b2 a ∧ ∃ v, rbase (s.b2 a) = some v ∧ w = v + s.d2 a := by
  unfold Sect.baseDisp at h
  split at h
  · next hb =>
    obtain ⟨v, hv, rfl⟩ := Option.map_eq_some_iff.mp h
    exact ⟨hb, v, hv, rfl⟩
  · cases h

theorem branchTo_some {rbase : ℕ → Option ℕ} {w : ℕ} (h : s.branchTo rbase a = some w) :
    s.x2 a = 0 ∧ 0 < s.b2 a ∧ ∃ v, rbase (s.b2 a) = some v ∧ w = v + s.d2 a := by
  unfold Sect.branchTo at h
  split at h
  · next hx => exact ⟨hx, baseDisp_some h⟩
  · cases h

/-- The registers of a state hold what is known of them. -/
structure Told (s : Sect) (optab : List Opc) (mode : ReachMode) (rbase rload : ℕ → Option ℕ) : Prop where
  base : ∀ r v, rbase r = some v → Known s optab mode (.base r v)
  load : ∀ r w, rload r = some w → Known s optab mode (.load r w)

theorem Told.setBase (h : Told s optab mode st.rbase st.rload) {r v : ℕ} (hv : Known s optab mode (.base r v)) :
    Told s optab mode (st.setBase r v).rbase (st.setBase r v).rload := by
  unfold ReachState.setBase
  split
  · exact h
  · refine ⟨?_, h.load⟩
    intro q w hw
    change Function.update st.rbase r (some v) q = some w at hw
    by_cases hq : q = r
    · subst hq
      rw [Function.update_self] at hw
      cases hw
      exact hv
    · rw [Function.update_of_ne hq] at hw
      exact h.base q w hw

theorem Told.setLoad (h : Told s optab mode st.rbase st.rload) {r : ℕ} {w : Option ℕ} (hw : ∀ v, w = some v → Known s optab mode (.load r v)) :
    Told s optab mode (st.setLoad r w).rbase (st.setLoad r w).rload := by
  unfold ReachState.setLoad
  split
  · exact h
  · refine ⟨h.base, ?_⟩
    intro q v hv
    change Function.update st.rload r w q = some v at hv
    by_cases hq : q = r
    · subst hq
      rw [Function.update_self] at hv
      exact hw v hv
    · rw [Function.update_of_ne hq] at hv
      exact h.load q v hv

/-- An instruction adds to the queue and changes registers, and all of it is known. -/
structure Tells (s : Sect) (optab : List Opc) (mode : ReachMode) (st st' : ReachState) : Prop where
  rseen : st'.rseen = st.rseen
  rch : st'.rch = st.rch
  rq : ∃ new, st'.rq = new ++ st.rq ∧ ∀ b ∈ new, Known s optab mode (.code b) ∧ b < s.len ∧ b % 2 = 0
  told : Told s optab mode st'.rbase st'.rload

theorem Tells.same (ht : Told s optab mode st.rbase st.rload) : Tells s optab mode st st :=
  ⟨rfl, rfl, ⟨[], rfl, by simp⟩, ht⟩

theorem Tells.setBase {st' : ReachState} (h : Tells s optab mode st st') {r v : ℕ} (hv : Known s optab mode (.base r v)) :
    Tells s optab mode st (st'.setBase r v) := by
  have ht := h.told.setBase hv
  revert ht
  unfold ReachState.setBase
  split
  · exact fun _ => h
  · exact fun ht => ⟨h.rseen, h.rch, h.rq, ht⟩

theorem Tells.setLoad {st' : ReachState} (h : Tells s optab mode st st') {r : ℕ} {w : Option ℕ}
    (hw : ∀ v, w = some v → Known s optab mode (.load r v)) : Tells s optab mode st (st'.setLoad r w) := by
  have ht := h.told.setLoad hw
  revert ht
  unfold ReachState.setLoad
  split
  · exact fun _ => h
  · exact fun ht => ⟨h.rseen, h.rch, h.rq, ht⟩

theorem pushBranch_tells (ht : Told s optab mode st.rbase st.rload) (ha : Known s optab mode (.code a)) (ho : s.reachDecode optab a = some o)
    (hop : o.op = 0x47 ∨ o.op = 0x45 ∨ o.op = 0x4D) : Tells s optab mode st (s.pushBranch st a) := by
  obtain ⟨new, h, hnew⟩ := pushBranch_eq (s := s) st a
  rw [h]
  refine ⟨rfl, rfl, ⟨new, rfl, ?_⟩, ht⟩
  intro b hb
  obtain ⟨hto, hlt, heven⟩ := hnew b hb
  obtain ⟨hx, hpos, v, hv, rfl⟩ := branchTo_some hto
  exact ⟨.branch ha ho hop hx hpos (ht.base _ _ hv) hlt heven, hlt, heven⟩

theorem reachPromote_tells (ht : Told s optab mode st.rbase st.rload) (ha : Known s optab mode (.code a)) (ho : s.reachDecode optab a = some o)
    (hop : o.op = 0x07) (hacon : mode.acon = true) {w : ℕ} (hw : st.rload (s.x2 a) = some w) :
    Tells s optab mode st (s.reachPromote st w) := by
  obtain ⟨new, h, hnew⟩ := foldl_rqPush (s := s) (s.promoted w) st
  rw [Sect.reachPromote, h]
  refine ⟨rfl, rfl, ⟨new, rfl, ?_⟩, ht⟩
  intro b hb
  obtain ⟨hmem, hlt, heven⟩ := hnew b hb
  exact ⟨.promoted hacon ha ho hop (ht.load _ _ hw) hmem heven, hlt, heven⟩

variable (st) in
theorem reachInsn_tells (ht : Told s optab mode st.rbase st.rload) (ha : Known s optab mode (.code a)) (ho : s.reachDecode optab a = some o) :
    Tells s optab mode st (s.reachInsn mode o a st) := by
  unfold Sect.reachInsn
  split
  · next hop => exact pushBranch_tells ht ha ho (.inl hop)
  split
  · next hop =>
    cases hw : (st.rload (s.x2 a)).filter fun _ => mode.acon with
    | none => exact .same ht
    | some w =>
      obtain ⟨hload, hacon⟩ := Option.filter_eq_some_iff.mp hw
      exact reachPromote_tells ht ha ho hop hacon hload
  split
  · next hop => exact pushBranch_tells ht ha ho (.inr hop)
  split
  · next h => exact (Tells.same ht).setBase (.prologue h.1 ha ho h.2.1 h.2.2)
  split
  · next h =>
    cases hv : st.rbase (s.x2 a) with
    | none => exact .same ht
    | some v => exact (Tells.same ht).setBase (.copied h.1 ha ho h.2 (ht.base _ _ hv))
  split
  · next hop =>
    have hl : Tells s optab mode st (st.setLoad (s.r1 a) (s.baseDisp st.rbase a)) := by
      apply (Tells.same ht).setLoad
      intro w hw
      obtain ⟨hpos, v, hv, rfl⟩ := baseDisp_some hw
      exact .loaded ha ho hop hpos (ht.base _ _ hv)
    cases hown : ((s.branchTo st.rbase a).filter fun _ => mode.rld).bind s.ownAddr with
    | none => exact hl
    | some t =>
      obtain ⟨w, hw, hown⟩ := Option.bind_eq_some_iff.mp hown
      obtain ⟨hto, hrld⟩ := Option.filter_eq_some_iff.mp hw
      obtain ⟨hx, hpos, v, hv, rfl⟩ := branchTo_some hto
      exact hl.setBase (.relocated hrld ha ho hop hx hpos (ht.base _ _ hv) hown)
  · exact .same ht

/-- Control is known to get to an offset where an instruction may stand. -/
structure Code (s : Sect) (optab : List Opc) (mode : ReachMode) (a : ℕ) : Prop where
  known : Known s optab mode (.code a)
  inside : a < s.len
  even : a % 2 = 0

/-- What every turn keeps. -/
structure Walking (s : Sect) (optab : List Opc) (mode : ReachMode) (st : ReachState) : Prop where
  seen : ∀ a, st.rseen a = true → Code s optab mode a
  queued : ∀ a ∈ st.rq, Code s optab mode a
  here : ∀ a, st.cur = some a → a % 2 = 0 ∧ (a < s.len → Known s optab mode (.code a))
  told : Told s optab mode st.rbase st.rload
  falls : ∀ a o, st.rseen a = true → s.reachDecode optab a = some o → s.leaves o a = false →
    a + insLenOf o.fmt < s.len → st.rseen (a + insLenOf o.fmt) = true ∨ st.cur = some (a + insLenOf o.fmt)
  bytes : ∀ p, st.rch p = true ↔ ∃ a o, st.rseen a = true ∧ s.reachDecode optab a = some o ∧ a ≤ p ∧ p < a + insLenOf o.fmt

/-- What a turn does. -/
theorem reachStep_cases (optab : List Opc) (mode : ReachMode) (hd : ¬ Sect.ReachDone st) :
    (∃ a rq, st.cur = none ∧ st.rq = a :: rq ∧ s.reachStep optab mode st = { st with cur := some a, rq := rq }) ∨
    (∃ a, st.cur = some a ∧ (s.len ≤ a ∨ st.rseen a = true) ∧ s.reachStep optab mode st = st.arrive none) ∨
    (∃ a, st.cur = some a ∧ a < s.len ∧ st.rseen a = false ∧ s.reachDecode optab a = none ∧
      s.reachStep optab mode st = (st.mark a).arrive none) ∨
    (∃ a o, st.cur = some a ∧ a < s.len ∧ st.rseen a = false ∧ s.reachDecode optab a = some o ∧
      s.reachStep optab mode st = (s.reachInsn mode o a ((st.mark a).cover a (insLenOf o.fmt))).arrive
        (if s.leaves o a = true then none else some (a + insLenOf o.fmt))) := by
  unfold Sect.reachStep
  cases hc : st.cur with
  | none =>
    cases hq : st.rq with
    | nil => exact absurd ⟨hc, hq⟩ hd
    | cons a rq => exact .inl ⟨a, rq, rfl, rfl, rfl⟩
  | some a =>
    by_cases hs : s.len ≤ a ∨ st.rseen a = true
    · exact .inr (.inl ⟨a, rfl, hs, if_pos hs⟩)
    have hnew : a < s.len ∧ st.rseen a = false := by simpa using hs
    cases hdec : s.reachDecode optab a with
    | none => exact .inr (.inr (.inl ⟨a, rfl, hnew.1, hnew.2, hdec, (if_neg hs).trans (by rw [hdec])⟩))
    | some o => exact .inr (.inr (.inr ⟨a, o, rfl, hnew.1, hnew.2, hdec, (if_neg hs).trans (by rw [hdec])⟩))

theorem mark_rseen (st : ReachState) (a b : ℕ) : (st.mark a).rseen b = true ↔ b = a ∨ st.rseen b = true := by
  unfold ReachState.mark
  by_cases h : b = a
  · subst h
    simp
  · simp [h]

/-- Marking an offset adds the bytes of its instruction, if it has one. -/
theorem Walking.mark_bytes (h : Walking s optab mode st) (a p : ℕ) :
    (∃ c o, (st.mark a).rseen c = true ∧ s.reachDecode optab c = some o ∧ c ≤ p ∧ p < c + insLenOf o.fmt) ↔
      st.rch p = true ∨ ∃ o, s.reachDecode optab a = some o ∧ a ≤ p ∧ p < a + insLenOf o.fmt := by
  rw [h.bytes]
  constructor
  · rintro ⟨c, o, hc, hdec, hp⟩
    cases (mark_rseen st a c).mp hc with
    | inl hca =>
      subst hca
      exact .inr ⟨o, hdec, hp⟩
    | inr hc => exact .inl ⟨c, o, hc, hdec, hp⟩
  · rintro (⟨c, o, hc, hdec, hp⟩ | ⟨o, hdec, hp⟩)
    · exact ⟨c, o, (mark_rseen st a c).mpr (.inr hc), hdec, hp⟩
    · exact ⟨a, o, (mark_rseen st a a).mpr (.inl rfl), hdec, hp⟩

theorem Walking.code (h : Walking s optab mode st) (hc : st.cur = some a) (hlt : a < s.len) : Code s optab mode a :=
  ⟨(h.here a hc).2 hlt, hlt, (h.here a hc).1⟩

theorem Walking.mark_seen (h : Walking s optab mode st) (hc : st.cur = some a) (hlt : a < s.len) :
    ∀ b, (st.mark a).rseen b = true → Code s optab mode b := by
  intro b hb
  cases (mark_rseen st a b).mp hb with
  | inl hba =>
    subst hba
    exact h.code hc hlt
  | inr hb => exact h.seen b hb

/-- What fell through before still does after the offset that control had arrived at is marked. -/
theorem Walking.mark_falls (h : Walking s optab mode st) (hc : st.cur = some a) (ho : s.reachDecode optab b = some o)
    (hb : st.rseen b = true) (hl : s.leaves o b = false) (hin : b + insLenOf o.fmt < s.len) :
    (st.mark a).rseen (b + insLenOf o.fmt) = true := by
  apply (mark_rseen st a _).mpr
  cases h.falls b o hb ho hl hin with
  | inl h => exact .inr h
  | inr h =>
    rw [hc] at h
    exact .inl (Option.some.inj h).symm

theorem Walking.step (h : Walking s optab mode st) (hd : ¬ Sect.ReachDone st) : Walking s optab mode (s.reachStep optab mode st) := by
  obtain ⟨a, rq, hc, hq, he⟩ | ⟨a, hc, hs, he⟩ | ⟨a, hc, hlt, hs, hdec, he⟩ | ⟨a, o, hc, hlt, hs, hdec, he⟩ := reachStep_cases (s := s) optab mode hd
  all_goals rw [he]
  · have ha := h.queued a (by simp [hq])
    refine ⟨h.seen, ?_, ?_, h.told, ?_, h.bytes⟩
    · exact fun b hb => h.queued b (by simp [hq, show b ∈ rq from hb])
    · intro b hb
      cases hb
      exact ⟨ha.even, fun _ => ha.known⟩
    · intro b o hb ho hl hin
      have hf := h.falls b o hb ho hl hin
      rw [hc] at hf
      exact .inl (hf.resolve_right (by simp))
  · refine ⟨h.seen, h.queued, ?_, h.told, ?_, h.bytes⟩
    · intro b hb
      cases hb
    intro b o hb ho hl hin
    cases h.falls b o hb ho hl hin with
    | inl hf => exact .inl hf
    | inr hf =>
      rw [hc] at hf
      have hab := Option.some.inj hf
      subst hab
      exact .inl (hs.resolve_left (by omega))
  · refine ⟨h.mark_seen hc hlt, h.queued, ?_, h.told, ?_, ?_⟩
    · intro b hb
      cases hb
    · intro b o hb ho hl hin
      cases (mark_rseen st a b).mp hb with
      | inl hba =>
        subst hba
        rw [hdec] at ho
        cases ho
      | inr hb => exact .inl (h.mark_falls hc ho hb hl hin)
    · intro p
      have hp := h.mark_bytes a p
      simp only [hdec, reduceCtorEq, false_and, exists_false, or_false] at hp
      exact hp.symm
  · have ht := reachInsn_tells ((st.mark a).cover a (insLenOf o.fmt)) h.told (h.code hc hlt).known hdec
    have hseen := ht.rseen
    rw [ReachState.cover_rseen] at hseen
    refine ⟨?_, ?_, ?_, ht.told, ?_, ?_⟩
    · rw [ReachState.arrive_rseen, hseen]
      exact h.mark_seen hc hlt
    · intro b hb
      obtain ⟨new, hrq, hnew⟩ := ht.rq
      rw [ReachState.arrive_rq, hrq] at hb
      cases List.mem_append.mp hb with
      | inl hb => exact ⟨(hnew b hb).1, (hnew b hb).2.1, (hnew b hb).2.2⟩
      | inr hb => exact h.queued b hb
    · intro b hb
      simp only [ReachState.arrive_cur, Option.ite_none_left_eq_some, Option.some.injEq, Bool.not_eq_true] at hb
      obtain ⟨hl, rfl⟩ := hb
      have heven := (h.code hc hlt).even
      have hlen := insLenOf_even o.fmt
      exact ⟨by omega, fun hin => .next (h.code hc hlt).known hdec hl hin⟩
    · rw [ReachState.arrive_rseen, hseen]
      intro b o' hb ho hl hin
      cases (mark_rseen st a b).mp hb with
      | inl hba =>
        subst hba
        rw [hdec] at ho
        cases ho
        exact .inr (by simp [hl])
      | inr hb => exact .inl (h.mark_falls hc ho hb hl hin)
    · intro p
      have hp := h.mark_bytes a p
      simp only [hdec, Option.some.injEq, exists_eq_left'] at hp
      rw [ReachState.arrive_rseen, hseen, hp, ReachState.arrive_rch, ht.rch]
      simp [ReachState.cover, ReachState.mark]
/-- The offsets that a traversal has not walked from. -/
def unseen (s : Sect) (st : ReachState) : Finset ℕ := (Finset.range s.len).filter fun a => a % 2 = 0 ∧ st.rseen a = false

theorem mem_unseen : a ∈ unseen s st ↔ a < s.len ∧ a % 2 = 0 ∧ st.rseen a = false := by simp [unseen]

theorem unseen_mark (hlt : a < s.len) (heven : a % 2 = 0) (hs : st.rseen a = false) : (unseen s (st.mark a)).card + 1 = (unseen s st).card := by
  have ha : a ∈ unseen s st := mem_unseen.mpr ⟨hlt, heven, hs⟩
  have he : unseen s (st.mark a) = (unseen s st).erase a := by
    ext b
    rw [Finset.mem_erase, mem_unseen, mem_unseen, ← Bool.not_eq_true, ← Bool.not_eq_true, mark_rseen]
    tauto
  rw [he, Finset.card_erase_of_mem ha]
  have hpos := Finset.card_pos.mpr ⟨a, ha⟩
  omega

theorem unseen_congr (st : ReachState) {st' : ReachState} (h : st'.rseen = st.rseen) : unseen s st' = unseen s st := by
  rw [unseen, unseen, h]

/-- What every turn makes smaller: a visit leaves less to see, and between two visits the queue gets
shorter. -/
def togo (s : Sect) (st : ReachState) : ℕ ×ₗ ℕ := toLex ((unseen s st).card, 2 * st.rq.length + if st.cur.isSome then 1 else 0)

theorem togo_step (h : Walking s optab mode st) (hd : ¬ Sect.ReachDone st) : togo s (s.reachStep optab mode st) < togo s st := by
  have hvisit {a : ℕ} (hc : st.cur = some a) (hlt : a < s.len) (hs : st.rseen a = false) {st' : ReachState} (h' : st'.rseen = (st.mark a).rseen) :
      togo s st' < togo s st := by
    have hmark := unseen_mark (s := s) hlt (h.here a hc).1 hs
    have hcard : (unseen s st').card < (unseen s st).card := by rw [unseen_congr (st.mark a) h']; omega
    exact Prod.Lex.toLex_lt_toLex.mpr (.inl hcard)
  obtain ⟨a, rq, hc, hq, he⟩ | ⟨a, hc, hs, he⟩ | ⟨a, hc, hlt, hs, hdec, he⟩ | ⟨a, o, hc, hlt, hs, hdec, he⟩ := reachStep_cases (s := s) optab mode hd
  all_goals rw [he]
  · apply Prod.Lex.toLex_lt_toLex.mpr
    refine .inr ⟨rfl, ?_⟩
    simp only [hc, hq, List.length_cons, Option.isSome_none, Option.isSome_some, Bool.false_eq_true, ↓reduceIte]
    omega
  · apply Prod.Lex.toLex_lt_toLex.mpr
    refine .inr ⟨rfl, ?_⟩
    simp [hc]
  · exact hvisit hc hlt hs rfl
  · exact hvisit hc hlt hs (reachInsn_tells ((st.mark a).cover a (insLenOf o.fmt)) h.told (h.code hc hlt).known hdec).rseen

theorem reachStart_walking (s : Sect) (optab : List Opc) (mode : ReachMode) : Walking s optab mode (s.reachStart mode) := by
  obtain ⟨new, h, hnew⟩ := foldl_rqPush (s := s) s.reachRoots (.clear mode)
  rw [Sect.reachStart, h]
  refine ⟨?_, ?_, ?_, ⟨?_, ?_⟩, ?_, ?_⟩
  · simp [ReachState.clear]
  · intro a ha
    obtain ⟨hmem, hlt, heven⟩ := hnew a (by simpa [ReachState.clear] using ha)
    exact ⟨.root hmem hlt heven, hlt, heven⟩
  · simp [ReachState.clear]
  · intro r v hv
    simp only [ReachState.clear, Option.ite_none_right_eq_some, Option.some.injEq] at hv
    obtain ⟨⟨hr15, rfl⟩, rfl⟩ := hv
    exact .entered hr15
  · simp [ReachState.clear]
  · simp [ReachState.clear]
  · simp [ReachState.clear]

/-- The traversal comes to an end. Where it has been, control is known to get to; it has followed every
instruction it saw to the next one; and the bytes it reports are those of the instructions it saw, none
of them in a relocated field. -/
theorem reachWalk_known (s : Sect) (optab : List Opc) (mode : ReachMode) :
    ∃ n, ∃ st, st = (s.reachStep optab mode)^[n] (s.reachStart mode) ∧ Sect.ReachDone st ∧
      (∀ a, st.rseen a = true → Known s optab mode (.code a)) ∧
      (∀ a o, st.rseen a = true → s.reachDecode optab a = some o → s.leaves o a = false → a + insLenOf o.fmt < s.len →
        st.rseen (a + insLenOf o.fmt) = true) ∧
      (∀ p, st.rch p = true ↔ ∃ a o, st.rseen a = true ∧ s.reachDecode optab a = some o ∧ a ≤ p ∧ p < a + insLenOf o.fmt) ∧
      ∀ p, st.rch p = true → p < s.len ∧ ∀ r ∈ s.rld, ¬ (r.addr ≤ p ∧ p < r.addr + r.len) := by
  obtain ⟨n, hd, h⟩ := Worklist.exists_done (Walking s optab mode) Sect.ReachDone wellFounded_lt (togo s)
    (fun st h hd => togo_step h hd) (fun st h => by
      by_cases hd : Sect.ReachDone st
      · obtain ⟨hc, hq⟩ := hd
        have he : s.reachStep optab mode st = st := by simp only [Sect.reachStep, hc, hq]
        rw [he]
        exact h
      · exact h.step hd) (reachStart_walking s optab mode)
  refine ⟨n, _, rfl, hd, fun a ha => (h.seen a ha).known, ?_, h.bytes, ?_⟩
  · intro a o ha ho hl hin
    have hf := h.falls a o ha ho hl hin
    rw [hd.1] at hf
    exact hf.resolve_right (by simp)
  · intro p hp
    obtain ⟨a, o, -, ho, hap, hpa⟩ := (h.bytes p).mp hp
    obtain ⟨-, hin, hover⟩ := reachDecode_inside ho
    refine ⟨by omega, ?_⟩
    intro r hr hrp
    have hno := List.any_eq_false.mp hover r hr
    simp only [decide_eq_true_eq] at hno
    omega

end Steps

section Exact

variable {s : Sect} {optab : List Opc} {st : ReachState} {a b : ℕ} {o : Opc}

/-- R15 holds the origin or nothing is known; no register is learned from the walk. -/
def plain (r15 : Bool) : ReachMode := ⟨r15, false, false, false, false⟩

def entryBase (r15 : Bool) (r : ℕ) : Option ℕ := if r15 = true ∧ r = 15 then some 0 else none

def Branches (o : Opc) : Prop := o.op = 0x47 ∨ o.op = 0x45 ∨ o.op = 0x4D

/-- Control goes from one offset to another. -/
def Flows (s : Sect) (optab : List Opc) (r15 : Bool) (a b : ℕ) : Prop :=
  ∃ o, s.reachDecode optab a = some o ∧ b < s.len ∧ (s.leaves o a = false ∧ b = a + insLenOf o.fmt ∨
    Branches o ∧ s.branchTo (entryBase r15) a = some b ∧ b % 2 = 0)

def Root (s : Sect) (a : ℕ) : Prop := a ∈ s.reachRoots ∧ a < s.len ∧ a % 2 = 0

def Plainly (s : Sect) (optab : List Opc) (r15 : Bool) : ReachFact → Prop
  | .code a => Worklist.Reach (Root s) (Flows s optab r15) a
  | .base r v => entryBase r15 r = some v
  | .load _ _ => True

/-- Without evidence from the walk the only base is that of the entry. -/
theorem known_plain {r15 : Bool} {f : ReachFact} (h : Known s optab (plain r15) f) : Plainly s optab r15 f := by
  induction h with
  | root ha hlt heven => exact .root ⟨ha, hlt, heven⟩
  | entered h => exact if_pos ⟨h, rfl⟩
  | next _ ho hl hin ih => exact .step ih ⟨_, ho, hin, .inl ⟨hl, rfl⟩⟩
  | branch _ ho hop hx hb _ hlt heven ih hbase =>
    refine .step ih ⟨_, ho, hlt, .inr ⟨hop, ?_, heven⟩⟩
    rw [Sect.branchTo, if_pos hx, Sect.baseDisp, if_pos hb, hbase]
    rfl
  | prologue h | copied h | relocated h | promoted h => cases h
  | loaded => trivial

variable (s) in
theorem reachInsn_plain (r15 : Bool) (o : Opc) (a : ℕ) (st : ReachState) :
    (s.reachInsn (plain r15) o a st).rbase = st.rbase ∧ (Branches o → (s.reachInsn (plain r15) o a st).rq = (s.pushBranch st a).rq) ∧
      (¬ Branches o → (s.reachInsn (plain r15) o a st).rq = st.rq) := by
  obtain ⟨new, hp, -⟩ := pushBranch_eq (s := s) st a
  have hacon : ((st.rload (s.x2 a)).filter fun _ => (plain r15).acon) = none := by simp [plain]
  have hrld : ((s.branchTo st.rbase a).filter fun _ => (plain r15).rld).bind s.ownAddr = none := by simp [plain]
  unfold Sect.reachInsn
  simp only [hacon, hrld]
  simp only [plain, Bool.false_eq_true, false_and, ↓reduceIte, Branches]
  split
  · next h => simp [h, hp]
  split
  · next h => simp [h]
  split
  · next h => simp [h, hp]
  split
  · next h =>
    unfold ReachState.setLoad
    split <;> simp [h]
  · next h47 _ hcall _ =>
    simp only [not_or] at hcall
    simp [h47, hcall]

/-- With room in the queue a branch is remembered unless its target was walked from. -/
theorem mem_pushBranch (hroom : st.rq.length < rqCap) : b ∈ (s.pushBranch st a).rq ↔
    b ∈ st.rq ∨ s.branchTo st.rbase a = some b ∧ b < s.len ∧ b % 2 = 0 ∧ st.rseen b = false := by
  unfold Sect.pushBranch
  cases ht : s.branchTo st.rbase a with
  | none => simp
  | some t =>
    simp only [Option.some.injEq]
    unfold Sect.rqPush
    split
    · next h =>
      constructor
      · exact .inl
      · rintro (hb | ⟨rfl, hlt, heven, hs⟩)
        · exact hb
        · simp only [hs, Bool.false_eq_true, false_or] at h
          omega
    · next h =>
      simp only [not_or, Bool.not_eq_true] at h
      rw [List.mem_cons]
      constructor
      · rintro (rfl | hb)
        · exact .inr ⟨rfl, by omega, by omega, h.2.2.1⟩
        · exact .inl hb
      · rintro (hb | ⟨rfl, -⟩)
        · exact .inr hb
        · exact .inl rfl

theorem pushBranch_length (st : ReachState) (a : ℕ) : (s.pushBranch st a).rq.length ≤ st.rq.length + 1 := by
  unfold Sect.pushBranch
  split
  · unfold Sect.rqPush
    split
    · omega
    · simp
  · omega

/-- What every turn keeps if nothing is learned on the way: the queue has room for what is still
unseen. -/
structure Exact (s : Sect) (optab : List Opc) (r15 : Bool) (st : ReachState) : Prop where
  walking : Walking s optab (plain r15) st
  base : st.rbase = entryBase r15
  room : st.rq.length + (unseen s st).card ≤ rqCap
  traversed : Worklist.Traversed (Root s) (Flows s optab r15) (fun a => st.rseen a = true) fun a => a < s.len ∧ (a ∈ st.rq ∨ st.cur = some a)

theorem Exact.step {r15 : Bool} (h : Exact s optab r15 st) : Exact s optab r15 (s.reachStep optab (plain r15) st) := by
  by_cases hd : Sect.ReachDone st
  · obtain ⟨hc, hq⟩ := hd
    have he : s.reachStep optab (plain r15) st = st := by simp only [Sect.reachStep, hc, hq]
    rw [he]
    exact h
  have hw := h.walking.step hd
  have hroom := h.room
  obtain ⟨a, rq, hc, hq, he⟩ | ⟨a, hc, hs, he⟩ | ⟨a, hc, hlt, hs, hdec, he⟩ | ⟨a, o, hc, hlt, hs, hdec, he⟩ := reachStep_cases (s := s) optab (plain r15) hd
  all_goals rw [he] at hw ⊢
  · refine ⟨hw, h.base, ?_, ?_⟩
    · rw [hq, List.length_cons] at hroom
      change rq.length + (unseen s st).card ≤ rqCap
      omega
    · refine h.traversed.forget ?_ ?_
      · rintro b ⟨hlt, hb⟩
        refine ⟨hlt, .inl ?_⟩
        simp only [hq, List.mem_cons]
        simp only [Option.some.injEq] at hb
        exact hb.symm.imp_left Eq.symm
      · rintro b ⟨hlt, hb⟩
        simp only [hq, hc, List.mem_cons, reduceCtorEq, or_false] at hb
        refine .inr ⟨hlt, ?_⟩
        simp only [Option.some.injEq]
        exact hb.symm.imp_right Eq.symm
  · refine ⟨hw, h.base, hroom, ?_⟩
    refine h.traversed.forget ?_ ?_
    · rintro b ⟨hlt, hb⟩
      exact ⟨hlt, .inl (by simpa using hb)⟩
    · rintro b ⟨hlt, hb⟩
      simp only [hc, Option.some.injEq] at hb
      cases hb with
      | inl hb => exact .inr ⟨hlt, .inl hb⟩
      | inr hb =>
        subst hb
        exact .inl (hs.resolve_left (by omega))
  all_goals
    have heven := (h.walking.here a hc).1
    have hmark := unseen_mark (s := s) hlt heven hs
  · refine ⟨hw, h.base, ?_, ?_⟩
    · change st.rq.length + (unseen s (st.mark a)).card ≤ rqCap
      omega
    · refine h.traversed.visit ⟨hlt, .inr hc⟩ (mark_rseen st a) ?_ ?_ ?_
      · rintro b ⟨hlt, hb⟩
        exact .inl ⟨hlt, .inl (by simpa using hb)⟩
      · rintro b ⟨hlt, hb⟩
        simp only [hc, Option.some.injEq] at hb
        cases hb with
        | inl hb => exact .inr ⟨hlt, .inl hb⟩
        | inr hb => exact .inl ((mark_rseen st a b).mpr (.inl hb.symm))
      · rintro b ⟨o, ho, -⟩
        rw [hdec] at ho
        cases ho
  · have hseen := (reachInsn_tells ((st.mark a).cover a (insLenOf o.fmt)) h.walking.told (h.walking.code hc hlt).known hdec).rseen
    rw [ReachState.cover_rseen] at hseen
    obtain ⟨hbase, hrqb, hrq⟩ := reachInsn_plain s r15 o a ((st.mark a).cover a (insLenOf o.fmt))
    have hlen : ((s.reachInsn (plain r15) o a ((st.mark a).cover a (insLenOf o.fmt))).rq).length ≤ st.rq.length + 1 := by
      by_cases hb : Branches o
      · rw [hrqb hb]
        exact pushBranch_length _ _
      · rw [hrq hb]
        exact Nat.le_succ _
    have hmem (b : ℕ) : b ∈ (s.reachInsn (plain r15) o a ((st.mark a).cover a (insLenOf o.fmt))).rq ↔
        b ∈ st.rq ∨ Branches o ∧ s.branchTo (entryBase r15) a = some b ∧ b < s.len ∧ b % 2 = 0 ∧ (st.mark a).rseen b = false := by
      by_cases hb : Branches o
      · rw [hrqb hb, mem_pushBranch (by simp only [ReachState.cover_rq, ReachState.mark_rq]; omega)]
        simp [hb, h.base]
      · rw [hrq hb]
        simp [hb]
    refine ⟨hw, hbase.trans h.base, ?_, ?_⟩
    · rw [unseen_congr (st.mark a) (by rw [ReachState.arrive_rseen, hseen]), ReachState.arrive_rq]
      omega
    · rw [ReachState.arrive_rseen, hseen]
      refine h.traversed.visit ⟨hlt, .inr hc⟩ (mark_rseen st a) ?_ ?_ ?_
      · rintro b ⟨hlt, hb⟩
        rw [ReachState.arrive_rq, hmem, ReachState.arrive_cur] at hb
        obtain (hb | ⟨hop, hto, -, he, -⟩) | hb := hb
        · exact .inl ⟨hlt, .inl hb⟩
        · exact .inr ⟨o, hdec, hlt, .inr ⟨hop, hto, he⟩⟩
        · simp only [Option.ite_none_left_eq_some, Option.some.injEq, Bool.not_eq_true] at hb
          exact .inr ⟨o, hdec, hlt, .inl ⟨hb.1, hb.2.symm⟩⟩
      · rintro b ⟨hlt, hb⟩
        rw [hc, Option.some.injEq] at hb
        cases hb with
        | inl hb => exact .inr ⟨hlt, .inl ((hmem b).mpr (.inl hb))⟩
        | inr hb => exact .inl ((mark_rseen st a b).mpr (.inl hb.symm))
      · rintro b ⟨o', ho, hlt, hb⟩
        rw [hdec] at ho
        cases ho
        obtain ⟨hl, rfl⟩ | ⟨hop, hto, he⟩ := hb
        · exact .inr ⟨hlt, .inr (by simp [hl])⟩
        · cases hs' : (st.mark a).rseen b with
          | true => exact .inl rfl
          | false => exact .inr ⟨hlt, .inl ((hmem b).mpr (.inr ⟨hop, hto, hlt, he, hs'⟩))⟩
theorem unseen_card (s : Sect) (st : ReachState) : (unseen s st).card ≤ (s.len + 1) / 2 := by
  have hsub : unseen s st ⊆ (Finset.range ((s.len + 1) / 2)).image (2 * ·) := by
    intro a ha
    obtain ⟨hlt, heven, -⟩ := mem_unseen.mp ha
    exact Finset.mem_image.mpr ⟨a / 2, Finset.mem_range.mpr (by omega), by omega⟩
  calc (unseen s st).card ≤ ((Finset.range ((s.len + 1) / 2)).image (2 * ·)).card := Finset.card_le_card hsub
    _ ≤ (Finset.range ((s.len + 1) / 2)).card := Finset.card_image_le
    _ = (s.len + 1) / 2 := Finset.card_range _

theorem rqPush_length (st : ReachState) (a : ℕ) : (s.rqPush st a).rq.length ≤ st.rq.length + 1 := by
  unfold Sect.rqPush
  split
  · omega
  · simp

/-- With room for all of them, every root gets into the queue. -/
theorem foldl_rqPush_all (as : List ℕ) (st : ReachState) (hroom : st.rq.length + as.length ≤ rqCap) :
    (as.foldl s.rqPush st).rq.length ≤ st.rq.length + as.length ∧
      ∀ a, a ∈ st.rq ∨ a ∈ as ∧ a < s.len ∧ a % 2 = 0 ∧ st.rseen a = false → a ∈ (as.foldl s.rqPush st).rq := by
  induction as generalizing st with
  | nil => simp
  | cons b as ih =>
    rw [List.length_cons] at hroom
    have hlen := rqPush_length (s := s) st b
    obtain ⟨new, hp, -⟩ := rqPush_eq (s := s) st b
    have hseen : (s.rqPush st b).rseen = st.rseen := by rw [hp]
    obtain ⟨hall, hmem⟩ := ih (s.rqPush st b) (by omega)
    rw [List.foldl_cons, List.length_cons]
    refine ⟨by omega, ?_⟩
    intro a ha
    apply hmem
    rw [hseen]
    obtain ha | ⟨ha, hvalid⟩ := ha
    · exact .inl (by rw [hp]; exact List.mem_append_right _ ha)
    · cases List.mem_cons.mp ha with
      | inl hab =>
        subst hab
        refine .inl ?_
        unfold Sect.rqPush
        rw [if_neg (by simp only [hvalid.2.2, Bool.false_eq_true, false_or]; omega)]
        exact List.mem_cons_self
      | inr ha => exact .inr ⟨ha, hvalid⟩

theorem reachStart_exact (r15 : Bool) (hroom : s.reachRoots.length + (s.len + 1) / 2 ≤ rqCap) :
    Exact s optab r15 (s.reachStart (plain r15)) := by
  have hw := reachStart_walking s optab (plain r15)
  obtain ⟨new, h, hnew⟩ := foldl_rqPush (s := s) s.reachRoots (.clear (plain r15))
  have hempty : (ReachState.clear (plain r15)).rq = [] := rfl
  obtain ⟨hlen, hmem⟩ := foldl_rqPush_all (s := s) s.reachRoots (.clear (plain r15)) (by rw [hempty, List.length_nil]; omega)
  rw [hempty, List.length_nil, Nat.zero_add] at hlen
  change (s.reachStart (plain r15)).rq.length ≤ _ at hlen
  have hseen : (s.reachStart (plain r15)).rseen = fun _ => false := by rw [Sect.reachStart, h]; rfl
  have hcur : (s.reachStart (plain r15)).cur = none := by rw [Sect.reachStart, h]; rfl
  have hrq (a : ℕ) (ha : a ∈ (s.reachStart (plain r15)).rq) : Root s a := by
    rw [Sect.reachStart, h] at ha
    exact hnew a (by simpa [hempty] using ha)
  refine ⟨hw, ?_, ?_, ?_⟩
  · rw [Sect.reachStart, h]
    funext r
    rfl
  · have hcard := unseen_card s (s.reachStart (plain r15))
    omega
  · rw [hseen, hcur]
    refine (Worklist.Traversed.start (by simp)).forget ?_ ?_
    · rintro a ⟨-, ha⟩
      exact hrq a (by simpa using ha)
    · rintro a ⟨ha, hlt, heven⟩
      exact .inr ⟨hlt, .inl (hmem a (.inr ⟨ha, hlt, heven, rfl⟩))⟩

/-- Where nothing is learned on the way, the walk has been exactly where control is known to get to: the
order of the queue makes no difference. -/
theorem reachWalk_exact (s : Sect) (optab : List Opc) (r15 : Bool) (hroom : s.reachRoots.length + (s.len + 1) / 2 ≤ rqCap) :
    ∃ n, ∃ st, st = (s.reachStep optab (plain r15))^[n] (s.reachStart (plain r15)) ∧ Sect.ReachDone st ∧
      ∀ a, st.rseen a = true ↔ Known s optab (plain r15) (.code a) := by
  obtain ⟨n, hd, h⟩ := Worklist.exists_done (Exact s optab r15) Sect.ReachDone wellFounded_lt (togo s)
    (fun st h hd => togo_step h.walking hd) (fun st h => h.step) (reachStart_exact r15 hroom)
  refine ⟨n, _, rfl, hd, ?_⟩
  intro a
  constructor
  · exact fun ha => (h.walking.seen a ha).known
  · intro ha
    apply (h.traversed.finish ?_ a).mpr (known_plain ha)
    rintro b ⟨-, hb⟩
    rw [hd.1, hd.2] at hb
    simp at hb

/-- A branch over a constant, and a return behind it. -/
def skipSect : Sect :=
  { esdid := 1, org := 0, len := 8, name := ['A'], img := fun a => [0x47, 0xF0, 0xF0, 0x06, 0xC1, 0xC2, 0x07, 0xFE].getD a 0, cov := fun _ => true,
    rld := [], esdName := fun _ => [], esdSection := fun _ => false, esdAddr := fun _ => 0, ld := [], entry := none }

def skipOps : List Opc := [⟨['B'], .bc, 0x47, 15, 0, .primary⟩, ⟨['B', 'R'], .br, 0x07, 15, 0, .primary⟩]

theorem skipSect_exact : ∃ n, ∃ st, st = (skipSect.reachStep skipOps (plain true))^[n] (skipSect.reachStart (plain true)) ∧
    Sect.ReachDone st ∧ ∀ a, st.rseen a = true ↔ Known skipSect skipOps (plain true) (.code a) :=
  reachWalk_exact skipSect skipOps true (by decide)

end Exact

end Cc370.Dasm370
