import Cc370.Dasm370.Section

namespace Cc370.Dasm370.Patch

def LONG_MAX : ℤ := 2 ^ 63 - 1

inductive Kind
  | literal
  | mdy
  | julian
deriving DecidableEq

/-- A `[[verify]]` or a `[[replace]]`. -/
structure HBytes where
  pos : ℤ
  b : List UInt8
  kind : Kind
  line : ℕ
deriving DecidableEq

def hverLen (v : HBytes) : ℕ :=
  match v.kind with
  | .literal => v.b.length
  | .mdy => 8
  | .julian => 6

def shape : Kind → List Char
  | .literal => []
  | .mdy => ['d', 'd', '/', 'd', 'd', '/', 'd', 'd']
  | .julian => ['d', 'd', '.', 'd', 'd', 'd']

inductive Msg
  | shorter (pos : ℤ)
  | noText (pos : ℤ)
  | verifyFailed (pos : ℤ) (got want : List UInt8)
  | notDate (pos : ℤ) (got : List UInt8) (kind : Kind)
  | outside (pos : ℤ) (n : ℕ)
  | replaceHole
  | noVerify
deriving DecidableEq

/-- What `--anchors=report` writes down. -/
structure Found where
  notes : List Msg
  afails : List (ℤ × List UInt8)

structure Run where
  refused : Option (ℕ × Msg)
  img : ℕ → UInt8
  found : Found

def Run.rc (r : Run) : ℕ := if r.refused.isSome then 16 else 0

variable (report : Bool) (s : Sect)

/-- Whether a run of bytes leaves the section; the end of the run is a sum of longs, and is not defined past the greatest. -/
def leaves (pos : ℤ) (n : ℕ) : Option Bool :=
  if pos < 0 ∨ n = 0 then some true
  else if LONG_MAX < pos + n then none
  else some (decide ((s.len : ℤ) < pos + n))

def hcovered (pos : ℤ) (n : ℕ) : Bool := (List.range n).all fun k => s.cov (pos.toNat + k)

def bytesAt (pos : ℤ) (n : ℕ) : List UInt8 := (List.range n).map fun k => s.img (pos.toNat + k)

def dateAt (t : List UInt8) (w : List Char) : Bool :=
  (t.zip w).all fun p =>
    let c := Char.ofNat (mvsE2aTab.getD p.1.toNat 0)
    if p.2 = 'd' then c.isDigit else c = p.2

/-- The part of the first loop that looks at the bytes. -/
def compare (v : HBytes) (f : Found) : Option Msg × Found :=
  let got := bytesAt s v.pos (hverLen v)
  match v.kind with
  | .literal =>
    if got = v.b then (none, f)
    else if report then (none, { f with afails := f.afails ++ [(v.pos, v.b)] })
    else (some (.verifyFailed v.pos got v.b), f)
  | k => if dateAt got (shape k) then (none, f) else (some (.notDate v.pos got k), f)

def hrefuse (m : Msg) (f : Found) : Option Msg × Found :=
  if report then (none, { f with notes := f.notes ++ [m] }) else (some m, f)

def verifyOne (v : HBytes) (f : Found) : Option (Option Msg × Found) := do
  if ← leaves s v.pos (hverLen v) then return hrefuse report (.shorter v.pos) f
  if ¬ hcovered s v.pos (hverLen v) then return hrefuse report (.noText v.pos) f
  return compare report s v f

def verifyAll : List HBytes → Found → Option (Option (ℕ × Msg) × Found)
  | [], f => some (none, f)
  | v :: vs, f => do
    let (m, f) ← verifyOne report s v f
    match m with
    | some m => return (some (v.line, m), f)
    | none => verifyAll vs f

def covers (v r : HBytes) : Bool := v.pos ≤ r.pos ∧ r.pos + r.b.length ≤ v.pos + hverLen v

def checkOne (vers : List HBytes) (r : HBytes) : Option (Option Msg) := do
  if ← leaves s r.pos r.b.length then return some (.outside r.pos r.b.length)
  if ¬ hcovered s r.pos r.b.length then return some .replaceHole
  return if vers.any (covers · r) then none else some .noVerify

def checkAll (vers : List HBytes) : List HBytes → Option (Option (ℕ × Msg))
  | [] => some none
  | r :: rs => do
    match ← checkOne s vers r with
    | some m => return some (r.line, m)
    | none => checkAll vers rs

def put (img : ℕ → UInt8) (r : HBytes) (a : ℕ) : UInt8 :=
  if r.pos ≤ a ∧ a < r.pos + r.b.length then r.b.getD (a - r.pos).toNat 0 else img a

/-- `none` is a sum that is not defined. -/
def hintsVerifyPatch (vers reps : List HBytes) : Option Run := do
  let (m, f) ← verifyAll report s vers ⟨[], []⟩
  match m with
  | some m => return ⟨some m, s.img, f⟩
  | none =>
    match ← checkAll s vers reps with
    | some m => return ⟨some m, s.img, f⟩
    | none => return ⟨none, reps.foldl put s.img, f⟩

def InSect (s : Sect) (pos : ℤ) (n : ℕ) : Prop := 0 ≤ pos ∧ 0 < n ∧ pos + n ≤ s.len

instance (pos : ℤ) (n : ℕ) : Decidable (InSect s pos n) := inferInstanceAs (Decidable (_ ∧ _ ∧ _))

/-- A run of bytes that lies in the section's text. -/
def InText (s : Sect) (pos : ℤ) (n : ℕ) : Prop := InSect s pos n ∧ hcovered s pos n = true

/-- The bytes are as they are asserted to be. -/
def Matches (s : Sect) (v : HBytes) : Prop :=
  match v.kind with
  | .literal => bytesAt s v.pos (hverLen v) = v.b
  | k => dateAt (bytesAt s v.pos (hverLen v)) (shape k) = true

def Held (s : Sect) (v : HBytes) : Prop := InText s v.pos (hverLen v) ∧ Matches s v

/-- An assertion that ends the run. -/
def Stops (report : Bool) (s : Sect) (v : HBytes) : Prop :=
  ¬ Held s v ∧ (report = true → InText s v.pos (hverLen v) ∧ v.kind ≠ .literal)

/-- A replace in the text, within the range of an assertion. -/
def Allowed (s : Sect) (vers : List HBytes) (r : HBytes) : Prop := InText s r.pos r.b.length ∧ ∃ v ∈ vers, covers v r = true

/-- The end of the run of bytes is a long, if it is asked for. -/
def Fits (pos : ℤ) (n : ℕ) : Prop := 0 ≤ pos → 0 < n → pos + n ≤ LONG_MAX

variable {report s} {vers reps : List HBytes}

theorem leaves_eq {pos : ℤ} {n : ℕ} (h : Fits pos n) : leaves s pos n = some (decide ¬ InSect s pos n) := by
  rw [leaves]
  split
  · rw [decide_eq_true]
    rintro ⟨hpos, hn, -⟩
    omega
  · have hfits := h (by omega) (by omega)
    rw [if_neg (by omega)]
    congr 2
    apply propext
    rw [InSect]
    omega

theorem leaves_none {pos : ℤ} {n : ℕ} (h : ¬ Fits pos n) : leaves s pos n = none := by
  rw [Fits] at h
  push Not at h
  obtain ⟨hpos, hn, hlt⟩ := h
  rw [leaves, if_neg (by omega), if_pos hlt]

theorem compare_stops {v : HBytes} (hin : InText s v.pos (hverLen v)) (f : Found) :
    (compare report s v f).1.isSome = true ↔ Stops report s v := by
  rw [Stops, Held, Matches, compare, and_iff_right hin]
  cases hk : v.kind with
  | literal =>
    dsimp only
    by_cases hsame : bytesAt s v.pos (hverLen v) = v.b
    · rw [if_pos hsame]
      exact iff_of_false nofun fun h => h.1 hsame
    · rw [if_neg hsame]
      cases report with
      | true => exact iff_of_false nofun fun h => (h.2 rfl).2 rfl
      | false => exact iff_of_true rfl ⟨hsame, nofun⟩
  | mdy | julian =>
    dsimp only
    split
    · rename_i hdate
      exact iff_of_false nofun fun h => h.1 hdate
    · rename_i hdate
      exact iff_of_true rfl ⟨hdate, fun _ => ⟨hin, nofun⟩⟩

theorem hrefuse_stops {v : HBytes} (hout : ¬ InText s v.pos (hverLen v)) (m : Msg) (f : Found) :
    (hrefuse report m f).1.isSome = true ↔ Stops report s v := by
  rw [Stops, hrefuse]
  cases report with
  | true => exact iff_of_false nofun fun h => hout (h.2 rfl).1
  | false => exact iff_of_true rfl ⟨fun h => hout h.1, nofun⟩

theorem verifyOne_spec {v : HBytes} (h : Fits v.pos (hverLen v)) (f : Found) :
    ∃ m f', verifyOne report s v f = some (m, f') ∧ (m.isSome = true ↔ Stops report s v) := by
  rw [verifyOne, leaves_eq h, Option.bind_eq_bind, Option.bind_some]
  by_cases hin : InSect s v.pos (hverLen v)
  · rw [if_neg (by simpa using hin)]
    by_cases hcov : hcovered s v.pos (hverLen v) = true
    · rw [if_neg (not_not.mpr hcov)]
      exact ⟨_, _, rfl, compare_stops ⟨hin, hcov⟩ f⟩
    · rw [if_pos hcov]
      exact ⟨_, _, rfl, hrefuse_stops (fun h => hcov h.2) _ f⟩
  · rw [if_pos (by simpa using hin)]
    exact ⟨_, _, rfl, hrefuse_stops (fun h => hin h.1) _ f⟩

/-- Every assertion that is looked at can be. -/
def VersFit (report : Bool) (s : Sect) : List HBytes → Prop
  | [] => True
  | v :: vs => Fits v.pos (hverLen v) ∧ (¬ Stops report s v → VersFit report s vs)

theorem verifyAll_none (h : ¬ VersFit report s vers) (f : Found) : verifyAll report s vers f = none := by
  induction vers generalizing f with
  | nil => exact absurd trivial h
  | cons v vs ih =>
    rw [verifyAll]
    by_cases hfit : Fits v.pos (hverLen v)
    · obtain ⟨m, f', hrun, hstops⟩ := @verifyOne_spec report s v hfit f
      rw [VersFit, not_and] at h
      have hrest := h hfit
      rw [Classical.not_imp] at hrest
      have hm : m = none := by
        rw [← Option.not_isSome_iff_eq_none, hstops]
        exact hrest.1
      rw [hrun, hm]
      exact ih hrest.2 f'
    · rw [verifyOne, leaves_none hfit]
      rfl

theorem verifyAll_spec (h : VersFit report s vers) (f : Found) :
    ∃ m f', verifyAll report s vers f = some (m, f') ∧ (m.isSome = true ↔ ∃ v ∈ vers, Stops report s v) := by
  induction vers generalizing f with
  | nil => exact ⟨none, f, rfl, by simp⟩
  | cons v vs ih =>
    obtain ⟨hfit, hrest⟩ := h
    obtain ⟨m, f', hrun, hstops⟩ := @verifyOne_spec report s v hfit f
    rw [verifyAll, hrun, List.exists_mem_cons_iff]
    cases m with
    | some m => exact ⟨some (v.line, m), f', rfl, iff_of_true rfl (Or.inl (hstops.mp rfl))⟩
    | none =>
      have hpass : ¬ Stops report s v := fun hstop => absurd (hstops.mpr hstop) nofun
      obtain ⟨m, f'', hrun', hiff⟩ := ih (hrest hpass) f'
      refine ⟨m, f'', hrun', ?_⟩
      rw [hiff, or_iff_right hpass]

theorem checkOne_spec {r : HBytes} (h : Fits r.pos r.b.length) : ∃ m, checkOne s vers r = some m ∧ (m = none ↔ Allowed s vers r) := by
  rw [checkOne, leaves_eq h, Option.bind_eq_bind, Option.bind_some]
  by_cases hin : InSect s r.pos r.b.length
  · rw [if_neg (by simpa using hin)]
    by_cases hcov : hcovered s r.pos r.b.length = true
    · rw [if_neg (not_not.mpr hcov)]
      refine ⟨_, rfl, ?_⟩
      rw [Allowed, InText, and_iff_right ⟨hin, hcov⟩, ← List.any_eq_true]
      split <;> simp_all
    · rw [if_pos hcov]
      exact ⟨_, rfl, iff_of_false nofun fun h => hcov h.1.2⟩
  · rw [if_pos (by simpa using hin)]
    exact ⟨_, rfl, iff_of_false nofun fun h => hin h.1.1⟩

/-- Every replace that is looked at can be. -/
def RepsFit (s : Sect) (vers : List HBytes) : List HBytes → Prop
  | [] => True
  | r :: rs => Fits r.pos r.b.length ∧ (Allowed s vers r → RepsFit s vers rs)

theorem checkAll_none (h : ¬ RepsFit s vers reps) : checkAll s vers reps = none := by
  induction reps with
  | nil => exact absurd trivial h
  | cons r rs ih =>
    rw [checkAll]
    by_cases hfit : Fits r.pos r.b.length
    · obtain ⟨m, hrun, hallowed⟩ := @checkOne_spec s vers r hfit
      rw [RepsFit, not_and] at h
      have hrest := h hfit
      rw [Classical.not_imp] at hrest
      rw [hrun, hallowed.mpr hrest.1]
      exact ih hrest.2
    · rw [checkOne, leaves_none hfit]
      rfl

theorem checkAll_spec (h : RepsFit s vers reps) : ∃ m, checkAll s vers reps = some m ∧ (m = none ↔ ∀ r ∈ reps, Allowed s vers r) := by
  induction reps with
  | nil => exact ⟨none, rfl, by simp⟩
  | cons r rs ih =>
    obtain ⟨hfit, hrest⟩ := h
    obtain ⟨m, hrun, hallowed⟩ := @checkOne_spec s vers r hfit
    rw [checkAll, hrun, List.forall_mem_cons]
    cases m with
    | some m => exact ⟨some (r.line, m), rfl, iff_of_false nofun fun h => absurd (hallowed.mpr h.1) nofun⟩
    | none =>
      obtain ⟨m, hrun', hiff⟩ := ih (hrest (hallowed.mp rfl))
      refine ⟨m, hrun', ?_⟩
      rw [hiff, and_iff_right (hallowed.mp rfl)]

def Within (r : HBytes) (a : ℕ) : Prop := r.pos ≤ a ∧ a < r.pos + r.b.length

/-- The byte lies in a replace whose range is covered by an assertion that held. -/
def Backed (s : Sect) (vers reps : List HBytes) (a : ℕ) : Prop :=
  ∃ r ∈ reps, Within r a ∧ ∃ v ∈ vers, covers v r = true ∧ Held s v

structure Patches (report : Bool) (s : Sect) (vers reps : List HBytes) (run : Run) : Prop where
  changed : ∀ a, run.img a ≠ s.img a → run.rc = 0 ∧ Backed s vers reps a
  refused : run.rc ≠ 0 → run.img = s.img
  applied : run.rc = 0 → run.img = reps.foldl put s.img

theorem within_of_changed (img : ℕ → UInt8) {a : ℕ} (h : reps.foldl put img a ≠ img a) : ∃ r ∈ reps, Within r a := by
  induction reps generalizing img with
  | nil => exact absurd rfl h
  | cons r rs ih =>
    by_cases hin : Within r a
    · exact ⟨r, List.mem_cons_self, hin⟩
    · have hsame : put img r a = img a := if_neg hin
      rw [List.foldl_cons, ← hsame] at h
      obtain ⟨q, hq, hwithin⟩ := ih (put img r) h
      exact ⟨q, List.mem_cons_of_mem r hq, hwithin⟩

/-- The sums that are looked at are longs, and in report mode every byte that a patch changes lies where an assertion held. -/
structure Asserted (report : Bool) (s : Sect) (vers reps : List HBytes) : Prop where
  versFit : VersFit report s vers
  repsFit : (∀ v ∈ vers, ¬ Stops report s v) → RepsFit s vers reps
  backed : report = true → (∀ v ∈ vers, ¬ Stops report s v) → (∀ r ∈ reps, Allowed s vers r) →
    ∀ a, reps.foldl put s.img a ≠ s.img a → Backed s vers reps a

theorem patches_unchanged {m : ℕ × Msg} {f : Found} : Patches report s vers reps ⟨some m, s.img, f⟩ where
  changed := fun _ h => absurd rfl h
  refused := fun _ => rfl
  applied := nofun

theorem patches_applied {f : Found} :
    Patches report s vers reps ⟨none, reps.foldl put s.img, f⟩ ↔ ∀ a, reps.foldl put s.img a ≠ s.img a → Backed s vers reps a := by
  constructor
  · intro h a ha
    exact (h.changed a ha).2
  · intro h
    exact ⟨fun a ha => ⟨rfl, h a ha⟩, fun hrc => absurd rfl hrc, fun _ => rfl⟩

/-- In refuse mode a replace that is let through stands where an assertion held. -/
theorem backed_of_refuse (hvers : ∀ v ∈ vers, ¬ Stops false s v) (hreps : ∀ r ∈ reps, Allowed s vers r) {a : ℕ}
    (h : reps.foldl put s.img a ≠ s.img a) : Backed s vers reps a := by
  obtain ⟨r, hr, hwithin⟩ := within_of_changed s.img h
  obtain ⟨v, hv, hcovers⟩ := (hreps r hr).2
  refine ⟨r, hr, hwithin, v, hv, hcovers, ?_⟩
  by_contra hheld
  exact hvers v hv ⟨hheld, nofun⟩

/-- A section of one byte, X'00'. -/
def byteSect : Sect where
  esdid := 1
  org := 0
  len := 1
  name := ['A']
  img := fun _ => 0
  cov := fun _ => true
  rld := []
  esdName := fun _ => []
  esdSection := fun _ => false
  esdAddr := fun _ => 0
  ld := []
  entry := none

def wrongVerify : HBytes where
  pos := 0
  b := [0xFF]
  kind := .literal
  line := 1

def coveredReplace : HBytes where
  pos := 0
  b := [0x01]
  kind := .literal
  line := 4

end Cc370.Dasm370.Patch
