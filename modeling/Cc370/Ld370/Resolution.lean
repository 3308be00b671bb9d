import Cc370.Ld370.CompositeTable

namespace Cc370.Ld370

/-- What a name stands for: a control section, a label in a section of its object, or a
common area of some length. -/
inductive Definition
  | sect (i j : ℕ) (e : Lent)
  | label (i : ℕ) (l : Ldent) (owner : Lent)
  | common (len : ℕ)
deriving DecidableEq

/-- The linker seen from outside: the first definition of a name stands, except that a control
section replaces a common area, and a control section defined again is dropped. -/
structure Symbols where
  defs : Name → Option Definition
  dropped : ℕ → ℕ → Bool

namespace Definition

def followedBy (d : Option Definition) (d' : Definition) : Definition :=
  match d, d' with
  | some (.common n), .common m => .common (max n m)
  | some (.common _), .sect i j e => .sect i j e
  | some d, _ => d
  | none, d' => d'

def isSect : Definition → Bool
  | .sect .. => true
  | _ => false

end Definition

namespace Symbols

def empty : Symbols := ⟨fun _ => none, fun _ _ => false⟩

def define (t : Symbols) (n : Name) (d : Definition) : Symbols :=
  { t with defs := Function.update t.defs n (some (Definition.followedBy (t.defs n) d)) }

def step (t : Symbols) : EsdItem → Symbols
  | .sect i j e =>
    if e.type = .sd then
      let again := (t.defs e.name).any Definition.isSect
      { t.define e.name (.sect i j e) with
        dropped := fun i' j' => if i' = i ∧ j' = j ∧ again then true else t.dropped i' j' }
    else if e.type = .cm then t.define e.name (.common e.len)
    else t
  | .label i l (some w) => if t.dropped i l.ownerLocal then t else t.define l.name (.label i l w)
  | .label _ _ none => t

end Symbols

/-- The composite entry that stands for a definition. -/
def Realizes (s : Composite) (g : Gsym) : Definition → Prop
  | .sect i _ e => g.isSect = true ∧ g.type = .sd ∧ g.len = e.len ∧ g.defObj = some i ∧
      g.inAddr = e.addr ∧ g.owner = none
  | .common n => g.isSect = true ∧ g.type = .cm ∧ g.len = n ∧ g.defObj = none ∧ g.owner = none
  | .label i l w => g.isSect = false ∧ g.type = .lr ∧ g.owner = some (s.locG i l.ownerLocal) ∧
      g.inAddr = l.addr - w.addr

def RealizesPrivate (g : Gsym) (i : ℕ) (e : Lent) : Prop :=
  g.isSect = true ∧ g.type = .pc ∧ g.len = e.len ∧ g.defObj = some i ∧ g.inAddr = e.addr ∧
    g.owner = none

structure Refines (p : List EsdItem) (s : Composite) (t : Symbols) : Prop where
  dropped : s.dropped = t.dropped
  defs : ∀ n d, t.defs n = some d → ∃ g, look s.G n = some g ∧ Realizes s g d
  priv : ∀ i j e, .sect i j e ∈ p → e.type = .pc → RealizesPrivate (gAt s.G (s.locG i j)) i e

def EsdItem.DefinesSection (n : Name) : EsdItem → Prop
  | .sect _ _ e => e.name = n ∧ (e.type = .sd ∨ e.type = .cm)
  | .label .. => False

def EsdItem.DefinesCsect (n : Name) : EsdItem → Prop
  | .sect _ _ e => e.name = n ∧ e.type = .sd
  | .label .. => False

/-- Section `j` of object `i` is an SD whose name an SD before it has. -/
def DroppedIn (p : List EsdItem) (i j : ℕ) : Prop :=
  ∃ l₁ e l₂, p = l₁ ++ .sect i j e :: l₂ ∧ e.type = .sd ∧ ∃ x ∈ l₁, x.DefinesCsect e.name

/-- A label with an owner, outside the duplicates, somewhere in the list. -/
def LabelIn (p : List EsdItem) (n : Name) : Prop :=
  ∃ l₁ i l w l₂, p = l₁ ++ .label i l (some w) :: l₂ ∧ l.name = n ∧ ¬ DroppedIn l₁ i l.ownerLocal

def Entered (p : List EsdItem) (n : Name) : EsdItem → Prop
  | .sect _ _ e => e.name = n
  | .label i l owner => l.name = n ∧ (owner.isSome → ¬ DroppedIn p i l.ownerLocal)

/-- The composite entry of the name was made for private code. -/
def PrivateFirst (p : List EsdItem) (n : Name) : Prop :=
  ∃ l₁ i j e l₂, p = l₁ ++ .sect i j e :: l₂ ∧ e.name = n ∧ e.type = .pc ∧
    ∀ l₃ x l₄, l₁ = l₃ ++ x :: l₄ → ¬ Entered l₃ n x

def Clash (p : List EsdItem) : EsdItem → Prop
  | .sect _ _ e => (e.type = .sd ∨ e.type = .cm) ∧ (LabelIn p e.name ∨ PrivateFirst p e.name)
  | .label i l owner => (owner.isSome → ¬ DroppedIn p i l.ownerLocal) ∧
      ((∃ x ∈ p, x.DefinesSection l.name) ∨ PrivateFirst p l.name)

/-- No label has the name of a section: none of the sections before it, none after it. -/
def NoClash (L : List EsdItem) : Prop := ∀ p x q, L = p ++ x :: q → ¬ Clash p x

def run (p : List EsdItem) : Composite := p.foldl Composite.step .empty

def symbols (p : List EsdItem) : Symbols := p.foldl Symbols.step .empty

theorem run_snoc (p : List EsdItem) (x : EsdItem) : run (p ++ [x]) = (run p).step x := by
  simp [run]

theorem symbols_snoc (p : List EsdItem) (x : EsdItem) :
    symbols (p ++ [x]) = (symbols p).step x := by
  simp [symbols]

theorem snoc_eq_split {α : Type} {p l₁ l₂ : List α} {x y : α} (h : p ++ [x] = l₁ ++ y :: l₂) :
    (l₂ = [] ∧ p = l₁ ∧ x = y) ∨ ∃ l₃, l₂ = l₃ ++ [x] ∧ p = l₁ ++ y :: l₃ := by
  rcases List.eq_nil_or_concat l₂ with rfl | ⟨l₃, z, rfl⟩
  · have := List.append_inj' h rfl
    exact .inl ⟨rfl, this.1, by simpa using this.2⟩
  · rw [List.concat_eq_append, ← List.cons_append, ← List.append_assoc] at h
    obtain ⟨h1, h2⟩ := List.append_inj' h rfl
    obtain ⟨rfl, -⟩ := List.cons.inj h2
    exact .inr ⟨l₃, List.concat_eq_append, h1⟩

theorem NoClash.snoc {p : List EsdItem} {x : EsdItem} :
    NoClash (p ++ [x]) ↔ NoClash p ∧ ¬ Clash p x := by
  constructor
  · intro h
    refine ⟨fun l₁ y l₂ hl => h l₁ y (l₂ ++ [x]) (by simp [hl]), h p x [] rfl⟩
  · rintro ⟨hp, hx⟩ l₁ y l₂ hl
    rcases snoc_eq_split hl with ⟨-, rfl, rfl⟩ | ⟨l₃, -, rfl⟩
    · exact hx
    · exact hp l₁ y l₃ rfl

theorem droppedIn_snoc {p : List EsdItem} {x : EsdItem} {i j : ℕ} :
    DroppedIn (p ++ [x]) i j ↔ DroppedIn p i j ∨
      ∃ e, x = .sect i j e ∧ e.type = .sd ∧ ∃ y ∈ p, y.DefinesCsect e.name := by
  constructor
  · rintro ⟨l₁, e, l₂, hl, he, hy⟩
    rcases snoc_eq_split hl with ⟨-, rfl, rfl⟩ | ⟨l₃, -, rfl⟩
    · exact .inr ⟨e, rfl, he, hy⟩
    · exact .inl ⟨l₁, e, l₃, rfl, he, hy⟩
  · rintro (⟨l₁, e, l₂, rfl, he, hy⟩ | ⟨e, rfl, he, hy⟩)
    · exact ⟨l₁, e, l₂ ++ [x], by simp, he, hy⟩
    · exact ⟨p, e, [], rfl, he, hy⟩

theorem labelIn_snoc {p : List EsdItem} {x : EsdItem} {n : Name} :
    LabelIn (p ++ [x]) n ↔ LabelIn p n ∨
      ∃ i l w, x = .label i l (some w) ∧ l.name = n ∧ ¬ DroppedIn p i l.ownerLocal := by
  constructor
  · rintro ⟨l₁, i, l, w, l₂, hl, hn, hd⟩
    rcases snoc_eq_split hl with ⟨-, rfl, rfl⟩ | ⟨l₃, -, rfl⟩
    · exact .inr ⟨i, l, w, rfl, hn, hd⟩
    · exact .inl ⟨l₁, i, l, w, l₃, rfl, hn, hd⟩
  · rintro (⟨l₁, i, l, w, l₂, rfl, hn, hd⟩ | ⟨i, l, w, rfl, hn, hd⟩)
    · exact ⟨l₁, i, l, w, l₂ ++ [x], by simp, hn, hd⟩
    · exact ⟨p, i, l, w, [], rfl, hn, hd⟩

theorem privateFirst_snoc {p : List EsdItem} {x : EsdItem} {n : Name} :
    PrivateFirst (p ++ [x]) n ↔ PrivateFirst p n ∨
      ∃ i j e, x = .sect i j e ∧ e.name = n ∧ e.type = .pc ∧
        ∀ l₃ y l₄, p = l₃ ++ y :: l₄ → ¬ Entered l₃ n y := by
  constructor
  · rintro ⟨l₁, i, j, e, l₂, hl, hn, ht, hy⟩
    rcases snoc_eq_split hl with ⟨-, rfl, rfl⟩ | ⟨l₃, -, rfl⟩
    · exact .inr ⟨i, j, e, rfl, hn, ht, hy⟩
    · exact .inl ⟨l₁, i, j, e, l₃, rfl, hn, ht, hy⟩
  · rintro (⟨l₁, i, j, e, l₂, rfl, hn, ht, hy⟩ | ⟨i, j, e, rfl, hn, ht, hy⟩)
    · exact ⟨l₁, i, j, e, l₂ ++ [x], by simp, hn, ht, hy⟩
    · exact ⟨p, i, j, e, [], rfl, hn, ht, hy⟩

def NotEntered (p : List EsdItem) (n : Name) : Prop := ∀ l₁ x l₂, p = l₁ ++ x :: l₂ → ¬ Entered l₁ n x

theorem notEntered_snoc {p : List EsdItem} {x : EsdItem} {n : Name} :
    NotEntered (p ++ [x]) n ↔ NotEntered p n ∧ ¬ Entered p n x := by
  constructor
  · intro h
    exact ⟨fun l₁ y l₂ hl => h l₁ y (l₂ ++ [x]) (by simp [hl]), h p x [] rfl⟩
  · rintro ⟨hp, hx⟩ l₁ y l₂ hl
    rcases snoc_eq_split hl with ⟨-, rfl, rfl⟩ | ⟨l₃, -, rfl⟩
    · exact hx
    · exact hp l₁ y l₃ rfl

theorem define_name (g : Gsym) (i : ℕ) (e : Lent) : (g.define i e).name = g.name := by
  unfold Gsym.define Gsym.mergeCommon
  dsimp only
  split_ifs <;> rfl

theorem label_name (g : Gsym) (l : Ldent) (owner : Option Lent) (k : ℕ) :
    (g.label l owner k).name = g.name := by
  unfold Gsym.label
  split_ifs <;> rfl

theorem interned_name {G : List Gsym} {n : Name} (t : EsdType) :
    (interned (look G n) n t).name = n :=
  (gIntern_updates G n t).entry ▸ gFind_name (gIntern_updates G n t).find

theorem passSection_updates {e : Lent} (h : e.type ≠ .pc) (s : Composite) (i j : ℕ) :
    Updates s.G (passSection s i j e).G e.name ((passSection s i j e).locG i j)
      ((interned (look s.G e.name) e.name e.type).define i e) := by
  have hu := gIntern_updates s.G e.name e.type
  have hg : gAt (gIntern s.G e.name e.type).1 (gIntern s.G e.name e.type).2 =
      interned (look s.G e.name) e.name e.type := hu.entry
  simp only [passSection, Lent.intern, h, ↓reduceIte, and_self, hg]
  exact hu.set ((define_name _ _ _).trans (interned_name _))

theorem passSection_dropped {e : Lent} (h : e.type ≠ .pc) (s : Composite) (i j : ℕ) :
    (passSection s i j e).dropped = fun i' j' =>
      if i' = i ∧ j' = j ∧ (interned (look s.G e.name) e.name e.type).duplicate e
      then true else s.dropped i' j' := by
  have hg := (gIntern_updates s.G e.name e.type).entry
  simp only [passSection, Lent.intern, h, ↓reduceIte, hg]

theorem passSection_locG_of_ne {i j i' j' : ℕ} (s : Composite) (e : Lent)
    (h : ¬ (i' = i ∧ j' = j)) : (passSection s i j e).locG i' j' = s.locG i' j' := by
  simp [passSection, h]

theorem passSection_private {e : Lent} (h : e.type = .pc) (s : Composite) (i j : ℕ) :
    (passSection s i j e).G = s.G ++ [(Gsym.fresh e.name).define i e] ∧
      (passSection s i j e).locG i j = s.G.length ∧
      (passSection s i j e).dropped = s.dropped := by
  refine ⟨?_, by simp [passSection, Lent.intern, h, gNew], ?_⟩
  · simp [passSection, Lent.intern, h, gNew, gAt]
  · funext i' j'
    simp [passSection, Lent.intern, h, gNew, Gsym.duplicate]

theorem passLabel_updates {s : Composite} {i : ℕ} {l : Ldent} {owner : Option Lent}
    (h : ¬ (owner.isSome ∧ s.dropped i l.ownerLocal)) :
    ∃ gi, Updates s.G (passLabel s i l owner).G l.name gi
      ((interned (look s.G l.name) l.name .ld).label l owner (s.locG i l.ownerLocal)) := by
  have hu := gIntern_updates s.G l.name .ld
  have hg : gAt (gIntern s.G l.name .ld).1 (gIntern s.G l.name .ld).2 =
      interned (look s.G l.name) l.name .ld := hu.entry
  refine ⟨(gIntern s.G l.name .ld).2, ?_⟩
  rw [passLabel, if_neg h]
  simp only [hg]
  exact hu.set ((label_name _ _ _ _).trans (interned_name _))

theorem passLabel_locG (s : Composite) (i : ℕ) (l : Ldent) (owner : Option Lent) :
    (passLabel s i l owner).locG = s.locG ∧ (passLabel s i l owner).dropped = s.dropped := by
  unfold passLabel
  split_ifs <;> exact ⟨rfl, rfl⟩

end Cc370.Ld370
