import Cc370.Lib.FirstOfKey

namespace Cc370.I370.ExternalNames

open Cc370.Lib FirstOfKey

abbrev Name := List Char

/-- `MVS_NAMESEP`, before the encoding of a static function. -/
def sep : Char := ','

def maxLabel : ℕ := 8

/-- The text that is left in `aliasname`; `rest` is what memory holds behind it, where the copy after the separator
has no terminator. -/
def mvsGetAlias (rest realname : Name) : Option Name :=
  if sep ∈ realname then
    let p := (realname.dropWhile (· ≠ sep)).tail
    some ('@' :: '@' :: p.take (maxLabel - 2) ++ if maxLabel - 2 ≤ p.length then rest else [])
  else if realname.length > maxLabel then some (realname.take maxLabel)
  else none

def mapChar (c : Char) : Char := if c = '_' then '@' else c.toUpper

/-- `ASM_OUTPUT_LABELREF` -/
def outputLabelref (rest name : Name) : Name := ((mvsGetAlias rest name).getD name).map mapChar

def assembleName (rest : Name) : Name → Name
  | '*' :: name => name
  | name => outputLabelref rest name

/-- The assembler keeps eight characters of a symbol. -/
def deckSymbol (rest name : Name) : Name := (assembleName rest name).take maxLabel

def mvsMapExtname (rest : Name) : Name → Name
  | '*' :: name => name.take maxLabel
  | name => ((mvsGetAlias rest name).getD (name.take maxLabel)).map mapChar

structure Extsym where
  realName : Name
  mvsName : Name
deriving DecidableEq

/-- External symbol `name` collides with `other`: both map to the MVS name `mvsName`. -/
structure Warning where
  name : Name
  other : Name
  mvsName : Name
deriving DecidableEq

def mvsCheckExtnameCollision (rest : Name) (anchor : List Extsym) (name : Name) : List Extsym × Option Warning :=
  let mvsName := mvsMapExtname rest name
  match anchor.find? (·.mvsName = mvsName) with
  | some ep => (anchor, if ep.realName ≠ name then some ⟨name, ep.realName, mvsName⟩ else none)
  | none => (⟨name, mvsName⟩ :: anchor, none)

/-- A call, with what the stack holds at it. -/
structure Call where
  name : Name
  rest : Name

def register (calls : List Call) : List Extsym := calls.foldl (fun anchor c => (mvsCheckExtnameCollision c.rest anchor c.name).1) []

/-- A plain identifier, or an explicit name of the assembler. -/
def External (name : Name) : Prop := name.head? = some '*' ∨ sep ∉ name

/-- The symbol of an external name, whatever the stack holds. -/
def symbol (name : Name) : Name := deckSymbol [] name

section Symbols

variable {name : Name}

theorem mvsGetAlias_plain (rest : Name) (h : sep ∉ name) :
    mvsGetAlias rest name = if name.length > maxLabel then some (name.take maxLabel) else none := if_neg h

/-- A name that is not longer than a label is not cut. -/
theorem getD_alias (rest : Name) (h : sep ∉ name) (d : Name) (hd : name.length ≤ maxLabel → d = name) :
    (mvsGetAlias rest name).getD d = name.take maxLabel := by
  rw [mvsGetAlias_plain rest h]
  split
  · rfl
  · rename_i hle
    have hle := Nat.le_of_not_lt hle
    rw [Option.getD_none, hd hle, List.take_of_length_le hle]

theorem outputLabelref_plain (rest : Name) (h : sep ∉ name) : outputLabelref rest name = (name.take maxLabel).map mapChar := by
  rw [outputLabelref, getD_alias rest h name fun _ => rfl]

theorem mapped_plain (rest : Name) (h : sep ∉ name) (hstar : name.head? ≠ some '*') :
    mvsMapExtname rest name = (name.take maxLabel).map mapChar := by
  rw [mvsMapExtname, getD_alias rest h _ fun hle => List.take_of_length_le hle]
  rintro tail rfl
  exact hstar rfl

theorem assembled_plain (rest : Name) (hstar : name.head? ≠ some '*') : assembleName rest name = outputLabelref rest name := by
  rw [assembleName]
  rintro tail rfl
  exact hstar rfl

theorem deck_plain (rest : Name) (h : sep ∉ name) (hstar : name.head? ≠ some '*') : deckSymbol rest name = outputLabelref rest name := by
  rw [deckSymbol, assembled_plain rest hstar, outputLabelref_plain rest h, List.take_of_length_le]
  rw [List.length_map]
  exact List.length_take_le _ _

theorem mapped_eq_deck (h : External name) (rest rest' : Name) : mvsMapExtname rest name = deckSymbol rest' name := by
  by_cases hstar : name.head? = some '*'
  · obtain ⟨tail, rfl⟩ := List.head?_eq_some_iff.mp hstar
    rfl
  · have hplain := h.resolve_left hstar
    rw [mapped_plain rest hplain hstar, deck_plain rest' hplain hstar, outputLabelref_plain rest' hplain]

theorem mapped_symbol (h : External name) (rest : Name) : mvsMapExtname rest name = symbol name := mapped_eq_deck h rest []

end Symbols

section Registry

def entry (name : Name) : Extsym := ⟨name, symbol name⟩

variable {names : List Name} {c : Call}

theorem find_entry (names : List Name) (name : Name) :
    (names.map entry).find? (·.mvsName = symbol name) = (names.find? (symbol · = symbol name)).map entry := by
  rw [List.find?_map]
  rfl

/-- A call enters its name where no other has its symbol. -/
theorem check_registry (h : External c.name) :
    (mvsCheckExtnameCollision c.rest (names.map entry) c.name).1 = (enter symbol names c.name).map entry := by
  rw [mvsCheckExtnameCollision, mapped_symbol h, find_entry, enter]
  cases hfind : names.find? (symbol · = symbol c.name) with
  | none =>
    have hnew : ¬ names.any (symbol · = symbol c.name) = true := by
      rw [any_iff]
      rintro ⟨y, hy, hkey⟩
      exact find_none.mp hfind y hy hkey
    rw [if_neg hnew]
    rfl
  | some y =>
    have hold : names.any (symbol · = symbol c.name) = true :=
      any_iff.mpr ⟨y, of_find hfind⟩
    rw [if_pos hold]
    rfl

theorem register_eq (calls : List Call) (h : ∀ c ∈ calls, External c.name) : register calls = (kept symbol (calls.map Call.name)).map entry := by
  induction calls using List.reverseRecOn with
  | nil => rfl
  | append_singleton calls c ih =>
    have hc := h c (List.mem_append_right _ List.mem_cons_self)
    rw [register, List.foldl_concat, List.map_append, List.map_singleton, kept_concat, ← check_registry hc,
      ← ih fun d hd => h d (List.mem_append_left _ hd)]
    rfl

theorem warning_iff (hnodup : (names.map symbol).Nodup) (h : External c.name) (w : Warning) :
    (mvsCheckExtnameCollision c.rest (names.map entry) c.name).2 = some w ↔
      w = ⟨c.name, w.other, symbol c.name⟩ ∧ w.other ∈ names ∧ w.other ≠ c.name ∧ symbol w.other = symbol c.name := by
  rw [mvsCheckExtnameCollision, mapped_symbol h, find_entry]
  cases hfind : names.find? (symbol · = symbol c.name) with
  | none =>
    refine iff_of_false nofun ?_
    rintro ⟨-, hmem, -, hkey⟩
    exact find_none.mp hfind _ hmem hkey
  | some y =>
    obtain ⟨hy, hkey⟩ := of_find hfind
    dsimp only [Option.map_some, entry]
    constructor
    · intro hw
      split at hw
      · rename_i hne
        obtain rfl := Option.some.inj hw
        exact ⟨rfl, hy, hne, hkey⟩
      · exact absurd hw nofun
    · rintro ⟨hw, hmem, hne, hsym⟩
      have hother : y = w.other := List.inj_on_of_nodup_map hnodup hy hmem (hkey.trans hsym.symm)
      rw [hother, if_pos hne, ← hw]

end Registry

theorem collision_warnings (calls : List Call) (c : Call) (hcalls : ∀ d ∈ calls, External d.name) (hc : External c.name) :
    (∀ rest, mvsMapExtname c.rest c.name = deckSymbol rest c.name) ∧
    (c.name.head? ≠ some '*' → deckSymbol c.rest c.name = outputLabelref c.rest c.name) ∧
    ((register calls).map (symbol ·.realName)).Nodup ∧
    (∀ e, e ∈ register calls ↔ e.mvsName = symbol e.realName ∧
      ∃ pre post, calls.map Call.name = pre ++ e.realName :: post ∧ ∀ z ∈ pre, symbol z ≠ symbol e.realName) ∧
    (∀ w, (mvsCheckExtnameCollision c.rest (register calls) c.name).2 = some w ↔
      w = ⟨c.name, w.other, symbol c.name⟩ ∧ (∃ e ∈ register calls, e.realName = w.other) ∧ w.other ≠ c.name ∧ symbol w.other = symbol c.name) ∧
    ((∃ e ∈ register calls, e.realName = c.name) → mvsCheckExtnameCollision c.rest (register calls) c.name = (register calls, none)) := by
  have hreg := register_eq calls hcalls
  have hnodup : ((kept symbol (calls.map Call.name)).map symbol).Nodup := kept_nodup _
  have hmem : ∀ name, (∃ e ∈ (kept symbol (calls.map Call.name)).map entry, e.realName = name) ↔ name ∈ kept symbol (calls.map Call.name) := by
    intro name
    simp [entry]
  rw [hreg]
  refine ⟨mapped_eq_deck hc c.rest, fun hstar => deck_plain _ (hc.resolve_left hstar) hstar, ?_, ?_, ?_, ?_⟩
  · rw [List.map_map]
    exact hnodup
  · rintro ⟨real, mvs⟩
    rw [← mem_kept_iff, List.mem_map]
    constructor
    · rintro ⟨name, hname, heq⟩
      obtain ⟨rfl, rfl⟩ := Extsym.mk.inj heq
      exact ⟨rfl, hname⟩
    · rintro ⟨hmvs, hreal⟩
      exact ⟨real, hreal, congrArg (Extsym.mk real) hmvs.symm⟩
  · intro w
    rw [hmem, warning_iff hnodup hc]
  · rw [hmem]
    intro h
    have hfind := (find_iff hnodup).mpr ⟨h, rfl⟩
    rw [mvsCheckExtnameCollision, mapped_symbol hc, find_entry, hfind]
    exact congrArg (Prod.mk _) (if_neg (not_not.mpr rfl))

theorem collision_warnings_cut :
    (mvsCheckExtnameCollision [] (register [⟨['*', 'P', 'R', 'E', 'F', 'I', 'X', 'A', 'B', '1'], []⟩])
      ['*', 'P', 'R', 'E', 'F', 'I', 'X', 'A', 'B', '2']).2 =
      some ⟨['*', 'P', 'R', 'E', 'F', 'I', 'X', 'A', 'B', '2'], ['*', 'P', 'R', 'E', 'F', 'I', 'X', 'A', 'B', '1'],
        ['P', 'R', 'E', 'F', 'I', 'X', 'A', 'B']⟩ := by
  obtain ⟨-, -, -, hmem, hwarn, -⟩ := collision_warnings [⟨['*', 'P', 'R', 'E', 'F', 'I', 'X', 'A', 'B', '1'], []⟩]
    ⟨['*', 'P', 'R', 'E', 'F', 'I', 'X', 'A', 'B', '2'], []⟩ (by simp [External]) (.inl rfl)
  have hentry := (hmem ⟨['*', 'P', 'R', 'E', 'F', 'I', 'X', 'A', 'B', '1'], ['P', 'R', 'E', 'F', 'I', 'X', 'A', 'B']⟩).mpr
    ⟨rfl, [], [], rfl, by simp⟩
  exact (hwarn _).mpr ⟨rfl, ⟨_, hentry, rfl⟩, by simp, rfl⟩

end Cc370.I370.ExternalNames
