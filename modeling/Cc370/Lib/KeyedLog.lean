import Mathlib.Logic.Function.Basic
import Mathlib.Data.List.Nodup
import Mathlib.Data.List.Perm.Basic
import Mathlib.Tactic.Common

namespace Cc370.KeyedLog

variable {α K : Type*}

/-- What is recorded of a table with at most one entry for each key. -/
inductive Event (α K : Type*)
  | put (x : α)
  | drop (k : K)
  | noop

section Replay

variable (key : α → K)

def Event.apply [DecidableEq K] (f : K → Option α) : Event α K → K → Option α
  | .put x => Function.update f (key x) (some x)
  | .drop k => Function.update f k none
  | .noop => f

def replay [DecidableEq K] (f : K → Option α) (es : List (Event α K)) : K → Option α := es.foldl (Event.apply key) f

/-- The table has the entries that `f` gives for their keys. -/
structure Shows (f : K → Option α) (t : List α) : Prop where
  mem : ∀ k x, f k = some x ↔ x ∈ t ∧ key x = k
  nodup : (t.map key).Nodup

end Replay

section Table

variable {key : α → K} {f : K → Option α} {t : List α}

theorem replay_append [DecidableEq K] (f : K → Option α) (es fs : List (Event α K)) : replay key f (es ++ fs) = replay key (replay key f es) fs := List.foldl_append

theorem Shows.nil : Shows key (fun _ => none) ([] : List α) := by
  refine ⟨?_, List.nodup_nil⟩
  intro k x
  simp

theorem Shows.perm {t' : List α} (h : Shows key f t) (hp : t.Perm t') : Shows key f t' := by
  refine ⟨?_, (hp.map key).nodup_iff.mp h.nodup⟩
  intro k x
  rw [h.mem, hp.mem_iff]

theorem Shows.key_inj (h : Shows key f t) {x y : α} (hx : x ∈ t) (hy : y ∈ t) (hk : key x = key y) : x = y := by
  have hfx := (h.mem (key x) x).mpr ⟨hx, rfl⟩
  have hfy := (h.mem (key x) y).mpr ⟨hy, hk.symm⟩
  exact Option.some.inj (hfx.symm.trans hfy)

/-- Two tables with the same entries are shown by the same function. -/
theorem Shows.unique {g : K → Option α} (hf : Shows key f t) (hg : Shows key g t) : f = g := by
  funext k
  ext x
  rw [hf.mem, hg.mem]

/-- A key that the table does not have. -/
theorem Shows.eq_none (h : Shows key f t) {k : K} (hk : ∀ x ∈ t, key x ≠ k) : f k = none := by
  by_contra hne
  obtain ⟨x, hx⟩ := Option.ne_none_iff_exists'.mp hne
  obtain ⟨hmem, hkey⟩ := (h.mem k x).mp hx
  exact hk x hmem hkey

variable [DecidableEq K]

/-- An entry takes the place of the one with its key. -/
def enter (key : α → K) (t : List α) (x : α) : List α :=
  match t.findIdx? fun y => key y = key x with
  | some i => t.set i x
  | none => t ++ [x]

theorem Shows.cons {x : α} (h : Shows key f t) (hx : ∀ y ∈ t, key y ≠ key x) : Shows key (Function.update f (key x) (some x)) (x :: t) := by
  refine ⟨?_, ?_⟩
  · intro k y
    by_cases hk : k = key x
    · subst hk
      rw [Function.update_self, Option.some.injEq, List.mem_cons]
      constructor
      · rintro rfl
        exact ⟨.inl rfl, rfl⟩
      · rintro ⟨rfl | hy, hkey⟩
        · rfl
        · exact absurd hkey (hx y hy)
    · rw [Function.update_of_ne hk, h.mem, List.mem_cons]
      constructor
      · rintro ⟨hy, hkey⟩
        exact ⟨.inr hy, hkey⟩
      · rintro ⟨rfl | hy, hkey⟩
        · exact absurd hkey.symm hk
        · exact ⟨hy, hkey⟩
  · rw [List.map_cons, List.nodup_cons]
    refine ⟨?_, h.nodup⟩
    intro hmem
    obtain ⟨y, hy, hkey⟩ := List.mem_map.mp hmem
    exact hx y hy hkey

theorem Shows.tail {x : α} (h : Shows key f (x :: t)) : Shows key (Function.update f (key x) none) t := by
  obtain ⟨hx, hnodup⟩ := List.nodup_cons.mp h.nodup
  refine ⟨?_, hnodup⟩
  intro k y
  by_cases hk : k = key x
  · subst hk
    rw [Function.update_self]
    refine iff_of_false nofun ?_
    rintro ⟨hy, hkey⟩
    exact hx (List.mem_map.mpr ⟨y, hy, hkey⟩)
  · rw [Function.update_of_ne hk, h.mem, List.mem_cons]
    constructor
    · rintro ⟨rfl | hy, hkey⟩
      · exact absurd hkey.symm hk
      · exact ⟨hy, hkey⟩
    · rintro ⟨hy, hkey⟩
      exact ⟨.inr hy, hkey⟩

theorem Shows.remove (h : Shows key f t) {i : ℕ} (hi : i < t.length) : Shows key (Function.update f (key t[i]) none) (t.eraseIdx i) := by
  have hperm : t.Perm (t[i] :: t.eraseIdx i) := (List.getElem_cons_eraseIdx_perm hi).symm
  exact (h.perm hperm).tail

/-- The last entry takes the place of the one that goes. -/
def removeAt (t : List α) (i : ℕ) : List α :=
  match t.getLast? with
  | some z => (t.set i z).dropLast
  | none => []

theorem set_perm {i : ℕ} (hi : i < t.length) (x : α) : (t.set i x).Perm (x :: t.eraseIdx i) := by
  rw [List.set_eq_take_append_cons_drop, if_pos hi, List.eraseIdx_eq_take_drop_succ]
  exact List.perm_middle

theorem removeAt_perm {i : ℕ} (hi : i < t.length) : (removeAt t i).Perm (t.eraseIdx i) := by
  obtain rfl | ⟨init, z, rfl⟩ := List.eq_nil_or_concat' t
  · exact absurd hi (Nat.not_lt_zero _)
  · rw [KeyedLog.removeAt, List.getLast?_concat]
    dsimp only
    rw [List.length_append, List.length_singleton] at hi
    by_cases hlast : i = init.length
    · subst hlast
      rw [List.set_append_right _ _ (Nat.le_refl _), List.eraseIdx_append_of_length_le (Nat.le_refl _), Nat.sub_self, List.set_cons_zero,
        List.dropLast_concat, List.eraseIdx_cons_zero, List.append_nil]
    · have hi' : i < init.length := by omega
      rw [List.set_append_left _ _ hi', List.dropLast_concat, List.eraseIdx_append_of_lt_length hi']
      exact (set_perm hi' z).trans (List.perm_append_singleton z _).symm

theorem Shows.removeAt (h : Shows key f t) {i : ℕ} (hi : i < t.length) : Shows key (Function.update f (key t[i]) none) (removeAt t i) :=
  (h.remove hi).perm (removeAt_perm hi).symm

theorem Shows.enter (h : Shows key f t) (x : α) : Shows key (Function.update f (key x) (some x)) (enter key t x) := by
  rw [KeyedLog.enter]
  cases hfind : t.findIdx? fun y => key y = key x with
  | some i =>
    obtain ⟨hi, hkey, -⟩ := List.findIdx?_eq_some_iff_getElem.mp hfind
    have hkey : key t[i] = key x := by simpa using hkey
    have hremoved := h.remove hi
    have hnone : ∀ y ∈ t.eraseIdx i, key y ≠ key x := by
      intro y hy hyx
      have hsome := (hremoved.mem (key x) y).mpr ⟨hy, hyx⟩
      rw [hkey, Function.update_self] at hsome
      exact absurd hsome nofun
    have hcons := hremoved.cons hnone
    rw [hkey, Function.update_idem] at hcons
    exact hcons.perm (set_perm hi x).symm
  | none =>
    have hnew : ∀ y ∈ t, key y ≠ key x := by
      intro y hy
      simpa using List.findIdx?_eq_none_iff.mp hfind y hy
    exact (h.cons hnew).perm (List.perm_append_singleton x t).symm

variable [DecidableEq α]

/-- What a table that takes another's place is recorded as: the entries that went and those that came. -/
def changes (key : α → K) (old new : List α) : List (Event α K) :=
  ((old.filter fun x => x ∉ new).map fun x => .drop (key x)) ++ (new.filter fun x => x ∉ old).map .put

omit [DecidableEq α] in
theorem replay_drops (f : K → Option α) (xs : List α) (k : K) :
    replay key f (xs.map fun x => .drop (key x)) k = if k ∈ xs.map key then none else f k := by
  induction xs generalizing f with
  | nil => simp [replay]
  | cons x xs ih =>
    rw [List.map_cons, replay, List.foldl_cons]
    refine (ih _).trans ?_
    rw [List.map_cons, Event.apply]
    by_cases hk : k = key x
    · simp [hk]
    · simp [hk]

omit [DecidableEq α] in
theorem replay_puts (f : K → Option α) {xs : List α} (hxs : (xs.map key).Nodup) (k : K) (x : α) :
    replay key f (xs.map .put) k = some x ↔ x ∈ xs ∧ key x = k ∨ k ∉ xs.map key ∧ f k = some x := by
  induction xs generalizing f with
  | nil => simp [replay]
  | cons y xs ih =>
    rw [List.map_cons, List.nodup_cons] at hxs
    have hstep : replay key f ((y :: xs).map .put) k = replay key (Function.update f (key y) (some y)) (xs.map .put) k := rfl
    rw [hstep, ih _ hxs.2, List.map_cons, List.mem_cons, List.mem_cons]
    by_cases hk : k = key y
    · subst hk
      rw [Function.update_self, Option.some.injEq]
      constructor
      · rintro (⟨hx, hkey⟩ | ⟨-, rfl⟩)
        · exact .inl ⟨.inr hx, hkey⟩
        · exact .inl ⟨.inl rfl, rfl⟩
      · rintro (⟨rfl | hx, hkey⟩ | ⟨hno, -⟩)
        · exact .inr ⟨hxs.1, rfl⟩
        · exact .inl ⟨hx, hkey⟩
        · exact absurd (.inl rfl) hno
    · rw [Function.update_of_ne hk]
      constructor
      · rintro (⟨hx, hkey⟩ | ⟨hno, hf⟩)
        · exact .inl ⟨.inr hx, hkey⟩
        · exact .inr ⟨not_or.mpr ⟨hk, hno⟩, hf⟩
      · rintro (⟨rfl | hx, hkey⟩ | ⟨hno, hf⟩)
        · exact absurd hkey.symm hk
        · exact .inl ⟨hx, hkey⟩
        · exact .inr ⟨fun h => hno (.inr h), hf⟩

/-- The changes bring the new table about. -/
theorem Shows.changes {new : List α} (h : Shows key f t) (hnew : (new.map key).Nodup) : Shows key (replay key f (changes key t new)) new := by
  refine ⟨?_, hnew⟩
  intro k x
  rw [KeyedLog.changes, replay_append, replay_puts _ (hnew.sublist (List.filter_sublist.map key)), replay_drops]
  have hinj {y : α} (hx : x ∈ new) (hy : y ∈ new) (hk : key y = key x) : y = x := List.inj_on_of_nodup_map hnew hy hx hk
  constructor
  · rintro (⟨hx, hkey⟩ | ⟨-, hf⟩)
    · exact ⟨List.mem_of_mem_filter hx, hkey⟩
    · split_ifs at hf with hdrop
      obtain ⟨hx, hkey⟩ := (h.mem k x).mp hf
      refine ⟨?_, hkey⟩
      by_contra hgone
      exact hdrop (List.mem_map.mpr ⟨x, List.mem_filter.mpr ⟨hx, decide_eq_true hgone⟩, hkey⟩)
  · rintro ⟨hx, rfl⟩
    by_cases hold : x ∈ t
    · refine .inr ⟨?_, ?_⟩
      · intro hadd
        obtain ⟨y, hy, hkey⟩ := List.mem_map.mp hadd
        obtain ⟨hy, hyold⟩ := List.mem_filter.mp hy
        rw [hinj hx hy hkey] at hyold
        exact of_decide_eq_true hyold hold
      · rw [if_neg]
        · exact (h.mem _ x).mpr ⟨hold, rfl⟩
        · intro hdrop
          obtain ⟨y, hy, hkey⟩ := List.mem_map.mp hdrop
          obtain ⟨hy, hynew⟩ := List.mem_filter.mp hy
          rw [h.key_inj hy hold hkey] at hynew
          exact of_decide_eq_true hynew hx
    · exact .inl ⟨List.mem_filter.mpr ⟨hx, decide_eq_true hold⟩, rfl⟩

end Table

end Cc370.KeyedLog
