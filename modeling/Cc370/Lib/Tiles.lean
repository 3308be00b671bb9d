import Mathlib.Data.List.Basic
import Mathlib.Logic.ExistsUnique

namespace Cc370.Tiles

variable {α : Type*} (pos size : α → ℕ)

/-- The pieces stand one behind the other from `lo` to `hi`. -/
def Tile : ℕ → ℕ → List α → Prop
  | lo, hi, [] => lo = hi
  | lo, hi, x :: xs => pos x = lo ∧ 0 < size x ∧ Tile (lo + size x) hi xs

variable {pos size} {lo hi : ℕ} {xs : List α}

theorem Tile.le (h : Tile pos size lo hi xs) : lo ≤ hi := by
  induction xs generalizing lo with
  | nil => exact Nat.le_of_eq h
  | cons x xs ih =>
    obtain ⟨-, -, hrest⟩ := h
    have := ih hrest
    omega

theorem Tile.length_le (h : Tile pos size lo hi xs) : lo + xs.length ≤ hi := by
  induction xs generalizing lo with
  | nil => exact Nat.le_of_eq h
  | cons x xs ih =>
    obtain ⟨-, hsize, hrest⟩ := h
    have := ih hrest
    rw [List.length_cons]
    omega

/-- A piece lies between the two ends. -/
theorem Tile.within (h : Tile pos size lo hi xs) {x : α} (hx : x ∈ xs) : lo ≤ pos x ∧ pos x + size x ≤ hi := by
  induction xs generalizing lo with
  | nil => exact absurd hx List.not_mem_nil
  | cons y xs ih =>
    obtain ⟨hpos, -, hrest⟩ := h
    rcases List.mem_cons.mp hx with rfl | hx
    · have := hrest.le
      omega
    · have := ih hrest hx
      omega

theorem tile_map {β : Type*} {f : β → α} {ys : List β} : Tile pos size lo hi (ys.map f) ↔ Tile (fun y => pos (f y)) (fun y => size (f y)) lo hi ys := by
  induction ys generalizing lo with
  | nil => exact Iff.rfl
  | cons y ys ih => exact and_congr_right fun _ => and_congr_right fun _ => ih

theorem tile_congr {pos' size' : α → ℕ} (h : ∀ x ∈ xs, pos x = pos' x ∧ size x = size' x) : Tile pos size lo hi xs ↔ Tile pos' size' lo hi xs := by
  induction xs generalizing lo with
  | nil => exact Iff.rfl
  | cons x xs ih =>
    obtain ⟨hpos, hsize⟩ := h x List.mem_cons_self
    rw [Tile, Tile, hpos, hsize, ih fun y hy => h y (List.mem_cons_of_mem _ hy)]

theorem Tile.size_pos (h : Tile pos size lo hi xs) {x : α} (hx : x ∈ xs) : 0 < size x := by
  induction xs generalizing lo with
  | nil => exact absurd hx List.not_mem_nil
  | cons y xs ih =>
    obtain ⟨-, hsize, hrest⟩ := h
    rcases List.mem_cons.mp hx with rfl | hx
    · exact hsize
    · exact ih hrest hx

/-- The pieces put together again. -/
theorem Tile.flatMap_slice (h : Tile pos size lo hi xs) {β : Type*} {l : List β} (hl : hi ≤ l.length) :
    xs.flatMap (fun x => (l.drop (pos x)).take (size x)) = (l.drop lo).take (hi - lo) := by
  induction xs generalizing lo with
  | nil =>
    have heq : lo = hi := h
    simp [heq]
  | cons x xs ih =>
    obtain ⟨hpos, -, hrest⟩ := h
    have hle := hrest.le
    have hsum : hi - lo = size x + (hi - (lo + size x)) := by omega
    rw [List.flatMap_cons, ih hrest, hpos, hsum, List.take_add, List.drop_drop]

/-- Every place is in one piece, and in no other. -/
theorem Tile.existsUnique (h : Tile pos size lo hi xs) {b : ℕ} (hlo : lo ≤ b) (hhi : b < hi) :
    ∃! i : ℕ, ∃ x, xs[i]? = some x ∧ pos x ≤ b ∧ b < pos x + size x := by
  induction xs generalizing lo with
  | nil =>
    have : lo = hi := h
    omega
  | cons x xs ih =>
    obtain ⟨hpos, hsize, hrest⟩ := h
    by_cases hb : b < lo + size x
    · refine ⟨0, ⟨x, rfl, by omega, by omega⟩, ?_⟩
      rintro (_ | i) ⟨y, hy, hy1, hy2⟩
      · rfl
      · have := (hrest.within (List.mem_of_getElem? (by simpa using hy))).1
        omega
    · obtain ⟨i, ⟨y, hy, hyb⟩, hi⟩ := ih hrest (by omega)
      refine ⟨i + 1, ⟨y, by simpa using hy, hyb⟩, ?_⟩
      rintro (_ | j) ⟨z, hz, hz1, hz2⟩
      · obtain rfl := Option.some.inj hz
        omega
      · have hj := hi j ⟨z, by simpa using hz, hz1, hz2⟩
        exact congrArg (· + 1) hj

/-- No piece begins within another. -/
theorem Tile.start_notMem (h : Tile pos size lo hi xs) {x y : α} (hx : x ∈ xs) (hy : y ∈ xs) :
    ¬ (pos x < pos y ∧ pos y < pos x + size x) := by
  induction xs generalizing lo with
  | nil => exact absurd hx List.not_mem_nil
  | cons z xs ih =>
    obtain ⟨hpos, -, hrest⟩ := h
    rcases List.mem_cons.mp hx with rfl | hx'
    · rcases List.mem_cons.mp hy with rfl | hy'
      · omega
      · have := (hrest.within hy').1
        omega
    · rcases List.mem_cons.mp hy with rfl | hy'
      · have := (hrest.within hx').1
        omega
      · exact ih hrest hx' hy'

theorem Tile.nodup (h : Tile pos size lo hi xs) : (xs.map pos).Nodup := by
  induction xs generalizing lo with
  | nil => exact List.nodup_nil
  | cons x xs ih =>
    obtain ⟨hpos, hsize, hrest⟩ := h
    rw [List.map_cons, List.nodup_cons]
    refine ⟨?_, ih hrest⟩
    intro hmem
    obtain ⟨y, hy, heq⟩ := List.mem_map.mp hmem
    have := (hrest.within hy).1
    omega

end Cc370.Tiles
