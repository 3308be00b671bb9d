import Mathlib.Algebra.BigOperators.Group.List.Basic
import Mathlib.Tactic.Common

namespace Cc370.Packing

variable {α β : Type*}

section Fill

variable (size : α → ℕ) (stop : α → Bool) (limit : ℕ)

/-- What a record that has `clen` so far takes of the items, and what it leaves. An item that stops a
record is its last; the first goes in whatever its size. -/
def fill : ℕ → List α → List α × List α
  | _, [] => ([], [])
  | clen, x :: xs =>
    if 0 < clen ∧ limit < clen + size x then ([], x :: xs)
    else if stop x then ([x], xs)
    else if limit ≤ clen + size x then ([x], xs)
    else
      let r := fill (clen + size x) xs
      (x :: r.1, r.2)

theorem fill_append (clen : ℕ) (xs : List α) : (fill size stop limit clen xs).1 ++ (fill size stop limit clen xs).2 = xs := by
  fun_induction fill size stop limit clen xs with
  | case1 => rfl
  | case2 => rfl
  | case3 => rfl
  | case4 => rfl
  | case5 clen x xs h1 h2 h3 r ih => rw [List.cons_append, ih]

theorem fill_rest_lt (x : α) (xs : List α) : (fill size stop limit 0 (x :: xs)).2.length < (x :: xs).length := by
  have happend := congrArg List.length (fill_append size stop limit 0 (x :: xs))
  have hpos : 0 < (fill size stop limit 0 (x :: xs)).1.length := by
    rw [fill, if_neg (by simp)]
    split_ifs
    · exact Nat.one_pos
    · exact Nat.one_pos
    · exact Nat.succ_pos _
  rw [List.length_append] at happend
  omega

/-- Only the last item of a record stops it. -/
theorem fill_dropLast (clen : ℕ) (xs : List α) {x : α} (hx : x ∈ (fill size stop limit clen xs).1.dropLast) : stop x = false := by
  fun_induction fill size stop limit clen xs with
  | case1 => exact absurd hx List.not_mem_nil
  | case2 => exact absurd hx List.not_mem_nil
  | case3 => exact absurd hx List.not_mem_nil
  | case4 => exact absurd hx List.not_mem_nil
  | case5 clen y xs h1 h2 h3 r ih =>
    cases hr : r.1 with
    | nil =>
      rw [hr] at hx
      exact absurd hx List.not_mem_nil
    | cons z zs =>
      rw [hr, List.dropLast_cons_of_ne_nil (List.cons_ne_nil z zs), ← hr, List.mem_cons] at hx
      rcases hx with rfl | hx
      · simpa using h2
      · exact ih hx

/-- The items packed into records. -/
def pack (xs : List α) : List (List α) :=
  match xs with
  | [] => []
  | x :: xs => (fill size stop limit 0 (x :: xs)).1 :: pack (fill size stop limit 0 (x :: xs)).2
termination_by xs.length
decreasing_by exact fill_rest_lt size stop limit x xs

variable {size stop limit}

theorem pack_cons (x : α) (xs : List α) : pack size stop limit (x :: xs) =
    (fill size stop limit 0 (x :: xs)).1 :: pack size stop limit (fill size stop limit 0 (x :: xs)).2 := by
  rw [pack]

theorem mem_pack_subset {xs g : List α} (hg : g ∈ pack size stop limit xs) {x : α} (hx : x ∈ g) : x ∈ xs := by
  fun_induction pack size stop limit xs with
  | case1 => exact absurd hg List.not_mem_nil
  | case2 y ys ih =>
    rw [← fill_append size stop limit 0 (y :: ys), List.mem_append]
    rcases List.mem_cons.mp hg with rfl | hg
    · exact .inl hx
    · exact .inr (ih hg)

theorem mem_pack_dropLast {xs g : List α} (hg : g ∈ pack size stop limit xs) {x : α} (hx : x ∈ g.dropLast) : stop x = false := by
  fun_induction pack size stop limit xs with
  | case1 => exact absurd hg List.not_mem_nil
  | case2 y ys ih =>
    rcases List.mem_cons.mp hg with rfl | hg
    · exact fill_dropLast size stop limit 0 (y :: ys) hx
    · exact ih hg

theorem pack_stop {x : α} (hx : stop x = true) (xs : List α) : pack size stop limit (x :: xs) = [x] :: pack size stop limit xs := by
  have hfill : fill size stop limit 0 (x :: xs) = ([x], xs) := by rw [fill, if_neg (by simp), if_pos hx]
  rw [pack_cons, hfill]

/-- The next item has no room behind the first. -/
theorem pack_single {x y : α} (hx : stop x = false) (hlt : size x < limit) (hpos : 0 < size x) (hy : limit < size x + size y)
    (xs : List α) : pack size stop limit (x :: y :: xs) = [x] :: pack size stop limit (y :: xs) := by
  have hfill : fill size stop limit 0 (x :: y :: xs) = ([x], y :: xs) := by
    rw [fill, if_neg (by simp), hx, if_neg (by simp), if_neg (by omega), fill, if_pos (by omega)]
  rw [pack_cons, hfill]

/-- The next item goes in and stops the record. -/
theorem pack_pair {x y : α} (hx : stop x = false) (hlt : size x < limit) (hy : size x + size y ≤ limit) (hstop : stop y = true)
    (xs : List α) : pack size stop limit (x :: y :: xs) = [x, y] :: pack size stop limit xs := by
  have hfill : fill size stop limit 0 (x :: y :: xs) = ([x, y], xs) := by
    rw [fill, if_neg (by simp), hx, if_neg (by simp), if_neg (by omega), fill, if_neg (by omega), if_pos hstop]
  rw [pack_cons, hfill]

theorem fill_congr {stop' : α → Bool} {xs : List α} (h : ∀ x ∈ xs, stop x = stop' x) (clen : ℕ) :
    fill size stop limit clen xs = fill size stop' limit clen xs := by
  induction xs generalizing clen with
  | nil => rfl
  | cons x xs ih => rw [fill, fill, h x List.mem_cons_self, ih fun y hy => h y (List.mem_cons_of_mem _ hy)]

theorem pack_congr {stop' : α → Bool} {xs : List α} (h : ∀ x ∈ xs, stop x = stop' x) :
    pack size stop limit xs = pack size stop' limit xs := by
  fun_induction pack size stop limit xs with
  | case1 => rw [pack]
  | case2 x xs ih =>
    have hrest : ∀ y ∈ (fill size stop limit 0 (x :: xs)).2, stop y = stop' y := by
      intro y hy
      apply h
      rw [← fill_append size stop limit 0 (x :: xs)]
      exact List.mem_append_right _ hy
    rw [ih hrest, pack_cons, fill_congr h]

end Fill

section Map

variable {size : β → ℕ} {stop : β → Bool} {limit : ℕ} (f : α → β)

theorem fill_map (clen : ℕ) (xs : List α) : fill size stop limit clen (xs.map f) =
    ((fill (size ∘ f) (stop ∘ f) limit clen xs).1.map f, (fill (size ∘ f) (stop ∘ f) limit clen xs).2.map f) := by
  induction xs generalizing clen with
  | nil => rfl
  | cons x xs ih =>
    rw [List.map_cons, fill, fill, ih]
    simp only [Function.comp]
    split_ifs
    · rfl
    · rfl
    · rfl
    · rfl

theorem pack_map (xs : List α) : pack size stop limit (xs.map f) = (pack (size ∘ f) (stop ∘ f) limit xs).map (List.map f) := by
  fun_induction pack (size ∘ f) (stop ∘ f) limit xs with
  | case1 => rw [List.map_nil, pack, List.map_nil]
  | case2 x xs ih => rw [List.map_cons, pack_cons, ← List.map_cons, fill_map, ih, List.map_cons]

end Map

end Cc370.Packing
